import ExtensionCompiler.Position
import ExtensionCompiler.Ty.Equality

set_option autoImplicit false

/-! # The registry of named types

The types that a unit names, in the order in which their names were first met. A name may be met
before its definition; it is then bound to itself as a pending type. -/

namespace ExtensionCompiler

/-- A name, the type it stands for, and where that was said. -/
structure Binding where
  name : String
  type : Ty
  position : Position
deriving DecidableEq, Repr

/-- The named types of a unit. -/
structure Registry where
  bindings : List Binding := []
deriving DecidableEq, Repr

namespace Registry

def empty : Registry := ⟨[]⟩

/-- Puts a binding in the place of one with its name, or at the end. -/
def put (new : Binding) : List Binding → List Binding
  | [] => [new]
  | old :: rest => if old.name = new.name then new :: rest else old :: put new rest

def find? (registry : Registry) (name : String) : Option Binding :=
  registry.bindings.find? fun b => decide (b.name = name)

/-- The type that a name stands for. -/
def get? (registry : Registry) (name : String) : Option Ty :=
  (registry.find? name).map (·.type)

/-- Binds a name. A bound name keeps its place. -/
def register (registry : Registry) (name : String) (type : Ty) (position : Position) : Registry :=
  ⟨put ⟨name, type, position⟩ registry.bindings⟩

/-- Announces a name that will be defined later. A bound name stays as it is. -/
def announce (registry : Registry) (name : String) (position : Position) : Registry :=
  match registry.find? name with
  | some _ => registry
  | none => registry.register name (.pending name) position

/-- Whether a name is announced and not defined. -/
def isPending (registry : Registry) (name : String) : Bool :=
  match registry.get? name with
  | some (.pending _) => true
  | _ => false

end Registry

end ExtensionCompiler

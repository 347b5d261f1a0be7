import ExtensionCompiler.C.Code
import ExtensionCompiler.Outcome
import ExtensionCompiler.Ty.Descriptor

set_option autoImplicit false

/-! # Parameters of functions

A parameter has a type and may have a name. The parameters of a definition are variables of its
body; those of a prototype are not declared anywhere. -/

namespace ExtensionCompiler

structure Parameter where
  descriptor : Descriptor
  depth : Nat
  name : Option String
  position : Position
  type : Ty := .void
  cName : String := ""
deriving Repr

namespace Parameter

/-- Resolves the type of a parameter and, if `declare` is set, declares its name. -/
def analyse (declare : Bool) (scope : ScopeId) (p : Parameter) (c : Checker) :
    Outcome Parameter :=
  let p := { p with type := Ty.resolve c.registry p.descriptor p.depth }
  match declare, p.name with
  | true, some name =>
    let entry := (c.scope scope).variableEntry name p.type false p.position
    .ofDeclare (c.declare scope entry) c p { p with cName := entry.cName }
  | _, _ => .ok p c

/-- Analyses parameters in order, up to the first error. -/
def analyseAll (declare : Bool) (scope : ScopeId) :
    List Parameter → Checker → Outcome (List Parameter)
  | [], c => .ok [] c
  | p :: rest, c =>
    (p.analyse declare scope c).andThen (fun p => p :: rest)
      fun p c => (analyseAll declare scope rest c).map fun rest => p :: rest

/-- Settles the type of a parameter, and that of the variable it is declared as. -/
def rescan (declared : Bool) (scope : ScopeId) (p : Parameter) (c : Checker) :
    Parameter × Checker :=
  if p.type.pending?.isSome then
    let p := { p with type := p.type.rescan c.registry }
    match declared, p.name with
    | true, some name => (p, c.setType scope name p.type)
    | _, _ => (p, c)
  else (p, c)

/-- Settles parameters in order. -/
def rescanAll (declared : Bool) (scope : ScopeId) :
    List Parameter → Checker → List Parameter × Checker
  | [], c => ([], c)
  | p :: rest, c =>
    let (p, c) := p.rescan declared scope c
    let (rest, c) := rescanAll declared scope rest c
    (p :: rest, c)

def types (params : List Parameter) : List Ty := params.map (·.type)

/-- The names of the parameters that have one. -/
def names (params : List Parameter) : List String := params.filterMap (·.name)

/-- The parameters of a definition in C. -/
def named (params : List Parameter) : C.Params := .named (params.map fun p => (p.type, p.cName))

/-- The parameters of a prototype in C. -/
def unnamed (params : List Parameter) : C.Params := .types (types params)

end Parameter

end ExtensionCompiler

import ExtensionCompiler.Registry
import ExtensionCompiler.Scope

set_option autoImplicit false

/-! # The state of a check

A `Checker` is what the passes over a unit know: the registry of named types, the scopes opened so
far, and the number of temporaries. Scopes are named by their index, and each but the outermost
holds the index of the scope around it. The body of a class may name a scope that is only opened
later, so that index need not be the smaller one. `Checker.chain` lists the scopes around a place
from the inside out, and a look-up takes the first scope of the chain that has the name. -/

namespace ExtensionCompiler

structure Checker where
  registry : Registry
  scopes : List Scope
  tempCount : Nat := 0
deriving DecidableEq, Repr

namespace Checker

/-- The index of the scope that everything lies in. -/
def global : ScopeId := 0

/-- The outermost scope. -/
def globalScope : Scope :=
  { name := rootClass, kind := .global, parent := none, className := rootClass,
    classCName := rootClassCName }

/-- The state before the first statement. -/
def start (registry : Registry) : Checker := { registry, scopes := [globalScope] }

/-! ## Scopes -/

/-- The scope with an index; an index that names none gives an empty scope. -/
def scope (c : Checker) (id : ScopeId) : Scope := c.scopes[id]?.getD globalScope

def modifyScope (c : Checker) (id : ScopeId) (f : Scope → Scope) : Checker :=
  { c with scopes := c.scopes.modify id f }

/-- Opens a scope. Its index is the number of scopes before. -/
def pushScope (c : Checker) (scope : Scope) : ScopeId × Checker :=
  (c.scopes.length, { c with scopes := c.scopes ++ [scope] })

/-- Opens a scope that belongs to the class of the scope around it. -/
def addScope (c : Checker) (name : String) (kind : ScopeKind) (parent : ScopeId) :
    ScopeId × Checker :=
  c.pushScope
    { name, kind, parent := some parent, className := (c.scope parent).className,
      classCName := (c.scope parent).classCName }

/-- Opens the scope of the body of a class. The scope around it may be opened later. -/
def addClassScope (c : Checker) (className classCName : String) (parent : ScopeId) :
    ScopeId × Checker :=
  c.pushScope
    { name := className, kind := .classBody, parent := some parent, className, classCName }

/-! ## Look-up -/

/-- The first scopes on the way outward from a place, at most as many as given. -/
def chainWithin (c : Checker) : Nat → ScopeId → List (ScopeId × Scope)
  | 0, _ => []
  | steps + 1, id =>
    match c.scopes[id]? with
    | none => []
    | some scope =>
      (id, scope) :: match scope.parent with
        | none => []
        | some parent => c.chainWithin steps parent

/-- The scopes around a place, from the inside out, with their indices. After as many steps as there
are scopes, the way outward has met every scope that it ever meets. -/
def chain (c : Checker) (id : ScopeId) : List (ScopeId × Scope) :=
  c.chainWithin c.scopes.length id

/-- The entry of a name in the nearest scope that has it. -/
def find? (c : Checker) (id : ScopeId) (name : String) : Option Entry :=
  (c.chain id).findSome? fun s => s.2.get? name

/-- The entry of a name, or the error that there is none. -/
def lookup (c : Checker) (id : ScopeId) (name : String) (position : Position) :
    Except Error Entry :=
  match c.find? id name with
  | some entry => .ok entry
  | none => .error ⟨.unknownIdentifier name, position⟩

/-- The scope of the function that a place lies in. A class body between hides it. -/
def enclosingFunction? (c : Checker) (id : ScopeId) : Option ScopeId :=
  match (c.chain id).find? fun s => decide (s.2.kind = .function ∨ s.2.kind = .classBody) with
  | some (found, scope) => if scope.kind = .function then some found else none
  | none => none

/-! ## Declarations -/

/-- Adds an entry to a scope, unless its name is taken there. -/
def declare (c : Checker) (id : ScopeId) (entry : Entry) : Except Error Checker :=
  match (c.scope id).insert entry with
  | .ok scope => .ok (c.modifyScope id fun _ => scope)
  | .error e => .error e

def setType (c : Checker) (id : ScopeId) (name : String) (type : Ty) : Checker :=
  c.modifyScope id fun s => s.setType name type

def setReturnType (c : Checker) (id : ScopeId) (type : Option Ty) : Checker :=
  c.modifyScope id fun s => { s with returnType := type }

def register (c : Checker) (name : String) (type : Ty) (position : Position) : Checker :=
  { c with registry := c.registry.register name type position }

/-- The C name of the temporary with a number. -/
def tempName (n : Nat) : String := "__extc_tmp_" ++ Nat.repr n

/-- Takes a new temporary for a scope. Temporaries are numbered over the whole unit. -/
def allocateTemp (c : Checker) (id : ScopeId) (type : Ty) : String × Checker :=
  let name := tempName c.tempCount
  (name,
    { (c.modifyScope id fun s => { s with temps := s.temps ++ [(name, type)] }) with
      tempCount := c.tempCount + 1 })

/-! ## The check after both passes -/

/-- The types that are checked, with the places they are blamed on: those of all entries, scope by
scope, and then those of the registry. -/
def declared (c : Checker) : List (Ty × Position) :=
  (c.scopes.flatMap fun s => s.entries.map fun e => (e.type, e.position))
    ++ c.registry.bindings.map fun b => (b.type, b.position)

/-- The first declared type in which a name is still pending. -/
def unresolved? (c : Checker) : Option Error :=
  c.declared.findSome? fun d => d.1.pending?.map fun name => ⟨.unresolvedReference name, d.2⟩

end Checker

end ExtensionCompiler

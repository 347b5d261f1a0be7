import ExtensionCompiler.Error
import ExtensionCompiler.Ty.Equality

set_option autoImplicit false

/-! # Scopes and their entries

A scope holds what was declared in it, in the order of declaration, under names of which no two are
equal. Every entry has a name in C. Unless the entry comes from elsewhere, that name is made from
the source name and a lead for the kind of entry, so that entries of different kinds do not clash
with each other or with anything written by hand. -/

namespace ExtensionCompiler

inductive ScopeKind where
  | global
  | classBody
  | function
  | aggregate
deriving DecidableEq, Repr

inductive EntryKind where
  | var
  | pointer
  | array
  | type
  | aggregate
  /-- A function of C. -/
  | function
  /-- A method that the host can call. -/
  | method
  /-- A class of the host. -/
  | classHandle
deriving DecidableEq, Repr

namespace EntryKind

/-- What the C name of an entry of the kind begins with. -/
def lead : EntryKind → String
  | .var => "__extc_v_"
  | .pointer => "__extc_ptr_"
  | .array => "__extc_arr_"
  | .type => "__extc_t_"
  | .aggregate => "__extc_t_"
  | .function => "__extc_c_f_"
  | .method => "__extc_f_"
  | .classHandle => "__extc_cls_"

/-- Whether entries of the kind take up memory and need a declaration in C. -/
def isStorage : EntryKind → Bool
  | .var | .pointer | .array => true
  | _ => false

/-- Whether entries of the kind are types and not values. -/
def isType : EntryKind → Bool
  | .type | .aggregate => true
  | _ => false

/-- The kind of a variable, which is told by its type. -/
def ofVariable (ty : Ty) : EntryKind := if ty.isPointer then .pointer else .var

end EntryKind

/-- Something that was declared. -/
structure Entry where
  name : String
  cName : String
  kind : EntryKind
  type : Ty
  /-- The constant that the declaration in C begins with. -/
  initial : Option String := none
  /-- Whether the entry is provided by a header. -/
  isExternal : Bool := false
  position : Position
deriving DecidableEq, Repr

/-- The name of the class that everything belongs to which stands in no class. -/
def rootClass : String := "Object"

/-- The C name of the root class. -/
def rootClassCName : String := "rb_cObject"

structure Scope where
  name : String
  kind : ScopeKind
  parent : Option ScopeId
  /-- The class that the scope belongs to. -/
  className : String
  classCName : String
  /-- What the function returns whose body the scope is. -/
  returnType : Option Ty := none
  entries : List Entry := []
  /-- The temporaries that expressions in the scope need, by C name. -/
  temps : List (String × Ty) := []
deriving DecidableEq, Repr

namespace Scope

def get? (scope : Scope) (name : String) : Option Entry :=
  scope.entries.find? fun e => decide (e.name = name)

/-- The C name of an entry. What is provided by a header keeps its name, and a type carries the
name of the class it is declared in. -/
def linkageName (scope : Scope) (kind : EntryKind) (name : String) (isExternal : Bool) : String :=
  if isExternal then name
  else if kind.isType then kind.lead ++ scope.className ++ "_" ++ name
  else kind.lead ++ name

/-- Adds an entry unless its name is taken. -/
def insert (scope : Scope) (entry : Entry) : Except Error Scope :=
  match scope.get? entry.name with
  | some _ => .error ⟨.duplicateDeclaration entry.name, entry.position⟩
  | none => .ok { scope with entries := scope.entries ++ [entry] }

/-- Gives an entry another type. -/
def setType (scope : Scope) (name : String) (type : Ty) : Scope :=
  { scope with
    entries := scope.entries.map fun e => if e.name = name then { e with type } else e }

/-! ## The entries that declarations make -/

def variableEntry (scope : Scope) (name : String) (type : Ty) (isExternal : Bool)
    (position : Position) : Entry :=
  let kind := EntryKind.ofVariable type
  { name, cName := scope.linkageName kind name isExternal, kind, type, isExternal, position }

def arrayEntry (scope : Scope) (name : String) (type : Ty) (initial : Option String)
    (isExternal : Bool) (position : Position) : Entry :=
  { name, cName := scope.linkageName .array name isExternal, kind := .array, type, initial,
    isExternal, position }

/-- The entry of a type name. An alias keeps the C name that it was made with. -/
def typeEntry (scope : Scope) (name : String) (type : Ty) (isExternal : Bool)
    (position : Position) : Entry :=
  let cName := match type with
    | .aliased _ cName _ => cName
    | _ => scope.linkageName .type name isExternal
  { name, cName, kind := .type, type, isExternal, position }

/-- The entry of a structure or union, which keeps the C name that it was made with. -/
def aggregateEntry (scope : Scope) (name : String) (type : Ty) (isExternal : Bool)
    (position : Position) : Entry :=
  let cName := match type with
    | .aggregate _ _ cName _ => cName
    | _ => scope.linkageName .aggregate name isExternal
  { name, cName, kind := .aggregate, type, isExternal, position }

/-- The entry of a function or a method. -/
def functionEntry (scope : Scope) (kind : EntryKind) (name : String) (params : List Ty)
    (result : Ty) (isExternal : Bool) (position : Position) : Entry :=
  let cName := scope.linkageName kind name isExternal
  { name, cName, kind, type := .function (some name) (some cName) params result, isExternal,
    position }

/-- The entry of a class, whose value is an object. -/
def classEntry (scope : Scope) (name : String) (position : Position) : Entry :=
  { name, cName := scope.linkageName .classHandle name false, kind := .classHandle,
    type := .object, position }

end Scope

end ExtensionCompiler

import ExtensionCompiler.C.Code
import ExtensionCompiler.Scope

set_option autoImplicit false

/-! # The C declarations of a scope

What a scope needs in C before its code can run: a declaration for every variable, and one for
every temporary. -/

namespace ExtensionCompiler

/-- The declaration of a variable in C. -/
def Entry.declaration (entry : Entry) (storage : String) : C.Declaration :=
  ⟨storage, entry.type, entry.cName, entry.initial⟩

/-- Whether a scope declares the entry itself: it takes up memory, no header provides it, and it is
none of `skip`. -/
def Entry.isLocal (entry : Entry) (skip : List String) : Bool :=
  entry.kind.isStorage && !entry.isExternal && !skip.contains entry.name

/-- The declarations of a scope: its variables in order, without those named in `skip`, and then
its temporaries. -/
def Scope.declarations (scope : Scope) (skip : List String) (storage : String) :
    List C.Declaration :=
  (scope.entries.filter fun e => e.isLocal skip).map (fun e => e.declaration storage)
    ++ scope.temps.map fun t => ⟨storage, t.2, t.1, none⟩

/-- The members of a structure or union, which all have a declaration. -/
def Scope.members (scope : Scope) : List C.Declaration :=
  (scope.entries.filter fun e => e.kind.isStorage).map fun e => e.declaration ""

end ExtensionCompiler

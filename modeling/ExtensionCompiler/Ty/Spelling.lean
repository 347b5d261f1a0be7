import ExtensionCompiler.Text.Joined
import ExtensionCompiler.Ty.Basic

set_option autoImplicit false

/-! # How types are written

C writes a type in two ways: alone (`Ty.cType`), as in a cast or a list of parameter types, and
around the name that it declares (`Ty.cDeclaration`). A pointer to a function wraps around the name
in both. Messages write types in the terms of the source (`Ty.describe`). -/

namespace ExtensionCompiler.Ty

def stars (depth : Nat) : String := Text.repeated depth '*'

/-- A pointer to a function around what it declares. -/
def functionDeclarator (result : String) (depth : Nat) (declared : String)
    (params : List String) : String :=
  result ++ " (" ++ stars depth ++ declared ++ ")(" ++ Text.commas params ++ ")"

mutual

/-- The type alone. A function is written as its result, an array as a pointer. -/
def cType : Ty → String
  | primitive kind => kind.cName
  | pointer (function _ _ params result) depth =>
    functionDeclarator result.cType depth "" (cTypes params)
  | pointer base depth => base.cType ++ stars depth
  | array base _ => base.cType ++ "*"
  | aggregate _ _ cName _ => cName
  | aliased _ cName _ => cName
  | function _ _ _ result => result.cType
  | object => "VALUE"
  | pending name => name

/-- Each of the types alone. -/
def cTypes : List Ty → List String
  | [] => []
  | ty :: rest => ty.cType :: cTypes rest

end

theorem cTypes_eq_map (tys : List Ty) : cTypes tys = tys.map cType := by
  induction tys with
  | nil => rfl
  | cons ty rest ih => simp [cTypes, ih]

/-- The declaration of `declared`, without a semicolon. -/
def cDeclaration : Ty → String → String
  | pointer (function _ _ params result) depth, declared =>
    functionDeclarator result.cType depth declared (cTypes params)
  | pointer base depth, declared => base.cType ++ " " ++ stars depth ++ declared
  | array base size, declared => base.cDeclaration (declared ++ "[" ++ Nat.repr size ++ "]")
  | ty, declared => ty.cType ++ " " ++ declared

mutual

/-- The type as messages show it. -/
def describe : Ty → String
  | primitive kind => kind.cName
  | pointer (function _ _ params result) depth =>
    functionDeclarator result.describe depth "" (describeAll params)
  | pointer base depth => base.describe ++ stars depth
  | array base size => base.describe ++ "[" ++ Nat.repr size ++ "]"
  | aggregate kind name _ _ => kind.tag name
  | aliased name _ _ => name
  | function _ _ params result => result.describe ++ " (" ++ Text.commas (describeAll params) ++ ")"
  | object => "object"
  | pending name => name

/-- Each of the types as messages show it. -/
def describeAll : List Ty → List String
  | [] => []
  | ty :: rest => ty.describe :: describeAll rest

end

end ExtensionCompiler.Ty

import ExtensionCompiler.Ty.Basic

set_option autoImplicit false

/-! # Compatibility of types

Two types are the same for the checker if they agree once aliases are looked through, functions are
stripped of their names, and aggregates are taken by kind and name (`Ty.same`). A slot of one type
takes a value of another under the rules of `Ty.holds`: numbers widen, a `void` pointer takes any
single pointer, a single pointer takes an array, and all else must be the same. -/

namespace ExtensionCompiler.Ty

mutual

/-- Whether two types are the same up to aliases and the names of functions. -/
def same : Ty → Ty → Bool
  | aliased _ _ target, other => target.same other
  | primitive k, other =>
    match other.unaliased with
    | primitive l => decide (k = l)
    | _ => false
  | pointer base depth, other =>
    match other.unaliased with
    | pointer base' depth' => decide (depth = depth') && base.same base'
    | _ => false
  | array base size, other =>
    match other.unaliased with
    | array base' size' => decide (size = size') && base.same base'
    | _ => false
  | aggregate kind name _ _, other =>
    match other.unaliased with
    | aggregate kind' name' _ _ => decide (kind = kind') && decide (name = name')
    | _ => false
  | function _ _ params result, other =>
    match other.unaliased with
    | function _ _ params' result' => sameAll params params' && result.same result'
    | _ => false
  | object, other => other.isObject
  | pending name, other =>
    match other.unaliased with
    | pending name' => decide (name = name')
    | _ => false

/-- Whether two lists of types are the same one by one. -/
def sameAll : List Ty → List Ty → Bool
  | [], [] => true
  | ty :: rest, ty' :: rest' => ty.same ty' && sameAll rest rest'
  | _, _ => false

end

/-- Whether a slot of type `slot` takes a value of type `value`. -/
def holds (slot value : Ty) : Bool :=
  match slot.unaliased, value.unaliased with
  | primitive k, primitive l => k.holds l
  | pointer base depth, pointer base' depth' =>
    if depth = 1 ∧ base.isVoid then decide (depth' = 1)
    else decide (depth = depth') && base.same base'
  | pointer base depth, array base' _ => decide (depth = 1) && base.same base'
  | array base size, array base' size' => decide (size = size') && base.same base'
  | aggregate kind name _ _, aggregate kind' name' _ _ =>
    decide (kind = kind') && decide (name = name')
  | function _ _ params result, function _ _ params' result' =>
    sameAll params params' && result.same result'
  | object, object => true
  | pending name, pending name' => decide (name = name')
  | _, _ => false

/-- The type of an arithmetic result: the wider of two primitive types; a pointer on either side
wins; else the left type. -/
def wider (a b : Ty) : Ty :=
  match a.unaliased, b.unaliased with
  | primitive k, primitive l => primitive (k.wider l)
  | pointer _ _, _ => a
  | _, pointer _ _ => b
  | _, _ => a

end ExtensionCompiler.Ty

import ExtensionCompiler.Ty.Primitive

set_option autoImplicit false

/-! # Types

The types of the source language. A name whose definition has not been met yet is a type as well,
`Ty.pending`; the second pass over a unit replaces it. Aggregates and aliases carry the name that
they have in C, and an aggregate the scope that its members are declared in.

`Ty.unaliased` and `Ty.concrete` look through aliases, `Ty.pending?` finds a name that still waits
for its definition, and `Ty.NoPending` says that there is none. -/

namespace ExtensionCompiler

/-- The index of a scope among the scopes of a unit. -/
abbrev ScopeId := Nat

inductive AggregateKind where
  | struct
  | union
deriving DecidableEq, Repr

/-- The keyword of the source and of C. -/
def AggregateKind.keyword : AggregateKind → String
  | .struct => "struct"
  | .union => "union"

/-- A tag as C writes it, such as `struct node`. -/
def AggregateKind.tag (kind : AggregateKind) (name : String) : String :=
  kind.keyword ++ " " ++ name

inductive Ty where
  | primitive (kind : Primitive)
  /-- `depth` levels of indirection over `base`. -/
  | pointer (base : Ty) (depth : Nat)
  | array (base : Ty) (size : Nat)
  | aggregate (kind : AggregateKind) (name cName : String) (scope : ScopeId)
  | aliased (name cName : String) (target : Ty)
  /-- A function. A signature that belongs to no declaration has no names. -/
  | function (name cName : Option String) (params : List Ty) (result : Ty)
  /-- An object of the host runtime. -/
  | object
  /-- A name that is used before its definition. -/
  | pending (name : String)
deriving Repr, Inhabited

namespace Ty

def void : Ty := primitive .void

/-- `depth` levels of indirection over `base`; levels over a pointer add up. The sum is the exact
one: only `addressOf` and `element?` count as a machine word does, and `Stmt.normal_of_passes` says
up to which depths that is the same. -/
def pointerTo (base : Ty) (depth : Nat) : Ty :=
  if depth = 0 then base
  else match base with
    | pointer inner innerDepth => pointer inner (innerDepth + depth)
    | base => pointer base depth

/-- How many values a machine word of 64 bits has. The levels of a pointer are counted in one. -/
def wordSize : Nat := 18446744073709551616

/-- The type of the address of a value. If a pointer has all the levels that a word can count, the
count starts again at zero. -/
def addressOf : Ty → Ty
  | pointer base depth => pointer base ((depth + 1) % wordSize)
  | ty => pointer ty 1

/-! ## Looking through aliases -/

/-- The type behind any number of aliases. -/
def unaliased : Ty → Ty
  | aliased _ _ target => target.unaliased
  | ty => ty

theorem unaliased_unaliased (ty : Ty) : ty.unaliased.unaliased = ty.unaliased := by
  fun_induction unaliased ty with
  | case1 name cName target ih => exact ih
  | case2 ty hty => rw [unaliased.eq_2 ty hty]

/-- The type of the value that a type stands for: aliases are looked through, and a function stands
for what it returns. -/
def concrete : Ty → Ty
  | aliased _ _ target => target.concrete
  | function _ _ _ result => result.concrete
  | ty => ty

def isObject (ty : Ty) : Bool :=
  match ty.unaliased with
  | object => true
  | _ => false

def isInteger (ty : Ty) : Bool :=
  match ty.unaliased with
  | primitive kind => kind.isInteger
  | _ => false

def isNumeric (ty : Ty) : Bool :=
  match ty.unaliased with
  | primitive kind => kind.isNumeric
  | _ => false

/-- Whether values of the type are addresses. An array counts. -/
def isAddress (ty : Ty) : Bool :=
  match ty.unaliased with
  | pointer _ _ | array _ _ => true
  | _ => false

def isArray (ty : Ty) : Bool :=
  match ty.unaliased with
  | array _ _ => true
  | _ => false

def isPointer (ty : Ty) : Bool :=
  match ty.unaliased with
  | pointer _ _ => true
  | _ => false

def isVoid (ty : Ty) : Bool :=
  match ty.unaliased with
  | primitive .void => true
  | _ => false

/-- Whether a value of the type can be tested or combined by a logical operator of C. -/
def isScalar (ty : Ty) : Bool := ty.isNumeric || ty.isAddress

/-- Whether the type is a single pointer to `char`. -/
def isText (ty : Ty) : Bool :=
  match ty.unaliased with
  | pointer base 1 =>
    match base.unaliased with
    | primitive .char => true
    | _ => false
  | _ => false

/-- The type that an element or the target of an address has. One level is taken off a pointer, and
off a count of zero the count of a word ends at its last value. -/
def element? (ty : Ty) : Option Ty :=
  match ty.unaliased with
  | array base _ => some base
  | pointer base depth => some (pointerTo base ((depth + wordSize - 1) % wordSize))
  | _ => none

/-- The parameters and the result of a function. -/
def signature? (ty : Ty) : Option (List Ty × Ty) :=
  match ty.unaliased with
  | function _ _ params result => some (params, result)
  | _ => none

/-! ## Names that wait for a definition -/

mutual

/-- The first pending name in the type. Parameters come before the result. -/
def pending? : Ty → Option String
  | pending name => some name
  | pointer base _ => base.pending?
  | array base _ => base.pending?
  | aliased _ _ target => target.pending?
  | function _ _ params result => (pendingIn? params).or result.pending?
  | primitive _ => none
  | aggregate _ _ _ _ => none
  | object => none

/-- The first pending name in a list of types. -/
def pendingIn? : List Ty → Option String
  | [] => none
  | ty :: rest => ty.pending?.or (pendingIn? rest)

end

/-- No name in the type waits for its definition. -/
def NoPending (ty : Ty) : Prop := ty.pending? = none

instance (ty : Ty) : Decidable ty.NoPending := inferInstanceAs (Decidable (ty.pending? = none))

end Ty

end ExtensionCompiler

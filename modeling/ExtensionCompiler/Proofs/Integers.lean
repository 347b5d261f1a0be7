import ExtensionCompiler.C.Term
import ExtensionCompiler.Ty.Basic

set_option autoImplicit false

/-! # The whole numbers of C

An `IntType` is a width with or without a sign. Which widths the types of C have differs from one
platform to another; a `Platform` gives them, with the order that the rules of C ask for.

Arithmetic is done in a common type of its operands (`Platform.commonType`), which is at least as
wide as `int`. A result outside of that type wraps around if the type is unsigned, and is undefined
otherwise. `Term.number?` is the value of an expression by these rules, nothing where it is
undefined. -/

namespace ExtensionCompiler.C

/-- A power of two, as a bound of whole numbers. -/
def powerOfTwo (n : Nat) : Int := Nat.pow 2 n

theorem powerOfTwo_pos (n : Nat) : 0 < powerOfTwo n := Int.natCast_pos.mpr (Nat.two_pow_pos n)

theorem powerOfTwo_le {m n : Nat} (h : m ≤ n) : powerOfTwo m ≤ powerOfTwo n :=
  Int.ofNat_le.mpr (Nat.pow_le_pow_right (by decide) h)

/-! ## Types -/

/-- A type of whole numbers. It is at least a byte wide. -/
structure IntType where
  signed : Bool
  bits : Nat
  byte_le : 8 ≤ bits := by decide
deriving DecidableEq

namespace IntType

/-- The types of numbers of one byte. -/
def byte (signed : Bool) : IntType := ⟨signed, 8, Nat.le_refl 8⟩

def least (t : IntType) : Int := if t.signed then -powerOfTwo (t.bits - 1) else 0

def greatest (t : IntType) : Int :=
  if t.signed then powerOfTwo (t.bits - 1) - 1 else powerOfTwo t.bits - 1

/-- Whether a number is a value of the type. -/
def Holds (t : IntType) (n : Int) : Prop := t.least ≤ n ∧ n ≤ t.greatest

instance (t : IntType) (n : Int) : Decidable (t.Holds n) := inferInstanceAs (Decidable (_ ∧ _))

/-- A number as a value of the type. One that the type does not hold wraps around if the type is
unsigned, and is not defined otherwise. -/
def store (t : IntType) (n : Int) : Option Int :=
  if t.Holds n then some n else if t.signed then none else some (n % powerOfTwo t.bits)

variable {t u : IntType} {n m : Int}

theorem store_of_holds (h : t.Holds n) : t.store n = some n := if_pos h

theorem holds_of_store (h : t.store n = some m) : t.Holds m := by
  unfold store at h
  split at h
  · cases h
    assumption
  · split at h
    · cases h
    · next hsigned =>
        cases h
        have hpos := powerOfTwo_pos t.bits
        have hnonneg := Int.emod_nonneg n (by omega : powerOfTwo t.bits ≠ 0)
        have hlt := Int.emod_lt_of_pos n hpos
        simp only [Holds, least, greatest, if_neg hsigned]
        omega

/-- The number after the greatest value wraps around to the least, or is undefined. -/
theorem store_greatest_add_one (t : IntType) :
    t.store (t.greatest + 1) = if t.signed then none else some t.least := by
  have hout : ¬ t.Holds (t.greatest + 1) := fun h => by
    have := h.2
    omega
  rw [store, if_neg hout]
  split
  · rfl
  · next hsigned => simp [greatest, least, hsigned]

/-- The number before the least value wraps around to the greatest, or is undefined. -/
theorem store_least_sub_one (t : IntType) :
    t.store (t.least - 1) = if t.signed then none else some t.greatest := by
  have hout : ¬ t.Holds (t.least - 1) := fun h => by
    have := h.1
    omega
  rw [store, if_neg hout]
  split
  · rfl
  · next hsigned =>
      have hpos := powerOfTwo_pos t.bits
      simp only [greatest, least, if_neg hsigned]
      rw [← Int.add_emod_right, Int.emod_eq_of_lt (by omega) (by omega), Int.zero_sub,
        Int.add_comm]
      rfl

theorem least_le_zero (t : IntType) : t.least ≤ 0 := by
  have hpos := powerOfTwo_pos (t.bits - 1)
  unfold least
  split <;> omega

theorem one_le_greatest (t : IntType) : 1 ≤ t.greatest := by
  have hbyte := t.byte_le
  have hhalf := powerOfTwo_le (show 1 ≤ t.bits - 1 by omega)
  have hwhole := powerOfTwo_le (show 1 ≤ t.bits by omega)
  have hone : powerOfTwo 1 = 2 := rfl
  unfold greatest
  split <;> omega

theorem holds_one (t : IntType) : t.Holds 1 :=
  ⟨Int.le_trans t.least_le_zero (by decide), t.one_le_greatest⟩

/-- A wider type holds more, if it has a sign wherever the narrower one has. -/
theorem Holds.widen (h : t.Holds n) (hbits : t.bits ≤ u.bits) (hsign : u.signed = t.signed) :
    u.Holds n := by
  have hhalf := powerOfTwo_le (show t.bits - 1 ≤ u.bits - 1 by omega)
  have hwhole := powerOfTwo_le hbits
  simp only [Holds, least, greatest, hsign] at h ⊢
  split at h <;> simp_all <;> omega

/-- A wider type with a sign holds what the narrower one holds, with a sign or without. -/
theorem Holds.widen_signed (h : t.Holds n) (hbits : t.bits < u.bits) (hsign : u.signed = true) :
    u.Holds n := by
  have hhalf := powerOfTwo_le (show t.bits - 1 ≤ u.bits - 1 by omega)
  have hwhole := powerOfTwo_le (show t.bits ≤ u.bits - 1 by omega)
  have hpos := powerOfTwo_pos (u.bits - 1)
  simp only [Holds, least, greatest, hsign, if_pos] at h ⊢
  split at h <;> omega

end IntType

/-! ## Platforms -/

/-- What the rules of C leave to the platform. -/
structure Platform where
  charSigned : Bool
  short : Nat
  int : Nat
  long : Nat
  longLong : Nat
  short_wide : 16 ≤ short := by decide
  int_wide : short ≤ int := by decide
  long_wide : int ≤ long := by decide
  longLong_wide : long ≤ longLong := by decide

namespace Platform

variable (p : Platform)

def shortType (signed : Bool) : IntType where
  signed
  bits := p.short
  byte_le := Nat.le_trans (by decide) p.short_wide

def intType (signed : Bool) : IntType where
  signed
  bits := p.int
  byte_le := Nat.le_trans (p.shortType true).byte_le p.int_wide

def longType (signed : Bool) : IntType where
  signed
  bits := p.long
  byte_le := Nat.le_trans (p.intType true).byte_le p.long_wide

def longLongType (signed : Bool) : IntType where
  signed
  bits := p.longLong
  byte_le := Nat.le_trans (p.longType true).byte_le p.longLong_wide

/-- The values of a primitive type, if they are whole numbers. -/
def primitiveType? : Primitive → Option IntType
  | .char => some (.byte p.charSigned)
  | .uchar => some (.byte false)
  | .int8 => some (.byte true)
  | .int16 => some ⟨true, 16, by decide⟩
  | .int32 => some ⟨true, 32, by decide⟩
  | .int64 => some ⟨true, 64, by decide⟩
  | .uint8 => some (.byte false)
  | .uint16 => some ⟨false, 16, by decide⟩
  | .uint32 => some ⟨false, 32, by decide⟩
  | .uint64 => some ⟨false, 64, by decide⟩
  | .short => some (p.shortType true)
  | .ushort => some (p.shortType false)
  | .int => some (p.intType true)
  | .uint => some (p.intType false)
  | .long => some (p.longType true)
  | .ulong => some (p.longType false)
  | .longLong => some (p.longLongType true)
  | .ulongLong => some (p.longLongType false)
  | .float | .double | .longDouble | .void => none

/-- The values of a type, if they are whole numbers. -/
def typeOf? (ty : Ty) : Option IntType :=
  match ty.unaliased with
  | .primitive kind => p.primitiveType? kind
  | _ => none

theorem not_isObject_of_typeOf? {p : Platform} {ty : Ty} {t : IntType} (h : p.typeOf? ty = some t) :
    ty.isObject = false := by
  unfold typeOf? at h
  unfold Ty.isObject
  split at h
  · next heq => rw [heq]
  · cases h

/-- The type of a number that is written out: the first that holds it. The sign before a number is
an operator, and does not count. -/
def constantType? (n : Int) : Option IntType :=
  [p.intType true, p.longType true, p.longLongType true].find? fun t =>
    decide (t.Holds n.natAbs)

/-- Arithmetic is not done in types that are narrower than `int`. -/
def promote (t : IntType) : IntType := if t.bits < p.int then p.intType true else t

/-- The type in which two operands meet: the wider one, and of two that are equally wide the
unsigned one. -/
def commonType (t u : IntType) : IntType :=
  let t := p.promote t
  let u := p.promote u
  if t.bits < u.bits then u
  else if u.bits < t.bits then t
  else ⟨t.signed && u.signed, t.bits, t.byte_le⟩

end Platform

/-! ## Expressions -/

/-- Whether a comparison holds between two numbers. -/
def compares (operator : String) (m n : Int) : Bool :=
  match operator with
  | "<" => decide (m < n)
  | "<=" => decide (m ≤ n)
  | ">" => decide (n < m)
  | ">=" => decide (n ≤ m)
  | _ => false

/-- A sum, a difference or a comparison, with its type. Both operands are converted to their common
type. -/
def Platform.operate (p : Platform) (operator : String) (x y : IntType × Int) :
    Option (IntType × Int) :=
  let t := p.commonType x.1 y.1
  (t.store x.2).bind fun m => (t.store y.2).bind fun n =>
    match operator with
    | "+" => (t.store (m + n)).map (t, ·)
    | "-" => (t.store (m - n)).map (t, ·)
    | _ => some (p.intType true, if compares operator m n then 1 else 0)

namespace Term

/-- Whether an expression is built from numbers and the variable `x`. -/
def isNumeric (x : String) : Term → Bool
  | int _ => true
  | ident name => name == x
  | plain left operator right =>
    left.isNumeric x && right.isNumeric x && ["+", "-", "<", "<=", ">", ">="].contains operator
  | _ => false

/-- The type and the value of an expression over the variable `x` of type `t` that holds `v`, if
they are defined. -/
def number? (p : Platform) (x : String) (t : IntType) (v : Int) : Term → Option (IntType × Int)
  | int n => (p.constantType? n).map (·, n)
  | ident name => if name = x then some (t, v) else none
  | plain left operator right =>
    (left.number? p x t v).bind fun l =>
      (right.number? p x t v).bind fun r => p.operate operator l r
  | _ => none

end Term

/-! ## Meeting in a common type -/

namespace Platform

variable {p : Platform} {t u : IntType} {n m : Int}

theorem int_le_promote (p : Platform) (t : IntType) : p.int ≤ (p.promote t).bits := by
  unfold promote
  split
  · exact Nat.le_refl _
  · omega

theorem holds_promote (h : t.Holds n) : (p.promote t).Holds n := by
  unfold promote
  split
  · exact h.widen_signed ‹_› rfl
  · exact h

/-- A common type with a signed type loses nothing of the other one. -/
theorem holds_commonType (hu : u.signed = true) (h : t.Holds n) : (p.commonType t u).Holds n := by
  have ht : (p.promote t).Holds n := holds_promote h
  have hu' : (p.promote u).signed = true := by
    unfold promote
    split
    · rfl
    · exact hu
  simp only [commonType]
  split
  · exact ht.widen_signed ‹_› hu'
  · split
    · exact ht
    · exact ht.widen (Nat.le_refl _) (by simp [hu'])

theorem constantType?_eq_some (h : p.constantType? n = some t) :
    t.signed = true ∧ p.int ≤ t.bits ∧ t.Holds n := by
  have hmem := List.mem_of_find?_eq_some h
  have hholds : t.Holds n.natAbs := by simpa using List.find?_some h
  have hsigned : t.signed = true := by
    simp only [List.mem_cons, List.not_mem_nil, or_false] at hmem
    rcases hmem with rfl | rfl | rfl <;> rfl
  refine ⟨hsigned, ?_, ?_⟩
  · have hlong := p.long_wide
    have hlongLong := p.longLong_wide
    simp only [List.mem_cons, List.not_mem_nil, or_false] at hmem
    rcases hmem with rfl | rfl | rfl <;> simp only [intType, longType, longLongType] <;> omega
  · simp only [IntType.Holds, IntType.least, IntType.greatest, hsigned, if_pos] at hholds ⊢
    omega

/-- The type of a number that is written out also holds the one before it, even below zero. -/
theorem holds_sub_one_of_constantType? (h : p.constantType? n = some t) : t.Holds (n - 1) := by
  have hsigned := (constantType?_eq_some h).1
  have hholds : t.Holds n.natAbs := by simpa using List.find?_some h
  simp only [IntType.Holds, IntType.least, IntType.greatest, hsigned, if_pos] at hholds ⊢
  omega

/-- The number 1 is an `int`. -/
theorem constantType?_one (p : Platform) : p.constantType? 1 = some (p.intType true) :=
  List.find?_cons_of_pos (by simpa using (p.intType true).holds_one)

theorem promote_of_wide (h : p.int ≤ t.bits) : p.promote t = t := if_neg (by omega)

/-- A type meets `int` in the type it is promoted to. -/
theorem commonType_int (p : Platform) (t : IntType) :
    p.commonType t (p.intType true) = p.promote t := by
  have hwide := p.int_le_promote t
  have hint : p.promote (p.intType true) = p.intType true := promote_of_wide (Nat.le_refl _)
  simp only [commonType, hint]
  split
  · next hlt => exact absurd hlt (by simp only [intType]; omega)
  · split
    · rfl
    · simp [intType]

/-- Comparisons with a number that is written out are exact, if the variable's type holds it. -/
theorem operate_compare (operator : String) (hop : operator ≠ "+") (hop' : operator ≠ "-")
    (hn : t.Holds n) (hm : t.Holds m) (hu : p.constantType? m = some u) :
    p.operate operator (t, n) (u, m)
      = some (p.intType true, if compares operator n m then 1 else 0) := by
  have hsigned := (constantType?_eq_some hu).1
  have hstore {k : Int} (hk : t.Holds k) : (p.commonType t u).store k = some k :=
    IntType.store_of_holds (holds_commonType hsigned hk)
  simp only [operate, hstore hn, hstore hm, Option.bind_some]

end Platform

end ExtensionCompiler.C

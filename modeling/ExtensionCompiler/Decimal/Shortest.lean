set_option autoImplicit false

/-! # The shortest decimal of a binary number

A positive binary floating point number is a `Dyadic`. The reals that round to it form an interval
around it, whose ends belong to it iff the mantissa is even. `Dyadic.shortest` is the decimal of
that interval with the fewest digits, and of these the one nearest to the number; a tie goes up.
All comparisons are made on natural numbers over a common denominator. -/

namespace ExtensionCompiler.Decimal

/-- The number `digits * 10 ^ exponent`. -/
structure Numeral where
  digits : Nat
  exponent : Int
deriving DecidableEq, Repr

/-- The number `mantissa * 2 ^ exponent`, as a 64-bit floating point number holds it. -/
structure Dyadic where
  mantissa : Nat
  exponent : Int
deriving DecidableEq, Repr

namespace Dyadic

/-- A quarter of the distance to the next number above. The ends of the interval are whole
multiples of it away. -/
def quarter (v : Dyadic) : Nat := Nat.pow 2 v.exponent.toNat

/-- The number, the interval and its ends are counted in fractions with this denominator. -/
def denominator (v : Dyadic) : Nat := 4 * Nat.pow 2 (-v.exponent).toNat

def numerator (v : Dyadic) : Nat := 4 * v.mantissa * v.quarter

/-- Below a power of two the next number is half as far away as above it; the smallest numbers all
have one distance. -/
def narrowBelow (v : Dyadic) : Bool :=
  decide (v.mantissa = Nat.pow 2 52) && decide (-1074 < v.exponent)

def low (v : Dyadic) : Nat :=
  v.numerator - (if v.narrowBelow then v.quarter else 2 * v.quarter)

def high (v : Dyadic) : Nat := v.numerator + 2 * v.quarter

/-- `10 ^ e` as a fraction: what a multiple of it is scaled by, and what the number is scaled by. -/
def gridUp (e : Int) : Nat := Nat.pow 10 e.toNat

def gridDown (e : Int) : Nat := Nat.pow 10 (-e).toNat

/-- Whether the decimal lies in the interval of the reals that round to `v`. -/
def readsBack (v : Dyadic) (d : Numeral) : Bool :=
  let x := d.digits * gridUp d.exponent * v.denominator
  let lo := v.low * gridDown d.exponent
  let hi := v.high * gridDown d.exponent
  if v.mantissa % 2 = 0 then decide (lo ≤ x) && decide (x ≤ hi)
  else decide (lo < x) && decide (x < hi)

/-- The multiple of `10 ^ e` just below `v`. -/
def below (v : Dyadic) (e : Int) : Numeral :=
  ⟨v.numerator * gridDown e / (v.denominator * gridUp e), e⟩

/-- The multiple of `10 ^ e` just above `v`. -/
def above (v : Dyadic) (e : Int) : Numeral := ⟨(v.below e).digits + 1, e⟩

/-- Whether `v` is nearer to the multiple below it than to the one above it. -/
def nearerBelow (v : Dyadic) (e : Int) : Bool :=
  decide (2 * (v.numerator * gridDown e)
    < (2 * (v.below e).digits + 1) * (v.denominator * gridUp e))

/-- The multiple of `10 ^ e` that stands for `v`, if one of the two around it reads back. -/
def onGrid (v : Dyadic) (e : Int) : Option Numeral :=
  if v.readsBack (v.below e) && (v.nearerBelow e || !v.readsBack (v.above e)) then
    some (v.below e)
  else if v.readsBack (v.above e) then some (v.above e)
  else none

/-- The exponent of the finest grid: the smallest positive number is `5 * 10 ^ finest`. -/
def finest : Int := -324

/-- Tries the grids from `10 ^ (finest + n)` down to the finest one. -/
def shortestFrom (v : Dyadic) : Nat → Numeral
  | 0 => (v.onGrid finest).getD (v.below finest)
  | n + 1 => (v.onGrid (finest + (n + 1 : Nat))).getD (v.shortestFrom n)

/-- The decimal with the fewest digits that reads back as `v`. The coarsest grid tried lies above
the largest number. -/
def shortest (v : Dyadic) : Numeral := v.shortestFrom 633

end Dyadic

end ExtensionCompiler.Decimal

import ExtensionCompiler.Decimal.Shortest
import ExtensionCompiler.Text.Joined

set_option autoImplicit false

/-! # Floating point numbers of 64 bits and their text

A number is given by its bit pattern. `Binary64.render` writes it with the fewest digits that read
back: positionally from `10 ^ -4` up to `10 ^ 16`, with at least one digit after the point, and
with an exponent outside. -/

namespace ExtensionCompiler.Decimal

/-- A floating point number, as its pattern of sign, exponent and fraction. -/
structure Binary64 where
  bits : UInt64
deriving DecidableEq, Repr

namespace Binary64

def isNegative (x : Binary64) : Bool := decide (Nat.pow 2 63 ≤ x.bits.toNat)

def biasedExponent (x : Binary64) : Nat := x.bits.toNat / Nat.pow 2 52 % Nat.pow 2 11

def fraction (x : Binary64) : Nat := x.bits.toNat % Nat.pow 2 52

/-- The size of a finite number. Below the smallest exponent the leading one is dropped. -/
def magnitude (x : Binary64) : Dyadic :=
  if x.biasedExponent = 0 then ⟨x.fraction, -1074⟩
  else ⟨Nat.pow 2 52 + x.fraction, (x.biasedExponent : Int) - 1075⟩

/-- Digits with a point before the last `-exponent` of them. -/
def positional (d : Numeral) : String :=
  let digits := Nat.repr d.digits
  let whole := (digits.length : Int) + d.exponent
  if 0 ≤ d.exponent then digits ++ Text.repeated d.exponent.toNat '0' ++ ".0"
  else if 0 < whole then
    String.ofList (digits.toList.take whole.toNat) ++ "."
      ++ String.ofList (digits.toList.drop whole.toNat)
  else "0." ++ Text.repeated (-whole).toNat '0' ++ digits

/-- One digit, a point if more follow, and the power of ten. -/
def scientific (d : Numeral) : String :=
  let digits := Nat.repr d.digits
  let power := (digits.length : Int) + d.exponent - 1
  let rest := digits.toList.drop 1
  String.ofList (digits.toList.take 1)
    ++ (if rest.isEmpty then "" else "." ++ String.ofList rest)
    ++ "e" ++ Int.repr power

/-- A decimal in the notation that its size asks for. -/
def decimalText (d : Numeral) : String :=
  let power := ((Nat.repr d.digits).length : Int) + d.exponent - 1
  if -4 ≤ power ∧ power < 16 then positional d else scientific d

/-- The text of the number without its sign. -/
def unsignedText (x : Binary64) : String :=
  if x.magnitude.mantissa = 0 then "0.0" else decimalText x.magnitude.shortest

/-- The text of the number. Infinities have a sign; what is not a number has none. -/
def render (x : Binary64) : String :=
  if x.biasedExponent = 2047 then
    if x.fraction = 0 then (if x.isNegative then "-inf" else "inf") else "NaN"
  else (if x.isNegative then "-" else "") ++ x.unsignedText

end Binary64

end ExtensionCompiler.Decimal

set_option autoImplicit false

/-! # Classes of characters

A class is a list of ranges of code points. The tables of the project are values of `CharClass`,
the long ones by the lengths of their ranges and of the gaps between them (`CharClass.ofRuns`);
`CharClass.contains` is the membership test, and `CharClass.contains_iff` says what it decides. -/

namespace ExtensionCompiler.Text

/-- A set of characters, as ranges of code points with both ends included. -/
abbrev CharClass := List (Nat × Nat)

/-- The ranges from a code point on, each given by the length of the gap before it and then by its
own length. -/
def CharClass.ofRuns : Nat → List Nat → CharClass
  | start, gap :: length :: rest =>
    (start + gap, start + gap + length - 1) :: ofRuns (start + gap + length) rest
  | _, _ => []

/-- Whether `c` lies in one of the ranges. -/
def CharClass.contains (ranges : CharClass) (c : Char) : Bool :=
  ranges.any fun r => decide (r.1 ≤ c.toNat) && decide (c.toNat ≤ r.2)

theorem CharClass.contains_iff (ranges : CharClass) (c : Char) :
    ranges.contains c = true ↔ ∃ r ∈ ranges, r.1 ≤ c.toNat ∧ c.toNat ≤ r.2 := by
  simp [CharClass.contains]

end ExtensionCompiler.Text

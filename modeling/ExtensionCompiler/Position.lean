import ExtensionCompiler.Text.Blank
import ExtensionCompiler.Text.Digit

set_option autoImplicit false

/-! # Positions in the source

A position is a file and a line, written `file:line`. `Position.parse?` reads that form: white
space around the text is dropped, the rest is matched against a pattern, and then the line is read
as a number. The pattern takes the longest file that it can, so a path may hold colons of its own.
It takes digits of any script for the line, but only those of ASCII are read. -/

namespace ExtensionCompiler

/-- A line of a source file. -/
structure Position where
  file : String
  line : Nat
deriving DecidableEq, Repr

namespace Position

/-- The position of what stands nowhere in the source. -/
def unknown : Position := ⟨"<null>", 0⟩

/-- The form `file:line`. -/
def render (p : Position) : String := p.file ++ ":" ++ Nat.repr p.line

/-- The largest line number there is. -/
def maxLine : Nat := Nat.pow 2 32 - 1

/-- The value of a decimal digit. -/
def digit? (c : Char) : Option Nat := if c.isDigit then some (c.toNat - '0'.toNat) else none

/-- Reads decimal digits after the number `n`. -/
def number? (n : Nat) : List Char → Option Nat
  | [] => some n
  | c :: cs => (digit? c).bind fun d => number? (10 * n + d) cs

/-- Reads a line number: at least one digit, and not above `maxLine`. -/
def line? (cs : List Char) : Option Nat :=
  if cs.isEmpty then none
  else (number? 0 cs).bind fun n => if n ≤ maxLine then some n else none

/-- Matches `.*:\d+` up to the end of the text. The file is as long as it can be, and lies on one
line. -/
def matchRest? : List Char → Option (List Char × List Char)
  | [] => none
  | c :: cs =>
    ((if c = '\n' then none else matchRest? cs).map fun (file, line) => (c :: file, line)).or
      (if c = ':' && !cs.isEmpty && cs.all Text.isDecimal then some ([], cs) else none)

/-- Matches `^(.+):(\d+)$`. -/
def match? : List Char → Option (List Char × List Char)
  | [] => none
  | c :: cs =>
    if c = '\n' then none else (matchRest? cs).map fun (file, line) => (c :: file, line)

/-- Reads `file:line`. -/
def parse? (s : String) : Option Position :=
  (match? (Text.trim s.toList)).bind fun (file, line) =>
    (line? line).map fun n => ⟨String.ofList file, n⟩

end Position

end ExtensionCompiler

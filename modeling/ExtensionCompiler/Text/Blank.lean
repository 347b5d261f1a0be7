import ExtensionCompiler.Text.CharClass

set_option autoImplicit false

/-! # White space

The white space of Unicode, and the two things that are done with it: `trim` takes it off both ends
of a text, `squeeze` turns every run of it into one space. -/

namespace ExtensionCompiler.Text

/-- The 25 characters with the Unicode property White_Space. -/
def blanks : CharClass :=
  [(0x9, 0xD), (0x20, 0x20), (0x85, 0x85), (0xA0, 0xA0), (0x1680, 0x1680), (0x2000, 0x200A),
   (0x2028, 0x2029), (0x202F, 0x202F), (0x205F, 0x205F), (0x3000, 0x3000)]

def isBlank (c : Char) : Bool := blanks.contains c

/-- `cs` without the white space it ends in. -/
def trimEnd (cs : List Char) : List Char := (cs.reverse.dropWhile isBlank).reverse

/-- `cs` without the white space around it. -/
def trim (cs : List Char) : List Char := trimEnd (cs.dropWhile isBlank)

/-- Writes every run of white space as one space. `inRun` tells whether the character before was
white space. -/
def squeezeFrom (inRun : Bool) : List Char → List Char
  | [] => []
  | c :: cs =>
    if isBlank c then
      if inRun then squeezeFrom true cs else ' ' :: squeezeFrom true cs
    else c :: squeezeFrom false cs

/-- `cs` with every run of white space written as one space. -/
def squeeze (cs : List Char) : List Char := squeezeFrom false cs

end ExtensionCompiler.Text

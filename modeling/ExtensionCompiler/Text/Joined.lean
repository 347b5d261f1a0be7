set_option autoImplicit false

/-! # Joined texts

The two ways in which C source repeats a text: `commas` for lists of operands, parameters and
elements, `repeated` for indentation and for the stars of a pointer. -/

namespace ExtensionCompiler.Text

/-- The texts in order, separated by a comma and a space. -/
def commas : List String → String
  | [] => ""
  | [s] => s
  | s :: t :: rest => s ++ ", " ++ commas (t :: rest)

/-- `n` times the character `c`. -/
def repeated (n : Nat) (c : Char) : String := String.ofList (List.replicate n c)

end ExtensionCompiler.Text

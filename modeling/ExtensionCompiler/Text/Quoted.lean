import ExtensionCompiler.Text.Hidden

set_option autoImplicit false

/-! # Quoted text in messages

A name shown in a message stands between double quotes. Inside, a quote, a backslash and the usual
controls are written as escapes, and a character that does not show is written by its code point. -/

namespace ExtensionCompiler.Text

/-- A code point in braces, in lower-case hexadecimal without padding. -/
def codePoint (c : Char) : List Char :=
  ['\\', 'u', '\x7b'] ++ Nat.toDigits 16 c.toNat ++ ['\x7d']

/-- How one character is written between the quotes. -/
def quoteChar (c : Char) : List Char :=
  if c = '"' then ['\\', '"']
  else if c = '\\' then ['\\', '\\']
  else if c = '\n' then ['\\', 'n']
  else if c = '\r' then ['\\', 'r']
  else if c = '\t' then ['\\', 't']
  else if c = '\x00' then ['\\', '0']
  else if isHidden c then codePoint c
  else [c]

/-- The text between double quotes, as messages show it. -/
def quoted (s : String) : String :=
  String.ofList ('"' :: s.toList.flatMap quoteChar ++ ['"'])

end ExtensionCompiler.Text

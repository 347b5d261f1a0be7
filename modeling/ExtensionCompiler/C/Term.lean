import ExtensionCompiler.Decimal.Binary64
import ExtensionCompiler.Text.Joined

set_option autoImplicit false

/-! # C expressions

The C expressions that generated code is made of, as trees, and their text (`Term.render`). An
operation stands in parentheses, so its text can be an operand anywhere; `Term.plain` and
`Term.refuted` are the two forms without outer parentheses, which appear only where the code around
them delimits them. -/

namespace ExtensionCompiler.C

/-! ## Literals -/

/-- How a character is written inside a literal that stands between `quote`s. -/
def escapeChar (quote c : Char) : List Char :=
  if c = '\\' then ['\\', '\\']
  else if c = '\n' then ['\\', 'n']
  else if c = '\t' then ['\\', 't']
  else if c = '\r' then ['\\', 'r']
  else if c = '\x00' then ['\\', '0']
  else if c = quote then ['\\', c]
  else [c]

def escape (quote : Char) (cs : List Char) : List Char := cs.flatMap (escapeChar quote)

def charLiteral (c : Char) : String :=
  String.ofList ('\'' :: escapeChar '\'' c ++ ['\''])

def textLiteral (s : String) : String :=
  String.ofList ('"' :: escape '"' s.toList ++ ['"'])

/-! ## Expressions -/

inductive Term where
  | ident (name : String)
  | int (value : Int)
  | float (value : Decimal.Binary64)
  | char (value : Char)
  /-- A text, written with escapes. -/
  | text (value : String)
  /-- A text of the generator's own, written between quotes as it is. -/
  | verbatim (value : String)
  | index (base : String) (position : Term)
  | unary (operator : String) (operand : Term)
  | binary (left : Term) (operator : String) (right : Term)
  /-- A binary operation without parentheses around it. -/
  | plain (left : Term) (operator : String) (right : Term)
  /-- The negation of a condition. -/
  | refuted (condition : Term)
  | call (function : String) (args : List Term)
  | choice (condition yes no : Term)
deriving Repr, Inhabited

namespace Term

mutual

def render : Term → String
  | ident name => name
  | int value => Int.repr value
  | float value => value.render
  | char value => charLiteral value
  | text value => textLiteral value
  | verbatim value => "\"" ++ value ++ "\""
  | index base position => base ++ "[" ++ position.render ++ "]"
  | unary operator operand => "(" ++ operator ++ operand.render ++ ")"
  | binary left operator right =>
    "(" ++ left.render ++ " " ++ operator ++ " " ++ right.render ++ ")"
  | plain left operator right => left.render ++ " " ++ operator ++ " " ++ right.render
  | refuted condition => "!(" ++ condition.render ++ ")"
  | call function args => function ++ "(" ++ Text.commas (renderAll args) ++ ")"
  | choice condition yes no =>
    "(" ++ condition.render ++ " ? " ++ yes.render ++ " : " ++ no.render ++ ")"

/-- The texts of a list of expressions. -/
def renderAll : List Term → List String
  | [] => []
  | term :: rest => term.render :: renderAll rest

end

/-! ## The host runtime -/

def yes : Term := ident "Qtrue"

def no : Term := ident "Qfalse"

def nil : Term := ident "Qnil"

/-- The truth of an object, as C sees it. -/
def truth (object : Term) : Term := call "RTEST" [object]

/-- The interned name of a method. -/
def methodName (name : String) : Term := call "rb_intern" [verbatim name]

/-- A method call on an object. -/
def dispatch (receiver : Term) (method : String) (args : List Term) : Term :=
  call "rb_funcall" (receiver :: methodName method :: int args.length :: args)

end Term

end ExtensionCompiler.C

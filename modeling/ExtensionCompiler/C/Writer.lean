import ExtensionCompiler.C.Code

set_option autoImplicit false

/-! # Writing C source

A `Writer` is the text written so far, with the level of indentation. Indentation is written before
the first text of a line, so that an empty line has none. `Code.write` prints a tree, and
`Code.render` gives the text of a list of trees. -/

namespace ExtensionCompiler.C

/-- How generated code looks. -/
structure Layout where
  /-- Spaces for one level of indentation. A text can be of any length here; `compileWithin` is
  about widths that a machine has no room for. -/
  width : Nat := 2
  /-- Whether the places in the source are written as comments. -/
  locations : Bool := false
deriving DecidableEq, Repr

/-- The text written so far, and where the writer stands. -/
structure Writer where
  layout : Layout
  text : String := ""
  level : Nat := 0
  lineStart : Bool := true
deriving DecidableEq, Repr

namespace Writer

/-- Appends `s`. The first text of a line is indented; the empty text is no text. -/
def write (w : Writer) (s : String) : Writer :=
  if s.isEmpty then w
  else if w.lineStart then
    { w with
      text := w.text ++ Text.repeated (w.level * w.layout.width) ' ' ++ s
      lineStart := false }
  else { w with text := w.text ++ s }

def newLine (w : Writer) : Writer := { w with text := w.text ++ "\n", lineStart := true }

def line (w : Writer) (s : String) : Writer := (w.write s).newLine

def indent (w : Writer) : Writer := { w with level := w.level + 1 }

/-- One level less; at level zero nothing changes. -/
def dedent (w : Writer) : Writer := { w with level := w.level - 1 }

/-- The opening brace of a block. -/
def openBlock (w : Writer) : Writer := (w.line "\x7b").indent

/-- The closing brace of a block and what follows it on the line. -/
def closeBlock (w : Writer) (ending : String) : Writer :=
  ((w.dedent.write "\x7d").write ending).newLine

/-- A block around what `body` writes. -/
def block (w : Writer) (ending : String) (body : Writer → Writer) : Writer :=
  (body w.openBlock).closeBlock ending

/-! ## Lines of C -/

/-- The heading of a function of the file. -/
def headingText (result name params : String) : String :=
  "static " ++ result ++ " " ++ name ++ "(" ++ params ++ ")"

def prototype (w : Writer) (result name params : String) : Writer :=
  w.line (headingText result name params ++ ";")

def heading (w : Writer) (result name params : String) : Writer :=
  w.line (headingText result name params)

/-- The comment that names a place in the source, if the layout asks for it. -/
def location (w : Writer) (position : Position) : Writer :=
  if w.layout.locations then w.line ("/* " ++ position.render ++ " */") else w

/-- The lines of a list of declarations. -/
def declarations (w : Writer) : List Declaration → Writer
  | [] => w
  | d :: rest => (w.line d.render).declarations rest

/-- A writer that has written the comment at the top of a file. -/
def start (target : String) (layout : Layout) : Writer :=
  let w : Writer := { layout }
  ((w.line ("/* C extension for " ++ target ++ ".")).line
    "This file is generated by extc. Do not change!").line "*/"

end Writer

/-! ## Printing trees -/

namespace Code

/-- The registration of a method with the class it belongs to. -/
def defineMethod (klass name function : String) : Code :=
  .eval (.call "rb_define_method" [.ident klass, .verbatim name, .ident function, .int (-1)])

mutual

def write : Code → Writer → Writer
  | .location position, w => w.location position
  | .blank, w => w.newLine
  | .header spelling, w => w.line ("#include " ++ spelling)
  | .typedefTag tag name, w => w.line ("typedef " ++ tag ++ " " ++ name ++ ";")
  | .typedef type name, w => w.line ("typedef " ++ type.cDeclaration name ++ ";")
  | .aggregate tag members, w =>
    ((w.write (tag ++ " ")).openBlock.declarations members).closeBlock ";"
  | .declaration d, w => w.line d.render
  | .external name, w => w.line ("/* C function " ++ name ++ " declared. */")
  | .prototype h, w => w.prototype h.result.cType h.name h.params.render
  | .function h body, w =>
    ((writeAll body (w.heading h.result.cType h.name h.params.render).openBlock).closeBlock
      "").newLine
  | .entryPoint target body, w =>
    (writeAll body (w.line ("void Init_" ++ target ++ "(void)")).openBlock).closeBlock ""
  | .assign target value, w => w.line (target.render ++ " = " ++ value.render ++ ";")
  | .eval value, w => w.line (value.render ++ ";")
  | .give (some value), w => w.line ("return " ++ value.render ++ ";")
  | .give none, w => w.line "return;"
  | .leave, w => w.line "break;"
  | .block body, w => (writeAll body w.openBlock).closeBlock ""
  | .branch condition body rest, w =>
    writeRest rest
      ((writeAll body (w.write ("if (" ++ condition.render ++ ") ")).openBlock).closeBlock "")
  | .loop condition body, w =>
    (writeAll body (w.write ("while (" ++ condition.render ++ ") ")).openBlock).closeBlock ""
  | .count range body, w =>
    (writeAll body (w.write ("for (" ++ range.render ++ ") ")).openBlock).closeBlock ""

/-- What follows the body of a branch, on the line after its closing brace. -/
def writeRest : Rest → Writer → Writer
  | .nothing, w => w
  | .block body, w => (writeAll body (w.write "else ").openBlock).closeBlock ""
  | .branch condition body rest, w =>
    writeRest rest
      ((writeAll body
        ((w.write "else ").write ("if (" ++ condition.render ++ ") ")).openBlock).closeBlock "")

def writeAll : List Code → Writer → Writer
  | [], w => w
  | code :: rest, w => writeAll rest (code.write w)

end

/-- The text of a list of trees, from the start of a line at the left margin. -/
def render (layout : Layout) (codes : List Code) : String :=
  (writeAll codes { layout }).text

end Code

end ExtensionCompiler.C

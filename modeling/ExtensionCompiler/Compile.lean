import ExtensionCompiler.Stmt.Emission
import ExtensionCompiler.Stmt.Rescan

set_option autoImplicit false

/-! # Compilation of a unit

A unit is a list of statements. `check` runs the two passes over it and makes sure that no pending
type is left; `generate` lays out the C file of a checked unit; `compile` does both. -/

namespace ExtensionCompiler

/-- What a compilation is asked for. -/
structure Options where
  /-- The name of the extension. -/
  target : String := "extension"
  layout : C.Layout := {}
deriving Repr

/-- A checked unit: its statements, and the scopes and types that they declare. -/
structure Checked where
  unit : List Stmt
  checker : Checker

/-- A compiled unit: the text of the C file, and the scopes and types that went into it. -/
structure Compiled where
  code : String
  checker : Checker

/-! ## The check -/

/-- Analyses a unit, settles what was pending, and asks that nothing is left. The registry knows the
names that the unit announces. -/
def check (unit : List Stmt) (registry : Registry) : Except Error Checked :=
  let o := Stmt.analyseAll unit Checker.global (Checker.start registry)
  match o.error with
  | some e => .error e
  | none =>
    let (unit, c) := Stmt.rescanAll o.node Checker.global o.checker
    match c.unresolved? with
    | some e => .error e
    | none => .ok ⟨unit, c⟩

/-! ## The file -/

/-- The headers that every extension includes. -/
def standardHeaders : List String := ["<ruby.h>", "<stdint.h>", "<stdio.h>"]

/-- The lines of a section at the top of the file. -/
def sectionLines (unit : List Stmt) (c : Checker) (part : HeaderSection) : List C.Code :=
  (if part = .globals then
    ((c.scope Checker.global).declarations [] "static ").map .declaration
  else []) ++ Stmt.headerAll part unit c

/-- Writes a section, and an empty line after it if the text has grown. The first section always has
lines before it, and so the empty line too. -/
def writeSection (unit : List Stmt) (c : Checker) (w : C.Writer) (part : HeaderSection) :
    C.Writer :=
  let written := C.Code.writeAll (sectionLines unit c part) w
  if w.text.utf8ByteSize < written.text.utf8ByteSize ∨ part = .includes then written.newLine
  else written

/-- The text of the C file of a unit: includes and sections, definitions, and the function by which
the host loads the extension. -/
def generate (unit : List Stmt) (c : Checker) (options : Options) : String :=
  let w := C.Code.writeAll (standardHeaders.map .header)
    (C.Writer.start options.target options.layout)
  let w := C.Code.writeAll (Stmt.definitionCode unit c)
    (HeaderSection.all.foldl (writeSection unit c) w)
  (C.Code.write (.entryPoint options.target (Stmt.startAll unit c)) w).text

/-- Checks a unit and generates its C file. -/
def compile (unit : List Stmt) (registry : Registry) (options : Options) :
    Except Error Compiled :=
  match check unit registry with
  | .error e => .error e
  | .ok checked => .ok ⟨generate checked.unit checked.checker options, checked.checker⟩

/-! ## The file as trees

What stands in the file does not depend on the layout: `generate` writes the trees of `file`
(`generate_eq_writeAll`). -/

/-- A section with the empty line after it. An empty section has none, except for the first. -/
def sectionCode (unit : List Stmt) (c : Checker) (part : HeaderSection) : List C.Code :=
  let lines := sectionLines unit c part
  if lines.isEmpty && decide (part ≠ .includes) then [] else lines ++ [.blank]

/-- The C file of a unit without the comment at its top. -/
def file (unit : List Stmt) (c : Checker) (target : String) : List C.Code :=
  standardHeaders.map .header ++ HeaderSection.all.flatMap (sectionCode unit c)
    ++ Stmt.definitionCode unit c ++ [.entryPoint target (Stmt.startAll unit c)]

end ExtensionCompiler

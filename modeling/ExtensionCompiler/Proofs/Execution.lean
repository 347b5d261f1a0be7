import ExtensionCompiler.C.Code
import Mathlib.Logic.Relation

set_option autoImplicit false

/-! # Running C code

A `Machine` runs a list of trees. What its lines compute is not modelled: the machine records which
lines it executes and which conditions it tests, and the outcomes of the tests are given to it in
advance, as a sequence. So what a piece of code does under every possible course of its tests is a
statement about all sequences.

`Machine.next?` is one step. A block and the bodies of a branch are put before what follows them. A
loop is left open while its body runs, so that the end of the body leads back to its test, and
`break` to what follows it. -/

namespace ExtensionCompiler.C

/-- What is seen of a run. -/
inductive Event where
  /-- A line was executed. -/
  | line (code : Code)
  | test (condition : Term) (outcome : Bool)
  /-- The counter of a loop went on by one. -/
  | advance (counter : String) (descending : Bool)

/-- A loop of either kind. -/
inductive Round where
  | loop (condition : Term) (body : List Code)
  | count (range : Range) (body : List Code)

namespace Round

/-- What is tested before each time the body runs. -/
def condition : Round → Term
  | loop condition _ => condition
  | count range _ => .plain (.ident range.counter) range.operator range.stop

def body : Round → List Code
  | loop _ body => body
  | count _ body => body

/-- What happens between the body and the next test. -/
def advance : Round → List Event
  | loop _ _ => []
  | count range _ => [.advance range.counter range.descending]

end Round

/-- A loop whose body is running, and the code that follows it. -/
structure OpenLoop where
  round : Round
  after : List Code

structure Machine where
  /-- What is left to run, up to the end of the innermost loop that is open. -/
  code : List Code
  /-- The loops that are open, from the inside out. -/
  loops : List OpenLoop
  /-- The outcomes of the tests to come. -/
  outcomes : Nat → Bool
  trace : List Event

/-- What follows the body of a branch, as code. -/
def Rest.code : Rest → List Code
  | nothing => []
  | block body => [.block body]
  | branch condition body rest => [.branch condition body rest]

namespace Machine

/-- Tests a condition, and goes on with the code and the open loops of its outcome. -/
def test (m : Machine) (condition : Term) (yes no : List Code × List OpenLoop) : Machine where
  code := if m.outcomes 0 then yes.1 else no.1
  loops := if m.outcomes 0 then yes.2 else no.2
  outcomes n := m.outcomes (n + 1)
  trace := m.trace ++ [.test condition (m.outcomes 0)]

/-- Tests whether a loop goes on. -/
def enter (m : Machine) (round : Round) (after : List Code) (around : List OpenLoop) : Machine :=
  m.test round.condition (round.body, ⟨round, after⟩ :: around) (after, around)

/-- Executes a line, and goes on with `code` and the open loops `loops`. -/
def execute (m : Machine) (line : Code) (code : List Code) (loops : List OpenLoop) : Machine :=
  { m with code, loops, trace := m.trace ++ [.line line] }

/-- The machine one step later, if there is a step. A return ends the run, and so does a `break`
outside of all loops. -/
def next? (m : Machine) : Option Machine :=
  match m.code with
  | [] =>
    match m.loops with
    | [] => none
    | ⟨round, after⟩ :: around =>
      some ({ m with trace := m.trace ++ round.advance }.enter round after around)
  | line :: rest =>
    match line with
    | .block body => some { m with code := body ++ rest }
    | .branch condition body tail =>
      some (m.test condition (body ++ rest, m.loops) (tail.code ++ rest, m.loops))
    | .loop condition body => some (m.enter (.loop condition body) rest m.loops)
    | .count range body =>
      let begin : Code := .assign (.ident range.counter) range.start
      some ((m.execute begin [] m.loops).enter (.count range body) rest m.loops)
    | .leave =>
      match m.loops with
      | [] => none
      | ⟨_, after⟩ :: around => some { m with code := after, loops := around }
    | .give value => some (m.execute (.give value) [] [])
    | .declaration d => some (m.execute (.declaration d) rest m.loops)
    | .assign target value => some (m.execute (.assign target value) rest m.loops)
    | .eval value => some (m.execute (.eval value) rest m.loops)
    -- remarks, and what is written at the top of a file, do nothing when control passes them
    | .location _ | .blank | .header _ | .typedefTag _ _ | .typedef _ _ | .aggregate _ _
    | .external _ | .prototype _ | .function _ _ | .entryPoint _ _ => some { m with code := rest }

/-- The second machine is the first one, some steps later. A machine has at most one next step, so
there is one run from every machine. -/
def Reaches : Machine → Machine → Prop := Relation.ReflTransGen fun m m' => m.next? = some m'

namespace Reaches

variable {m m' m'' : Machine}

theorem refl (m : Machine) : m.Reaches m := Relation.ReflTransGen.refl

theorem trans (h : m.Reaches m') (h' : m'.Reaches m'') : m.Reaches m'' :=
  Relation.ReflTransGen.trans h h'

/-- A first step, and then the rest of the run. -/
theorem head (h : m.next? = some m') (h' : m'.Reaches m'') : m.Reaches m'' :=
  Relation.ReflTransGen.head h h'

end Reaches

/-! ## Lines and branches -/

variable (after : List Code) (loops : List OpenLoop) (outcomes : Nat → Bool)
  (trace : List Event)

/-- A block runs its body, and then what follows it. -/
theorem reaches_block (body : List Code) :
    Reaches ⟨.block body :: after, loops, outcomes, trace⟩
      ⟨body ++ after, loops, outcomes, trace⟩ :=
  .head rfl (.refl _)

/-- A branch runs its body or what follows it, as its test comes out. -/
theorem reaches_branch (condition : Term) (body : List Code) (rest : Rest) :
    Reaches ⟨.branch condition body rest :: after, loops, outcomes, trace⟩
      ⟨(if outcomes 0 then body else rest.code) ++ after, loops, fun n => outcomes (n + 1),
        trace ++ [.test condition (outcomes 0)]⟩ := by
  refine .head rfl ?_
  cases h : outcomes 0 <;> simp only [test, h] <;> exact .refl _

/-- Assignments are executed in order. -/
theorem reaches_assignments (lines : List Code)
    (h : ∀ line ∈ lines, ∃ target value, line = .assign target value) :
    Reaches ⟨lines ++ after, loops, outcomes, trace⟩
      ⟨after, loops, outcomes, trace ++ lines.map .line⟩ := by
  induction lines generalizing trace with
  | nil =>
      rw [List.map_nil, List.append_nil]
      exact .refl _
  | cons line rest ih =>
      obtain ⟨target, value, rfl⟩ := h line List.mem_cons_self
      have hrest := ih (trace ++ [.line (.assign target value)])
        fun l hl => h l (List.mem_cons_of_mem _ hl)
      rw [List.append_assoc] at hrest
      exact .head rfl hrest

end Machine

end ExtensionCompiler.C

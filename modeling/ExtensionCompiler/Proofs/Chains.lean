import ExtensionCompiler.Proofs.Execution
import ExtensionCompiler.Proofs.StepLines

set_option autoImplicit false

/-! # Chains of conditions at run time

The code of a chain of conditions has an `else if` where it can, and a branch inside an `else` block
where a condition takes steps before or after its test. Both come to the same: the conditions are
tried one after the other (`Expr.trial`), up to the first that holds, and then its body runs; if
none holds, the last body does.

`Chain.follow` says so by recursion on the chain, and `Chain.reaches_arrival` that the code does
what it says, whatever stands around it. `Stmt.conditional_reaches` names the condition that holds
by its place in the chain. -/

namespace ExtensionCompiler

open C (Event Machine OpenLoop)

namespace Chain

/-- The conditions of a chain in order, each with the body that it chooses. -/
def tests : Chain → List (Expr × List Stmt)
  | .done => []
  | .otherwise _ => []
  | .test condition body rest => (condition, body) :: rest.tests

/-- The body that runs if no condition holds, empty if there is none. -/
def last : Chain → List Stmt
  | .done => []
  | .otherwise body => body
  | .test _ _ rest => rest.last

end Chain

/-- A condition is tried: the steps before it, its test, and the steps after it. -/
def Expr.trial (condition : Expr) (outcome : Bool) : List Event :=
  condition.evaluate.map .line ++ [.test condition.condition outcome]
    ++ condition.dispose.map .line

/-! ## Where a chain leads -/

/-- How a chain comes to the body that it chooses: what is seen on the way, the body, and the
outcomes that are left. -/
structure Choice where
  events : List Event
  body : List Stmt
  outcomes : Nat → Bool

/-- The choice of a chain under given outcomes. -/
def Chain.follow (outcomes : Nat → Bool) : Chain → Choice
  | .done => ⟨[], [], outcomes⟩
  | .otherwise body => ⟨[], body, outcomes⟩
  | .test condition body rest =>
    let later := fun n => outcomes (n + 1)
    if outcomes 0 then ⟨condition.trial true, body, later⟩
    else ⟨condition.trial false ++ (follow later rest).events, (follow later rest).body,
      (follow later rest).outcomes⟩

/-- The machine that has made a choice and is about to run its body. -/
def Choice.arrival (choice : Choice) (c : Checker) (after : List C.Code) (loops : List OpenLoop)
    (trace : List Event) : Machine :=
  ⟨Stmt.codeAll choice.body c ++ after, loops, choice.outcomes, trace ++ choice.events⟩

namespace Chain

variable {outcomes : Nat → Bool} {body : List Stmt}

/-- Conditions that fail lead to what follows them. -/
theorem follow_of_fails {condition : Expr} {rest : Chain} (h : outcomes 0 = false) :
    follow outcomes (.test condition body rest)
      = ⟨condition.trial false ++ (follow (fun n => outcomes (n + 1)) rest).events,
        (follow (fun n => outcomes (n + 1)) rest).body,
        (follow (fun n => outcomes (n + 1)) rest).outcomes⟩ := by
  simp [follow, h]

theorem follow_of_holds {condition : Expr} {rest : Chain} (h : outcomes 0 = true) :
    follow outcomes (.test condition body rest)
      = ⟨condition.trial true, body, fun n => outcomes (n + 1)⟩ := by
  simp [follow, h]

/-- The first condition that holds chooses its body. The induction is on the conditions before
it. -/
theorem follow_of_first {chain : Chain}
    {before rest : List (Expr × List Stmt)} {e : Expr}
    (htests : chain.tests = before ++ (e, body) :: rest)
    (hfails : ∀ n, n < before.length → outcomes n = false)
    (hholds : outcomes before.length = true) :
    follow outcomes chain
      = ⟨before.flatMap (·.1.trial false) ++ e.trial true, body,
        fun n => outcomes (n + (before.length + 1))⟩ := by
  induction before generalizing chain outcomes with
  | nil =>
      cases chain with
      | done | otherwise => simp [tests] at htests
      | test first firstBody others =>
          obtain ⟨⟨rfl, rfl⟩, -⟩ : (first = e ∧ firstBody = body) ∧ others.tests = rest := by
            simpa [tests] using htests
          rw [follow_of_holds hholds]
          simp
  | cons test before ih =>
      cases chain with
      | done | otherwise => simp [tests] at htests
      | test first firstBody others =>
          obtain ⟨rfl, hothers⟩ :
              (first, firstBody) = test ∧ others.tests = before ++ (e, body) :: rest := by
            simpa [tests] using htests
          have hfirst : outcomes 0 = false := hfails 0 (by simp)
          have hlater := ih hothers
            (fun n hn => hfails (n + 1) (by simpa using hn)) (by simpa using hholds)
          rw [follow_of_fails hfirst, hlater]
          simp [Nat.add_assoc]

/-- If no condition holds, the last body is chosen. -/
theorem follow_of_none : (chain : Chain) → (outcomes : Nat → Bool) →
    (∀ n, n < chain.tests.length → outcomes n = false) →
    follow outcomes chain
      = ⟨chain.tests.flatMap (·.1.trial false), chain.last,
        fun n => outcomes (n + chain.tests.length)⟩
  | .done, _, _ => rfl
  | .otherwise _, _, _ => rfl
  | .test first firstBody others, outcomes, hfails => by
      have hfirst : outcomes 0 = false := hfails 0 (by simp [tests])
      have hlater := follow_of_none others (fun n => outcomes (n + 1))
        fun n hn => hfails (n + 1) (by simpa [tests] using hn)
      rw [follow_of_fails hfirst, hlater]
      simp [tests, last, Nat.add_assoc]

end Chain

/-! ## The steps around a condition -/

namespace Expr

variable (e : Expr)

theorem evaluate_eq_nil (h : e.needsTemp = false) : e.evaluate = [] := by
  rw [evaluate, e.evaluation_eq_nil_iff.mpr h, List.map_nil]

theorem dispose_eq_nil (h : e.needsTemp = false) : e.dispose = [] := by
  rw [dispose, e.disposal_eq_nil_iff.mpr h, List.map_nil]

end Expr

/-- Steps are executed in order. -/
theorem Step.reaches (steps : List Step) (after : List C.Code) (loops : List OpenLoop)
    (outcomes : Nat → Bool) (trace : List Event) :
    Machine.Reaches ⟨steps.map Step.code ++ after, loops, outcomes, trace⟩
      ⟨after, loops, outcomes, trace ++ (steps.map Step.code).map .line⟩ := by
  apply Machine.reaches_assignments
  intro line hline
  obtain ⟨step, -, rfl⟩ := List.mem_map.mp hline
  exact step.code_eq_assign

namespace Expr

variable (e : Expr) (after : List C.Code) (loops : List OpenLoop) (outcomes : Nat → Bool)
  (trace : List Event)

theorem reaches_evaluate :
    Machine.Reaches ⟨e.evaluate ++ after, loops, outcomes, trace⟩
      ⟨after, loops, outcomes, trace ++ e.evaluate.map .line⟩ :=
  Step.reaches e.evaluation after loops outcomes trace

theorem reaches_dispose :
    Machine.Reaches ⟨e.dispose ++ after, loops, outcomes, trace⟩
      ⟨after, loops, outcomes, trace ++ e.dispose.map .line⟩ :=
  Step.reaches e.disposal after loops outcomes trace

end Expr

/-! ## The code of a chain -/

namespace Chain

variable (c : Checker) (after : List C.Code) (loops : List OpenLoop)

/-- What follows the branch for a condition takes the steps after it and follows the rest of the
chain. -/
def RestFollows (condition : Expr) (rest : Chain) : Prop :=
  ∀ outcomes trace,
    Machine.Reaches ⟨(Stmt.restCode condition rest c).code ++ after, loops, outcomes, trace⟩
      ((follow outcomes rest).arrival c after loops (trace ++ condition.dispose.map .line))

variable {c after loops}

/-- A condition with its branch follows the chain that begins with it, if what follows the branch
follows the rest. -/
theorem RestFollows.reaches {condition : Expr} {rest : Chain}
    (h : RestFollows c after loops condition rest) (body : List Stmt) (outcomes : Nat → Bool)
    (trace : List Event) :
    Machine.Reaches
      ⟨condition.evaluate ++ .branch condition.condition (condition.dispose ++ Stmt.codeAll body c)
        (Stmt.restCode condition rest c) :: after, loops, outcomes, trace⟩
      ((follow outcomes (.test condition body rest)).arrival c after loops trace) := by
  refine (condition.reaches_evaluate _ loops outcomes trace).trans ?_
  refine (Machine.reaches_branch after loops outcomes _ _ _ _).trans ?_
  cases hfirst : outcomes 0 with
  | true =>
      have hbody := condition.reaches_dispose (Stmt.codeAll body c ++ after) loops
        (fun n => outcomes (n + 1))
        (trace ++ condition.evaluate.map .line ++ [.test condition.condition true])
      rw [follow_of_holds hfirst]
      simpa [Choice.arrival, Expr.trial] using hbody
  | false =>
      have hrest := h (fun n => outcomes (n + 1))
        (trace ++ condition.evaluate.map .line ++ [.test condition.condition false])
      rw [follow_of_fails hfirst]
      simpa [Choice.arrival, Expr.trial] using hrest

variable (c after loops)

/-- By recursion on the rest of the chain. In each case the code is a block just if a condition
takes steps; without steps there is nothing that the block would hold more. -/
theorem restFollows : (condition : Expr) → (rest : Chain) →
    RestFollows c after loops condition rest
  | condition, .done, outcomes, trace => by
      rw [Stmt.restCode]
      cases htemp : condition.needsTemp with
      | true =>
          refine (Machine.reaches_block after loops outcomes trace _).trans ?_
          simpa [Choice.arrival, follow, Stmt.codeAll]
            using condition.reaches_dispose after loops outcomes trace
      | false =>
          rw [condition.dispose_eq_nil htemp]
          simpa [Choice.arrival, follow, Stmt.codeAll, C.Rest.code] using Machine.Reaches.refl _
  | condition, .otherwise body, outcomes, trace => by
      rw [Stmt.restCode]
      cases htemp : condition.needsTemp with
      | true =>
          refine (Machine.reaches_block after loops outcomes trace _).trans ?_
          rw [List.append_assoc]
          refine (condition.reaches_dispose _ loops outcomes trace).trans ?_
          simpa [Choice.arrival, follow]
            using Machine.reaches_block after loops outcomes _ (Stmt.codeAll body c)
      | false =>
          rw [condition.dispose_eq_nil htemp]
          simpa [Choice.arrival, follow, C.Rest.code]
            using Machine.reaches_block after loops outcomes trace (Stmt.codeAll body c)
  | condition, .test next body rest, outcomes, trace => by
      have hnext := (restFollows next rest).reaches body outcomes
        (trace ++ condition.dispose.map .line)
      rw [Stmt.restCode]
      cases htemp : condition.needsTemp || next.needsTemp with
      | true =>
          refine (Machine.reaches_block after loops outcomes trace _).trans ?_
          rw [List.append_assoc, List.append_assoc]
          refine (condition.reaches_dispose _ loops outcomes trace).trans ?_
          simpa using hnext
      | false =>
          obtain ⟨hcondition, hnextTemp⟩ := Bool.or_eq_false_iff.mp htemp
          rw [condition.dispose_eq_nil hcondition] at hnext ⊢
          rw [next.evaluate_eq_nil hnextTemp] at hnext
          simpa [C.Rest.code] using hnext

/-- The code of a chain comes to the body that the chain chooses. -/
theorem reaches_arrival (chain : Chain) (outcomes : Nat → Bool) (trace : List Event) :
    Machine.Reaches ⟨Stmt.chainCode chain c ++ after, loops, outcomes, trace⟩
      ((follow outcomes chain).arrival c after loops trace) := by
  cases chain with
  | done =>
      simpa [Stmt.chainCode, Choice.arrival, follow, Stmt.codeAll] using Machine.Reaches.refl _
  | otherwise body =>
      simpa [Stmt.chainCode, Choice.arrival, follow]
        using Machine.reaches_block after loops outcomes trace (Stmt.codeAll body c)
  | test condition body rest =>
      rw [Stmt.chainCode, List.append_assoc]
      exact (restFollows c after loops condition rest).reaches body outcomes trace

end Chain

/-- **Chains of conditions mean what they say.** Whatever the outcomes of the tests, and whatever
stands around the statement: if there is a condition that holds and all before it fail, then these
conditions are tried in order, each with its own steps before and after its test, and its body comes
next; if all fail, they are all tried, and the last body comes next. After the body the run goes on
with what follows the statement. -/
theorem Stmt.conditional_reaches (chain : Chain) (position : Position) (c : Checker)
    (after : List C.Code) (loops : List OpenLoop) (outcomes : Nat → Bool) (trace : List Event) :
    (∀ before e body rest, chain.tests = before ++ (e, body) :: rest →
      (∀ n, n < before.length → outcomes n = false) → outcomes before.length = true →
      Machine.Reaches ⟨(Stmt.conditional chain position).code c ++ after, loops, outcomes, trace⟩
        ⟨Stmt.codeAll body c ++ after, loops, fun n => outcomes (n + (before.length + 1)),
          trace ++ (before.flatMap (·.1.trial false) ++ e.trial true)⟩)
    ∧ ((∀ n, n < chain.tests.length → outcomes n = false) →
      Machine.Reaches ⟨(Stmt.conditional chain position).code c ++ after, loops, outcomes, trace⟩
        ⟨Stmt.codeAll chain.last c ++ after, loops, fun n => outcomes (n + chain.tests.length),
          trace ++ chain.tests.flatMap (·.1.trial false)⟩) := by
  have hrun := Machine.Reaches.head (m := ⟨(Stmt.conditional chain position).code c ++ after,
    loops, outcomes, trace⟩) rfl (chain.reaches_arrival c after loops outcomes trace)
  constructor
  · intro before e body rest htests hfails hholds
    rwa [Chain.follow_of_first htests hfails hholds] at hrun
  · intro hfails
    rwa [chain.follow_of_none outcomes hfails] at hrun

/-- A chain of three conditions, of which the second is a call to the host. -/
def Chain.forkChain : Chain :=
  let here := Position.unknown
  let number (n : Int) := Expr.ofLiteral (.int n) here
  let negated := Expr.unary { position := here, type := .object } "-" (.ofName "o" here) (some "t")
  .test (number 1) [.print ⟨[number 4], here⟩]
    (.test negated [.print ⟨[number 5], here⟩]
      (.test (number 3) [] (.otherwise [.print ⟨[number 6], here⟩])))

/-- The second condition holds, and then none does. -/
theorem Chain.forkChain_reaches :
    let here := Position.unknown
    let number (n : Int) := Expr.ofLiteral (.int n) here
    let run (outcomes : Nat → Bool) : Machine :=
      ⟨(Stmt.conditional forkChain here).code (Checker.start .empty) ++ [.blank], [], outcomes, []⟩
    let printing (n : Int) : List C.Code :=
      (Stmt.print ⟨[number n], here⟩).code (Checker.start .empty)
    let call : Event := .line (.assign (.ident "t") (.dispatch (.ident "o") "-@" []))
    let release : Event := .line (.assign (.ident "t") .nil)
    (run (· == 1)).Reaches
        ⟨printing 5 ++ [.blank], [], fun n => n + 2 == 1,
          [.test (.int 1) false, call, .test (.truth (.ident "t")) true, release]⟩
      ∧ (run fun _ => false).Reaches
        ⟨printing 6 ++ [.blank], [], fun _ => false,
          [.test (.int 1) false, call, .test (.truth (.ident "t")) false, release,
            .test (.int 3) false]⟩ := by
  intro here number run printing call release
  have hfork := Stmt.conditional_reaches forkChain here (Checker.start .empty) [.blank] []
  constructor
  · exact (hfork (· == 1) []).1 [(number 1, _)] _ _ _ rfl (by decide) rfl
  · exact (hfork (fun _ => false) []).2 fun _ _ => rfl

end ExtensionCompiler

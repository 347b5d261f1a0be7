import ExtensionCompiler.Proofs.Chains
import ExtensionCompiler.Proofs.Emitted
import ExtensionCompiler.Proofs.Worlds

set_option autoImplicit false

/-! # Loops at run time

A condition that takes steps cannot stand in the head of a loop. Its loop runs without end instead,
computes the condition at the top of each round, and breaks off when the condition fails. Both forms
are one loop: in every world (`C.World`) the condition is tried before each round, with the steps
before and after it, and the body runs as long as it holds.

`Expr.tried` is one trial of the condition, and `Laps` are rounds of the loop, said without its
code. `Stmt.loop_runs` says that the code goes through the same rounds, and that the loop ends in no
other way than by a condition that fails or by a body that returns. -/

namespace ExtensionCompiler

open C (World Process OpenLoop Round)

/-- What the two forms of a loop ask of a world: the number 1 is true, and a negation does what its
condition does and comes out the other way. -/
structure C.World.Lawful {σ : Type} (w : World σ) : Prop where
  one : ∀ s, w.test (.int 1) s = some (true, s)
  refuted : ∀ condition s, w.test (.refuted condition) s
    = (w.test condition s).map fun r => (!r.1, r.2)

/-- Steps are executed in order. -/
theorem Step.follows {σ : Type} {w : World σ} (steps : List Step) (after : List C.Code)
    (loops : List OpenLoop) (s : σ) :
    w.Follows ⟨steps.map Step.code ++ after, loops, s⟩
      ((w.lines (steps.map Step.code) s).map (⟨after, loops, ·⟩)) := by
  apply C.World.follows_lines
  intro line hline
  obtain ⟨step, -, rfl⟩ := List.mem_map.mp hline
  exact step.code_eq_assign

/-! ## What a trial takes it gives back -/

namespace Step

/-- The temporary that a step fills. -/
def filled? : Step → Option String
  | dispatch temp _ _ _ => some temp
  | release _ => none

/-- The temporary that a step clears. -/
def cleared? : Step → Option String
  | dispatch _ _ _ _ => none
  | release temp => some temp

/-- How often the steps fill a temporary. -/
def fills (temp : String) (steps : List Step) : Nat := (steps.filterMap filled?).count temp

/-- How often the steps clear a temporary. -/
def clears (temp : String) (steps : List Step) : Nat := (steps.filterMap cleared?).count temp

variable (temp : String)

@[simp] theorem fills_nil : fills temp [] = 0 := rfl
@[simp] theorem clears_nil : clears temp [] = 0 := rfl

@[simp] theorem fills_append (steps steps' : List Step) :
    fills temp (steps ++ steps') = fills temp steps + fills temp steps' := by
  simp [fills]

@[simp] theorem clears_append (steps steps' : List Step) :
    clears temp (steps ++ steps') = clears temp steps + clears temp steps' := by
  simp [clears]

@[simp] theorem fills_dispatch (t method : String) (receiver : C.Term) (args : List C.Term)
    (steps : List Step) : fills temp (.dispatch t receiver method args :: steps)
      = fills temp steps + if t = temp then 1 else 0 := by
  simp [fills, filled?, List.count_cons]

@[simp] theorem clears_dispatch (t method : String) (receiver : C.Term) (args : List C.Term)
    (steps : List Step) :
    clears temp (.dispatch t receiver method args :: steps) = clears temp steps := rfl

@[simp] theorem fills_release (t : String) : fills temp [.release t] = 0 := rfl

@[simp] theorem clears_release (t : String) :
    clears temp [.release t] = if t = temp then 1 else 0 := by
  simp [clears, cleared?, List.count_singleton]

end Step

namespace Expr

mutual

/-- The steps after a value only clear. -/
theorem fills_disposal (temp : String) : (e : Expr) → Step.fills temp e.disposal = 0
  | .literal _ _ => rfl
  | .name _ _ _ _ => rfl
  | .element _ _ _ index => fills_disposal temp index
  | .unary _ _ _ (some _) => rfl
  | .unary _ _ operand none => fills_disposal temp operand
  | .binary _ _ _ _ (some _) => rfl
  | .binary _ left _ right none => by
      rw [disposal, Step.fills_append, fills_disposal temp left, fills_disposal temp right]
  | .call _ _ _ args => fills_disposalAll temp args

theorem fills_disposalAll (temp : String) : (args : List Expr) →
    Step.fills temp (disposalAll args) = 0
  | [] => rfl
  | e :: rest => by
      rw [disposalAll, Step.fills_append, fills_disposal temp e, fills_disposalAll temp rest]

end

mutual

/-- What the steps before a value fill is cleared by them or by the steps after it. -/
theorem clears_eq_fills (temp : String) : (e : Expr) →
    Step.clears temp e.evaluation + Step.clears temp e.disposal = Step.fills temp e.evaluation
  | .literal _ _ => rfl
  | .name _ _ _ _ => rfl
  | .element _ _ _ index => clears_eq_fills temp index
  | .unary _ _ operand t => by
      have h := clears_eq_fills temp operand
      have hdisposal := fills_disposal temp operand
      cases t with
      | none => simpa [evaluation, disposal] using h
      | some t =>
          simp only [evaluation, disposal, Step.clears_append, Step.fills_append,
            Step.clears_dispatch, Step.fills_dispatch, Step.clears_release]
          omega
  | .binary _ left _ right t => by
      have hleft := clears_eq_fills temp left
      have hright := clears_eq_fills temp right
      have hdisposal := fills_disposal temp left
      have hdisposal' := fills_disposal temp right
      cases t with
      | none =>
          simp only [evaluation, disposal, Step.clears_append, Step.fills_append, Step.clears_nil,
            Step.fills_nil]
          omega
      | some t =>
          simp only [evaluation, disposal, Step.clears_append, Step.fills_append,
            Step.clears_dispatch, Step.fills_dispatch, Step.clears_release]
          omega
  | .call _ _ _ args => clears_eq_fills_all temp args

theorem clears_eq_fills_all (temp : String) : (args : List Expr) →
    Step.clears temp (evaluationAll args) + Step.clears temp (disposalAll args)
      = Step.fills temp (evaluationAll args)
  | [] => rfl
  | e :: rest => by
      have h := clears_eq_fills temp e
      have hrest := clears_eq_fills_all temp rest
      simp only [evaluationAll, disposalAll, Step.clears_append, Step.fills_append]
      omega

end

end Expr

/-! ## One trial of the condition -/

namespace Expr

variable {σ : Type} (w : World σ) (condition : Expr) (body : List C.Code)

/-- A condition is tried: the steps before it, its test, and the steps after it. -/
def tried (s : σ) : Option (Bool × σ) :=
  (w.lines condition.evaluate s).bind fun s =>
    (w.test condition.condition s).bind fun r => (w.lines condition.dispose r.2).map (r.1, ·)

/-- The loop of a condition and a body, as it stands open while the body runs. -/
def round : Round :=
  if condition.needsTemp then
    .loop (.int 1)
      (condition.evaluate
        ++ [.branch (.refuted condition.condition) (condition.dispose ++ [.leave]) .nothing]
        ++ condition.dispose ++ body)
  else .loop condition.condition body

/-- Where a trial leads: to the body of the loop, or to what follows the loop. -/
def goal (after : List C.Code) (loops : List OpenLoop) (r : Bool × σ) : Process σ :=
  if r.1 then ⟨body, ⟨condition.round body, after⟩ :: loops, r.2⟩ else ⟨after, loops, r.2⟩

variable {w condition body} {after : List C.Code} {loops : List OpenLoop} {s : σ} {p : Process σ}

theorem step?_loopCode :
    w.step? ⟨condition.loopCode body :: after, loops, s⟩
      = w.enter (condition.round body) after loops s := by
  unfold loopCode round
  split
  · exact w.step?_loop _ _ _ _ _
  · exact w.step?_loop _ _ _ _ _

theorem step?_roundEnd :
    w.step? ⟨[], ⟨condition.round body, after⟩ :: loops, s⟩
      = w.enter (condition.round body) after loops s := by
  have hadvance : (condition.round body).advance = [] := by
    unfold round
    split <;> rfl
  rw [C.World.step?_nil, hadvance]
  rfl

/-- A condition without steps is tested in the head of the loop. -/
theorem enter_of_plain (h : condition.needsTemp = false) :
    w.enter (condition.round body) after loops s
      = (condition.tried w s).map (condition.goal body after loops) := by
  have hround : condition.round body = .loop condition.condition body := by
    rw [round, h]
    rfl
  have htried : condition.tried w s = w.test condition.condition s := by
    rw [tried, condition.evaluate_eq_nil h, condition.dispose_eq_nil h, C.World.lines,
      Option.bind_some]
    exact Option.bind_fun_some _
  rw [htried]
  unfold goal
  rw [hround]
  rfl

/-! ## The round of a condition with steps -/

variable (condition body)

/-- The branch at the top of a round that leaves the loop if the condition fails. -/
def exit : C.Code :=
  .branch (.refuted condition.condition) (condition.dispose ++ [.leave]) .nothing

/-- What is left of a round after the test of its condition. -/
def tested (b : Bool) : List C.Code :=
  if b then condition.dispose ++ body
  else condition.dispose ++ .leave :: (condition.dispose ++ body)

variable {condition body}

theorem enter_of_steps (hw : w.Lawful) (h : condition.needsTemp = true) :
    w.enter (condition.round body) after loops s
      = some ⟨condition.evaluate ++ condition.exit :: (condition.dispose ++ body),
          ⟨condition.round body, after⟩ :: loops, s⟩ := by
  have hround : condition.round body
      = .loop (.int 1) (condition.evaluate ++ condition.exit :: (condition.dispose ++ body)) := by
    rw [round, h]
    simp [exit]
  rw [hround, C.World.enter, Round.condition, hw.one, Option.map_some, if_pos rfl, Round.body]

theorem follows_exit (hw : w.Lawful) :
    w.Follows ⟨condition.exit :: (condition.dispose ++ body), loops, s⟩
      ((w.test condition.condition s).map fun r => ⟨condition.tested body r.1, loops, r.2⟩) := by
  have hstep : w.step? ⟨condition.exit :: (condition.dispose ++ body), loops, s⟩
      = (w.test condition.condition s).map fun r => ⟨condition.tested body r.1, loops, r.2⟩ := by
    rw [exit, C.World.step?_branch, hw.refuted]
    rcases w.test condition.condition s with _ | ⟨_ | _, s₁⟩
    · rfl
    · simp [tested]
    · rfl
  rw [← hstep]
  exact C.World.follows_step? (.inl (List.cons_ne_nil _ _))

/-- The steps after the condition are taken whether it holds or fails. -/
theorem follows_tested (b : Bool) :
    w.Follows ⟨condition.tested body b, ⟨condition.round body, after⟩ :: loops, s⟩
      ((w.lines condition.dispose s).map fun s => condition.goal body after loops (b, s)) := by
  cases b with
  | true => exact Step.follows condition.disposal body _ s
  | false =>
      have hsteps := Step.follows (w := w) condition.disposal
        (.leave :: (condition.dispose ++ body)) (⟨condition.round body, after⟩ :: loops) s
      rw [Option.map_eq_bind]
      refine hsteps.bind fun s' => ?_
      exact .head (w.step?_leave _ _ s' _ _) (.refl _)

/-- **A process at the test of a loop goes where the trial of the condition leads**, in whichever
form the loop is written. -/
theorem follows_tried (hw : w.Lawful)
    (hp : w.step? p = w.enter (condition.round body) after loops s) :
    (w.step? p = none → condition.tried w s = none)
      ∧ ∀ q, w.step? p = some q →
        w.Follows q ((condition.tried w s).map (condition.goal body after loops)) := by
  cases htemp : condition.needsTemp with
  | false =>
      rw [enter_of_plain htemp] at hp
      refine ⟨fun hnone => Option.map_eq_none_iff.mp (hp ▸ hnone), fun q hq => ?_⟩
      rw [← hp, hq]
      exact .refl q
  | true =>
      rw [enter_of_steps hw htemp] at hp
      refine ⟨fun hnone => ?_, fun q hq => ?_⟩
      · cases hp.symm.trans hnone
      cases hp.symm.trans hq
      have hsteps := Step.follows (w := w) condition.evaluation
        (condition.exit :: (condition.dispose ++ body)) (⟨condition.round body, after⟩ :: loops) s
      rw [tried, Option.map_bind]
      refine hsteps.bind fun s₀ => ?_
      rw [Function.comp_apply, Option.map_bind]
      refine (follows_exit hw).bind fun r => ?_
      rw [Function.comp_apply, Option.map_map]
      exact follows_tested r.1

end Expr

/-! ## Rounds -/

/-- The loop of a condition and a body goes through a number of rounds, from one state to another:
in each the condition is tried and holds, and the body runs to its end. -/
inductive Laps {σ : Type} (w : World σ) (condition : Expr) (body : List C.Code) :
    Nat → σ → σ → Prop
  | none {s : σ} : Laps w condition body 0 s s
  | more {n : Nat} {s s₁ s₂ s' : σ} :
      condition.tried w s = some (true, s₁) → w.Passes body s₁ s₂ →
      Laps w condition body n s₂ s' → Laps w condition body (n + 1) s s'

namespace Laps

variable {σ : Type} {w : World σ} {condition : Expr} {body after : List C.Code}
  {loops : List OpenLoop} {n : Nat} {s s' : σ} {p : Process σ}

theorem reaches_goal (hw : w.Lawful) {r : Bool × σ} (htried : condition.tried w s = some r)
    (hp : w.step? p = w.enter (condition.round body) after loops s) :
    w.Reaches p (condition.goal body after loops r) := by
  obtain ⟨hnone, hsome⟩ := Expr.follows_tried hw hp
  cases hstep : w.step? p with
  | none =>
      rw [hnone hstep] at htried
      cases htried
  | some q =>
      have hfollows := hsome q hstep
      rw [htried] at hfollows
      exact .head hstep hfollows

/-- Rounds of the loop are rounds of its code. The end of a body stands where the loop began. -/
theorem reaches (hw : w.Lawful) (h : Laps w condition body n s s') {r : Bool × σ}
    (htried : condition.tried w s' = some r)
    (hp : w.step? p = w.enter (condition.round body) after loops s) :
    w.Reaches p (condition.goal body after loops r) := by
  induction h generalizing p with
  | none => exact reaches_goal hw htried hp
  | @more n s s₁ s₂ s' hfirst hbody _ ih =>
      have hentered := reaches_goal hw hfirst hp
      have hpassed := hbody (⟨condition.round body, after⟩ :: loops)
      exact hentered.trans (hpassed.trans (ih htried Expr.step?_roundEnd))

/-- A body that runs to its end does not return. -/
theorem not_returns (hw : w.Lawful) (hpass : w.Passes body s s') (s'' : σ) :
    ¬ w.Returns body s s'' := by
  intro hreturn
  -- inside of a loop that does nothing, for ever
  let idle : OpenLoop := ⟨.loop (.int 1) [], []⟩
  have hstep : w.step? ⟨[], [idle], s'⟩ = some ⟨[], [idle], s'⟩ := by
    rw [C.World.step?_nil]
    simp [Round.advance, C.World.afterAll, C.World.enter, Round.condition, Round.body, hw.one, idle]
  have hnever (n : Nat) : w.runs n ⟨[], [idle], s'⟩ = some ⟨[], [idle], s'⟩ := by
    induction n with
    | zero => rfl
    | succ n ih => rw [C.World.runs_succ hstep, ih]
  obtain ⟨n, hn⟩ := (hreturn [idle]).of_reaches (hpass [idle])
  cases (hnever n).symm.trans hn

/-- There is one way to go through a number of rounds, and what comes after them is the next
round. -/
theorem next_of_succ (h : Laps w condition body n s s') {s'' : σ}
    (hmore : Laps w condition body (n + 1) s s'') :
    ∃ s₁ s₂, condition.tried w s' = some (true, s₁) ∧ w.Passes body s₁ s₂ := by
  induction h generalizing s'' with
  | none =>
      cases hmore with
      | more hfirst hbody _ => exact ⟨_, _, hfirst, hbody⟩
  | more hfirst hbody _ ih =>
      cases hmore with
      | more hfirst' hbody' hrest =>
          cases hfirst.symm.trans hfirst'
          obtain rfl := C.World.Ends.unique (hbody []) (hbody' [])
          exact ih hrest

end Laps

/-- How a loop that stands alone can end after some rounds: by a condition that fails, or by a body
that returns. -/
def EndsAfterLaps {σ : Type} (w : World σ) (condition : Expr) (body : List C.Code) (s s' : σ) :
    Prop :=
  ∃ n s₁, Laps w condition body n s s₁
    ∧ (condition.tried w s₁ = some (false, s')
      ∨ ∃ s₂, condition.tried w s₁ = some (true, s₂) ∧ w.Returns body s₂ s')

theorem EndsAfterLaps.of_runs {σ : Type} {w : World σ} (hw : w.Lawful) {condition : Expr}
    {body : List C.Code} (hbody : C.ClosedAll body) {n : Nat} {s s' : σ} {p : Process σ}
    (hp : w.step? p = w.enter (condition.round body) [] [] s)
    (hend : w.runs (n + 1) p = some ⟨[], [], s'⟩) : EndsAfterLaps w condition body s s' := by
  -- by induction on the length of the run: what follows a round is a shorter one
  induction n using Nat.strongRecOn generalizing p s with
  | ind n ih =>
      obtain ⟨q, hstep, hrun⟩ := Option.bind_eq_some_iff.mp hend
      have hfollows := (Expr.follows_tried hw hp).2 q hstep
      cases htried : condition.tried w s with
      | none =>
          rw [htried] at hfollows
          exact absurd ⟨n, hrun⟩ (hfollows s')
      | some r =>
          rw [htried] at hfollows
          obtain ⟨k, hk⟩ := hfollows
          obtain ⟨j, rfl, hj⟩ := C.World.runs_to_end hrun hk
          obtain ⟨b, s₁⟩ := r
          cases b with
          | false =>
              -- the loop is left, and nothing follows it
              obtain rfl : s₁ = s' := C.World.Ends.unique (.refl _) ⟨j, hj⟩
              exact ⟨0, s, .none, .inl htried⟩
          | true =>
              rcases C.World.runs_of_closed hbody hj with ⟨s₂, i, hi, hpass, hlater⟩ | hreturn
              · cases i with
                | zero => cases hlater
                | succ i =>
                    obtain ⟨m, s₃, hlaps, hlast⟩ :=
                      ih i (by omega) Expr.step?_roundEnd hlater
                    exact ⟨m + 1, s₃, .more htried hpass hlaps, hlast⟩
              · exact ⟨0, s, .none, .inr ⟨s₁, htried, hreturn⟩⟩

/-! ## The code of statements has no stray break -/

theorem C.closedAll_iff {code : List C.Code} :
    C.ClosedAll code ↔ ∀ line ∈ code, line.Closed := by
  induction code with
  | nil => simp [C.ClosedAll]
  | cons line rest ih => rw [C.ClosedAll, List.forall_mem_cons, ih]

theorem Step.closed_code {steps : List Step} : ∀ line ∈ steps.map Step.code, line.Closed := by
  intro line hline
  obtain ⟨step, -, rfl⟩ := List.mem_map.mp hline
  obtain ⟨target, value, heq⟩ := step.code_eq_assign
  rw [heq]
  trivial

namespace Stmt

open C (closedAll_iff) in
/-- The only `break` is that of a loop, and it stands in the loop. -/
theorem writes_closed (c : Checker) : Writes c (fun _ => True) C.Code.Closed where
  values :=
    { location := fun _ => trivial
      give := fun _ => trivial
      evaluate := fun _ _ => Step.closed_code
      dispose := fun _ => Step.closed_code
      assign := fun _ _ _ => trivial
      eval := fun _ => trivial
      print := fun _ => trivial }
  block _ hbody := closedAll_iff.mpr hbody
  branch _ _ hbody := ⟨closedAll_iff.mpr hbody, trivial⟩
  branch_block _ _ _ hbody hother := ⟨closedAll_iff.mpr hbody, closedAll_iff.mpr hother⟩
  branch_branch _ _ _ _ _ hbody hother := ⟨closedAll_iff.mpr hbody, hother⟩
  loop e _ _ _ := by
    unfold Expr.loopCode
    split <;> trivial
  count _ _ _ _ := trivial
  function d _ _ _ := by
    unfold Function.code
    split <;> simp [C.Code.Closed]
  method d _ _ _ := by
    unfold Method.code
    split <;> simp [C.Code.Closed]

theorem closedAll_codeAll (body : List Stmt) (c : Checker) : C.ClosedAll (codeAll body c) :=
  C.closedAll_iff.mpr ((writes_closed c).codeAll body fun _ _ => trivial)

/-- **Both forms of a loop are one loop.** Whatever the world, the condition, the body, and what
stands around the statement: after any number of rounds, the code tries the condition once more, and
goes on with the body if it holds and with what follows the statement if it fails. A statement that
stands alone comes to its end just by a condition that fails or a body that returns, after some
rounds, and never if the rounds go on for ever. The steps of one trial clear every temporary that
they fill. -/
theorem loop_runs {σ : Type} (w : World σ) (hw : w.Lawful) (condition : Expr) (body : List Stmt)
    (position : Position) (c : Checker) (s : σ) :
    (∀ after loops n s' s'', Laps w condition (codeAll body c) n s s' →
      condition.tried w s' = some (true, s'') →
      w.Reaches ⟨(Stmt.loop condition body position).code c ++ after, loops, s⟩
        ⟨codeAll body c, ⟨condition.round (codeAll body c), after⟩ :: loops, s''⟩)
    ∧ (∀ after loops n s' s'', Laps w condition (codeAll body c) n s s' →
      condition.tried w s' = some (false, s'') →
      w.Reaches ⟨(Stmt.loop condition body position).code c ++ after, loops, s⟩ ⟨after, loops, s''⟩)
    ∧ (∀ s', w.Ends ⟨(Stmt.loop condition body position).code c, [], s⟩ s' ↔
      EndsAfterLaps w condition (codeAll body c) s s')
    ∧ ((∀ n, ∃ s', Laps w condition (codeAll body c) n s s') →
      ∀ s', ¬ w.Ends ⟨(Stmt.loop condition body position).code c, [], s⟩ s')
    ∧ ∀ temp, Step.clears temp (condition.evaluation ++ condition.disposal)
      = Step.fills temp (condition.evaluation ++ condition.disposal) := by
  have hstart {after : List C.Code} {loops : List OpenLoop} {q : Process σ}
      (h : w.Reaches ⟨condition.loopCode (codeAll body c) :: after, loops, s⟩ q) :
      w.Reaches ⟨(Stmt.loop condition body position).code c ++ after, loops, s⟩ q :=
    .head (w.step?_location _ _ s position) h
  have hends (s' : σ) : w.Ends ⟨(Stmt.loop condition body position).code c, [], s⟩ s' →
      EndsAfterLaps w condition (codeAll body c) s s' := by
    rintro ⟨n, hn⟩
    -- the run passes the remark, and the loop takes at least one step
    rcases n with _ | _ | n
    · cases hn
    · cases hn
    · exact .of_runs hw (closedAll_codeAll body c) Expr.step?_loopCode hn
  refine ⟨fun after loops n s' s'' hlaps htried =>
      hstart (hlaps.reaches hw htried Expr.step?_loopCode),
    fun after loops n s' s'' hlaps htried =>
      hstart (hlaps.reaches hw htried Expr.step?_loopCode), fun s' => ⟨hends s', ?_⟩, ?_, ?_⟩
  · rintro ⟨n, s₁, hlaps, hlast | ⟨s₂, hlast, hreturn⟩⟩
    · exact hstart (hlaps.reaches hw hlast Expr.step?_loopCode)
    · exact hstart ((hlaps.reaches hw hlast Expr.step?_loopCode).trans (hreturn _))
  · intro hforever s' hend
    obtain ⟨n, s₁, hlaps, hlast⟩ := hends s' hend
    obtain ⟨s'', hmore⟩ := hforever (n + 1)
    obtain ⟨s₂, s₃, htried, hpass⟩ := hlaps.next_of_succ hmore
    rcases hlast with hfails | ⟨s₂', htried', hreturn⟩
    · cases hfails.symm.trans htried
    · cases htried'.symm.trans htried
      exact Laps.not_returns hw hpass s' hreturn
  · intro temp
    rw [Step.clears_append, Step.fills_append, condition.fills_disposal, condition.clears_eq_fills,
      Nat.add_zero]

end Stmt

/-! ## An instance

A world that records lines, and in which conditions hold a number of times. -/

/-- The outcome of a condition that would still hold `n` times: numbers and negations as the rules
of C have them, and anything else holds unless `n` is 0. -/
def C.Term.stillHolds (n : Nat) : C.Term → Bool
  | .int value => value != 0
  | .refuted condition => !condition.stillHolds n
  | _ => n != 0

/-- A number stays what it is. Testing anything else uses up one of the times. -/
def C.Term.timesLeft (n : Nat) : C.Term → Nat
  | .int _ => n
  | .refuted condition => condition.timesLeft n
  | _ => n - 1

/-- The state is how often conditions will hold, and the lines that were executed. -/
def C.World.recorder : World (Nat × List C.Code) where
  line code s := some (s.1, s.2 ++ [code])
  test condition s := some (condition.stillHolds s.1, condition.timesLeft s.1, s.2)
  advance _ _ s := some s

theorem C.World.recorder_lawful : recorder.Lawful where
  one _ := rfl
  refuted _ _ := rfl

/-- Two rounds of a loop whose condition calls the host, and of one whose condition is a variable.
The first makes three calls, and releases three times what they return. -/
theorem Stmt.loop_runs_twice :
    let here := Position.unknown
    let body := [Stmt.print ⟨[.ofLiteral (.int 5) here], here⟩]
    let c := Checker.start .empty
    let negated :=
      Expr.unary { position := here, type := .object } "-" (.ofName "o" here) (some "t")
    let call : C.Code := .assign (.ident "t") (.dispatch (.ident "o") "-@" [])
    let release : C.Code := .assign (.ident "t") .nil
    let printing : C.Code := .eval (.call "printf" [.verbatim "%d", .int 5])
    World.recorder.Reaches ⟨(Stmt.loop negated body here).code c ++ [.blank], [], (2, [])⟩
        ⟨[.blank], [], (0, [call, release, printing, call, release, printing, call, release])⟩
      ∧ World.recorder.Ends ⟨(Stmt.loop (.ofName "x" here) body here).code c, [], (2, [])⟩
        (0, [printing, printing]) := by
  intro here body c negated call release printing
  have hpass (s : Nat × List C.Code) :
      World.recorder.Passes (codeAll body c) s (s.1, s.2 ++ [printing]) := fun loops => ⟨2, rfl⟩
  have hcalls : Laps World.recorder negated (codeAll body c) 2 (2, [])
      (0, [call, release, printing, call, release, printing]) :=
    .more rfl (hpass _) (.more rfl (hpass _) .none)
  have hplain : Laps World.recorder (.ofName "x" here) (codeAll body c) 2 (2, [])
      (0, [printing, printing]) :=
    .more rfl (hpass _) (.more rfl (hpass _) .none)
  have hruns (condition : Expr) :=
    loop_runs World.recorder C.World.recorder_lawful condition body here c (2, [])
  constructor
  · exact (hruns negated).2.1 [.blank] [] 2 _ _ hcalls rfl
  · exact ((hruns (.ofName "x" here)).2.2.1 _).mpr ⟨2, _, hplain, .inl rfl⟩

end ExtensionCompiler

import ExtensionCompiler.Proofs.Execution

set_option autoImplicit false

/-! # Running C code in a world

The machine of `Execution` is told in advance how its tests come out. Here a `World` decides: it
says what a line does to a state, how a condition comes out, and what a counter does. A `Process` is
code that runs in a world. Of the two ways in which the next test can come out, `World.step?` takes
the one that the world agrees with; all else is the machine's.

A process ends at the end of its code, or at a return. Code without a stray `break` ends a loop
around it in no other way than by these two (`World.runs_of_closed`). -/

namespace ExtensionCompiler.C

/-- What lines, tests and counters do to a state. Where C leaves open what happens, there is no
state after it. -/
structure World (σ : Type) where
  line : Code → σ → Option σ
  test : Term → σ → Option (Bool × σ)
  advance : String → Bool → σ → Option σ

/-- Code that runs, with the loops that are open around it. -/
structure Process (σ : Type) where
  code : List Code
  loops : List OpenLoop
  state : σ

namespace World

variable {σ : Type} (w : World σ)

/-! ## Steps -/

/-- The state after an event, if it is one of this world: a test has to come out as the event
says. -/
def after (s : σ) : Event → Option σ
  | .line code => w.line code s
  | .test condition outcome =>
    (w.test condition s).bind fun r => if r.1 = outcome then some r.2 else none
  | .advance counter descending => w.advance counter descending s

def afterAll : σ → List Event → Option σ
  | s, [] => some s
  | s, event :: rest => (w.after s event).bind fun s => afterAll s rest

/-- The step of the machine in which a test, if there is one, comes out as told. -/
def attempt (outcome : Bool) (p : Process σ) : Option (Process σ) :=
  (Machine.next? ⟨p.code, p.loops, fun _ => outcome, []⟩).bind fun m =>
    (w.afterAll p.state m.trace).map fun s => ⟨m.code, m.loops, s⟩

/-- The process one step later, if there is a step. -/
def step? (p : Process σ) : Option (Process σ) := (w.attempt true p).or (w.attempt false p)

/-- A loop tests its condition, and goes on with its body or with what follows it. -/
def enter (round : Round) (after : List Code) (around : List OpenLoop) (s : σ) :
    Option (Process σ) :=
  (w.test round.condition s).map fun r =>
    if r.1 then ⟨round.body, ⟨round, after⟩ :: around, r.2⟩ else ⟨after, around, r.2⟩

theorem afterAll_append (s : σ) (before later : List Event) :
    w.afterAll s (before ++ later) = (w.afterAll s before).bind fun s => w.afterAll s later := by
  induction before generalizing s with
  | nil => rfl
  | cons event rest ih =>
      rw [List.cons_append, afterAll, afterAll, Option.bind_assoc]
      exact congrArg _ (funext ih)

/-- Of the two outcomes of a test the world agrees with one. -/
theorem or_test (condition : Term) (s : σ) (next : Bool → σ → Process σ) :
    ((w.afterAll s [.test condition true]).map (next true)).or
        ((w.afterAll s [.test condition false]).map (next false))
      = (w.test condition s).map fun r => next r.1 r.2 := by
  simp only [afterAll, World.after]
  rcases w.test condition s with _ | ⟨_ | _, s'⟩ <;> rfl

/-- A step in which the machine enters a loop, after some events. -/
theorem step?_of_enter {p : Process σ} {m : Bool → Machine} {round : Round} {after : List Code}
    {around : List OpenLoop} {before : List Event}
    (h : ∀ b, Machine.next? ⟨p.code, p.loops, fun _ => b, []⟩
      = some ((m b).enter round after around))
    (hm : ∀ b, (m b).outcomes 0 = b ∧ (m b).trace = before) :
    w.step? p = (w.afterAll p.state before).bind (w.enter round after around) := by
  simp only [step?, attempt, h, Machine.enter, Machine.test, hm, Option.bind_some, afterAll_append]
  cases w.afterAll p.state before with
  | none => rfl
  | some s =>
      exact w.or_test round.condition s fun b s =>
        if b then ⟨round.body, ⟨round, after⟩ :: around, s⟩ else ⟨after, around, s⟩

section

variable (rest : List Code) (loops : List OpenLoop) (s : σ)

theorem step?_final : w.step? ⟨[], [], s⟩ = none := rfl

theorem step?_assign (target value : Term) :
    w.step? ⟨.assign target value :: rest, loops, s⟩
      = (w.line (.assign target value) s).map (⟨rest, loops, ·⟩) := by
  simp only [step?, attempt, Machine.next?, Machine.execute, afterAll, World.after,
    List.nil_append, Option.bind_some]
  cases w.line (.assign target value) s <;> rfl

theorem step?_declaration (d : Declaration) :
    w.step? ⟨.declaration d :: rest, loops, s⟩
      = (w.line (.declaration d) s).map (⟨rest, loops, ·⟩) := by
  simp only [step?, attempt, Machine.next?, Machine.execute, afterAll, World.after,
    List.nil_append, Option.bind_some]
  cases w.line (.declaration d) s <;> rfl

theorem step?_eval (value : Term) :
    w.step? ⟨.eval value :: rest, loops, s⟩ = (w.line (.eval value) s).map (⟨rest, loops, ·⟩) := by
  simp only [step?, attempt, Machine.next?, Machine.execute, afterAll, World.after,
    List.nil_append, Option.bind_some]
  cases w.line (.eval value) s <;> rfl

theorem step?_branch (condition : Term) (body : List Code) (tail : Rest) :
    w.step? ⟨.branch condition body tail :: rest, loops, s⟩
      = (w.test condition s).map fun r =>
          ⟨(if r.1 then body else tail.code) ++ rest, loops, r.2⟩ := by
  rw [← w.or_test condition s fun b s => ⟨(if b then body else tail.code) ++ rest, loops, s⟩]
  simp [step?, attempt, Machine.next?, Machine.test]

theorem step?_loop (condition : Term) (body : List Code) :
    w.step? ⟨.loop condition body :: rest, loops, s⟩
      = w.enter (.loop condition body) rest loops s := by
  have hstep := w.step?_of_enter (p := ⟨.loop condition body :: rest, loops, s⟩) (fun _ => rfl)
    fun _ => ⟨rfl, rfl⟩
  exact hstep

/-- A loop over a range sets its counter before the first test. -/
theorem step?_count (range : Range) (body : List Code) :
    w.step? ⟨.count range body :: rest, loops, s⟩
      = (w.line (.assign (.ident range.counter) range.start) s).bind
          (w.enter (.count range body) rest loops) := by
  have hstep := w.step?_of_enter (p := ⟨.count range body :: rest, loops, s⟩) (fun _ => rfl)
    fun _ => ⟨rfl, rfl⟩
  rw [hstep, afterAll, Option.bind_assoc]
  rfl

/-- The end of the body of a loop leads back to its test. -/
theorem step?_nil (round : Round) (after : List Code) :
    w.step? ⟨[], ⟨round, after⟩ :: loops, s⟩
      = (w.afterAll s round.advance).bind (w.enter round after loops) :=
  w.step?_of_enter (fun _ => rfl) fun _ => ⟨rfl, rfl⟩

theorem step?_leave (round : Round) (after : List Code) :
    w.step? ⟨.leave :: rest, ⟨round, after⟩ :: loops, s⟩ = some ⟨after, loops, s⟩ := rfl

theorem step?_location (position : Position) :
    w.step? ⟨.location position :: rest, loops, s⟩ = some ⟨rest, loops, s⟩ := rfl

end

/-! ## Runs -/

/-- The process some steps later. -/
def runs : Nat → Process σ → Option (Process σ)
  | 0, p => some p
  | n + 1, p => (w.step? p).bind (runs n)

/-- The second process is the first one, some steps later. There is at most one next step, so there
is one run from every process. -/
def Reaches (p q : Process σ) : Prop := ∃ n, w.runs n p = some q

/-- The process comes to its end, in the given state. -/
def Ends (p : Process σ) (s : σ) : Prop := w.Reaches p ⟨[], [], s⟩

variable {w}

theorem runs_add {m n : Nat} {p q : Process σ} (h : w.runs m p = some q) :
    w.runs (m + n) p = w.runs n q := by
  induction m generalizing p with
  | zero =>
      cases h
      rw [Nat.zero_add]
  | succ m ih =>
      obtain ⟨p₁, hstep, hrest⟩ := Option.bind_eq_some_iff.mp h
      rw [Nat.add_right_comm, runs, hstep]
      exact ih hrest

theorem runs_succ {n : Nat} {p q : Process σ} (h : w.step? p = some q) :
    w.runs (n + 1) p = w.runs n q := by
  rw [runs, h, Option.bind_some]

/-- A run to the end goes through everything that is reached on the way. -/
theorem runs_to_end {k n : Nat} {p q : Process σ} {s : σ} (hend : w.runs n p = some ⟨[], [], s⟩)
    (h : w.runs k p = some q) : ∃ j, n = k + j ∧ w.runs j q = some ⟨[], [], s⟩ := by
  induction k generalizing p n with
  | zero =>
      cases h
      exact ⟨n, by omega, hend⟩
  | succ k ih =>
      obtain ⟨p₁, hstep, hrest⟩ := Option.bind_eq_some_iff.mp h
      cases n with
      | zero =>
          cases hend
          rw [step?_final] at hstep
          cases hstep
      | succ n =>
          rw [runs_succ hstep] at hend
          obtain ⟨j, rfl, hj⟩ := ih hend hrest
          exact ⟨j, by omega, hj⟩

namespace Reaches

variable {p q r : Process σ}

theorem refl (p : Process σ) : w.Reaches p p := ⟨0, rfl⟩

theorem trans (h : w.Reaches p q) (h' : w.Reaches q r) : w.Reaches p r := by
  obtain ⟨m, hm⟩ := h
  obtain ⟨n, hn⟩ := h'
  exact ⟨m + n, (runs_add hm).trans hn⟩

/-- A first step, and then the rest of the run. -/
theorem head (h : w.step? p = some q) (h' : w.Reaches q r) : w.Reaches p r := by
  obtain ⟨n, hn⟩ := h'
  exact ⟨n + 1, (runs_succ h).trans hn⟩

end Reaches

/-- What is reached on the way to the end comes to the same end. -/
theorem Ends.of_reaches {p q : Process σ} {s : σ} (h : w.Ends p s) (hq : w.Reaches p q) :
    w.Ends q s := by
  obtain ⟨n, hn⟩ := h
  obtain ⟨k, hk⟩ := hq
  obtain ⟨j, -, hj⟩ := runs_to_end hn hk
  exact ⟨j, hj⟩

theorem Ends.unique {p : Process σ} {s s' : σ} (h : w.Ends p s) (h' : w.Ends p s') : s = s' := by
  obtain ⟨n, hn⟩ := h.of_reaches h'
  cases n with
  | zero => cases hn; rfl
  | succ n => rw [runs, step?_final] at hn; cases hn

/-- The process goes where `next` says, and never comes to an end if it says nothing. -/
def Follows (w : World σ) (p : Process σ) : Option (Process σ) → Prop
  | some q => w.Reaches p q
  | none => ∀ s, ¬ w.Ends p s

/-- A process that cannot go on, and has not come to its end, never does. -/
theorem follows_step? {p : Process σ} (hgo : p.code ≠ [] ∨ p.loops ≠ []) :
    w.Follows p (w.step? p) := by
  cases hstep : w.step? p with
  | some q => exact .head hstep (.refl q)
  | none =>
      rintro s ⟨n, hn⟩
      cases n with
      | zero =>
          cases hn
          simp at hgo
      | succ n =>
          rw [runs, hstep] at hn
          cases hn

theorem Reaches.follows {p q : Process σ} (h : w.Reaches p q) {next : Option (Process σ)}
    (hnext : w.Follows q next) : w.Follows p next := by
  cases next with
  | some r => exact h.trans hnext
  | none => exact fun s hp => hnext s (hp.of_reaches h)

/-- One stretch of a run after the other. -/
theorem Follows.bind {α : Type} {p : Process σ} {o : Option α} {at' : α → Process σ}
    {next : α → Option (Process σ)} (h : w.Follows p (o.map at'))
    (hnext : ∀ a, w.Follows (at' a) (next a)) : w.Follows p (o.bind next) := by
  cases o with
  | some a => exact Reaches.follows h (hnext a)
  | none => exact h

/-- The state after lines that are executed in order. -/
def lines (w : World σ) : List Code → σ → Option σ
  | [], s => some s
  | line :: rest, s => (w.line line s).bind (lines w rest)

theorem lines_append (w : World σ) (code code' : List Code) (s : σ) :
    w.lines (code ++ code') s = (w.lines code s).bind (w.lines code') := by
  induction code generalizing s with
  | nil => rfl
  | cons line rest ih =>
      rw [List.cons_append, lines, lines, Option.bind_assoc]
      exact congrArg _ (funext ih)

/-- Lines that take one step each are executed in order. -/
theorem follows_of_steps (code after : List Code)
    (h : ∀ line ∈ code, ∀ rest loops s,
      w.step? ⟨line :: rest, loops, s⟩ = (w.line line s).map (⟨rest, loops, ·⟩))
    (loops : List OpenLoop) (s : σ) :
    w.Follows ⟨code ++ after, loops, s⟩ ((w.lines code s).map (⟨after, loops, ·⟩)) := by
  induction code generalizing s with
  | nil => exact .refl _
  | cons line rest ih =>
      have hstep := follows_step? (w := w)
        (p := ⟨line :: rest ++ after, loops, s⟩) (.inl (List.cons_ne_nil _ _))
      rw [List.cons_append, h line List.mem_cons_self] at hstep
      rw [lines, Option.map_bind]
      exact hstep.bind (ih fun l hl => h l (List.mem_cons_of_mem _ hl))

/-- Assignments are executed in order. -/
theorem follows_lines (code after : List Code)
    (h : ∀ line ∈ code, ∃ target value, line = .assign target value) (loops : List OpenLoop)
    (s : σ) : w.Follows ⟨code ++ after, loops, s⟩ ((w.lines code s).map (⟨after, loops, ·⟩)) := by
  refine follows_of_steps code after ?_ loops s
  intro line hline rest loops s
  obtain ⟨target, value, rfl⟩ := h line hline
  exact w.step?_assign rest loops s target value

/-- Declarations are executed in order. -/
theorem reaches_declarations {locals : List Declaration} {s s' : σ}
    (h : w.lines (locals.map .declaration) s = some s') (rest : List Code)
    (loops : List OpenLoop) :
    w.Reaches ⟨locals.map .declaration ++ rest, loops, s⟩ ⟨rest, loops, s'⟩ := by
  have hfollows := follows_of_steps (w := w) (locals.map .declaration) rest ?_ loops s
  · rw [h] at hfollows
    exact hfollows
  · intro line hline rest loops s
    obtain ⟨d, -, rfl⟩ := List.mem_map.mp hline
    exact w.step?_declaration rest loops s d

end World

/-! ## Code without a stray break -/

mutual

/-- Every `break` stands in a loop of its own. -/
def Code.Closed : Code → Prop
  | .leave => False
  | .block body => ClosedAll body
  | .branch _ body rest => ClosedAll body ∧ rest.Closed
  | _ => True

def Rest.Closed : Rest → Prop
  | .nothing => True
  | .block body => ClosedAll body
  | .branch _ body rest => ClosedAll body ∧ rest.Closed

def ClosedAll : List Code → Prop
  | [] => True
  | code :: rest => code.Closed ∧ ClosedAll rest

end

theorem closedAll_append {xs ys : List Code} :
    ClosedAll (xs ++ ys) ↔ ClosedAll xs ∧ ClosedAll ys := by
  induction xs with
  | nil => simp [ClosedAll]
  | cons code rest ih => rw [List.cons_append, ClosedAll, ClosedAll, ih, and_assoc]

theorem Rest.closedAll_code {rest : Rest} (h : rest.Closed) : ClosedAll rest.code := by
  cases rest with
  | nothing => trivial
  | block body | branch condition body tail => exact ⟨h, trivial⟩

/-- Code that runs inside of loops of its own, `inner`, can get out of them, but no further. -/
def Confined : List OpenLoop → List Code → Prop
  | [], code => ClosedAll code
  | l :: inner, _ => Confined inner l.after

theorem Confined.mono {inner : List OpenLoop} {code code' : List Code} (h : Confined inner code)
    (hcode : ClosedAll code → ClosedAll code') : Confined inner code' := by
  cases inner with
  | nil => exact hcode h
  | cons l inner => exact h

namespace Machine

/-- What is one step away, within the loops around it: inside of them still, or back from the
function. The loops around make no difference. -/
def StepsWithin (outcomes : Nat → Bool) (code : List Code) (inner : List OpenLoop) : Prop :=
  (∃ code' inner' later events, Confined inner' code' ∧ ∀ around,
      next? ⟨code, inner ++ around, outcomes, []⟩ = some ⟨code', inner' ++ around, later, events⟩)
    ∨ ∃ later events, ∀ around,
      next? ⟨code, inner ++ around, outcomes, []⟩ = some ⟨[], [], later, events⟩

theorem stepsWithin_enter {outcomes : Nat → Bool} {code after : List Code}
    {inner inner' : List OpenLoop} {round : Round} {m : List OpenLoop → Machine}
    (hafter : Confined inner' after) (hm : ∀ around, (m around).outcomes = outcomes)
    {before : List Event} (htrace : ∀ around, (m around).trace = before)
    (h : ∀ around, next? ⟨code, inner ++ around, outcomes, []⟩
      = some ((m around).enter round after (inner' ++ around))) :
    StepsWithin outcomes code inner := by
  simp only [enter, test, hm, htrace] at h
  left
  cases hfirst : outcomes 0 with
  | true =>
      simp only [hfirst, if_true] at h
      exact ⟨round.body, ⟨round, after⟩ :: inner', _, _, hafter, h⟩
  | false =>
      simp only [hfirst, Bool.false_eq_true, if_false] at h
      exact ⟨after, inner', _, _, hafter, h⟩

theorem stepsWithin {code : List Code} {inner : List OpenLoop} (h : Confined inner code)
    (hgo : code ≠ [] ∨ inner ≠ []) (outcomes : Nat → Bool) : StepsWithin outcomes code inner := by
  cases code with
  | nil =>
      cases inner with
      | nil => simp at hgo
      | cons l inner =>
          have hafter : Confined inner l.after := h
          exact stepsWithin_enter (m := fun around => ⟨[], l :: inner ++ around, outcomes, _⟩)
            hafter (fun _ => rfl) (fun _ => rfl) fun _ => rfl
  | cons line rest =>
      have hrest : Confined inner rest := h.mono fun hclosed => hclosed.2
      cases line with
      | block body =>
          exact .inl ⟨body ++ rest, inner, _, _,
            h.mono fun hclosed => closedAll_append.mpr hclosed, fun _ => rfl⟩
      | branch condition body tail =>
          left
          cases hfirst : outcomes 0 with
          | true =>
              refine ⟨body ++ rest, inner, fun n => outcomes (n + 1), [.test condition true],
                ?_, ?_⟩
              · exact h.mono fun hclosed => closedAll_append.mpr ⟨hclosed.1.1, hclosed.2⟩
              · simp [next?, test, hfirst]
          | false =>
              refine ⟨tail.code ++ rest, inner, fun n => outcomes (n + 1), [.test condition false],
                ?_, ?_⟩
              · exact h.mono fun hclosed =>
                  closedAll_append.mpr ⟨Rest.closedAll_code hclosed.1.2, hclosed.2⟩
              · simp [next?, test, hfirst]
      | loop condition body =>
          exact stepsWithin_enter (m := fun around => ⟨_, inner ++ around, outcomes, []⟩) hrest
            (fun _ => rfl) (fun _ => rfl) fun _ => rfl
      | count range body =>
          exact stepsWithin_enter
            (m := fun around => (⟨_, inner ++ around, outcomes, []⟩ : Machine).execute _ [] _) hrest
            (fun _ => rfl) (fun _ => rfl) fun _ => rfl
      | leave =>
          cases inner with
          | nil => exact absurd h.1 id
          | cons l inner => exact .inl ⟨l.after, inner, _, _, h, fun _ => rfl⟩
      | give value => exact .inr ⟨_, _, fun _ => rfl⟩
      | _ => exact .inl ⟨rest, inner, _, _, hrest, fun _ => rfl⟩

end Machine

namespace World

variable {σ : Type} (w : World σ)

/-- The code runs to its end, whatever stands around it. -/
def Passes (code : List Code) (s s' : σ) : Prop :=
  ∀ loops, w.Reaches ⟨code, loops, s⟩ ⟨[], loops, s'⟩

/-- The code returns from the function, whatever stands around it. -/
def Returns (code : List Code) (s s' : σ) : Prop := ∀ loops, w.Ends ⟨code, loops, s⟩ s'

variable {code : List Code}

/-- A step of a process within the loops around it, as `Machine.StepsWithin`; or the world has no
state after it. -/
theorem step?_within {inner : List OpenLoop} (h : Confined inner code)
    (hgo : code ≠ [] ∨ inner ≠ []) (s : σ) :
    (∀ around, w.step? ⟨code, inner ++ around, s⟩ = none)
      ∨ (∃ code' inner' s', Confined inner' code' ∧ ∀ around,
        w.step? ⟨code, inner ++ around, s⟩ = some ⟨code', inner' ++ around, s'⟩)
      ∨ ∃ s', ∀ around, w.step? ⟨code, inner ++ around, s⟩ = some ⟨[], [], s'⟩ := by
  -- each of the two outcomes leads within, or back, or is not what the world says
  have hattempt (b : Bool) : (∀ around, w.attempt b ⟨code, inner ++ around, s⟩ = none)
      ∨ (∃ code' inner' s', Confined inner' code' ∧ ∀ around,
        w.attempt b ⟨code, inner ++ around, s⟩ = some ⟨code', inner' ++ around, s'⟩)
      ∨ ∃ s', ∀ around, w.attempt b ⟨code, inner ++ around, s⟩ = some ⟨[], [], s'⟩ := by
    unfold attempt
    rcases Machine.stepsWithin h hgo fun _ => b with
      ⟨code', inner', later, events, hconfined, hnext⟩ | ⟨later, events, hnext⟩
    · simp only [hnext, Option.bind_some]
      cases w.afterAll s events with
      | none => exact .inl fun _ => rfl
      | some s' => exact .inr (.inl ⟨code', inner', s', hconfined, fun _ => rfl⟩)
    · simp only [hnext, Option.bind_some]
      cases w.afterAll s events with
      | none => exact .inl fun _ => rfl
      | some s' => exact .inr (.inr ⟨s', fun _ => rfl⟩)
  unfold step?
  rcases hattempt true with hnone | ⟨code', inner', s', hconfined, hsome⟩ | ⟨s', hsome⟩
  · simp only [hnone, Option.none_or]
    exact hattempt false
  · exact .inr (.inl ⟨code', inner', s', hconfined, fun around => by rw [hsome, Option.some_or]⟩)
  · exact .inr (.inr ⟨s', fun around => by rw [hsome, Option.some_or]⟩)

variable {w}

/-- Code without a stray break, inside of an open loop. If the process comes to its end, the code
runs to its own end first, or it returns. -/
theorem runs_of_confined {n : Nat} {inner : List OpenLoop}
    (h : Confined inner code) {l : OpenLoop} {loops : List OpenLoop} {s s' : σ}
    (hend : w.runs n ⟨code, inner ++ l :: loops, s⟩ = some ⟨[], [], s'⟩) :
    (∃ s₁ j, j ≤ n ∧ (∀ around, w.Reaches ⟨code, inner ++ around, s⟩ ⟨[], around, s₁⟩)
        ∧ w.runs j ⟨[], l :: loops, s₁⟩ = some ⟨[], [], s'⟩)
      ∨ ∀ around, w.Ends ⟨code, inner ++ around, s⟩ s' := by
  induction n generalizing code inner s with
  | zero => simp [runs] at hend
  | succ n ih =>
      by_cases hgo : code ≠ [] ∨ inner ≠ []
      · obtain ⟨p, hstep, hrest⟩ := Option.bind_eq_some_iff.mp hend
        rcases w.step?_within h hgo s with
          hnone | ⟨code', inner', s₁, hconfined, hsome⟩ | ⟨s₁, hsome⟩
        · rw [hnone] at hstep
          cases hstep
        · rw [hsome] at hstep
          cases hstep
          rcases ih hconfined hrest with ⟨s₂, j, hj, hpass, hlater⟩ | hreturn
          · exact .inl ⟨s₂, j, by omega, fun around => (hpass around).head (hsome around), hlater⟩
          · exact .inr fun around => (hreturn around).head (hsome around)
        · rw [hsome] at hstep
          cases hstep
          -- a process that is back from the function takes no further step
          obtain rfl : s₁ = s' := Ends.unique (.refl _) ⟨n, hrest⟩
          exact .inr fun around => .head (hsome around) (.refl _)
      · obtain ⟨rfl, rfl⟩ : code = [] ∧ inner = [] := by
          simpa using hgo
        exact .inl ⟨s, n + 1, Nat.le_refl _, fun _ => .refl _, hend⟩

theorem runs_of_closed {n : Nat} (h : ClosedAll code) {l : OpenLoop} {loops : List OpenLoop}
    {s s' : σ} (hend : w.runs n ⟨code, l :: loops, s⟩ = some ⟨[], [], s'⟩) :
    (∃ s₁ j, j ≤ n ∧ w.Passes code s s₁ ∧ w.runs j ⟨[], l :: loops, s₁⟩ = some ⟨[], [], s'⟩)
      ∨ w.Returns code s s' :=
  runs_of_confined (show Confined [] code from h) hend

end World

end ExtensionCompiler.C

import ExtensionCompiler.Proofs.Worlds

set_option autoImplicit false

/-! # The lines that a run executes

A step executes the first line of a process, or it tests, counts, or goes to another place in the
code (`World.step?_cases`). So a process executes no other lines than those of the code that it
began with: if all of them are of some kind, its run is one of lines of that kind
(`World.reachesBy_of_reaches`). Such a run keeps what the lines, the tests and the counters keep
(`World.ReachesBy.keeps`). -/

namespace ExtensionCompiler.C

namespace Code

mutual

/-- The lines in code that have no code inside. -/
def actions : Code → List Code
  | .block body => actionsAll body
  | .branch _ body rest => actionsAll body ++ actionsRest rest
  | .loop _ body => actionsAll body
  | .count _ body => actionsAll body
  | code => [code]

def actionsRest : Rest → List Code
  | .nothing => []
  | .block body => actionsAll body
  | .branch _ body rest => actionsAll body ++ actionsRest rest

def actionsAll : List Code → List Code
  | [] => []
  | code :: rest => code.actions ++ actionsAll rest

end

theorem actionsAll_append (xs ys : List Code) :
    actionsAll (xs ++ ys) = actionsAll xs ++ actionsAll ys := by
  induction xs with
  | nil => rfl
  | cons code rest ih => rw [List.cons_append, actionsAll, actionsAll, ih, List.append_assoc]

theorem actionsAll_code (rest : Rest) : actionsAll rest.code = actionsRest rest := by
  cases rest <;> simp [Rest.code, actionsAll, actions, actionsRest]

end Code

open Code (actions actionsAll)

/-- The lines that a loop and the code after it have. -/
def OpenLoop.actions (l : OpenLoop) : List Code := actionsAll l.round.body ++ actionsAll l.after

/-- The lines that are left to execute, in code and in the loops around it. -/
def actionsLeft (code : List Code) (loops : List OpenLoop) : List Code :=
  actionsAll code ++ loops.flatMap OpenLoop.actions

/-- The line can be executed in the next step: it is the first one, or it sets a counter. -/
def IsNext (code : List Code) (line : Code) : Prop :=
  code.head? = some line ∨ ∃ counter start, line = .assign (.ident counter) start

namespace Machine

/-- What a step does: it executes the first line or sets a counter, and leaves no lines to execute
that were not there before. -/
structure StepsTo (m m' : Machine) : Prop where
  actions : actionsLeft m'.code m'.loops ⊆ actionsLeft m.code m.loops
  line : ∀ line, .line line ∈ m'.trace → .line line ∈ m.trace ∨ IsNext m.code line

theorem StepsTo.test {m m₁ : Machine} {condition : Term} {yes no : List Code × List OpenLoop}
    (hyes : actionsLeft yes.1 yes.2 ⊆ actionsLeft m.code m.loops)
    (hno : actionsLeft no.1 no.2 ⊆ actionsLeft m.code m.loops)
    (hline : ∀ line, .line line ∈ m₁.trace → .line line ∈ m.trace ∨ IsNext m.code line) :
    m.StepsTo (m₁.test condition yes no) where
  actions := by
    rw [Machine.test]
    by_cases hfirst : m₁.outcomes 0 = true
    · rw [if_pos hfirst, if_pos hfirst]
      exact hyes
    · rw [if_neg hfirst, if_neg hfirst]
      exact hno
  line line hmem := by
    rw [Machine.test, List.mem_append] at hmem
    exact hline line (hmem.resolve_right (by simp))

theorem StepsTo.enter {m m₁ : Machine} {round : Round} {after : List Code}
    {around : List OpenLoop}
    (hactions : actionsAll round.body ++ actionsLeft after around ⊆ actionsLeft m.code m.loops)
    (hline : ∀ line, .line line ∈ m₁.trace → .line line ∈ m.trace ∨ IsNext m.code line) :
    m.StepsTo (m₁.enter round after around) := by
  rw [List.append_subset] at hactions
  refine .test ?_ hactions.2 hline
  show actionsAll round.body ++ (actionsAll round.body ++ actionsAll after
    ++ around.flatMap OpenLoop.actions) ⊆ _
  rw [List.append_assoc (actionsAll round.body)]
  exact List.append_subset.mpr ⟨hactions.1, List.append_subset.mpr hactions⟩

/-- A line that is executed as it stands. -/
theorem StepsTo.first {m : Machine} {line : Code} {rest : List Code} (h : m.code = line :: rest) :
    m.StepsTo (m.execute line rest m.loops) where
  actions := by
    rw [h]
    show actionsAll rest ++ _ ⊆ line.actions ++ actionsAll rest ++ _
    rw [List.append_assoc]
    exact List.subset_append_right _ _
  line other hmem := by
    rw [execute, List.mem_append, List.mem_singleton] at hmem
    rcases hmem with hold | hnew
    · exact .inl hold
    · cases hnew
      rw [h]
      exact .inr (.inl rfl)

/-- What does nothing leaves the lines after it. -/
theorem StepsTo.skip {m : Machine} {line : Code} {rest : List Code} (h : m.code = line :: rest) :
    m.StepsTo { m with code := rest } :=
  ⟨(StepsTo.first h).actions, fun _ hmem => .inl hmem⟩

/-- By cases on what stands first, as `next?` does. -/
theorem stepsTo_of_next? {m m' : Machine} (h : m.next? = some m') : m.StepsTo m' := by
  obtain ⟨code, loops, outcomes, trace⟩ := m
  cases code with
  | nil =>
      cases loops with
      | nil => cases h
      | cons l around =>
          cases h
          refine .enter ?_ ?_
          · rw [actionsLeft, actionsLeft, List.flatMap_cons, OpenLoop.actions, actionsAll,
              List.nil_append, List.append_assoc]
            exact List.Subset.refl _
          · intro line hmem
            refine .inl ((List.mem_append.mp hmem).resolve_right ?_)
            cases l.round <;> simp [Round.advance]
  | cons line rest =>
      cases line with
      | block body =>
          cases h
          refine ⟨?_, fun _ hmem => .inl hmem⟩
          rw [actionsLeft, actionsLeft, actionsAll, Code.actions, Code.actionsAll_append]
          exact List.Subset.refl _
      | branch condition body tail =>
          cases h
          refine .test ?_ ?_ fun _ hmem => .inl hmem
          · simp only [actionsLeft, actionsAll, Code.actions, Code.actionsAll_append]
            grind
          · simp only [actionsLeft, actionsAll, Code.actions, Code.actionsAll_append,
              Code.actionsAll_code]
            grind
      | loop condition body =>
          cases h
          refine .enter ?_ fun _ hmem => .inl hmem
          rw [actionsLeft, actionsLeft, actionsAll, Code.actions, Round.body, List.append_assoc]
          exact List.Subset.refl _
      | count range body =>
          cases h
          refine .enter ?_ ?_
          · rw [actionsLeft, actionsLeft, actionsAll, Code.actions, Round.body, List.append_assoc]
            exact List.Subset.refl _
          · intro line hmem
            rw [execute, List.mem_append, List.mem_singleton] at hmem
            rcases hmem with hold | hnew
            · exact .inl hold
            · cases hnew
              exact .inr (.inr ⟨_, _, rfl⟩)
      | leave =>
          cases loops with
          | nil => cases h
          | cons l around =>
              cases h
              refine ⟨?_, fun _ hmem => .inl hmem⟩
              simp only [actionsLeft, List.flatMap_cons, OpenLoop.actions]
              grind
      | give value =>
          cases h
          refine ⟨List.nil_subset _, ?_⟩
          intro line hmem
          rw [execute, List.mem_append, List.mem_singleton] at hmem
          rcases hmem with hold | hnew
          · exact .inl hold
          · cases hnew
            exact .inr (.inl rfl)
      | declaration d | assign target value | eval value => cases h; exact .first rfl
      | _ => cases h; exact .skip rfl

end Machine

/-! ## Steps and runs of a world -/

namespace World

variable {σ : Type} {w : World σ}

/-- What happens in a step, and what is left after it. -/
theorem step?_cases {p q : Process σ} (h : w.step? p = some q) :
    ∃ events, w.afterAll p.state events = some q.state
      ∧ (∀ line, .line line ∈ events → IsNext p.code line)
      ∧ actionsLeft q.code q.loops ⊆ actionsLeft p.code p.loops := by
  have hattempt (b : Bool) (hb : w.attempt b p = some q) : ∃ events,
      w.afterAll p.state events = some q.state
      ∧ (∀ line, .line line ∈ events → IsNext p.code line)
      ∧ actionsLeft q.code q.loops ⊆ actionsLeft p.code p.loops := by
    obtain ⟨m, hnext, hm⟩ := Option.bind_eq_some_iff.mp hb
    obtain ⟨s, hs, rfl⟩ := Option.map_eq_some_iff.mp hm
    have hsteps := Machine.stepsTo_of_next? hnext
    refine ⟨m.trace, hs, ?_, hsteps.actions⟩
    exact fun line hline => (hsteps.line line hline).resolve_left List.not_mem_nil
  rcases Option.or_eq_some_iff.mp h with hyes | ⟨-, hno⟩
  · exact hattempt true hyes
  · exact hattempt false hno

theorem afterAll_keeps {α : Type} {f : σ → α} {events : List Event}
    (h : ∀ event ∈ events, ∀ s s', w.after s event = some s' → f s' = f s) {s s' : σ}
    (hs : w.afterAll s events = some s') : f s' = f s := by
  induction events generalizing s with
  | nil =>
      cases hs
      rfl
  | cons event rest ih =>
      obtain ⟨hevent, hrest⟩ := List.forall_mem_cons.mp h
      obtain ⟨s₁, hfirst, hlater⟩ := Option.bind_eq_some_iff.mp hs
      exact (ih hrest hlater).trans (hevent s s₁ hfirst)

/-- A run in which the lines that are executed are all of one kind. -/
inductive ReachesBy (w : World σ) (allowed : Code → Prop) : Process σ → Process σ → Prop
  | refl (p : Process σ) : ReachesBy w allowed p p
  | head {p q r : Process σ} : (∀ line ∈ p.code.head?, allowed line) → w.step? p = some q →
      ReachesBy w allowed q r → ReachesBy w allowed p r

/-- What lines of the kind, counters and tests keep is kept by the run. -/
theorem ReachesBy.keeps {α : Type} {f : σ → α} {allowed : Code → Prop} {p q : Process σ}
    (h : w.ReachesBy allowed p q)
    (hline : ∀ line s s', allowed line → w.line line s = some s' → f s' = f s)
    (hset : ∀ counter start, allowed (.assign (.ident counter) start))
    (htest : ∀ condition s r, w.test condition s = some r → f r.2 = f s)
    (hadvance : ∀ counter down s s', w.advance counter down s = some s' → f s' = f s) :
    f q.state = f p.state := by
  induction h with
  | refl p => rfl
  | head hfirst hstep _ ih =>
      obtain ⟨events, hafter, hlines, -⟩ := step?_cases hstep
      refine ih.trans (afterAll_keeps ?_ hafter)
      intro event hevent s s' hs
      cases event with
      | line code =>
          refine hline code s s' ?_ hs
          rcases hlines code hevent with hhead | ⟨counter, start, rfl⟩
          · exact hfirst code hhead
          · exact hset counter start
      | test condition outcome =>
          obtain ⟨r, hr, houtcome⟩ := Option.bind_eq_some_iff.mp hs
          split at houtcome
          · cases houtcome
            exact htest condition s r hr
          · cases houtcome
      | advance counter down => exact hadvance counter down s s' hs

/-- All runs are of lines of the kind if all lines of the code are. -/
theorem reachesBy_of_reaches {allowed : Code → Prop}
    (hallowed : ∀ line : Code, (∀ a ∈ line.actions, allowed a) → allowed line) {p q : Process σ}
    (hp : ∀ line ∈ actionsLeft p.code p.loops, allowed line) (h : w.Reaches p q) :
    w.ReachesBy allowed p q := by
  obtain ⟨n, hn⟩ := h
  induction n generalizing p with
  | zero =>
      cases hn
      exact .refl _
  | succ n ih =>
      obtain ⟨p₁, hstep, hrest⟩ := Option.bind_eq_some_iff.mp hn
      obtain ⟨-, -, -, hsubset⟩ := step?_cases hstep
      refine .head ?_ hstep (ih (fun line hline => hp line (hsubset hline)) hrest)
      intro line hhead
      obtain ⟨rest, hcode⟩ := List.head?_eq_some_iff.mp hhead
      apply hallowed
      intro a ha
      apply hp
      rw [actionsLeft, hcode, actionsAll]
      exact List.mem_append_left _ (List.mem_append_left _ ha)

end World

end ExtensionCompiler.C

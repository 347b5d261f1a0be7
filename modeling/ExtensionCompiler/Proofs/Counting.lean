import ExtensionCompiler.Proofs.Integers
import ExtensionCompiler.Proofs.Loops
import ExtensionCompiler.Proofs.Steps

set_option autoImplicit false

/-! # Loops over a range

The head of a counting loop sets the counter, tests it against the second bound, and moves it on by
one, all in the counter's own type. `C.Range.Visits` says which values the counter takes between its
start and the first test that fails.

The source promises that these are the values between the bounds, in order
(`CountLoop.Lists`). That holds unless the head needs a number beside the last value of a type
(`CountLoop.Safe`): a range that includes the last value of the counter's type has no end, and a
bound that is excluded is passed by an addition that may leave its type.
`Stmt.count_visits` says that there are no other exceptions, for the code as it runs in every world
that computes the counter by the rules of C (`C.World.Keeps`). -/

namespace ExtensionCompiler

open C (World Process Round IntType Platform)

namespace C

/-! ## Values of the counter -/

namespace Range

variable (p : Platform) (t : IntType) (r : Range)

/-- The first value of a counter of type `t` that holds `v` before. -/
def begin? (v : Int) : Option Int :=
  (r.start.number? p r.counter t v).bind fun n => t.store n.2

/-- Whether the loop goes on with a value. -/
def goesOn? (v : Int) : Option Bool :=
  ((Term.plain (.ident r.counter) r.operator r.stop).number? p r.counter t v).map (·.2 != 0)

/-- The next value. -/
def next? (v : Int) : Option Int :=
  ((Term.plain (.ident r.counter) (if r.descending then "-" else "+") (.int 1)).number?
    p r.counter t v).bind fun n => t.store n.2

/-- The values that the counter takes from `v` on, until the loop ends. -/
inductive Visits : Int → List Int → Prop
  | stop {v : Int} : r.goesOn? p t v = some false → Visits v []
  | round {v v' : Int} {vs : List Int} :
      r.goesOn? p t v = some true → r.next? p t v = some v' → Visits v' vs → Visits v (v :: vs)

end Range

/-! ## Worlds with a counter -/

/-- The world keeps a number of type `t` in the variable `x`, by the rules of C, and stops where
they leave the outcome open. `value` is the number. -/
structure World.Keeps {σ : Type} (w : World σ) (p : Platform) (t : IntType) (x : String)
    (value : σ → Int) : Prop where
  assign : ∀ term s, term.isNumeric x = true →
    (w.line (.assign (.ident x) term) s).map value
      = (term.number? p x t (value s)).bind fun n => t.store n.2
  test : ∀ term s, term.isNumeric x = true →
    (w.test term s).map (fun q => (q.1, value q.2))
      = (term.number? p x t (value s)).map fun n => (n.2 != 0, value s)
  advance : ∀ s down,
    (w.advance x down s).map value
      = ((Term.plain (.ident x) (if down then "-" else "+") (.int 1)).number? p x t (value s)).bind
          fun n => t.store n.2

/-- The code runs to its end wherever it begins, and leaves the counter alone. It may be empty. -/
def World.Spares {σ : Type} (w : World σ) (value : σ → Int) (code : List Code) : Prop :=
  ∀ s, ∃ s', w.Passes code s s' ∧ value s' = value s

/-- A loop goes through rounds, from a state in which its head tests the counter to the one in which
the loop is left. The list has the states in which the head lets the body begin. -/
inductive World.Rounds {σ : Type} (w : World σ) (r : Range) (body : List Code) :
    σ → List σ → σ → Prop
  | leave {s s' : σ} :
      w.test (Round.count r body).condition s = some (false, s') → Rounds w r body s [] s'
  | round {s s₁ s₂ s₃ s' : σ} {states : List σ} :
      w.test (Round.count r body).condition s = some (true, s₁) → w.Passes body s₁ s₂ →
      w.advance r.counter r.descending s₂ = some s₃ → Rounds w r body s₃ states s' →
      Rounds w r body s (s₁ :: states) s'

/-- The head of a loop sets the counter, and then there are rounds. -/
def World.Loops {σ : Type} (w : World σ) (r : Range) (body : List Code) (s : σ) (states : List σ)
    (s' : σ) : Prop :=
  ∃ s₀, w.line (.assign (.ident r.counter) r.start) s = some s₀ ∧ w.Rounds r body s₀ states s'

section

variable {σ : Type} {w : World σ} {p : Platform} {t : IntType} {r : Range} {value : σ → Int}
  {body after : List Code} {loops : List OpenLoop} {v : Int} {vs : List Int} {s s' : σ}
  {states : List σ}

/-! ### Rounds are what the code does -/

theorem World.step?_roundEnd (w : World σ) (r : Range) (body after : List Code)
    (loops : List OpenLoop) (s : σ) :
    w.step? ⟨[], ⟨.count r body, after⟩ :: loops, s⟩
      = (w.advance r.counter r.descending s).bind (w.enter (.count r body) after loops) := by
  have honce : w.afterAll s (Round.count r body).advance = w.advance r.counter r.descending s :=
    Option.bind_fun_some _
  rw [step?_nil, honce]

theorem World.Rounds.reaches (h : w.Rounds r body s states s') {q : Process σ}
    (hq : w.step? q = w.enter (.count r body) after loops s) :
    w.Reaches q ⟨after, loops, s'⟩ := by
  induction h generalizing q with
  | leave htest =>
      refine .head (hq.trans ?_) (.refl _)
      rw [enter, htest]
      rfl
  | @round s s₁ s₂ s₃ s' states htest hpass hadvance _ ih =>
      have henter : w.step? q = some ⟨body, ⟨.count r body, after⟩ :: loops, s₁⟩ := by
        rw [hq, enter, htest]
        rfl
      have hback := w.step?_roundEnd r body after loops s₂
      rw [hadvance, Option.bind_some] at hback
      exact .head henter ((hpass _).trans (ih hback))

theorem World.Loops.passes (h : w.Loops r body s states s') (position : Position) :
    w.Passes [.location position, .count r body] s s' := by
  obtain ⟨s₀, hline, hrounds⟩ := h
  intro loops
  refine .head (w.step?_location _ _ s _) (hrounds.reaches ?_)
  rw [step?_count, hline, Option.bind_some]

/-- A loop that comes to its end has gone through rounds. -/
theorem World.rounds_of_runs (hbody : w.Spares value body) {n : Nat} {q : Process σ}
    (hq : w.step? q = w.enter (.count r body) [] [] s)
    (hend : w.runs (n + 1) q = some ⟨[], [], s'⟩) : ∃ states, w.Rounds r body s states s' := by
  -- by induction on the length of the run: what follows a round is a shorter one
  induction n using Nat.strongRecOn generalizing q s with
  | ind n ih =>
      obtain ⟨q₁, hstep, hrun⟩ := Option.bind_eq_some_iff.mp hend
      rw [hq, enter, Option.map_eq_some_iff] at hstep
      obtain ⟨⟨b, s₁⟩, htest, rfl⟩ := hstep
      cases b with
      | false =>
          obtain rfl : s₁ = s' := Ends.unique (.refl _) ⟨n, hrun⟩
          exact ⟨[], .leave htest⟩
      | true =>
          obtain ⟨s₂, hpass, -⟩ := hbody s₁
          obtain ⟨k, hk⟩ := hpass [⟨.count r body, []⟩]
          obtain ⟨j, rfl, hj⟩ := runs_to_end hrun hk
          cases j with
          | zero => cases hj
          | succ j =>
              have hback := w.step?_roundEnd r body [] [] s₂
              cases hadvance : w.advance r.counter r.descending s₂ with
              | none =>
                  -- the counter cannot be moved on
                  rw [hadvance] at hback
                  rw [runs, hback] at hj
                  cases hj
              | some s₃ =>
                  rw [hadvance] at hback
                  obtain ⟨states, hrounds⟩ := ih j (by omega) hback hj
                  exact ⟨_, .round htest hpass hadvance hrounds⟩

theorem World.loops_of_ends (hbody : w.Spares value body) {position : Position}
    (hend : w.Ends ⟨[.location position, .count r body], [], s⟩ s') :
    ∃ states, w.Loops r body s states s' := by
  obtain ⟨k, hk⟩ := hend
  -- the run passes the remark, and the loop takes at least one step
  rcases k with _ | _ | k
  · cases hk
  · cases hk
  · have hrun : w.runs (k + 1) ⟨[.count r body], [], s⟩ = some ⟨[], [], s'⟩ := hk
    have hstep := w.step?_count [] [] s r body
    cases hs₀ : w.line (.assign (.ident r.counter) r.start) s with
    | none =>
        rw [hs₀] at hstep
        rw [runs, hstep] at hrun
        cases hrun
    | some s₀ =>
        rw [hs₀] at hstep
        obtain ⟨states, hrounds⟩ := rounds_of_runs hbody hstep hrun
        exact ⟨states, s₀, hs₀, hrounds⟩

/-! ### The values of the counter in the rounds -/

namespace World.Keeps

variable (hw : w.Keeps p t r.counter value)
  (hhead : (Round.count r body).condition.isNumeric r.counter = true)
include hw hhead

/-- The head of the loop lets the body begin or leaves the loop, as the counter says. -/
theorem goesOn_of_test {b : Bool} {s₁ : σ}
    (h : w.test (Round.count r body).condition s = some (b, s₁)) :
    r.goesOn? p t (value s) = some b ∧ value s₁ = value s := by
  have htest := hw.test _ s hhead
  rw [h, Option.map_some] at htest
  obtain ⟨n, hnum, hview⟩ := Option.map_eq_some_iff.mp htest.symm
  simp only [Prod.mk.injEq] at hview
  exact ⟨Option.map_eq_some_iff.mpr ⟨n, hnum, hview.1⟩, hview.2.symm⟩

theorem exists_test {b : Bool} (h : r.goesOn? p t (value s) = some b) :
    ∃ s₁, w.test (Round.count r body).condition s = some (b, s₁) ∧ value s₁ = value s := by
  have htest := hw.test _ s hhead
  obtain ⟨n, hnum, hb⟩ := Option.map_eq_some_iff.mp h
  rw [show (Round.count r body).condition.number? p r.counter t (value s) = some n from hnum,
    Option.map_some, Option.map_eq_some_iff] at htest
  obtain ⟨⟨b', s₁⟩, hs₁, hview⟩ := htest
  simp only [Prod.mk.injEq, hb] at hview
  exact ⟨s₁, hview.1 ▸ hs₁, hview.2⟩

variable (hbody : w.Spares value body)
include hbody

theorem visits_of_rounds (h : w.Rounds r body s states s') :
    r.Visits p t (value s) (states.map value) := by
  induction h with
  | leave htest => exact .stop (hw.goesOn_of_test hhead htest).1
  | @round s s₁ s₂ s₃ s' states htest hpass hadvance _ ih =>
      obtain ⟨hgo, hvalue⟩ := hw.goesOn_of_test hhead htest
      obtain ⟨s₂', hpass', hvalue₂⟩ := hbody s₁
      obtain rfl := Ends.unique (hpass []) (hpass' [])
      have hnext := hw.advance s₂ r.descending
      rw [hadvance, hvalue₂, hvalue] at hnext
      rw [List.map_cons, hvalue]
      exact .round hgo hnext.symm ih

theorem rounds_of_visits (h : r.Visits p t v vs) (hs : value s = v) :
    ∃ states s', w.Rounds r body s states s' ∧ states.map value = vs := by
  induction h generalizing s with
  | stop hstop =>
      obtain ⟨s₁, htest, -⟩ := hw.exists_test hhead (hs ▸ hstop)
      exact ⟨[], s₁, .leave htest, rfl⟩
  | @round v v' vs hgo hnext _ ih =>
      obtain ⟨s₁, htest, hvalue⟩ := hw.exists_test hhead (hs ▸ hgo)
      obtain ⟨s₂, hpass, hvalue₂⟩ := hbody s₁
      have hadvance := hw.advance s₂ r.descending
      rw [hvalue₂, hvalue, hs] at hadvance
      obtain ⟨s₃, hs₃, hv'⟩ := Option.map_eq_some_iff.mp (hadvance.trans hnext)
      obtain ⟨states, s', hrounds, hvalues⟩ := ih hv'
      exact ⟨s₁ :: states, s', .round htest hpass hs₃ hrounds, by
        rw [List.map_cons, hvalue, hs, hvalues]⟩

variable (hstart : r.start.isNumeric r.counter = true)
include hstart

theorem loops_of_visits (hbegin : r.begin? p t (value s) = some v) (h : r.Visits p t v vs) :
    ∃ states s', w.Loops r body s states s' ∧ states.map value = vs := by
  obtain ⟨s₀, hline, hvalue⟩ :=
    Option.map_eq_some_iff.mp ((hw.assign r.start s hstart).trans hbegin)
  obtain ⟨states, s', hrounds, hvalues⟩ := hw.rounds_of_visits hhead hbody h hvalue
  exact ⟨states, s', ⟨s₀, hline, hrounds⟩, hvalues⟩

theorem visits_of_loops (h : w.Loops r body s states s') :
    ∃ v, r.begin? p t (value s) = some v ∧ r.Visits p t v (states.map value) := by
  obtain ⟨s₀, hline, hrounds⟩ := h
  have hassign := hw.assign r.start s hstart
  rw [hline, Option.map_some] at hassign
  exact ⟨value s₀, hassign.symm, hw.visits_of_rounds hhead hbody hrounds⟩

end World.Keeps

end

/-! ## The limits of a type -/

namespace IntType

/-- The value that comes last when counting in a direction. -/
def last (t : IntType) (up : Bool) : Int := if up then t.greatest else t.least

/-- The value that comes first when counting in a direction. -/
def first (t : IntType) (up : Bool) : Int := if up then t.least else t.greatest

/-- What counting in a direction adds. -/
def unit (up : Bool) : Int := if up then 1 else -1

@[simp] theorem unit_true : unit true = 1 := rfl

@[simp] theorem unit_false : unit false = -1 := rfl

theorem store_last_add_unit (t : IntType) (up : Bool) :
    t.store (t.last up + unit up) = if t.signed then none else some (t.first up) := by
  cases up with
  | true => exact t.store_greatest_add_one
  | false => exact t.store_least_sub_one

end IntType

theorem Platform.operate_unit (p : Platform) {t : IntType} {n : Int} (up : Bool) (hn : t.Holds n) :
    p.operate (if up then "+" else "-") (t, n) (p.intType true, 1)
      = ((p.promote t).store (n + IntType.unit up)).map (p.promote t, ·) := by
  have hone : (p.promote t).store 1 = some 1 := IntType.store_of_holds (IntType.holds_one _)
  have hstore : (p.promote t).store n = some n := IntType.store_of_holds (holds_promote hn)
  cases up <;> simp only [operate, commonType_int, hone, hstore, Option.bind_some] <;> rfl

end C

namespace CountLoop

/-! ## The promise and its exceptions -/

/-- Whether the loop counts up. -/
def isUpward (d : CountLoop) : Bool := decide (ascending? d.rightOperator = some true)

/-- Whether an operator leaves out the bound itself. -/
def isStrict (operator : String) : Bool := operator == "<" || operator == ">"

/-- The list holds the values of type `t` between the bounds `m` and `n`, each once and in the
direction of the loop. -/
def Lists (d : CountLoop) (t : IntType) (m n : Int) (vs : List Int) : Prop :=
  (∀ v, v ∈ vs ↔ t.Holds v ∧ C.compares d.leftOperator m v = true
      ∧ C.compares d.rightOperator v n = true)
    ∧ vs.Pairwise fun v v' => if d.isUpward then v < v' else v' < v

/-- The head of a loop from `m` to `n` needs no number beside the last value of a type. -/
structure Safe (p : Platform) (t : IntType) (d : CountLoop) (m n : Int) : Prop where
  /-- There is a number of C for each bound. -/
  left_written : (p.constantType? m).isSome
  right_written : (p.constantType? n).isSome
  /-- The counter can go beyond a bound that is included. -/
  ends : isStrict d.rightOperator = false → n ≠ t.last d.isUpward
  /-- One after a bound that is excluded is a number of the bound's type. -/
  start_defined : isStrict d.leftOperator = true → d.isUpward = true →
    ∀ u, p.constantType? m = some u → m ≠ u.greatest
  /-- It is also a value of the counter's type. If it wraps around, then to a value that the second
  bound excludes. -/
  starts : isStrict d.leftOperator = true → m = t.last d.isUpward →
    t.signed = false ∧ isStrict d.rightOperator = true ∧ n = t.first d.isUpward

/-- A comparison in a direction. -/
def comparison (up strict : Bool) : String :=
  match up, strict with
  | true, true => "<"
  | true, false => "<="
  | false, true => ">"
  | false, false => ">="

theorem comparison_of_isDirected {d : CountLoop} (h : d.isDirected = true) :
    ∃ up strict strict', d.leftOperator = comparison up strict
      ∧ d.rightOperator = comparison up strict' := by
  obtain ⟨hsome, heq⟩ : (ascending? d.leftOperator).isSome = true
      ∧ ascending? d.leftOperator = ascending? d.rightOperator := by
    simpa [isDirected] using h
  have hcases {operator : String} {up : Bool} (hop : ascending? operator = some up) :
      ∃ strict, operator = comparison up strict := by
    unfold ascending? at hop
    split at hop
    · cases hop; exact ⟨true, rfl⟩
    · cases hop; exact ⟨false, rfl⟩
    · cases hop; exact ⟨true, rfl⟩
    · cases hop; exact ⟨false, rfl⟩
    · cases hop
  obtain ⟨up, hup⟩ := Option.isSome_iff_exists.mp hsome
  obtain ⟨strict, hleft⟩ := hcases hup
  obtain ⟨strict', hright⟩ := hcases (heq ▸ hup)
  exact ⟨up, strict, strict', hleft, hright⟩

/-! ## Heads with numbers as bounds -/

/-- The head of a loop from `m` to `n`. -/
def head (x : String) (up strict strict' : Bool) (m n : Int) : C.Range where
  counter := x
  start := if strict then .plain (.int m) (if up then "+" else "-") (.int 1) else .int m
  operator := comparison up strict'
  stop := .int n
  descending := !up

section

variable {p : Platform} {t u : IntType} {x : String} {up strict strict' : Bool} {m n v v' : Int}
  {vs : List Int}

theorem goesOn?_head (hv : t.Holds v) (hn : t.Holds n) (hu : p.constantType? n = some u) :
    (head x up strict strict' m n).goesOn? p t v
      = some (C.compares (comparison up strict') v n) := by
  have hoperate := Platform.operate_compare (comparison up strict')
    (by cases up <;> cases strict' <;> decide) (by cases up <;> cases strict' <;> decide) hv hn hu
  simp only [C.Range.goesOn?, head, C.Term.number?, if_pos, hu, Option.map_some, Option.bind_some,
    hoperate]
  cases C.compares (comparison up strict') v n <;> rfl

theorem goesOn?_head_none (hn : p.constantType? n = none) :
    (head x up strict strict' m n).goesOn? p t v = none := by
  simp [C.Range.goesOn?, head, C.Term.number?, hn]

theorem next?_head (hv : t.Holds v) :
    (head x up strict strict' m n).next? p t v
      = ((p.promote t).store (v + IntType.unit up)).bind t.store := by
  have hoperate := p.operate_unit up hv
  have hdown : (if (head x up strict strict' m n).descending then "-" else "+")
      = if up then "+" else "-" := by cases up <;> rfl
  rw [C.Range.next?, hdown]
  simp only [head, C.Term.number?, if_pos, p.constantType?_one, Option.map_some, Option.bind_some,
    hoperate]
  cases (p.promote t).store (v + IntType.unit up) <;> rfl

theorem next?_head_of_holds (hv : t.Holds v) (hnext : t.Holds (v + IntType.unit up)) :
    (head x up strict strict' m n).next? p t v = some (v + IntType.unit up) := by
  rw [next?_head hv, IntType.store_of_holds (Platform.holds_promote hnext), Option.bind_some,
    IntType.store_of_holds hnext]

theorem holds_of_next? {r : C.Range} (h : r.next? p t v = some v') : t.Holds v' := by
  obtain ⟨k, -, hstore⟩ := Option.bind_eq_some_iff.mp h
  exact IntType.holds_of_store hstore

theorem holds_of_begin? {r : C.Range} (h : r.begin? p t v = some v') : t.Holds v' := by
  obtain ⟨k, -, hstore⟩ := Option.bind_eq_some_iff.mp h
  exact IntType.holds_of_store hstore

theorem begin?_head_inclusive (hu : p.constantType? m = some u) (hm : t.Holds m) :
    (head x up false strict' m n).begin? p t v = some m := by
  simp [C.Range.begin?, head, C.Term.number?, hu, IntType.store_of_holds hm]

theorem begin?_head_strict (hu : p.constantType? m = some u) :
    (head x up true strict' m n).begin? p t v = (u.store (m + IntType.unit up)).bind t.store := by
  obtain ⟨-, hwide, hholds⟩ := Platform.constantType?_eq_some hu
  have hoperate := p.operate_unit up hholds
  rw [Platform.promote_of_wide hwide] at hoperate
  simp only [C.Range.begin?, head, if_pos, C.Term.number?, hu, p.constantType?_one,
    Option.map_some, Option.bind_some, hoperate]
  cases u.store (m + IntType.unit up) <;> rfl

theorem begin?_head_none (hm : p.constantType? m = none) :
    (head x up strict strict' m n).begin? p t v = none := by
  cases strict <;> simp [C.Range.begin?, head, C.Term.number?, hm]

theorem isNumeric_head (x : String) (up strict strict' : Bool) (m n : Int) :
    (head x up strict strict' m n).start.isNumeric x = true
      ∧ ∀ body, (Round.count (head x up strict strict' m n) body).condition.isNumeric x = true := by
  constructor
  · cases up <;> cases strict <;> rfl
  · cases up <;> cases strict' <;> simp [Round.condition, head, C.Term.isNumeric, comparison]

/-! ## A head that needs no number beside a limit -/

/-- Values at equal distances. -/
def progression (v step : Int) : Nat → List Int
  | 0 => []
  | k + 1 => v :: progression (v + step) step k

theorem mem_progression {w step : Int} {k : Nat} :
    w ∈ progression v step k ↔ ∃ i < k, w = v + step * i := by
  induction k generalizing v with
  | zero => simp [progression]
  | succ k ih =>
      rw [progression, List.mem_cons, ih]
      constructor
      · rintro (rfl | ⟨i, hi, rfl⟩)
        · exact ⟨0, by omega, by simp⟩
        · refine ⟨i + 1, by omega, ?_⟩
          rw [Int.natCast_add, Int.mul_add]
          omega
      · rintro ⟨i, hi, rfl⟩
        cases i with
        | zero => exact .inl (by simp)
        | succ i =>
            refine .inr ⟨i, by omega, ?_⟩
            rw [Int.natCast_add, Int.mul_add]
            omega

theorem pairwise_progression (up : Bool) (v : Int) (k : Nat) :
    (progression v (IntType.unit up) k).Pairwise fun w w' => if up then w < w' else w' < w := by
  induction k generalizing v with
  | zero => exact .nil
  | succ k ih =>
      refine .cons (fun w hw => ?_) (ih _)
      obtain ⟨i, -, rfl⟩ := mem_progression.mp hw
      cases up <;> simp <;> omega

/-- The counter goes through a progression if the test holds on it, fails after it, and no value is
outside of the type. -/
theorem visits_progression (hn : t.Holds n) (hu : p.constantType? n = some u) {k : Nat}
    (hbefore : ∀ i : Nat, i < k →
      C.compares (comparison up strict') (v + IntType.unit up * i) n = true)
    (hafter : C.compares (comparison up strict') (v + IntType.unit up * k) n = false)
    (hholds : ∀ i : Nat, i ≤ k → t.Holds (v + IntType.unit up * i)) :
    (head x up strict strict' m n).Visits p t v (progression v (IntType.unit up) k) := by
  induction k generalizing v with
  | zero =>
      have hv : t.Holds v := by simpa using hholds 0 (Nat.le_refl 0)
      refine .stop ?_
      rw [goesOn?_head hv hn hu]
      simpa using hafter
  | succ k ih =>
      have hv : t.Holds v := by simpa using hholds 0 (Nat.zero_le _)
      have hshift (i : Nat) : v + IntType.unit up + IntType.unit up * i
          = v + IntType.unit up * (i + 1 : Nat) := by
        rw [Int.natCast_add, Int.mul_add]
        omega
      have hnext : t.Holds (v + IntType.unit up) := by simpa using hholds 1 (by omega)
      refine .round ?_ (next?_head_of_holds hv hnext) (ih ?_ ?_ ?_)
      · rw [goesOn?_head hv hn hu]
        simpa using hbefore 0 (by omega)
      · intro i hi
        rw [hshift]
        exact hbefore (i + 1) (by omega)
      · rw [hshift]
        exact hafter
      · intro i hi
        rw [hshift]
        exact hholds (i + 1) (by omega)

/-- How many values there are from `v` to the bound `n`. -/
def distance (up strict' : Bool) (v n : Int) : Nat :=
  (IntType.unit up * (n - v) + if strict' then 0 else 1).toNat

theorem compares_progression (up strict' : Bool) (v n : Int) (i : Nat) :
    C.compares (comparison up strict') (v + IntType.unit up * i) n = true
      ↔ i < distance up strict' v n := by
  cases up <;> cases strict' <;>
    simp [comparison, C.compares, distance] <;> omega

/-- From a value on, the counter goes as far as the second bound, if it can go beyond it. -/
theorem visits_distance (hv : t.Holds v) (hn : t.Holds n) (hu : p.constantType? n = some u)
    (hends : strict' = false → n ≠ t.last up) :
    (head x up strict strict' m n).Visits p t v
      (progression v (IntType.unit up) (distance up strict' v n)) := by
  refine visits_progression hn hu (fun i => (compares_progression up strict' v n i).mpr) ?_ ?_
  · rw [← Bool.not_eq_true, compares_progression]
    exact Nat.lt_irrefl _
  · intro i hi
    unfold distance at hi
    unfold IntType.Holds IntType.last at *
    cases up <;> cases strict' <;> simp at * <;> omega

theorem mem_progression_distance {w : Int} :
    w ∈ progression v (IntType.unit up) (distance up strict' v n)
      ↔ 0 ≤ IntType.unit up * (w - v) ∧ C.compares (comparison up strict') w n = true := by
  rw [mem_progression]
  constructor
  · rintro ⟨i, hi, rfl⟩
    refine ⟨?_, (compares_progression up strict' v n i).mpr hi⟩
    cases up <;> simp only [IntType.unit_true, IntType.unit_false] <;> omega
  · rintro ⟨hfrom, hto⟩
    have hw : w = v + IntType.unit up * ((IntType.unit up * (w - v)).toNat : Nat) := by
      rw [Int.toNat_of_nonneg hfrom]
      cases up <;> simp only [IntType.unit_true, IntType.unit_false] <;> omega
    rw [hw, compares_progression] at hto
    exact ⟨_, hto, hw⟩

/-- One after a bound is a value of the bound's own type, unless it is beyond the greatest. -/
theorem holds_start (hu : p.constantType? m = some u) (hdefined : up = true → m ≠ u.greatest) :
    u.Holds (m + IntType.unit up) := by
  cases up with
  | true =>
      have hne := hdefined rfl
      have hholds := (Platform.constantType?_eq_some hu).2.2
      simp only [IntType.Holds, IntType.unit, if_pos] at hholds ⊢
      omega
  | false => exact Platform.holds_sub_one_of_constantType? hu

theorem holds_add_unit (hm : t.Holds m) (hlast : m ≠ t.last up) :
    t.Holds (m + IntType.unit up) := by
  unfold IntType.Holds IntType.last at *
  cases up <;> simp at * <;> omega

/-- No value comes after the last. -/
theorem compares_last (hv : t.Holds v) : C.compares (comparison up true) (t.last up) v = false := by
  unfold IntType.Holds IntType.last at *
  cases up <;> simp [comparison, C.compares] at * <;> omega

/-- The first value satisfies every bound but one that excludes it. -/
theorem compares_first (hn : t.Holds n) :
    C.compares (comparison up strict') (t.first up) n = false
      ↔ strict' = true ∧ n = t.first up := by
  unfold IntType.Holds IntType.first at *
  cases up <;> cases strict' <;> simp [comparison, C.compares] at * <;> omega

/-- A bound that includes the last value is satisfied by every value. -/
theorem compares_to_last (hv : t.Holds v) :
    C.compares (comparison up false) v (t.last up) = true := by
  unfold IntType.Holds IntType.last at *
  cases up <;> simp [comparison, C.compares] at * <;> omega

/-- A value satisfies the bound before it just if it comes after the first that does. -/
theorem compares_from_iff (up strict : Bool) (m w : Int) :
    C.compares (comparison up strict) m w = true
      ↔ 0 ≤ IntType.unit up * (w - if strict then m + IntType.unit up else m) := by
  cases up <;> cases strict <;>
    simp only [comparison, C.compares, decide_eq_true_eq, IntType.unit_true, IntType.unit_false,
      Bool.false_eq_true, if_true, if_false] <;> omega

/-! ## The promise is kept just by the safe heads -/

variable {d : CountLoop} (hleft : d.leftOperator = comparison up strict)
  (hright : d.rightOperator = comparison up strict')
include hleft hright

theorem shape : d.isUpward = up ∧ isStrict d.leftOperator = strict
    ∧ isStrict d.rightOperator = strict' := by
  rw [isUpward, hleft, hright]
  refine ⟨?_, ?_, ?_⟩
  · cases up <;> cases strict' <;> rfl
  · cases up <;> cases strict <;> rfl
  · cases up <;> cases strict' <;> rfl

theorem lists_progression {a : Int} (ha : t.Holds a) (hn : t.Holds n)
    (hstart : ∀ w, t.Holds w →
      (C.compares (comparison up strict) m w = true ↔ 0 ≤ IntType.unit up * (w - a))) :
    d.Lists t m n (progression a (IntType.unit up) (distance up strict' a n)) := by
  refine ⟨fun w => ?_, ?_⟩
  · rw [mem_progression_distance, hleft, hright]
    constructor
    · rintro ⟨hfrom, hto⟩
      have hw : t.Holds w := by
        unfold IntType.Holds at *
        cases up <;> cases strict' <;> simp [comparison, C.compares] at * <;> omega
      exact ⟨hw, (hstart w hw).mpr hfrom, hto⟩
    · rintro ⟨hw, hfrom, hto⟩
      exact ⟨(hstart w hw).mp hfrom, hto⟩
  · rw [(shape hleft hright).1]
    exact pairwise_progression up a _

theorem lists_of_safe (hm : t.Holds m) (hn : t.Holds n) (hsafe : d.Safe p t m n) :
    ∃ a vs, (∀ v, (head x up strict strict' m n).begin? p t v = some a)
      ∧ (head x up strict strict' m n).Visits p t a vs ∧ d.Lists t m n vs := by
  obtain ⟨u, hu⟩ := Option.isSome_iff_exists.mp hsafe.left_written
  obtain ⟨u', hu'⟩ := Option.isSome_iff_exists.mp hsafe.right_written
  obtain ⟨hup, hstrict, hstrict'⟩ := shape hleft hright
  obtain ⟨-, -, hends, hdefined, hstarts⟩ := hsafe
  rw [hup] at hends hdefined hstarts
  rw [hstrict] at hdefined hstarts
  rw [hstrict'] at hends hstarts
  cases strict with
  | false =>
      refine ⟨m, _, fun v => begin?_head_inclusive hu hm, visits_distance hm hn hu' hends,
        lists_progression hleft hright hm hn fun w _ => ?_⟩
      exact compares_from_iff up false m w
  | true =>
      have hbound := holds_start hu fun h => hdefined rfl h u hu
      have hbegin (v : Int) : (head x up true strict' m n).begin? p t v
          = t.store (m + IntType.unit up) := by
        rw [begin?_head_strict hu, IntType.store_of_holds hbound, Option.bind_some]
      by_cases hlast : m = t.last up
      · -- the start wraps around, to a value that the second bound excludes
        obtain ⟨hunsigned, hexcludes, hfirst⟩ := hstarts rfl hlast
        have hwrap : t.store (m + IntType.unit up) = some (t.first up) := by
          rw [hlast, IntType.store_last_add_unit, hunsigned]
          rfl
        refine ⟨t.first up, [], fun v => (hbegin v).trans hwrap, .stop ?_, ?_, .nil⟩
        · rw [goesOn?_head (IntType.holds_of_store hwrap) hn hu', compares_first hn |>.mpr
            ⟨hexcludes, hfirst⟩]
        · rintro w
          rw [hleft, hlast]
          constructor
          · exact fun hmem => nomatch hmem
          · rintro ⟨hw, hfrom, -⟩
            rw [compares_last hw] at hfrom
            cases hfrom
      · have ha := holds_add_unit hm hlast
        refine ⟨_, _, fun v => (hbegin v).trans (IntType.store_of_holds ha),
          visits_distance ha hn hu' hends, lists_progression hleft hright ha hn fun w _ => ?_⟩
        exact compares_from_iff up true m w

omit hleft hright in
/-- A range that includes the last value of the counter's type has no end. -/
theorem not_visits_last (hn : n = t.last up) (hv : t.Holds v) :
    ¬ (head x up strict false m n).Visits p t v vs := by
  intro h
  have hlast : t.Holds (t.last up) := by
    have hzero := t.least_le_zero
    have hone := t.one_le_greatest
    unfold IntType.Holds IntType.last
    split <;> omega
  have hgo {v : Int} {b : Bool} (hv : t.Holds v)
      (hb : (head x up strict false m n).goesOn? p t v = some b) : b = true := by
    cases hu : p.constantType? n with
    | none =>
        rw [goesOn?_head_none hu] at hb
        cases hb
    | some u =>
        rw [goesOn?_head hv (hn ▸ hlast) hu, hn, compares_to_last hv] at hb
        exact (Option.some.inj hb).symm
  induction h with
  | stop hstop => cases hgo hv hstop
  | round _ hnext _ ih => exact ih (holds_of_next? hnext)

theorem safe_of_lists {a : Int} (hn : t.Holds n)
    (hbegin : (head x up strict strict' m n).begin? p t v = some a)
    (hvisits : (head x up strict strict' m n).Visits p t a vs) (hlists : d.Lists t m n vs) :
    d.Safe p t m n := by
  obtain ⟨hup, hstrict, hstrict'⟩ := shape hleft hright
  have ha := holds_of_begin? hbegin
  obtain ⟨u, hu⟩ : ∃ u, p.constantType? m = some u := by
    rw [← Option.ne_none_iff_exists']
    intro hnone
    rw [begin?_head_none hnone] at hbegin
    cases hbegin
  obtain ⟨u', hu'⟩ : ∃ u', p.constantType? n = some u' := by
    rw [← Option.ne_none_iff_exists']
    intro hnone
    cases hvisits with
    | stop hstop => cases (goesOn?_head_none hnone).symm.trans hstop
    | round hgo _ _ => cases (goesOn?_head_none hnone).symm.trans hgo
  have hsigned := (Platform.constantType?_eq_some hu).1
  refine ⟨by rw [hu]; rfl, by rw [hu']; rfl, ?_, ?_, ?_⟩
  · rw [hstrict', hup]
    rintro rfl rfl
    exact not_visits_last rfl ha hvisits
  · rw [hstrict, hup]
    rintro rfl rfl w hw rfl
    cases hu.symm.trans hw
    -- one after the greatest number of the bound's type is not defined
    rw [begin?_head_strict hu, IntType.unit, if_pos rfl, IntType.store_greatest_add_one,
      if_pos hsigned] at hbegin
    cases hbegin
  · rw [hstrict, hstrict', hup]
    rintro rfl rfl
    -- no value is after the last one, so the body did not run
    have hempty : vs = [] := by
      rw [List.eq_nil_iff_forall_not_mem]
      intro w hmem
      obtain ⟨hw, hfrom, -⟩ := (hlists.1 w).mp hmem
      rw [hleft, compares_last hw] at hfrom
      cases hfrom
    subst hempty
    have hstore : t.store (t.last up + IntType.unit up) = some a := by
      rw [begin?_head_strict hu] at hbegin
      obtain ⟨k, hk, hka⟩ := Option.bind_eq_some_iff.mp hbegin
      have hsame : k = t.last up + IntType.unit up := by
        rw [IntType.store, hsigned] at hk
        split at hk <;> cases hk
        rfl
      rwa [hsame] at hka
    rw [IntType.store_last_add_unit] at hstore
    split at hstore
    · cases hstore
    · next hunsigned =>
        cases hstore
        cases hvisits with
        | stop hstop =>
            rw [goesOn?_head ha hn hu'] at hstop
            obtain ⟨hexcludes, hfirst⟩ := (compares_first hn).mp (Option.some.inj hstop)
            exact ⟨by simpa using hunsigned, hexcludes, hfirst⟩

end

end CountLoop

/-! ## The code of an analysed loop -/

/-- A number that is fitted into a native slot stays as it is written. -/
theorem Expr.eq_literal_of_analyseInto {info : Info} {n : Int} {slot : Ty} {scope : ScopeId}
    {position : Position} {c c' : Checker} {e : Expr} (hslot : slot.isObject = false)
    (h : (Expr.literal info (.int n)).analyseInto slot scope position c = .ok e c') :
    ∃ info', e = .literal info' (.int n) ∧ info'.conversion = none := by
  have hnative (type : Ty) : (Literal.typeIn (.int n) type).isObject = false := by
    unfold Literal.typeIn
    split
    · split <;> rfl
    · next heq _ => cases heq
    · rfl
  rw [analyseInto, analyse, Outcome.andThen_ok, fit] at h
  have hdirect : Conversion.between ((Expr.literal { info with
      type := Literal.typeFor (.int n) (some slot) } (.int n)).naturalType) slot = .direct := by
    have hvalue := hnative slot
    simp [Conversion.between, naturalType, Expr.info, Literal.typeFor, hvalue, hslot]
  rw [hdirect] at h
  dsimp only [fit.check] at h
  split at h
  · cases h
    exact ⟨_, rfl, rfl⟩
  · cases h

namespace CountLoop

theorem isDirected_of_analyse {d : CountLoop} {scope : ScopeId} {c : Checker}
    (h : (d.analyse scope c).error = none) : d.isDirected = true := by
  unfold analyse at h
  split at h
  · assumption
  · cases h

/-- What is written for a loop whose bounds are numbers. -/
theorem code_of_analyse {p : Platform} {d d' : CountLoop} {scope : ScopeId} {c c' : Checker}
    {entry : Entry} {t : IntType} {info info' : Info} {m n : Int}
    (hok : d.analyse scope c = .ok d' c') (hcounter : c.find? scope d.counter = some entry)
    (ht : p.typeOf? entry.type = some t) (hleft : d.left = .literal info (.int m))
    (hright : d.right = .literal info' (.int n)) :
    ∃ up strict strict', d.leftOperator = comparison up strict
      ∧ d.rightOperator = comparison up strict'
      ∧ d'.range = head d'.counterCName up strict strict' m n
      ∧ ∀ body, d'.code body = [.location d'.position, .count d'.range body] := by
  have herror : (d.analyse scope c).error = none := by rw [hok]; rfl
  obtain ⟨up, strict, strict', hl, hr⟩ := comparison_of_isDirected (isDirected_of_analyse herror)
  obtain ⟨entry', left, right, c₁, c₂, hentry, hleftOk, hrightOk, hok'⟩ := analyse_ok herror
  cases hcounter.symm.trans hentry
  cases hok.symm.trans hok'
  have hslot := Platform.not_isObject_of_typeOf? ht
  rw [hleft] at hleftOk
  rw [hright] at hrightOk
  obtain ⟨i, rfl, hi⟩ := Expr.eq_literal_of_analyseInto hslot hleftOk
  obtain ⟨j, rfl, hj⟩ := Expr.eq_literal_of_analyseInto hslot hrightOk
  have hterm {info : Info} (k : Int) (h : info.conversion = none) :
      (Expr.literal info (.int k)).term = .int k := by
    rw [Expr.term, Info.convert, h]
    rfl
  refine ⟨up, strict, strict', hl, hr, ?_, fun body => rfl⟩
  simp only [range, startTerm, hl, hr, hterm m hi, hterm n hj, head]
  cases up <;> cases strict <;> cases strict' <;> rfl

end CountLoop

theorem Stmt.analyse_of_analyse_count {d d' : CountLoop} {body body' : List Stmt} {scope : ScopeId}
    {c c' : Checker} (hok : (Stmt.count d body).analyse scope c = .ok (.count d' body') c') :
    ∃ c₁, d.analyse scope c = .ok d' c₁ := by
  rw [analyse] at hok
  obtain ⟨d₁, c₁, hd₁, -, hrest⟩ := Outcome.andThen_inv (by rw [hok]; rfl)
  rw [hd₁, Outcome.andThen_ok] at hok
  cases congrArg Outcome.node hok
  exact ⟨c₁, hd₁⟩

/-- **A loop over a range visits the range, unless it needs a number beside a limit.** The bounds
are numbers of the counter's type, and the body leaves the counter alone. The values of the counter
are those that the head lets the body begin with. If the head is safe then the loop ends, and these
are the values between the bounds, in order. If not, it does not end so: it has no end, or runs into
what C does not define, or it goes through rounds with other values. -/
theorem Stmt.count_visits {σ : Type} (p : Platform) (w : World σ) {d d' : CountLoop}
    {body body' : List Stmt} {scope : ScopeId} {c c' : Checker}
    (hok : (Stmt.count d body).analyse scope c = .ok (.count d' body') c') {entry : Entry}
    (hcounter : c.find? scope d.counter = some entry) {t : IntType}
    (ht : p.typeOf? entry.type = some t) {info info' : Info} {m n : Int}
    (hleft : d.left = .literal info (.int m)) (hright : d.right = .literal info' (.int n))
    (hm : t.Holds m) (hn : t.Holds n) {value : σ → Int}
    (hw : w.Keeps p t d'.counterCName value) (c'' : Checker)
    (hbody : w.Spares value (codeAll body' c'')) (s : σ) :
    (d.Safe p t m n → ∃ states s', w.Loops d'.range (codeAll body' c'') s states s'
      ∧ w.Passes ((Stmt.count d' body').code c'') s s' ∧ d.Lists t m n (states.map value))
    ∧ (¬ d.Safe p t m n →
      (∀ s', w.Ends ⟨(Stmt.count d' body').code c'', [], s⟩ s' →
        ∃ states, w.Loops d'.range (codeAll body' c'') s states s')
      ∧ ∀ states s', w.Loops d'.range (codeAll body' c'') s states s' →
          ¬ d.Lists t m n (states.map value)) := by
  obtain ⟨c₁, hd'⟩ := analyse_of_analyse_count hok
  obtain ⟨up, strict, strict', hl, hr, hrange, hcode⟩ :=
    CountLoop.code_of_analyse hd' hcounter ht hleft hright
  obtain ⟨hstart, hhead⟩ := CountLoop.isNumeric_head d'.counterCName up strict strict' m n
  rw [code, hcode, hrange]
  constructor
  · intro hsafe
    obtain ⟨v, vs, hbegin, hvisits, hlists⟩ := CountLoop.lists_of_safe hl hr hm hn hsafe
    obtain ⟨states, s', hloops, hvalues⟩ :=
      hw.loops_of_visits (hhead _) hbody hstart (hbegin _) hvisits
    exact ⟨states, s', hloops, hloops.passes d'.position, hvalues ▸ hlists⟩
  · intro hunsafe
    refine ⟨fun s' hend => World.loops_of_ends hbody hend, fun states s' hloops hlists => ?_⟩
    obtain ⟨v, hbegin, hvisits⟩ := hw.visits_of_loops (hhead _) hbody hstart hloops
    exact hunsafe (CountLoop.safe_of_lists hl hr hn hbegin hvisits hlists)

/-! ## Instances -/

namespace C

/-- A platform with the usual widths. -/
def Platform.lp64 : Platform where
  charSigned := true
  short := 16
  int := 32
  long := 64
  longLong := 64

/-- A world with one variable, which follows the rules of C. -/
def World.ofCounter (p : Platform) (t : IntType) (x : String) : World Int where
  line code v :=
    match code with
    | .assign (.ident y) term =>
      if y = x then (term.number? p x t v).bind fun n => t.store n.2 else some v
    | _ => some v
  test term v := (term.number? p x t v).map fun n => (n.2 != 0, v)
  advance y down v :=
    if y = x then
      ((Term.plain (.ident x) (if down then "-" else "+") (.int 1)).number? p x t v).bind
        fun n => t.store n.2
    else some v

theorem World.ofCounter_keeps (p : Platform) (t : IntType) (x : String) :
    (ofCounter p t x).Keeps p t x id where
  assign term s _ := by simp [ofCounter]
  test term s _ := by
    simp only [ofCounter, Option.map_map]
    rfl
  advance s down := by simp [ofCounter]

end C

/-- A loop whose counter is a byte. -/
def CountLoop.ofByte (m : Int) (operator operator' : String) (n : Int) : CountLoop where
  left := .ofLiteral (.int m) .unknown
  leftOperator := operator
  counter := "i"
  rightOperator := operator'
  right := .ofLiteral (.int n) .unknown
  position := .unknown

/-- The state in which the counter is declared. -/
def Checker.withByte : Checker :=
  let counter : Variable :=
    { form := .plain, descriptor := .named "u8", depth := 0, name := "i", value := none,
      position := .unknown }
  ((Stmt.var counter).analyse Checker.global (Checker.start .empty)).checker

namespace Stmt

/-- A body that prints something. -/
def printing : List Stmt := [.print ⟨[.ofLiteral (.int 5) .unknown], .unknown⟩]

theorem spares_printing (x : String) (c : Checker) :
    (World.ofCounter .lp64 (.byte false) x).Spares id (codeAll printing c) :=
  fun s => ⟨s, fun _ => ⟨2, rfl⟩, rfl⟩

/-- The last values before the limit, after a bound that is excluded, with nothing in the body. -/
theorem count_visits_upTo254 :
    ∃ d' c' states s', (Stmt.count (.ofByte 251 "<" "<=" 254) []).analyse Checker.global
        Checker.withByte = .ok (.count d' []) c'
      ∧ (World.ofCounter .lp64 (.byte false) d'.counterCName).Loops d'.range [] 0 states s'
      ∧ (World.ofCounter .lp64 (.byte false) d'.counterCName).Passes
        ((Stmt.count d' []).code c') 0 s'
      ∧ (CountLoop.ofByte 251 "<" "<=" 254).Lists (.byte false) 251 254 (states.map id) := by
  have hsafe : (CountLoop.ofByte 251 "<" "<=" 254).Safe .lp64 (.byte false) 251 254 :=
    ⟨by decide, by decide, by decide, by decide, by decide⟩
  obtain ⟨d', c', hok⟩ : ∃ d' c', (Stmt.count (.ofByte 251 "<" "<=" 254) []).analyse
      Checker.global Checker.withByte = .ok (.count d' []) c' := ⟨_, _, rfl⟩
  obtain ⟨states, s', hloops, hpass, hlists⟩ :=
    (count_visits .lp64 _ hok rfl rfl rfl rfl (by decide) (by decide)
      (World.ofCounter_keeps _ _ _) c' (fun s => ⟨s, fun _ => .refl _, rfl⟩) 0).1 hsafe
  exact ⟨d', c', states, s', hok, hloops, hpass, hlists⟩

/-- All bytes: the loop is accepted and its bounds are bytes, but it has no end. After 255 the
counter goes on with 0. -/
theorem count_allBytes_never_ends :
    (IntType.byte false).Holds 0 ∧ (IntType.byte false).Holds 255
      ∧ ∃ d' c', (Stmt.count (.ofByte 0 "<=" "<=" 255) printing).analyse Checker.global
          Checker.withByte = .ok (.count d' printing) c'
        ∧ ∀ s s', ¬ (World.ofCounter .lp64 (.byte false) d'.counterCName).Ends
          ⟨(Stmt.count d' printing).code c', [], s⟩ s' := by
  obtain ⟨d', c', hok⟩ : ∃ d' c', (Stmt.count (.ofByte 0 "<=" "<=" 255) printing).analyse
      Checker.global Checker.withByte = .ok (.count d' printing) c' := ⟨_, _, rfl⟩
  refine ⟨by decide, by decide, d', c', hok, fun s s' hend => ?_⟩
  obtain ⟨c₁, hd'⟩ := analyse_of_analyse_count hok
  obtain ⟨up, strict, strict', hl, hr, hrange, hcode⟩ :=
    CountLoop.code_of_analyse (p := .lp64) (t := .byte false) hd' rfl rfl rfl rfl
  obtain ⟨rfl, rfl⟩ : up = true ∧ strict' = false := by
    revert hr
    cases up <;> cases strict' <;> simp [CountLoop.ofByte, CountLoop.comparison]
  rw [code, hcode, hrange] at hend
  obtain ⟨hstart, hhead⟩ := CountLoop.isNumeric_head d'.counterCName true strict false 0 255
  obtain ⟨states, hloops⟩ := World.loops_of_ends (spares_printing _ _) hend
  obtain ⟨v, hbegin, hvisits⟩ :=
    (World.ofCounter_keeps _ _ _).visits_of_loops (hhead _) (spares_printing _ _) hstart hloops
  exact CountLoop.not_visits_last rfl (CountLoop.holds_of_begin? hbegin) hvisits

end Stmt

end ExtensionCompiler

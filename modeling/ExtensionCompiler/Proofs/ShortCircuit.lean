import ExtensionCompiler.Proofs.StepLines
import ExtensionCompiler.Proofs.UseSites

set_option autoImplicit false

/-! # Calls behind logical operators

The right operand of `&&` and `||` is computed only if the left one leaves the outcome open. For the
operators of C that is so, and what stands in the value of a logical expression obeys them. But the
steps of both operands come before the value, and are taken in any case.

`C.Meaning.eval` evaluates an expression of C and lists the calls that it makes, for any meaning of
names, operators and functions. `Expr.calls_of_logical` says which calls a logical expression makes:
of its right operand, those of the steps always, and those in the value if the left one does not
settle the outcome. -/

namespace ExtensionCompiler

/-- Whether the truth of the left operand settles the outcome of a logical operation. -/
def Operator.settles (operator : String) (left : Bool) : Bool :=
  operator == "&&" && !left || operator == "||" && left

namespace C

/-! ## Evaluation -/

/-- What an evaluation comes to: its value, the state after it, and the calls that it made. -/
structure Course (σ V : Type) where
  value : V
  state : σ
  calls : List Term

def Course.andThen {σ V W : Type} (x : Course σ V) (next : V → σ → Course σ W) : Course σ W where
  value := (next x.value x.state).value
  state := (next x.value x.state).state
  calls := x.calls ++ (next x.value x.state).calls

/-- What names, operators and functions of C mean, and which values are true. Only calls and
assignments change the state. -/
structure Meaning (σ V : Type) where
  /-- The value of an expression without operands. -/
  atom : Term → σ → V
  /-- The value of an operation, given those of its operands. -/
  operation : Term → List V → σ → V
  call : String → List V → σ → V × σ
  assign : String → V → σ → σ
  truth : V → Bool
  ofTruth : Bool → V

namespace Meaning

variable {σ V : Type} (h : Meaning σ V)

/-- A binary operation. A logical one leaves out its right operand if the left one settles the
outcome. -/
def binary (node : Term) (operator : String) (left right : σ → Course σ V) (s : σ) : Course σ V :=
  (left s).andThen fun v s =>
    if Operator.settles operator (h.truth v) then ⟨h.ofTruth (h.truth v), s, []⟩
    else
      (right s).andThen fun v' s =>
        if Operator.isLogical operator then ⟨h.ofTruth (h.truth v'), s, []⟩
        else ⟨h.operation node [v, v'] s, s, []⟩

mutual

/-- Evaluates an expression, from left to right. -/
def eval : Term → σ → Course σ V
  | .index base position, s =>
    (eval position s).andThen fun v s => ⟨h.operation (.index base position) [v] s, s, []⟩
  | .unary operator operand, s =>
    (eval operand s).andThen fun v s => ⟨h.operation (.unary operator operand) [v] s, s, []⟩
  | .binary left operator right, s =>
    h.binary (.binary left operator right) operator (eval left) (eval right) s
  | .plain left operator right, s =>
    h.binary (.plain left operator right) operator (eval left) (eval right) s
  | .refuted condition, s =>
    (eval condition s).andThen fun v s => ⟨h.ofTruth (!h.truth v), s, []⟩
  | .call function args, s =>
    (evalAll args s).andThen fun vs s =>
      ⟨(h.call function vs s).1, (h.call function vs s).2, [.call function args]⟩
  | .choice condition yes no, s =>
    (eval condition s).andThen fun v s => if h.truth v then eval yes s else eval no s
  | .ident name, s => ⟨h.atom (.ident name) s, s, []⟩
  | .int value, s => ⟨h.atom (.int value) s, s, []⟩
  | .float value, s => ⟨h.atom (.float value) s, s, []⟩
  | .char value, s => ⟨h.atom (.char value) s, s, []⟩
  | .text value, s => ⟨h.atom (.text value) s, s, []⟩
  | .verbatim value, s => ⟨h.atom (.verbatim value) s, s, []⟩

def evalAll : List Term → σ → Course σ (List V)
  | [], s => ⟨[], s, []⟩
  | term :: rest, s =>
    (eval term s).andThen fun v s => (evalAll rest s).andThen fun vs s => ⟨v :: vs, s, []⟩

end

/-- Executes the lines of steps: assignments to variables. -/
def lines : List Code → σ → Course σ Unit
  | .assign (.ident x) value :: rest, s =>
    (h.eval value s).andThen fun v s => lines rest (h.assign x v s)
  | _ :: rest, s => lines rest s
  | [], s => ⟨(), s, []⟩

end Meaning

end C

open C (Meaning Course)

/-- What an expression comes to: the lines before its value, and then the value. -/
def Expr.course {σ V : Type} (h : Meaning σ V) (e : Expr) (s : σ) : Course σ V :=
  (h.lines e.evaluate s).andThen fun _ s => h.eval e.term s

/-! ## The calls of steps -/

namespace C.Meaning

variable {σ V : Type} (h : Meaning σ V)

theorem calls_lines_append (steps steps' : List Step) (s : σ) :
    (h.lines ((steps ++ steps').map Step.code) s).calls
        = (h.lines (steps.map Step.code) s).calls
          ++ (h.lines (steps'.map Step.code) (h.lines (steps.map Step.code) s).state).calls
      ∧ (h.lines ((steps ++ steps').map Step.code) s).state
        = (h.lines (steps'.map Step.code) (h.lines (steps.map Step.code) s).state).state := by
  induction steps generalizing s with
  | nil => exact ⟨rfl, rfl⟩
  | cons step rest ih =>
      cases step <;>
        simp only [List.cons_append, List.map_cons, Step.code, lines, Course.andThen, ih,
          List.append_assoc, and_self]

/-- A call is made when it is evaluated. -/
theorem mem_calls_call (function : String) (args : List Term) (s : σ) :
    .call function args ∈ (h.eval (.call function args) s).calls := by
  simp [eval, Course.andThen]

/-- To turn a condition into an object takes no calls. -/
theorem calls_choice (condition : Term) (s : σ) :
    (h.eval (.choice condition .yes .no) s).calls = (h.eval condition s).calls := by
  rw [eval]
  generalize h.eval condition s = x
  cases htruth : h.truth x.value <;>
    simp [Course.andThen, htruth, Term.yes, Term.no, eval]

/-- Steps make the calls to the host that they stand for. -/
theorem dispatch_mem_calls_lines {steps : List Step} {temp method : String} {receiver : Term}
    {args : List Term} (hmem : .dispatch temp receiver method args ∈ steps) (s : σ) :
    .dispatch receiver method args ∈ (h.lines (steps.map Step.code) s).calls := by
  induction steps generalizing s with
  | nil => cases hmem
  | cons step rest ih =>
      rcases List.mem_cons.mp hmem with rfl | hlater
      · simp only [List.map_cons, Step.code, lines, Course.andThen]
        exact List.mem_append_left _ (h.mem_calls_call _ _ s)
      · cases step <;> simp only [List.map_cons, Step.code, lines, Course.andThen] <;>
          exact List.mem_append_right _ (ih hlater _)

end C.Meaning

namespace Expr

mutual

/-- A value that takes steps takes a call to the host among them. -/
theorem exists_dispatch : (e : Expr) → e.needsTemp = true →
    ∃ temp receiver method args, Step.dispatch temp receiver method args ∈ e.evaluation
  | .literal _ _, h | .name _ _ _ _, h => by cases h
  | .element _ _ _ index, h => by
      rw [evaluation]
      exact exists_dispatch index h
  | .unary _ operator operand temp, h => by
      cases temp with
      | some temp =>
          exact ⟨temp, operand.term, Operator.unaryMethod operator, [], by simp [evaluation]⟩
      | none =>
          have hoperand : operand.needsTemp = true := by simpa [needsTemp] using h
          obtain ⟨t, receiver, method, args, hmem⟩ := exists_dispatch operand hoperand
          exact ⟨t, receiver, method, args, by simp [evaluation, hmem]⟩
  | .binary _ left operator right temp, h => by
      cases temp with
      | some temp => exact ⟨temp, left.term, operator, [right.term], by simp [evaluation]⟩
      | none =>
          have hor : left.needsTemp = true ∨ right.needsTemp = true := by
            simpa [needsTemp] using h
          rcases hor with hleft | hright
          · obtain ⟨t, receiver, method, args, hmem⟩ := exists_dispatch left hleft
            exact ⟨t, receiver, method, args, by simp [evaluation, hmem]⟩
          · obtain ⟨t, receiver, method, args, hmem⟩ := exists_dispatch right hright
            exact ⟨t, receiver, method, args, by simp [evaluation, hmem]⟩
  | .call _ _ _ args, h => by
      rw [evaluation]
      exact exists_dispatch_all args h

theorem exists_dispatch_all : (args : List Expr) → anyNeedsTemp args = true →
    ∃ temp receiver method args', Step.dispatch temp receiver method args' ∈ evaluationAll args
  | [], h => by cases h
  | e :: rest, h => by
      rw [evaluationAll]
      have hor : e.needsTemp = true ∨ anyNeedsTemp rest = true := by simpa [anyNeedsTemp] using h
      rcases hor with he | hrest
      · obtain ⟨t, receiver, method, args, hmem⟩ := exists_dispatch e he
        exact ⟨t, receiver, method, args, List.mem_append_left _ hmem⟩
      · obtain ⟨t, receiver, method, args, hmem⟩ := exists_dispatch_all rest hrest
        exact ⟨t, receiver, method, args, List.mem_append_right _ hmem⟩

end

/-! ## Analysed logical expressions -/

section

variable {info : Info} {left right e' : Expr} {operator : String} {scope : ScopeId} {c c' : Checker}

/-- A logical operation stays one, and takes no temporary. -/
theorem eq_binary_of_analyse {slot : Option Ty} (hop : Operator.isLogical operator = true)
    (h : (binary info left operator right none).analyse slot scope c = .ok e' c') :
    ∃ info' left' right', e' = binary info' left' operator right' none := by
  rw [analyse] at h
  obtain ⟨l, c₁, -, hl, -⟩ := Outcome.andThen_inv (by rw [h]; rfl)
  rw [hl] at h
  obtain ⟨r, c₂, -, hr, -⟩ := Outcome.andThen_inv (by rw [h]; rfl)
  rw [hr] at h
  unfold finishBinary finishHostBinary at h
  split at h
  · obtain ⟨l', c₃, -, hl', -⟩ := Outcome.andThen_inv (by rw [h]; rfl)
    rw [hl'] at h
    obtain ⟨r', c₄, -, hr', -⟩ := Outcome.andThen_inv (by rw [h]; rfl)
    rw [hr'] at h
    cases h
    exact ⟨_, _, _, rfl⟩
  · split at h
    · cases h
      exact ⟨_, _, _, rfl⟩
    · cases h

/-- The value of a logical operation combines its operands as conditions. -/
theorem Typed.binaryTerm_eq {find : String → Option Entry}
    (h : Typed find (.binary info left operator right none))
    (hop : Operator.isLogical operator = true) :
    binaryTerm info.type left.term operator right.term none
      = if info.type.isObject then
          .choice (.binary left.condition operator right.condition) .yes .no
        else .binary left.condition operator right.condition := by
  cases h with
  | hostBinary _ hleft _ hright htype _ =>
      rw [binaryTerm, htype, condition, condition, hleft.2.1, hright.2.1]
      rfl
  | binary _ hleft _ hright hresult =>
      have htype : info.type = .primitive .int := by
        rw [Operator.nativeResult?, if_pos hop] at hresult
        split at hresult
        · exact (Option.some.inj hresult).symm
        · cases hresult
      rw [binaryTerm, htype, condition, condition, hleft, hright]
      rfl

/-- The calls of a logical value: the right operand is evaluated only if the left one does not
settle the outcome. -/
theorem Typed.calls_binaryTerm {find : String → Option Entry}
    (h : Typed find (.binary info left operator right none))
    (hop : Operator.isLogical operator = true) {σ V : Type} (m : Meaning σ V) (s : σ) :
    let first := m.eval left.condition s
    (m.eval (binaryTerm info.type left.term operator right.term none) s).calls
      = first.calls ++ if Operator.settles operator (m.truth first.value) then []
        else (m.eval right.condition first.state).calls := by
  have hbinary : (m.eval (.binary left.condition operator right.condition) s).calls
      = (m.eval left.condition s).calls
        ++ if Operator.settles operator (m.truth (m.eval left.condition s).value) then []
          else (m.eval right.condition (m.eval left.condition s).state).calls := by
    simp only [Meaning.eval, Meaning.binary, Course.andThen, hop, if_true]
    split <;> simp
  intro first
  rw [h.binaryTerm_eq hop, ← hbinary]
  split
  · exact m.calls_choice _ s
  · rfl

end

end Expr

/-- The call that converts a value, if it is converted. -/
def Info.callsToConvert (info : Info) (value : C.Term) : List C.Term :=
  match info.conversion with
  | some conversion => [.call conversion.function [value]]
  | none => []

theorem C.Meaning.calls_convert {σ V : Type} (h : Meaning σ V) (info : Info) (value : C.Term)
    (s : σ) :
    (h.eval (info.convert value) s).calls
      = (h.eval value s).calls ++ info.callsToConvert value := by
  unfold Info.convert Info.callsToConvert
  cases info.conversion with
  | some conversion => simp [eval, evalAll, Course.andThen]
  | none => rw [List.append_nil]

namespace Expr

/-- Analysis leaves a logical operation one, without a temporary. -/
theorem typed_of_analyse_logical {info : Info} {left right e' : Expr} {operator : String}
    {scope : ScopeId} {c c' : Checker} (hop : Operator.isLogical operator = true)
    (h : (∃ slot, (Expr.binary info left operator right none).analyse slot scope c = .ok e' c')
      ∨ ∃ slot position,
        (Expr.binary info left operator right none).analyseInto slot scope position c = .ok e' c') :
    (∃ info' left' right', e' = .binary info' left' operator right' none)
      ∧ Typed (c.find? scope) e' := by
  rcases h with ⟨slot, hok⟩ | ⟨slot, position, hok⟩
  · have htyped := analyse_typed _ slot scope c (by rw [hok]; rfl)
    rw [hok] at htyped
    exact ⟨eq_binary_of_analyse hop hok, htyped⟩
  · obtain ⟨htyped, -⟩ := analyseInto_typed (by rw [hok]; rfl)
    rw [hok] at htyped
    refine ⟨?_, htyped⟩
    -- a conversion is attached to the analysed operation
    obtain ⟨e, c₁, he, heq, hfit⟩ := Outcome.andThen_inv (by rw [← analyseInto, hok]; rfl)
    obtain ⟨conversion, hconverted, -⟩ := fit_ok hfit
    obtain ⟨info', left', right', rfl⟩ := eq_binary_of_analyse hop he
    rw [analyseInto, heq, hconverted] at hok
    cases hok
    exact ⟨_, _, _, rfl⟩

theorem needsTemp_iff_exists_dispatch (e : Expr) : e.needsTemp = true ↔
    ∃ temp receiver method args, Step.dispatch temp receiver method args ∈ e.evaluation := by
  constructor
  · exact e.exists_dispatch
  · rintro ⟨temp, receiver, method, args, hmem⟩
    rw [← Bool.not_eq_false, ← evaluation_eq_nil_iff]
    exact List.ne_nil_of_mem hmem

/-- The steps of both operands come first, then the value, and at last its conversion. -/
theorem Typed.calls_course {find : String → Option Entry} {info : Info} {left right : Expr}
    {operator : String} (h : Typed find (.binary info left operator right none))
    (hop : Operator.isLogical operator = true) {σ V : Type} (m : Meaning σ V) (s : σ) :
    let before := m.lines left.evaluate s
    let steps := m.lines right.evaluate before.state
    let first := m.eval left.condition steps.state
    ((Expr.binary info left operator right none).course m s).calls
      = before.calls ++ steps.calls ++ first.calls
        ++ (if Operator.settles operator (m.truth first.value) then []
          else (m.eval right.condition first.state).calls)
        ++ info.callsToConvert (binaryTerm info.type left.term operator right.term none) := by
  obtain ⟨hlines, hstate⟩ := m.calls_lines_append left.evaluation right.evaluation s
  have hevaluate : (Expr.binary info left operator right none).evaluate
      = (left.evaluation ++ right.evaluation).map Step.code := by
    rw [evaluate, evaluation]
    simp
  intro before steps first
  rw [course, Course.andThen]
  dsimp only
  rw [hevaluate, hlines, hstate, term, C.Meaning.calls_convert, h.calls_binaryTerm hop]
  simp only [List.append_assoc]
  rfl

end Expr

/-- **Which calls a logical expression makes.** The steps of both operands are taken before
anything is tested. So the calls to the host that are steps of the right operand are made whatever
the left one is, and there are such calls just if the right operand takes steps. The calls in the
value of the right operand are made only if the left one does not settle the outcome. -/
theorem Expr.calls_of_logical {info : Info} {left right e' : Expr} {operator : String}
    {scope : ScopeId} {c c' : Checker} (hop : Operator.isLogical operator = true)
    (h : (∃ slot, (Expr.binary info left operator right none).analyse slot scope c = .ok e' c')
      ∨ ∃ slot position,
        (Expr.binary info left operator right none).analyseInto slot scope position c = .ok e' c') :
    ∃ info' left' right', e' = .binary info' left' operator right' none
      ∧ (right'.needsTemp = true ↔
        ∃ temp receiver method args, Step.dispatch temp receiver method args ∈ right'.evaluation)
      ∧ ∀ (σ V : Type) (m : Meaning σ V) (s : σ),
        let before := m.lines left'.evaluate s
        let steps := m.lines right'.evaluate before.state
        let first := m.eval left'.condition steps.state
        (e'.course m s).calls = before.calls ++ steps.calls ++ first.calls
            ++ (if Operator.settles operator (m.truth first.value) then []
              else (m.eval right'.condition first.state).calls)
            ++ info'.callsToConvert
              (binaryTerm info'.type left'.term operator right'.term none)
          ∧ (right'.needsTemp = false → steps.calls = [])
          ∧ ∀ temp receiver method args,
            Step.dispatch temp receiver method args ∈ right'.evaluation →
            .dispatch receiver method args ∈ steps.calls := by
  obtain ⟨⟨info', left', right', rfl⟩, htyped⟩ := typed_of_analyse_logical hop h
  refine ⟨info', left', right', rfl, right'.needsTemp_iff_exists_dispatch,
    fun σ V m s => ⟨htyped.calls_course hop m s, ?_, ?_⟩⟩
  · intro hplain
    rw [evaluate, (evaluation_eq_nil_iff right').mpr hplain]
    rfl
  · intro temp receiver method args hmem
    exact m.dispatch_mem_calls_lines hmem _

/-! ## Instances -/

/-- A meaning in which nothing is true. -/
def C.Meaning.falsity : Meaning Unit Bool where
  atom _ _ := false
  operation _ _ _ := false
  call _ _ _ := (false, ())
  assign _ _ _ := ()
  truth := id
  ofTruth := id

/-- The state in which two objects are declared. -/
def Checker.withObjects : Checker :=
  let object (name : String) : Stmt := .var
    { form := .plain, descriptor := .named "object", depth := 0, name, value := none,
      position := .unknown }
  (Stmt.analyseAll [object "a", object "b"] Checker.global (Checker.start .empty)).checker

/-- `a && 1`: the number is converted in the value, and not if `a` is false. -/
theorem Expr.calls_of_converted :
    let e := Expr.ofBinary (.ofName "a" .unknown) "&&" (.ofLiteral (.int 1) .unknown) .unknown
    ∃ e' c', e.analyse none Checker.global Checker.withObjects = .ok e' c'
      ∧ e'.term.render = "((RTEST(__extc_v_a) && RTEST(INT2NUM(1))) ? Qtrue : Qfalse)"
      ∧ (e'.course Meaning.falsity ()).calls = [.truth (.ident "__extc_v_a")] := by
  intro e
  have hok : e.analyse none Checker.global Checker.withObjects
      = .ok (e.analyse none Checker.global Checker.withObjects).node
        (e.analyse none Checker.global Checker.withObjects).checker := rfl
  refine ⟨_, _, hok, by decide +kernel, ?_⟩
  obtain ⟨info', left', right', heq, -, hcalls⟩ :=
    Expr.calls_of_logical (by decide) (.inl ⟨none, hok⟩)
  cases heq
  exact (hcalls Unit Bool Meaning.falsity ()).1

/-- `a && (b + 1)`: the sum is called for before `a` is tested, although `a` is false. -/
theorem Expr.calls_of_hoisted :
    let sum := Expr.ofBinary (.ofName "b" .unknown) "+" (.ofLiteral (.int 1) .unknown) .unknown
    let e := Expr.ofBinary (.ofName "a" .unknown) "&&" sum .unknown
    ∃ info left right c', e.analyse none Checker.global Checker.withObjects
        = .ok (.binary info left "&&" right none) c'
      ∧ (∀ s, Operator.settles "&&"
        (Meaning.falsity.truth (Meaning.falsity.eval left.condition s).value) = true)
      ∧ .dispatch (.ident "__extc_v_b") "+" [.call "INT2NUM" [.int 1]]
        ∈ (Expr.course Meaning.falsity (.binary info left "&&" right none) ()).calls := by
  refine ⟨_, _, _, _, rfl, fun _ => rfl, ?_⟩
  exact List.mem_append_left _
    (Meaning.falsity.dispatch_mem_calls_lines (List.mem_singleton_self _) ())

end ExtensionCompiler

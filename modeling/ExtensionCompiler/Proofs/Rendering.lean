import Mathlib.Algebra.Order.Group.Multiset
import Mathlib.Tactic.Abel
import ExtensionCompiler.Proofs.Lifetimes

set_option autoImplicit false

/-! # The lines around a value

A value is written with lines before it and lines after it. Over these lines each temporary is
assigned once and dropped once, and each call of the tree is written once (`Expr.WrittenOnce`). The
calls are compared as multisets: `C.Term.calls` collects those of a term, and `Expr.ownCalls` are
those that one node of the tree stands for. With the lifetimes of temporaries this is what holds of
every expression that was new when it was analysed (`Expr.lifetimes_of_analyse`). -/

namespace ExtensionCompiler

open scoped List

open Checker (tempName tempsFrom)
open C.Code (trackAll drops)

/-! ## Each temporary is assigned once and dropped once -/

namespace C.Code

/-- The temporary that a line gives the result of a call to the host. -/
def assigned? : Code → Option String
  | .assign (.ident temp) (.call called _) => if called = "rb_funcall" then some temp else none
  | _ => none

/-- The temporary that a line drops. -/
def dropped? : Code → Option String
  | .assign (.ident temp) (.ident value) => if value = "Qnil" then some temp else none
  | _ => none

theorem filterMap_assigned?_drops (temps : List String) :
    (drops temps).filterMap assigned? = [] := by
  induction temps with
  | nil => rfl
  | cons t rest ih => exact ih

theorem filterMap_dropped?_drops (temps : List String) :
    (drops temps).filterMap dropped? = temps := by
  induction temps with
  | nil => rfl
  | cons t rest ih => exact congrArg (t :: ·) ih

end C.Code

open C.Code (assigned? dropped?)

namespace Expr

theorem filterMap_assigned?_hostLines (temp : String) (receiver : C.Term) (method : String)
    (args : List C.Term) (operands : List String) :
    (hostLines temp receiver method args operands).filterMap assigned? = [temp] :=
  congrArg (temp :: ·) (C.Code.filterMap_assigned?_drops operands)

theorem filterMap_dropped?_hostLines (temp : String) (receiver : C.Term) (method : String)
    (args : List C.Term) (operands : List String) :
    (hostLines temp receiver method args operands).filterMap dropped? = operands :=
  C.Code.filterMap_dropped?_drops operands

mutual

/-- The lines before a value assign to each temporary once, in order. -/
theorem filterMap_assigned?_evaluate : (e : Expr) → e.evaluate.filterMap assigned? = e.temps
  | .literal _ _ => rfl
  | .name _ _ _ _ => rfl
  | .element _ _ _ index => filterMap_assigned?_evaluate index
  | .unary _ _ operand none => by
      rw [evaluate, evaluation, List.append_nil, ← evaluate, filterMap_assigned?_evaluate operand,
        temps]
      exact (List.append_nil _).symm
  | .unary info operator operand (some temp) => by
      rw [evaluate_hostUnary, List.filterMap_append, filterMap_assigned?_evaluate operand,
        filterMap_assigned?_hostLines]
      rfl
  | .binary _ left _ right none => by
      rw [evaluate, evaluation, List.append_nil, List.map_append, List.filterMap_append,
        ← evaluate, ← evaluate, filterMap_assigned?_evaluate left,
        filterMap_assigned?_evaluate right, temps]
      exact (List.append_nil _).symm
  | .binary info left operator right (some temp) => by
      rw [evaluate_hostBinary, List.filterMap_append, List.filterMap_append,
        filterMap_assigned?_evaluate left, filterMap_assigned?_evaluate right,
        filterMap_assigned?_hostLines]
      rfl
  | .call _ _ _ args => filterMap_assigned?_evaluateAll args

theorem filterMap_assigned?_evaluateAll : (args : List Expr) →
    ((evaluationAll args).map Step.code).filterMap assigned? = tempsAll args
  | [] => rfl
  | e :: rest => by
      rw [evaluationAll, List.map_append, List.filterMap_append, ← evaluate,
        filterMap_assigned?_evaluate e, filterMap_assigned?_evaluateAll rest, tempsAll]

end

theorem perm_append_append {xs xs' ys ys' zs ws : List String} (hleft : xs ++ xs' ~ zs)
    (hright : ys ++ ys' ~ ws) : xs ++ ys ++ (xs' ++ ys') ~ zs ++ ws := by
  have hmiddle : ys ++ (xs' ++ ys') ~ xs' ++ (ys ++ ys') := List.perm_append_comm_assoc ys xs' ys'
  calc xs ++ ys ++ (xs' ++ ys')
      _ = xs ++ (ys ++ (xs' ++ ys')) := List.append_assoc _ _ _
      _ ~ xs ++ (xs' ++ (ys ++ ys')) := hmiddle.append_left xs
      _ = xs ++ xs' ++ (ys ++ ys') := (List.append_assoc _ _ _).symm
      _ ~ zs ++ ws := hleft.append hright

mutual

/-- A temporary is dropped before the value, or it is held for the value. -/
theorem filterMap_dropped?_evaluate : (e : Expr) →
    e.evaluate.filterMap dropped? ++ e.held ~ e.temps
  | .literal _ _ | .name _ _ _ _ => List.Perm.refl _
  | .element _ _ _ index => filterMap_dropped?_evaluate index
  | .unary _ _ operand none => by
      rw [evaluate, evaluation, List.append_nil, ← evaluate, temps, Option.toList_none,
        List.append_nil]
      exact filterMap_dropped?_evaluate operand
  | .unary info operator operand (some temp) => by
      rw [evaluate_hostUnary, List.filterMap_append, filterMap_dropped?_hostLines, held, temps]
      exact (filterMap_dropped?_evaluate operand).append_right [temp]
  | .binary _ left _ right none => by
      rw [evaluate, evaluation, List.append_nil, List.map_append, List.filterMap_append,
        ← evaluate, ← evaluate, held, temps, Option.toList_none, List.append_nil]
      exact perm_append_append (filterMap_dropped?_evaluate left)
        (filterMap_dropped?_evaluate right)
  | .binary info left operator right (some temp) => by
      rw [evaluate_hostBinary, List.filterMap_append, List.filterMap_append,
        filterMap_dropped?_hostLines, held, temps]
      exact (perm_append_append (filterMap_dropped?_evaluate left)
        (filterMap_dropped?_evaluate right)).append_right [temp]
  | .call _ _ _ args => filterMap_dropped?_evaluateAll args

theorem filterMap_dropped?_evaluateAll : (args : List Expr) →
    ((evaluationAll args).map Step.code).filterMap dropped? ++ heldAll args ~ tempsAll args
  | [] => List.Perm.refl _
  | e :: rest => by
      rw [evaluationAll, List.map_append, List.filterMap_append, ← evaluate, heldAll, tempsAll]
      exact perm_append_append (filterMap_dropped?_evaluate e) (filterMap_dropped?_evaluateAll rest)

end

end Expr

/-! ## Each call is written once -/

namespace C

namespace Term

mutual

/-- The calls in a term. -/
def calls : Term → Multiset Term
  | ident _ => 0
  | int _ => 0
  | float _ => 0
  | char _ => 0
  | text _ => 0
  | verbatim _ => 0
  | index _ position => position.calls
  | unary _ operand => operand.calls
  | binary left _ right => left.calls + right.calls
  | plain left _ right => left.calls + right.calls
  | refuted condition => condition.calls
  | call function args => {call function args} + callsAll args
  | choice condition first second => condition.calls + first.calls + second.calls

def callsAll : List Term → Multiset Term
  | [] => 0
  | term :: rest => term.calls + callsAll rest

end

end Term

/-- The calls in an assignment. -/
def Code.calls : Code → Multiset Term
  | .assign target value => target.calls + value.calls
  | _ => 0

/-- The calls in lines that are assignments. -/
def Code.callsAll (lines : List Code) : Multiset Term := (lines.map Code.calls).sum

theorem Code.callsAll_append (xs ys : List Code) :
    callsAll (xs ++ ys) = callsAll xs + callsAll ys := by
  rw [callsAll, List.map_append, List.sum_append]
  rfl

theorem Code.callsAll_drops (temps : List String) : callsAll (drops temps) = 0 := by
  induction temps with
  | nil => rfl
  | cons t rest ih =>
      show 0 + 0 + callsAll (drops rest) = 0
      rw [ih]
      rfl

end C

/-- The call that converts a value, if it is converted. -/
def Info.conversionCall (info : Info) (value : C.Term) : Multiset C.Term :=
  match info.conversion with
  | some conversion => {.call conversion.function [value]}
  | none => 0

theorem Info.calls_convert (info : Info) (value : C.Term) :
    (info.convert value).calls = info.conversionCall value + value.calls := by
  unfold convert conversionCall
  cases info.conversion with
  | none => simp
  | some conversion => simp [C.Term.calls, C.Term.callsAll]

namespace Expr

mutual

/-- The nodes inside an expression. -/
def inner : Expr → List Expr
  | literal _ _ => []
  | name _ _ _ _ => []
  | element _ _ _ index => index :: index.inner
  | unary _ _ operand _ => operand :: operand.inner
  | binary _ left _ right _ => left :: left.inner ++ right :: right.inner
  | call _ _ _ args => innerAll args

def innerAll : List Expr → List Expr
  | [] => []
  | e :: rest => e :: e.inner ++ innerAll rest

end

/-- The nodes of an expression. -/
def subtrees (e : Expr) : List Expr := e :: e.inner

/-- The calls that a node stands for: that of a call node; of a call to the host, with the name of
its method; of a truth test of operands; and the conversion of its value. -/
def ownCalls : Expr → Multiset C.Term
  | literal info value => info.conversionCall value.term
  | name info _ cName _ => info.conversionCall (.ident cName)
  | element info _ cName index => info.conversionCall (.index cName index.term)
  | unary info operator operand temp =>
    info.conversionCall (unaryTerm info.type operator operand.term temp)
      + match temp with
        | some _ =>
          {C.Term.dispatch operand.term (Operator.unaryMethod operator) [],
            C.Term.methodName (Operator.unaryMethod operator)}
        | none =>
          if operator = "!" ∧ info.type.isObject then {C.Term.truth operand.term} else 0
  | binary info left operator right temp =>
    info.conversionCall (binaryTerm info.type left.term operator right.term temp)
      + match temp with
        | some _ => {C.Term.dispatch left.term operator [right.term], C.Term.methodName operator}
        | none =>
          if info.type.isObject then {C.Term.truth left.term, C.Term.truth right.term} else 0
  | call info _ cName args =>
    info.conversionCall (.call cName (terms args)) + {C.Term.call cName (terms args)}

/-- The calls that the nodes of expressions stand for. -/
def nodeCalls (nodes : List Expr) : Multiset C.Term := (nodes.map ownCalls).sum

theorem nodeCalls_append (xs ys : List Expr) :
    nodeCalls (xs ++ ys) = nodeCalls xs + nodeCalls ys := by
  rw [nodeCalls, List.map_append, List.sum_append]
  rfl

theorem nodeCalls_cons (e : Expr) (rest : List Expr) :
    nodeCalls (e :: rest) = e.ownCalls + nodeCalls rest := by
  rw [nodeCalls, List.map_cons, List.sum_cons]
  rfl

theorem callsAll_hostLines (temp : String) (receiver : C.Term) (method : String)
    (args : List C.Term) (operands : List String) :
    C.Code.callsAll (hostLines temp receiver method args operands)
      = {C.Term.dispatch receiver method args, C.Term.methodName method}
        + (receiver.calls + C.Term.callsAll args) := by
  show 0 + C.Term.calls (C.Term.dispatch receiver method args)
    + C.Code.callsAll (drops operands) = _
  rw [C.Code.callsAll_drops]
  simp only [C.Term.dispatch, C.Term.methodName, C.Term.calls, C.Term.callsAll,
    Multiset.insert_eq_cons, ← Multiset.singleton_add]
  abel

theorem calls_unaryTerm (type : Ty) (operator : String) (operand : C.Term) :
    (unaryTerm type operator operand none).calls
      = (if operator = "!" ∧ type.isObject then {C.Term.truth operand} else 0) + operand.calls := by
  rw [unaryTerm]
  split <;> simp [C.Term.truth, C.Term.yes, C.Term.no, C.Term.calls, C.Term.callsAll]

theorem calls_binaryTerm (type : Ty) (left : C.Term) (operator : String) (right : C.Term) :
    (binaryTerm type left operator right none).calls
      = (if type.isObject then {C.Term.truth left, C.Term.truth right} else 0)
        + (left.calls + right.calls) := by
  rw [binaryTerm]
  split
  · simp only [C.Term.truth, C.Term.yes, C.Term.no, C.Term.calls, C.Term.callsAll,
      Multiset.insert_eq_cons, ← Multiset.singleton_add]
    abel
  · simp [C.Term.calls]

mutual

/-- **Each call is written once.** The calls in the lines before a value and in the value are those
that the nodes stand for. -/
theorem calls_evaluate : (e : Expr) →
    C.Code.callsAll e.evaluate + e.term.calls = nodeCalls e.subtrees
  | .literal info value => by
      have hvalue : value.term.calls = 0 := by cases value <;> rfl
      rw [term, Info.calls_convert, hvalue, subtrees, nodeCalls_cons, inner]
      exact zero_add _
  | .name info _ cName _ => by
      rw [term, Info.calls_convert, subtrees, nodeCalls_cons, inner]
      exact zero_add _
  | .element info _ cName index => by
      have hindex := calls_evaluate index
      rw [subtrees] at hindex
      rw [term, Info.calls_convert, subtrees, nodeCalls_cons, inner, ← hindex, evaluate, evaluation,
        ← evaluate, C.Term.calls, ownCalls]
      abel
  | .unary info operator operand none => by
      have hop := calls_evaluate operand
      rw [subtrees] at hop
      rw [term, Info.calls_convert, calls_unaryTerm, subtrees, nodeCalls_cons, inner, ← hop,
        evaluate, evaluation, List.append_nil, ← evaluate, ownCalls]
      abel
  | .unary info operator operand (some temp) => by
      have hop := calls_evaluate operand
      rw [subtrees] at hop
      rw [term, Info.calls_convert, subtrees, nodeCalls_cons, inner, ← hop, evaluate_hostUnary,
        C.Code.callsAll_append, callsAll_hostLines, unaryTerm, C.Term.calls, C.Term.callsAll,
        ownCalls]
      abel
  | .binary info left operator right none => by
      have hleft := calls_evaluate left
      have hright := calls_evaluate right
      rw [subtrees] at hleft hright
      rw [term, Info.calls_convert, calls_binaryTerm, subtrees, nodeCalls_cons, inner,
        nodeCalls_append, ← hleft, ← hright, evaluate, evaluation, List.append_nil,
        List.map_append, C.Code.callsAll_append, ← evaluate, ← evaluate, ownCalls]
      abel
  | .binary info left operator right (some temp) => by
      have hleft := calls_evaluate left
      have hright := calls_evaluate right
      rw [subtrees] at hleft hright
      rw [term, Info.calls_convert, subtrees, nodeCalls_cons, inner, nodeCalls_append, ← hleft,
        ← hright, evaluate_hostBinary, C.Code.callsAll_append, C.Code.callsAll_append,
        callsAll_hostLines, binaryTerm, C.Term.calls, C.Term.callsAll, C.Term.callsAll, ownCalls]
      abel
  | .call info _ cName args => by
      have hargs := calls_evaluateAll args
      rw [term, Info.calls_convert, subtrees, nodeCalls_cons, inner, ← hargs, evaluate, evaluation,
        C.Term.calls, ownCalls]
      abel

theorem calls_evaluateAll : (args : List Expr) →
    C.Code.callsAll ((evaluationAll args).map Step.code) + C.Term.callsAll (terms args)
      = nodeCalls (innerAll args)
  | [] => zero_add 0
  | e :: rest => by
      have hfirst := calls_evaluate e
      have hothers := calls_evaluateAll rest
      rw [subtrees] at hfirst
      rw [evaluationAll, List.map_append, C.Code.callsAll_append, terms, C.Term.callsAll, innerAll,
        nodeCalls_append, ← hfirst, ← hothers, ← evaluate]
      abel

end

/-- The lines after a value have no calls. -/
theorem calls_dispose (e : Expr) : C.Code.callsAll e.dispose = 0 := by
  rw [dispose_eq]
  exact C.Code.callsAll_drops e.held

/-! ## The lines of an analysed value -/

/-- The temporary of a node. -/
def temp? : Expr → Option String
  | unary _ _ _ temp => temp
  | binary _ _ _ _ temp => temp
  | _ => none

mutual

/-- Just the calls to the host have a temporary. -/
theorem Prepared.isHostCall_subtrees : {e : Expr} → {m n : Nat} → Prepared m e n →
    ∀ node ∈ e.subtrees, node.isHostCall = node.temp?.isSome
  | .literal _ _, _, _, _ | .name _ _ _ _, _, _, _ => List.forall_mem_singleton.mpr rfl
  | .element _ _ _ index, _, _, h => by
      cases h with
      | element _ hindex => exact List.forall_mem_cons.mpr ⟨rfl, hindex.isHostCall_subtrees⟩
  | .unary _ _ operand _, _, _, h => by
      cases h with
      | hostUnary _ hop hhost | unary _ hop hhost =>
          exact List.forall_mem_cons.mpr ⟨hhost, hop.isHostCall_subtrees⟩
  | .binary _ left _ right _, _, _, h => by
      cases h with
      | hostBinary _ hl hr hobject hlogical =>
          refine List.forall_mem_cons.mpr ⟨?_, List.forall_mem_append.mpr
            ⟨hl.isHostCall_subtrees, hr.isHostCall_subtrees⟩⟩
          rw [isHostCall, hobject, hlogical]
          rfl
      | binary _ hl hr hhost =>
          exact List.forall_mem_cons.mpr ⟨hhost, List.forall_mem_append.mpr
            ⟨hl.isHostCall_subtrees, hr.isHostCall_subtrees⟩⟩
  | .call _ _ _ args, _, _, h => by
      cases h with
      | call _ hargs => exact List.forall_mem_cons.mpr ⟨rfl, hargs.isHostCall_subtrees⟩

theorem PreparedAll.isHostCall_subtrees : {args : List Expr} → {m n : Nat} →
    PreparedAll m args n → ∀ node ∈ innerAll args, node.isHostCall = node.temp?.isSome
  | [], _, _, _ => List.forall_mem_nil _
  | e :: rest, _, _, h => by
      cases h with
      | cons he hrest =>
          exact List.forall_mem_append.mpr ⟨he.isHostCall_subtrees, hrest.isHostCall_subtrees⟩

end

/-- The lines before a value, the value, and the lines after it write each thing once: the call that
gives a temporary its object, the line that drops it, and the calls of all nodes. -/
structure WrittenOnce (temps : List String) (e : Expr) : Prop where
  assignments : ∀ line ∈ e.evaluate ++ e.dispose, ∃ target value, line = .assign target value
  assigned : e.evaluate.filterMap assigned? = temps
  assigned_after : e.dispose.filterMap assigned? = []
  dropped : (e.evaluate ++ e.dispose).filterMap dropped? ~ temps
  hosted : ∀ node ∈ e.subtrees, node.isHostCall = node.temp?.isSome
  calls : C.Code.callsAll e.evaluate + e.term.calls = nodeCalls e.subtrees
  calls_after : C.Code.callsAll e.dispose = 0

/-- The lines before a value keep the rules. They leave an object in those temporaries that the
value reads, and the lines after it leave one in none. -/
def KeepsLifetimes (temps : List String) (e : Expr) : Prop :=
  ∃ live, trackAll temps [] e.evaluate = some live
    ∧ (∀ t, t ∈ live ↔ t ∈ temps ∧ t ∈ e.term.idents) ∧ trackAll temps live e.dispose = some []

theorem exists_assign_of_mem {e : Expr} {line : C.Code} (h : line ∈ e.evaluate ++ e.dispose) :
    ∃ target value, line = .assign target value := by
  have hstep (step : Step) : ∃ target value, step.code = .assign target value := by
    cases step <;> exact ⟨_, _, rfl⟩
  rcases List.mem_append.mp h with h | h
  · obtain ⟨step, -, rfl⟩ := List.mem_map.mp h
    exact hstep step
  · obtain ⟨step, -, rfl⟩ := List.mem_map.mp h
    exact hstep step

theorem Prepared.writtenOnce {e : Expr} {m n : Nat} (h : Prepared m e n) :
    e.WrittenOnce (tempsFrom m n) where
  assignments := fun _ => exists_assign_of_mem
  assigned := (filterMap_assigned?_evaluate e).trans h.temps_eq.2
  assigned_after := by
    rw [dispose_eq]
    exact C.Code.filterMap_assigned?_drops e.held
  dropped := by
    rw [← h.temps_eq.2, List.filterMap_append, dispose_eq, C.Code.filterMap_dropped?_drops]
    exact filterMap_dropped?_evaluate e
  hosted := h.isHostCall_subtrees
  calls := calls_evaluate e
  calls_after := calls_dispose e

theorem Prepared.keepsLifetimes {e : Expr} {m n : Nat} (h : Prepared m e n)
    (hnames : ∀ o ∈ e.occurrences, o.cName ∉ tempsFrom m n) :
    e.KeepsLifetimes (tempsFrom m n) := by
  have htemps : AreTemps (tempsFrom m n) := by
    intro t ht
    obtain ⟨k, -, -, hk⟩ := Checker.mem_tempsFrom.mp ht
    exact ⟨k, hk⟩
  have hheld : ∀ t ∈ e.held, t ∈ tempsFrom m n := by
    intro t ht
    rw [← h.temps_eq.2]
    exact held_subset e ht
  refine ⟨e.held, ?_, fun t => ⟨fun ht => ?_, fun ht => ?_⟩, trackAll_dispose _ e⟩
  · have hrun := h.trackAll_evaluate htemps hnames [] fun t _ => List.not_mem_nil
    rwa [List.nil_append] at hrun
  · exact ⟨hheld t ht, (h.mem_idents_term htemps (hheld t ht) hnames).mpr ht⟩
  · exact (h.mem_idents_term htemps ht.1 hnames).mp ht.2

theorem prepared_of_analyse {e e' : Expr} {slot : Option Ty} {scope : ScopeId} {c c' : Checker}
    (hnew : e.outline = e) (h : e.analyse slot scope c = .ok e' c') :
    Prepared c.tempCount e' c'.tempCount := by
  have hprepared := analyse_prepared e slot scope c
  rw [hnew, h] at hprepared
  exact hprepared rfl

theorem prepared_of_analyseInto {e e' : Expr} {slot : Ty} {scope : ScopeId} {position : Position}
    {c c' : Checker} (hnew : e.outline = e) (h : e.analyseInto slot scope position c = .ok e' c') :
    Prepared c.tempCount e' c'.tempCount := by
  have hok : (e.analyseInto slot scope position c).error = none := by rw [h]; rfl
  unfold analyseInto at h hok
  obtain ⟨hanalyse, -⟩ := (Outcome.andThen_error_eq_none_iff _ _ _).mp hok
  rw [Outcome.andThen_of_ok hanalyse] at h
  have hprepared := prepared_of_analyse hnew (Outcome.eq_ok hanalyse)
  have hfit := hprepared.fit slot position (e.analyse (some slot) scope c).checker
  have hchecker := fit_checker (e.analyse (some slot) scope c).node slot position
    (e.analyse (some slot) scope c).checker
  rw [h] at hfit hchecker
  rw [← hchecker] at hfit
  exact hfit

end Expr

/-- **The temporaries of a value are assigned once, used and dropped once.** An expression that is
new is analysed, as a statement or for a slot of a type. The temporaries that this takes are
distinct, and the lines of the result write each of them, and each call of the tree, once. If no
name of the tree stands in C for one of these temporaries, each is read between its assignment and
the line that drops it: those that hold an object when the value is used are just those that the
value reads, and none does after it. -/
theorem Expr.lifetimes_of_analyse (e e' : Expr) (scope : ScopeId) (c c' : Checker)
    (hnew : e.outline = e)
    (h : (∃ slot, e.analyse slot scope c = .ok e' c')
      ∨ ∃ slot position, e.analyseInto slot scope position c = .ok e' c') :
    e'.outline = e
      ∧ (tempsFrom c.tempCount c'.tempCount).Nodup
      ∧ e'.WrittenOnce (tempsFrom c.tempCount c'.tempCount)
      ∧ ((∀ o ∈ e'.occurrences, o.cName ∉ tempsFrom c.tempCount c'.tempCount) →
        e'.KeepsLifetimes (tempsFrom c.tempCount c'.tempCount)) := by
  have hprepared : Prepared c.tempCount e' c'.tempCount := by
    rcases h with ⟨slot, h⟩ | ⟨slot, position, h⟩
    · exact prepared_of_analyse hnew h
    · exact prepared_of_analyseInto hnew h
  have houtline : e'.outline = e := by
    rcases h with ⟨slot, h⟩ | ⟨slot, position, h⟩
    · have hsame := outline_analyse e slot scope c
      rw [h] at hsame
      exact hsame.trans hnew
    · have hsame := outline_analyseInto e slot scope position c
      rw [h] at hsame
      exact hsame.trans hnew
  exact ⟨houtline, Checker.nodup_tempsFrom _ _, hprepared.writtenOnce, hprepared.keepsLifetimes⟩

/-- Declarations of a header: a variable with the name of a temporary, and a function. -/
def Stmt.hostHeader : List Stmt :=
  let here := Position.unknown
  let param (type : String) : Parameter :=
    { descriptor := .named type, depth := 0, name := none, position := here }
  [.var
      { form := .plain, descriptor := .named "int", depth := 0, name := tempName 0, value := none,
        position := here, isExternal := true },
    .prototype
      { descriptor := .named "int", depth := 0, name := "total",
        params := [param "int", param "object"], position := here, isExternal := true }]

/-- The state after the declarations of the header. -/
def Checker.afterHeader : Checker :=
  (Stmt.analyseAll Stmt.hostHeader Checker.global (Checker.start .empty)).checker

/-- `total(nil + 1, !(-nil * total(2, nil)) && nil)`: calls to the host as an argument that is
converted, below each other and below operators that have no temporary. -/
def Expr.nestedCalls : Expr :=
  let here := Position.unknown
  let null := Expr.ofLiteral .nil here
  let int (value : Int) := Expr.ofLiteral (.int value) here
  let product :=
    Expr.ofBinary (.ofUnary "-" null here) "*" (.ofCall "total" [int 2, null] here) here
  .ofCall "total"
    [.ofBinary null "+" (int 1) here, .ofBinary (.ofUnary "!" product here) "&&" null here] here

theorem Expr.nestedCalls_lifetimes :
    Expr.nestedCalls.outline = Expr.nestedCalls
      ∧ ∃ e' c', Expr.nestedCalls.analyse none Checker.global Checker.afterHeader = .ok e' c'
        ∧ tempsFrom Checker.afterHeader.tempCount c'.tempCount
          = ["__extc_tmp_0", "__extc_tmp_1", "__extc_tmp_2"]
        ∧ (∀ o ∈ e'.occurrences, o.cName ∉ tempsFrom Checker.afterHeader.tempCount c'.tempCount)
        ∧ e'.WrittenOnce ["__extc_tmp_0", "__extc_tmp_1", "__extc_tmp_2"]
        ∧ e'.KeepsLifetimes ["__extc_tmp_0", "__extc_tmp_1", "__extc_tmp_2"] := by
  have hnew : Expr.nestedCalls.outline = Expr.nestedCalls := rfl
  have hok : (Expr.nestedCalls.analyse none Checker.global Checker.afterHeader).error = none := by
    decide +kernel
  have htemps : tempsFrom Checker.afterHeader.tempCount
      (Expr.nestedCalls.analyse none Checker.global Checker.afterHeader).checker.tempCount
        = ["__extc_tmp_0", "__extc_tmp_1", "__extc_tmp_2"] := by
    decide +kernel
  have hnames : ∀ o ∈
      (Expr.nestedCalls.analyse none Checker.global Checker.afterHeader).node.occurrences,
      o.cName ∉ ["__extc_tmp_0", "__extc_tmp_1", "__extc_tmp_2"] := by
    decide +kernel
  obtain ⟨-, -, honce, hlifetimes⟩ := Expr.lifetimes_of_analyse Expr.nestedCalls _ Checker.global
    Checker.afterHeader _ hnew (.inl ⟨none, Outcome.eq_ok hok⟩)
  rw [htemps] at honce hlifetimes
  refine ⟨hnew, _, _, Outcome.eq_ok hok, htemps, ?_, honce, hlifetimes hnames⟩
  rw [htemps]
  exact hnames

/-- The sum of the variable of the header and an object. -/
def Expr.capturedSum : Expr :=
  let here := Position.unknown
  .ofBinary (.ofName (tempName 0) here) "+" (.ofLiteral .nil here) here

/-- Analysis accepts the sum and takes a temporary for it, under the name that also stands for the
variable. So the line that assigns to the temporary reads it first. -/
theorem Expr.capturedSum_breaks :
    Expr.capturedSum.outline = Expr.capturedSum
      ∧ ∃ e' c', Expr.capturedSum.analyse none Checker.global Checker.afterHeader = .ok e' c'
        ∧ tempsFrom Checker.afterHeader.tempCount c'.tempCount = ["__extc_tmp_0"]
        ∧ ¬ e'.KeepsLifetimes (tempsFrom Checker.afterHeader.tempCount c'.tempCount) := by
  have hok : (Expr.capturedSum.analyse none Checker.global Checker.afterHeader).error = none := by
    decide +kernel
  have htemps : tempsFrom Checker.afterHeader.tempCount
      (Expr.capturedSum.analyse none Checker.global Checker.afterHeader).checker.tempCount
        = ["__extc_tmp_0"] := by
    decide +kernel
  have hrun : trackAll ["__extc_tmp_0"] []
      (Expr.capturedSum.analyse none Checker.global Checker.afterHeader).node.evaluate = none := by
    decide +kernel
  refine ⟨rfl, _, _, Outcome.eq_ok hok, htemps, ?_⟩
  rintro ⟨live, hlive, -⟩
  rw [htemps, hrun] at hlive
  cases hlive

end ExtensionCompiler

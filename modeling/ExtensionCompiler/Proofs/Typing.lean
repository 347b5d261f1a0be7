import ExtensionCompiler.Expr.Emission
import ExtensionCompiler.Proofs.Growth

set_option autoImplicit false

/-! # Typing of analysed expressions

`Expr.Typed find e` is the typing judgement of analysed expressions: every name in `e` stands for
the entry that `find` gives, every node has the type that its operator and its operands ask for, and
every value that goes to a slot fits it (`Expr.Fits`). Analysis that succeeds gives a typed
expression (`Expr.analyse_typed`). It leaves the state as it was but for temporaries, whether it
succeeds or not (`Expr.analyse_takesTemps`). -/

namespace ExtensionCompiler

/-! ## Outcomes -/

namespace Outcome

variable {α β : Type}

theorem andThen_of_ok {o : Outcome α} (h : o.error = none) (stopped : α → β)
    (next : α → Checker → Outcome β) : o.andThen stopped next = next o.node o.checker := by
  rw [andThen, h]

/-- A sequence that succeeds goes on from what its first part leaves. -/
theorem andThen_parts {o : Outcome α} {stopped : α → β} {next : α → Checker → Outcome β}
    (h : (o.andThen stopped next).error = none) :
    o.error = none ∧ (next o.node o.checker).error = none
      ∧ o.andThen stopped next = next o.node o.checker := by
  obtain ⟨ho, hnext⟩ := (andThen_error_eq_none_iff o stopped next).mp h
  exact ⟨ho, hnext, andThen_of_ok ho stopped next⟩

/-- What holds of the state after the first part, and after both if the first succeeds, holds of
the state after the sequence. -/
theorem andThen_checker {P : Checker → Prop} {o : Outcome α} {stopped : α → β}
    {next : α → Checker → Outcome β} (hstop : P o.checker)
    (hnext : o.error = none → P (next o.node o.checker).checker) :
    P (o.andThen stopped next).checker := by
  cases h : o.error with
  | none => rw [andThen_of_ok h]; exact hnext h
  | some e => rw [andThen, h]; exact hstop

end Outcome

theorem Checker.lookup_eq_ok {c : Checker} {scope : ScopeId} {name : String} {position : Position}
    {entry : Entry} (h : c.lookup scope name position = .ok entry) :
    c.find? scope name = some entry := by
  unfold lookup at h
  cases hf : c.find? scope name with
  | none => rw [hf] at h; cases h
  | some found => rw [hf] at h; cases h; rfl

/-! ## Values that fit a slot -/

namespace Conversion

/-- Nothing lies between two objects or two native values only. -/
theorem between_eq_direct {value slot : Ty} (h : between value slot = .direct) :
    value.isObject = slot.isObject := by
  unfold between at h
  cases hv : value.isObject with
  | false =>
      cases hs : slot.isObject with
      | false => rfl
      | true => rw [hv, hs] at h; cases hb : value.boxFunction? <;> simp [hb] at h
  | true =>
      cases hs : slot.isObject with
      | false => rw [hv, hs] at h; cases hb : slot.unboxFunction? <;> simp [hb] at h
      | true => rfl

/-- A conversion leads from the one side to the other. -/
theorem between_eq_through {value slot : Ty} {conversion : Conversion}
    (h : between value slot = .through conversion) :
    value.isObject ≠ slot.isObject ∧ conversion.resultType.isObject = slot.isObject := by
  unfold between at h
  cases hv : value.isObject with
  | false =>
      cases hs : slot.isObject with
      | false => simp [hv, hs] at h
      | true =>
          rw [hv, hs] at h
          cases hb : value.boxFunction? with
          | none => simp [hb] at h
          | some function =>
              simp only [hb, Bridge.through.injEq] at h
              subst h
              exact ⟨by decide, rfl⟩
  | true =>
      cases hs : slot.isObject with
      | false =>
          rw [hv, hs] at h
          cases hb : slot.unboxFunction? with
          | none => simp [hb] at h
          | some function =>
              simp only [hb, Bridge.through.injEq] at h
              subst h
              exact ⟨by decide, hs⟩
      | true => simp [hv, hs] at h

end Conversion

namespace Expr

/-- A value as it should stand at a slot: the slot holds it, both are objects or both are not, and
it carries a conversion just where the value itself and the slot differ in that. -/
def Fits (slot : Ty) (value : Expr) : Prop :=
  slot.holds value.type = true
    ∧ value.type.isObject = slot.isObject
    ∧ (value.conversion?.isSome = true ↔ value.naturalType.isObject ≠ slot.isObject)

instance (slot : Ty) (value : Expr) : Decidable (value.Fits slot) :=
  inferInstanceAs (Decidable (_ ∧ _ ∧ _))

@[simp] theorem info_withInfo (e : Expr) (info : Info) : (e.withInfo info).info = info := by
  cases e <;> rfl

@[simp] theorem conversion?_withConversion (e : Expr) (conversion : Option Conversion) :
    (e.withConversion conversion).conversion? = conversion := by
  rw [conversion?, withConversion, info_withInfo]

@[simp] theorem naturalType_withConversion (e : Expr) (conversion : Option Conversion) :
    (e.withConversion conversion).naturalType = e.naturalType := by
  rw [naturalType, withConversion, info_withInfo, naturalType]

theorem type_withConversion_none (e : Expr) : (e.withConversion none).type = e.naturalType := by
  rw [type, conversion?_withConversion, naturalType_withConversion]

theorem type_withConversion_some (e : Expr) (conversion : Conversion) :
    (e.withConversion (some conversion)).type = conversion.resultType := by
  rw [type, conversion?_withConversion]

/-- A value that was made to fit does fit, and nothing but its conversion was touched. -/
theorem fit_ok {e : Expr} {slot : Ty} {position : Position} {c : Checker}
    (h : (e.fit slot position c).error = none) :
    ∃ conversion, e.fit slot position c = .ok (e.withConversion conversion) c
      ∧ (e.withConversion conversion).Fits slot := by
  -- whichever conversion was attached, the slot is asked about the value that has it
  have hcheck : ∀ v : Expr, (fit.check slot position c v).error = none →
      fit.check slot position c v = .ok v c ∧ slot.holds v.type = true := by
    intro v hv
    unfold fit.check at hv ⊢
    by_cases hh : slot.holds v.type = true
    · rw [if_pos hh]
      exact ⟨rfl, hh⟩
    · rw [if_neg hh] at hv
      cases hv
  unfold fit at h ⊢
  cases hb : Conversion.between e.naturalType slot with
  | impossible => rw [hb] at h; cases h
  | direct =>
      rw [hb] at h
      have hagree := Conversion.between_eq_direct hb
      obtain ⟨hfit, hholds⟩ := hcheck _ h
      refine ⟨none, hfit, hholds, ?_, ?_⟩
      · rw [type_withConversion_none, hagree]
      · simp [hagree]
  | through conversion =>
      rw [hb] at h
      obtain ⟨hdiffer, hresult⟩ := Conversion.between_eq_through hb
      obtain ⟨hfit, hholds⟩ := hcheck _ h
      refine ⟨some conversion, hfit, hholds, ?_, ?_⟩
      · rw [type_withConversion_some, hresult]
      · simp [hdiffer]

/-- Whether it fits or not, a value is left as it was, or with the conversion that lies between it
and the slot. -/
theorem fit_eq (e : Expr) (slot : Ty) (position : Position) (c : Checker) :
    (e.fit slot position c).checker = c
      ∧ ((e.fit slot position c).node = e
        ∨ ∃ conversion, (e.fit slot position c).node = e.withConversion conversion
          ∧ ∀ k, conversion = some k → Conversion.between e.naturalType slot = .through k) := by
  have hcheck : ∀ v : Expr, (fit.check slot position c v).checker = c
      ∧ (fit.check slot position c v).node = v := by
    intro v
    unfold fit.check
    split <;> exact ⟨rfl, rfl⟩
  unfold fit
  split
  · exact ⟨rfl, .inl rfl⟩
  · exact ⟨(hcheck _).1, .inr ⟨none, (hcheck _).2, fun k hk => nomatch hk⟩⟩
  · rename_i conversion hbetween
    refine ⟨(hcheck _).1, .inr ⟨some conversion, (hcheck _).2, fun k hk => ?_⟩⟩
    rw [hbetween, Option.some.inj hk]

theorem fit_checker (e : Expr) (slot : Ty) (position : Position) (c : Checker) :
    (e.fit slot position c).checker = c :=
  (e.fit_eq slot position c).1

/-- An index that is an object is fitted to `long`; any other is left as it was. -/
theorem fitIndex_eq (index : Expr) (position : Position) (c : Checker) :
    (index.fitIndex position c).checker = c
      ∧ ((index.fitIndex position c).node = index
        ∨ (index.fitIndex position c).node = (index.fit (.primitive .long) position c).node) := by
  have hnext (v : Expr) (d : Checker) : (if v.type.isInteger then Outcome.ok v d
      else .fail (mismatch "integer" v.type.describe position) v d).checker = d
      ∧ (if v.type.isInteger then Outcome.ok v d
        else .fail (mismatch "integer" v.type.describe position) v d).node = v := by
    split <;> exact ⟨rfl, rfl⟩
  unfold fitIndex Outcome.andThen
  split
  · split
    · exact ⟨index.fit_checker _ position c, .inr rfl⟩
    · exact ⟨rfl, .inl rfl⟩
  · rw [(hnext _ _).1, (hnext _ _).2]
    split
    · exact ⟨index.fit_checker _ position c, .inr rfl⟩
    · exact ⟨rfl, .inl rfl⟩

/-! ## The typing judgement -/

mutual

/-- An analysed expression. Names stand for the entries that `find` gives. -/
inductive Typed (find : String → Option Entry) : Expr → Prop
  | literal {info : Info} {value : Literal} {slot : Option Ty} :
      info.type = value.typeFor slot → Typed find (.literal info value)
  | name {info : Info} {written : String} {entry : Entry} :
      find written = some entry → entry.kind.isType = false → info.type = entry.valueType →
      Typed find (.name info written entry.cName entry.isAssignable)
  | element {info : Info} {written : String} {entry : Entry} {index : Expr} :
      find written = some entry → entry.type.element? = some info.type →
      Typed find index → index.type.isInteger = true →
      Typed find (.element info written entry.cName index)
  /-- A unary operation that is a call to the host. -/
  | hostUnary {info : Info} {operator : String} {operand : Expr} {temp : String} :
      Typed find operand → Operator.dispatchesUnary operator operand.type = true →
      info.type = .object → Typed find (.unary info operator operand (some temp))
  | unary {info : Info} {operator : String} {operand : Expr} {temp : Option String} :
      Typed find operand → Operator.dispatchesUnary operator operand.type = false →
      Operator.unaryResult? operator operand.type operand.isAssignable = some info.type →
      Typed find (.unary info operator operand temp)
  /-- A binary operation on objects. -/
  | hostBinary {info : Info} {left right : Expr} {operator : String} {temp : Option String} :
      Typed find left → left.Fits .object → Typed find right → right.Fits .object →
      info.type = .object → (Operator.isLogical operator = true ∨ temp.isSome = true) →
      Typed find (.binary info left operator right temp)
  | binary {info : Info} {left right : Expr} {operator : String} {temp : Option String} :
      Typed find left → left.type.isObject = false → Typed find right →
      right.type.isObject = false →
      Operator.nativeResult? operator left.type right.type = some info.type →
      Typed find (.binary info left operator right temp)
  | call {info : Info} {written : String} {entry : Entry} {params : List Ty} {args : List Expr} :
      find written = some entry → entry.callee? = some (params, info.type) →
      TypedArgs find params args → Typed find (.call info written entry.cName args)

/-- Arguments that fit the parameters they go to, one by one. -/
inductive TypedArgs (find : String → Option Entry) : List Ty → List Expr → Prop
  | nil : TypedArgs find [] []
  | cons {param : Ty} {params : List Ty} {arg : Expr} {args : List Expr} :
      Typed find arg → arg.Fits param → TypedArgs find params args →
      TypedArgs find (param :: params) (arg :: args)

end

/-- The judgement does not look at the conversion of the root. -/
theorem Typed.withConversion {find : String → Option Entry} {e : Expr} (h : Typed find e)
    (conversion : Option Conversion) : Typed find (e.withConversion conversion) := by
  cases h with
  | literal htype => exact .literal htype
  | name hfind hkind htype => exact .name hfind hkind htype
  | element hfind helem hindex hint => exact .element hfind helem hindex hint
  | hostUnary hop hdisp htype => exact .hostUnary hop hdisp htype
  | unary hop hdisp hres => exact .unary hop hdisp hres
  | hostBinary hl hfl hr hfr htype htemp => exact .hostBinary hl hfl hr hfr htype htemp
  | binary hl hol hr hor hres => exact .binary hl hol hr hor hres
  | call hfind hcallee hargs => exact .call hfind hcallee hargs

/-! ## What analysis does to the state -/

open Checker (TakesTemps)

theorem fitIndex_checker (index : Expr) (position : Position) (c : Checker) :
    (index.fitIndex position c).checker = c :=
  (index.fitIndex_eq position c).1

theorem finishUnary_takesTemps (info : Info) (operator : String) (operand : Expr)
    (temp : Option String) (scope : ScopeId) (c : Checker) :
    TakesTemps scope c (finishUnary info operator operand temp scope c).checker := by
  unfold finishUnary
  split
  · exact .more .none
  · split <;> exact .none

theorem finishHostBinary_takesTemps (info : Info) (left : Expr) (operator : String) (right : Expr)
    (temp : Option String) (scope : ScopeId) (c : Checker) :
    TakesTemps scope c (finishHostBinary info left operator right temp scope c).checker := by
  unfold finishHostBinary
  refine Outcome.andThen_checker (P := TakesTemps scope c)
    (.of_eq (fit_checker left _ _ c)) fun _ => ?_
  rw [fit_checker left]
  refine Outcome.andThen_checker (P := TakesTemps scope c)
    (.of_eq (fit_checker right _ _ c)) fun _ => ?_
  rw [fit_checker right]
  split
  · exact .none
  · exact .more .none

theorem finishBinary_takesTemps (info : Info) (left : Expr) (operator : String) (right : Expr)
    (temp : Option String) (scope : ScopeId) (c : Checker) :
    TakesTemps scope c (finishBinary info left operator right temp scope c).checker := by
  unfold finishBinary
  split
  · exact finishHostBinary_takesTemps info left operator right temp scope c
  · split <;> exact .none

theorem analyseName_checker (info : Info) (written cName : String) (assignable : Bool)
    (scope : ScopeId) (c : Checker) :
    (analyseName info written cName assignable scope c).checker = c := by
  unfold analyseName
  split
  · rfl
  · split <;> rfl

mutual

/-- Analysis takes temporaries and does nothing else to the state, also when it fails. -/
theorem analyse_takesTemps : (e : Expr) → (slot : Option Ty) → (scope : ScopeId) → (c : Checker) →
    TakesTemps scope c (e.analyse slot scope c).checker
  | .literal info value, slot, scope, c => .none
  | .name info written cName assignable, slot, scope, c => by
      rw [analyse]
      exact .of_eq (analyseName_checker info written cName assignable scope c)
  | .element info written cName index, slot, scope, c => by
      rw [analyse]
      split
      · exact .none
      · split
        · exact .none
        · refine Outcome.andThen_checker (P := TakesTemps scope c)
            (analyse_takesTemps index _ scope c) fun _ => ?_
          rw [fitIndex_checker]
          exact analyse_takesTemps index _ scope c
  | .unary info operator operand temp, slot, scope, c => by
      rw [analyse]
      refine Outcome.andThen_checker (P := TakesTemps scope c)
        (analyse_takesTemps operand none scope c) fun _ => ?_
      exact (analyse_takesTemps operand none scope c).trans
        (finishUnary_takesTemps info operator _ temp scope _)
  | .binary info left operator right temp, slot, scope, c => by
      rw [analyse]
      refine Outcome.andThen_checker (P := TakesTemps scope c)
        (analyse_takesTemps left none scope c) fun _ => ?_
      have hright := (analyse_takesTemps left none scope c).trans
        (analyse_takesTemps right none scope _)
      refine Outcome.andThen_checker (P := TakesTemps scope c) hright
        fun _ => ?_
      exact hright.trans (finishBinary_takesTemps info _ operator _ temp scope _)
  | .call info written cName args, slot, scope, c => by
      rw [analyse]
      split
      · exact .none
      · split
        · exact .none
        · split
          · exact .none
          · have hargs := fun params => analyseArgs_takesTemps args params info.position scope c
            exact Outcome.andThen_checker (P := TakesTemps scope c)
              (hargs _) fun _ => hargs _

theorem analyseArgs_takesTemps : (args : List Expr) → (params : List Ty) → (position : Position) →
    (scope : ScopeId) → (c : Checker) →
    TakesTemps scope c (analyseArgs args params position scope c).checker
  | [], params, position, scope, c | arg :: args, [], position, scope, c => by
      rw [analyseArgs]
      · exact .none
      · simp
  | arg :: args, param :: params, position, scope, c => by
      rw [analyseArgs]
      have harg : TakesTemps scope c ((arg.analyse (some param) scope c).andThen id
          fun arg c => arg.fit param position c).checker := by
        refine Outcome.andThen_checker (P := TakesTemps scope c)
          (analyse_takesTemps arg _ scope c) fun _ => ?_
        rw [fit_checker]
        exact analyse_takesTemps arg _ scope c
      refine Outcome.andThen_checker (P := TakesTemps scope c) harg
        fun _ => ?_
      exact harg.trans (analyseArgs_takesTemps args params position scope _)

end

/-! ## Analysis that succeeds gives typed expressions -/

variable {info : Info} {scope : ScopeId} {c : Checker} {find : String → Option Entry}
  {operator : String} {temp : Option String}

theorem analyseName_typed {written cName : String} {assignable : Bool}
    (h : (analyseName info written cName assignable scope c).error = none) :
    Typed (c.find? scope) (analyseName info written cName assignable scope c).node := by
  unfold analyseName at h ⊢
  cases hl : c.lookup scope written info.position with
  | error e => rw [hl] at h; cases h
  | ok entry =>
      rw [hl] at h
      dsimp only at h ⊢
      cases hk : entry.kind.isType with
      | true => rw [hk] at h; cases h
      | false => exact .name (Checker.lookup_eq_ok hl) hk rfl

theorem fitIndex_typed {index : Expr} {position : Position}
    (ht : Typed find index) (h : (index.fitIndex position c).error = none) :
    Typed find (index.fitIndex position c).node
      ∧ (index.fitIndex position c).node.type.isInteger = true := by
  unfold fitIndex at h ⊢
  obtain ⟨hfirst, hnext, heq⟩ := Outcome.andThen_parts h
  rw [heq]
  have hint : ∀ (v : Expr) (d : Checker), (if v.type.isInteger then Outcome.ok v d
      else .fail (mismatch "integer" v.type.describe position) v d).error = none →
      Typed find v →
      Typed find (if v.type.isInteger then Outcome.ok v d
        else .fail (mismatch "integer" v.type.describe position) v d).node
        ∧ (if v.type.isInteger then Outcome.ok v d
          else .fail (mismatch "integer" v.type.describe position) v d).node.type.isInteger
            = true := by
    intro v d hv htv
    cases hi : v.type.isInteger with
    | true => exact ⟨htv, hi⟩
    | false => rw [hi] at hv; cases hv
  refine hint _ _ hnext ?_
  -- an object was fitted to `long` first, which is a change to its conversion
  by_cases hobj : index.type.isObject = true
  · rw [if_pos hobj] at hfirst ⊢
    obtain ⟨conversion, hfit, -⟩ := fit_ok hfirst
    rw [hfit]
    exact ht.withConversion conversion
  · rw [if_neg hobj]
    exact ht

theorem finishUnary_typed {operand : Expr} (ht : Typed find operand)
    (h : (finishUnary info operator operand temp scope c).error = none) :
    Typed find (finishUnary info operator operand temp scope c).node := by
  unfold finishUnary at h ⊢
  cases hd : Operator.dispatchesUnary operator operand.type with
  | true => exact .hostUnary ht hd rfl
  | false =>
      simp only [hd, Bool.false_eq_true, if_false] at h ⊢
      cases hr : Operator.unaryResult? operator operand.type operand.isAssignable with
      | none => rw [hr] at h; cases h
      | some type => exact .unary ht hd hr

theorem finishHostBinary_typed {left right : Expr} (hl : Typed find left) (hr : Typed find right)
    (h : (finishHostBinary info left operator right temp scope c).error = none) :
    Typed find (finishHostBinary info left operator right temp scope c).node := by
  unfold finishHostBinary at h ⊢
  obtain ⟨hleft, h, heq⟩ := Outcome.andThen_parts h
  rw [heq]
  obtain ⟨hright, -, heq⟩ := Outcome.andThen_parts h
  rw [heq]
  obtain ⟨lc, hlfit, hlf⟩ := fit_ok hleft
  obtain ⟨rc, hrfit, hrf⟩ := fit_ok hright
  rw [hrfit, hlfit]
  by_cases hop : Operator.isLogical operator = true
  · rw [if_pos hop]
    exact .hostBinary (hl.withConversion lc) hlf (hr.withConversion rc) hrf rfl (.inl hop)
  · rw [if_neg hop]
    exact .hostBinary (hl.withConversion lc) hlf (hr.withConversion rc) hrf rfl (.inr rfl)

theorem finishBinary_typed {left right : Expr} (hl : Typed find left) (hr : Typed find right)
    (h : (finishBinary info left operator right temp scope c).error = none) :
    Typed find (finishBinary info left operator right temp scope c).node := by
  unfold finishBinary at h ⊢
  -- one object among the operands is enough to make the operation one of the host
  by_cases hobj : (left.type.isObject || right.type.isObject) = true
  · rw [if_pos hobj] at h ⊢
    exact finishHostBinary_typed hl hr h
  · rw [if_neg hobj] at h ⊢
    simp only [Bool.or_eq_true, not_or, Bool.not_eq_true] at hobj
    cases hres : Operator.nativeResult? operator left.type right.type with
    | none => rw [hres] at h; cases h
    | some type => exact .binary hl hobj.1 hr hobj.2 hres

theorem arityCause?_eq_none {expected received : Nat} (h : arityCause? expected received = none) :
    received = expected := by
  unfold arityCause? at h
  split at h
  · cases h
  · split at h
    · cases h
    · omega

mutual

/-- **Soundness of analysis.** An expression whose analysis succeeds is typed. -/
theorem analyse_typed : (e : Expr) → (slot : Option Ty) → (scope : ScopeId) → (c : Checker) →
    (e.analyse slot scope c).error = none → Typed (c.find? scope) (e.analyse slot scope c).node
  | .literal info value, slot, scope, c, _ => by
      rw [analyse]
      exact .literal rfl
  | .name info written cName assignable, slot, scope, c, h => by
      rw [analyse] at h ⊢
      exact analyseName_typed h
  | .element info written cName index, slot, scope, c, h => by
      rw [analyse] at h ⊢
      cases hl : c.lookup scope written info.position with
      | error e => rw [hl] at h; cases h
      | ok entry =>
          rw [hl] at h
          dsimp only at h ⊢
          cases helem : entry.type.element? with
          | none => rw [helem] at h; cases h
          | some type =>
              rw [helem] at h
              dsimp only at h ⊢
              obtain ⟨hindex, hfit⟩ := (Outcome.andThen_error_eq_none_iff _ _ _).mp h
              have ht := analyse_typed index _ scope c hindex
              obtain ⟨htyped, hint⟩ := fitIndex_typed ht hfit
              rw [Outcome.andThen_of_ok hindex]
              exact .element (Checker.lookup_eq_ok hl) helem htyped hint
  | .unary info operator operand temp, slot, scope, c, h => by
      rw [analyse] at h ⊢
      obtain ⟨hop, hfinish, heq⟩ := Outcome.andThen_parts h
      rw [heq]
      exact finishUnary_typed (analyse_typed operand none scope c hop) hfinish
  | .binary info left operator right temp, slot, scope, c, h => by
      rw [analyse] at h ⊢
      obtain ⟨hleft, h, heq⟩ := Outcome.andThen_parts h
      rw [heq]
      obtain ⟨hright, hfinish, heq⟩ := Outcome.andThen_parts h
      rw [heq]
      -- the left operand has taken temporaries, which the right one does not see
      have htright := analyse_typed right none scope _ hright
      rw [(analyse_takesTemps left none scope c).find?_eq scope] at htright
      exact finishBinary_typed (analyse_typed left none scope c hleft) htright hfinish
  | .call info written cName args, slot, scope, c, h => by
      rw [analyse] at h ⊢
      cases hl : c.lookup scope written info.position with
      | error e => rw [hl] at h; cases h
      | ok entry =>
          rw [hl] at h
          dsimp only at h ⊢
          cases hcallee : entry.callee? with
          | none => rw [hcallee] at h; cases h
          | some callee =>
              obtain ⟨params, result⟩ := callee
              rw [hcallee] at h
              dsimp only at h ⊢
              cases harity : arityCause? params.length args.length with
              | some cause => rw [harity] at h; cases h
              | none =>
                  rw [harity] at h
                  dsimp only at h ⊢
                  -- without an error of arity, no argument is left out by `analyseArgs`
                  obtain ⟨hargs, -, heq⟩ := Outcome.andThen_parts h
                  rw [heq]
                  exact .call (Checker.lookup_eq_ok hl) hcallee
                    (analyseArgs_typed args params info.position scope c
                      (arityCause?_eq_none harity) hargs)

theorem analyseArgs_typed : (args : List Expr) → (params : List Ty) → (position : Position) →
    (scope : ScopeId) → (c : Checker) → args.length = params.length →
    (analyseArgs args params position scope c).error = none →
    TypedArgs (c.find? scope) params (analyseArgs args params position scope c).node
  | [], [], position, scope, c, _, _ => by
      rw [analyseArgs]
      · exact .nil
      · simp
  | arg :: args, param :: params, position, scope, c, hlen, h => by
      rw [analyseArgs] at h ⊢
      obtain ⟨harg, hrest, heq⟩ := Outcome.andThen_parts h
      rw [heq]
      obtain ⟨hanalyse, hfit, heq⟩ := Outcome.andThen_parts harg
      rw [heq] at hrest ⊢
      obtain ⟨conversion, hnode, hfits⟩ := fit_ok hfit
      have ht := (analyse_typed arg (some param) scope c hanalyse).withConversion conversion
      rw [hnode] at hrest ⊢
      have hrest' := analyseArgs_typed args params position scope _
        (Nat.succ.inj hlen) hrest
      rw [Outcome.ok, (analyse_takesTemps arg (some param) scope c).find?_eq scope] at hrest'
      exact .cons ht hfits hrest'

end

/-- A value that was analysed for a slot is typed and fits. -/
theorem analyseInto_typed {e : Expr} {slot : Ty} {scope : ScopeId} {position : Position}
    {c : Checker} (h : (e.analyseInto slot scope position c).error = none) :
    Typed (c.find? scope) (e.analyseInto slot scope position c).node
      ∧ (e.analyseInto slot scope position c).node.Fits slot := by
  unfold analyseInto at h ⊢
  obtain ⟨hanalyse, hfit, heq⟩ := Outcome.andThen_parts h
  rw [heq]
  obtain ⟨conversion, hnode, hfits⟩ := fit_ok hfit
  rw [hnode]
  exact ⟨(analyse_typed e (some slot) scope c hanalyse).withConversion conversion, hfits⟩

theorem analyseInto_takesTemps (e : Expr) (slot : Ty) (scope : ScopeId) (position : Position)
    (c : Checker) : TakesTemps scope c (e.analyseInto slot scope position c).checker := by
  unfold analyseInto
  refine Outcome.andThen_checker (P := TakesTemps scope c)
    (analyse_takesTemps e _ scope c) fun _ => ?_
  rw [fit_checker]
  exact analyse_takesTemps e _ scope c

end Expr

end ExtensionCompiler

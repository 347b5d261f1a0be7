import Mathlib.Data.List.Nodup
import ExtensionCompiler.Proofs.Outline

set_option autoImplicit false

/-! # Temporaries

A call to the host keeps its result in a temporary. `Expr.Prepared` says what analysis has made of
an expression that was new: its temporaries are numbered in the order of evaluation, and just the
calls to the host have one (`Expr.analyse_prepared`). The temporaries that are held while the value
is used are some of them (`Expr.held`): a call to the host drops its operands at once. -/

namespace ExtensionCompiler

/-! ## The names of temporaries -/

namespace Checker

theorem tempName_injective {m n : Nat} (h : tempName m = tempName n) : m = n := by
  have hrepr := (String.append_right_inj _).mp h
  rw [Nat.repr_eq_ofList_toDigits, Nat.repr_eq_ofList_toDigits, String.ofList_inj] at hrepr
  -- the digits can be read back
  rw [← Nat.ofDigitChars_ten_toDigits (n := m), hrepr, Nat.ofDigitChars_ten_toDigits]

theorem tempName_ne {name : String} (h : name.toList.head? ≠ some '_') (n : Nat) :
    tempName n ≠ name := by
  rintro rfl
  refine h ?_
  rw [tempName, String.toList_append]
  rfl

/-- The temporaries with the numbers from `m` up to `n`. -/
def tempsFrom (m n : Nat) : List String := (List.range' m (n - m)).map tempName

theorem mem_tempsFrom {m n : Nat} {name : String} :
    name ∈ tempsFrom m n ↔ ∃ k, m ≤ k ∧ k < n ∧ tempName k = name := by
  rw [tempsFrom, List.mem_map]
  constructor
  · rintro ⟨k, hk, rfl⟩
    rw [List.mem_range'_1] at hk
    exact ⟨k, hk.1, by omega, rfl⟩
  · rintro ⟨k, hm, hn, rfl⟩
    exact ⟨k, List.mem_range'_1.mpr ⟨hm, by omega⟩, rfl⟩

theorem nodup_tempsFrom (m n : Nat) : (tempsFrom m n).Nodup :=
  List.Nodup.map (fun _ _ => tempName_injective) List.nodup_range'

theorem tempsFrom_self (n : Nat) : tempsFrom n n = [] := by
  rw [tempsFrom, Nat.sub_self]
  rfl

theorem tempsFrom_append {l m n : Nat} (hl : l ≤ m) (hm : m ≤ n) :
    tempsFrom l m ++ tempsFrom m n = tempsFrom l n := by
  rw [tempsFrom, tempsFrom, tempsFrom, ← List.map_append]
  congr 1
  have hlen : n - l = (m - l) + (n - m) := by omega
  rw [hlen, ← List.range'_append_1]
  congr 2
  omega

theorem tempsFrom_succ {m n : Nat} (h : m ≤ n) :
    tempsFrom m (n + 1) = tempsFrom m n ++ [tempName n] := by
  rw [← tempsFrom_append h (Nat.le_succ n)]
  congr 1
  rw [tempsFrom, show n + 1 - n = 1 by omega]
  rfl

end Checker

open Checker (tempName tempsFrom)

/-! ## What analysis prepares -/

/-- The function of the conversion, if there is one, is none that a temporary could be taken for. -/
def Info.Clean (info : Info) : Prop :=
  ∀ conversion, info.conversion = some conversion → ∀ n, tempName n ≠ conversion.function

/-- What the functions for numbers and those for texts have in common, the function of any
conversion has. -/
theorem Conversion.function_of_between {P : String → Prop}
    (hnumber : ∀ (kind : Primitive) (function : String),
      kind.boxFunction? = some function ∨ kind.unboxFunction? = some function → P function)
    (hbox : P "rb_str_new2") (hunbox : P "RSTRING_PTR") {value slot : Ty} {conversion : Conversion}
    (h : between value slot = .through conversion) : P conversion.function := by
  unfold between at h
  split at h
  · split at h
    · rename_i function hfunction
      cases h
      unfold Ty.boxFunction? at hfunction
      split at hfunction
      · exact hnumber _ function (.inl hfunction)
      · split at hfunction <;> cases hfunction
        exact hbox
    · cases h
  · split at h
    · rename_i function hfunction
      cases h
      unfold Ty.unboxFunction? at hfunction
      split at hfunction
      · exact hnumber _ function (.inr hfunction)
      · split at hfunction <;> cases hfunction
        exact hunbox
    · cases h
  · cases h

/-- No conversion is a call of what a temporary could be taken for. -/
theorem Conversion.tempName_ne_function {value slot : Ty} {conversion : Conversion}
    (h : between value slot = .through conversion) (n : Nat) :
    tempName n ≠ conversion.function := by
  refine function_of_between (P := (tempName n ≠ ·)) ?_ (Checker.tempName_ne (by decide) n)
    (Checker.tempName_ne (by decide) n) h
  rintro kind function (hbox | hunbox)
  · cases kind <;> cases hbox <;> exact Checker.tempName_ne (by decide) n
  · cases kind <;> cases hunbox <;> exact Checker.tempName_ne (by decide) n

namespace Expr

/-- Whether the node is a call to the host, whose result is kept in a temporary. -/
def isHostCall : Expr → Bool
  | unary _ operator operand _ => Operator.dispatchesUnary operator operand.type
  | binary _ left operator right _ =>
    (left.type.isObject || right.type.isObject) && !Operator.isLogical operator
  | _ => false

mutual

/-- An expression that was new when it was analysed, and that has taken the temporaries with the
numbers from the first one up to the second: its calls to the host in the order of evaluation. -/
inductive Prepared : Nat → Expr → Nat → Prop
  | literal {n : Nat} {info : Info} {value : Literal} :
      info.Clean → Prepared n (.literal info value) n
  | name {n : Nat} {info : Info} {written cName : String} {assignable : Bool} :
      info.Clean → Prepared n (.name info written cName assignable) n
  | element {m n : Nat} {info : Info} {written cName : String} {index : Expr} :
      info.Clean → Prepared m index n → Prepared m (.element info written cName index) n
  | hostUnary {m n : Nat} {info : Info} {operator : String} {operand : Expr} :
      info.Clean → Prepared m operand n → Operator.dispatchesUnary operator operand.type = true →
      Prepared m (.unary info operator operand (some (tempName n))) (n + 1)
  | unary {m n : Nat} {info : Info} {operator : String} {operand : Expr} :
      info.Clean → Prepared m operand n → Operator.dispatchesUnary operator operand.type = false →
      Prepared m (.unary info operator operand none) n
  | hostBinary {l m n : Nat} {info : Info} {left right : Expr} {operator : String} :
      info.Clean → Prepared l left m → Prepared m right n →
      (left.type.isObject || right.type.isObject) = true → Operator.isLogical operator = false →
      Prepared l (.binary info left operator right (some (tempName n))) (n + 1)
  | binary {l m n : Nat} {info : Info} {left right : Expr} {operator : String} :
      info.Clean → Prepared l left m → Prepared m right n →
      ((left.type.isObject || right.type.isObject) && !Operator.isLogical operator) = false →
      Prepared l (.binary info left operator right none) n
  | call {m n : Nat} {info : Info} {written cName : String} {args : List Expr} :
      info.Clean → PreparedAll m args n → Prepared m (.call info written cName args) n

inductive PreparedAll : Nat → List Expr → Nat → Prop
  | nil {n : Nat} : PreparedAll n [] n
  | cons {l m n : Nat} {e : Expr} {rest : List Expr} :
      Prepared l e m → PreparedAll m rest n → PreparedAll l (e :: rest) n

end

variable {m n : Nat}

theorem Prepared.withConversion {e : Expr} {conversion : Option Conversion}
    (h : Prepared m e n) (hclean : ∀ k, conversion = some k → ∀ n, tempName n ≠ k.function) :
    Prepared m (e.withConversion conversion) n := by
  have hinfo (info : Info) : Info.Clean { info with conversion } := hclean
  cases h with
  | literal _ => exact .literal (hinfo _)
  | name _ => exact .name (hinfo _)
  | element _ hindex => exact .element (hinfo _) hindex
  | hostUnary _ hop hhost => exact .hostUnary (hinfo _) hop hhost
  | unary _ hop hhost => exact .unary (hinfo _) hop hhost
  | hostBinary _ hl hr hobject hlogical => exact .hostBinary (hinfo _) hl hr hobject hlogical
  | binary _ hl hr hhost => exact .binary (hinfo _) hl hr hhost
  | call _ hargs => exact .call (hinfo _) hargs

/-- A value that was prepared stays so when it is fitted to a slot. -/
theorem Prepared.fit {e : Expr} (h : Prepared m e n) (slot : Ty) (position : Position)
    (c : Checker) : Prepared m (e.fit slot position c).node n := by
  obtain ⟨-, hnode | ⟨conversion, hnode, hbetween⟩⟩ := e.fit_eq slot position c
  · rw [hnode]
    exact h
  · rw [hnode]
    exact h.withConversion fun k hk => Conversion.tempName_ne_function (hbetween k hk)

theorem Prepared.fitIndex {index : Expr} (h : Prepared m index n)
    (position : Position) (c : Checker) : Prepared m (index.fitIndex position c).node n := by
  obtain ⟨-, hnode | hnode⟩ := index.fitIndex_eq position c
  · rw [hnode]
    exact h
  · rw [hnode]
    exact h.fit _ position c

theorem clean_of_new (position : Position) (type : Ty) : Info.Clean { position, type } :=
  fun _ h => nomatch h

theorem Prepared.finishUnary {position : Position} {operator : String} {operand : Expr}
    {scope : ScopeId} {c : Checker} (h : Prepared m operand c.tempCount)
    (hok : (finishUnary { position } operator operand none scope c).error = none) :
    Prepared m (finishUnary { position } operator operand none scope c).node
      (finishUnary { position } operator operand none scope c).checker.tempCount := by
  unfold Expr.finishUnary at hok ⊢
  cases hd : Operator.dispatchesUnary operator operand.type with
  | true => exact .hostUnary (clean_of_new _ _) h hd
  | false =>
      simp only [hd, Bool.false_eq_true, if_false] at hok ⊢
      cases hr : Operator.unaryResult? operator operand.type operand.isAssignable with
      | none => rw [hr] at hok; cases hok
      | some type => exact .unary (clean_of_new _ _) h hd

theorem Prepared.finishBinary {l : Nat} {position : Position} {operator : String}
    {left right : Expr} {scope : ScopeId} {c : Checker} (hleft : Prepared l left m)
    (hright : Prepared m right c.tempCount)
    (hok : (finishBinary { position } left operator right none scope c).error = none) :
    Prepared l (finishBinary { position } left operator right none scope c).node
      (finishBinary { position } left operator right none scope c).checker.tempCount := by
  unfold Expr.finishBinary at hok ⊢
  by_cases hobject : (left.type.isObject || right.type.isObject) = true
  · rw [if_pos hobject] at hok ⊢
    unfold finishHostBinary at hok ⊢
    obtain ⟨hlok, hok, heq⟩ := Outcome.andThen_parts hok
    rw [heq]
    obtain ⟨hrok, hok, heq⟩ := Outcome.andThen_parts hok
    rw [heq]
    obtain ⟨lc, hlfit, hlfits⟩ := fit_ok hlok
    obtain ⟨rc, hrfit, -⟩ := fit_ok hrok
    have hl := hleft.fit .object position c
    have hr := hright.fit .object position (left.fit .object position c).checker
    rw [hrfit] at hr ⊢
    rw [hlfit] at hl ⊢
    -- the left operand is an object now, if it was none before
    have hobject' : ((left.withConversion lc).type.isObject
        || (right.withConversion rc).type.isObject) = true := by
      rw [hlfits.2.1]
      rfl
    by_cases hop : Operator.isLogical operator = true
    · rw [if_pos hop]
      refine .binary (clean_of_new _ _) hl hr ?_
      rw [hop, Bool.not_true, Bool.and_false]
    · rw [if_neg hop]
      exact .hostBinary (clean_of_new _ _) hl hr hobject' (Bool.eq_false_iff.mpr hop)
  · rw [if_neg hobject] at hok ⊢
    cases hres : Operator.nativeResult? operator left.type right.type with
    | none => rw [hres] at hok; cases hok
    | some type =>
        refine .binary (clean_of_new _ _) hleft hright ?_
        rw [Bool.eq_false_iff.mpr hobject, Bool.false_and]

mutual

/-- **Analysis of a new expression prepares it.** The temporaries it takes are those of the calls to
the host, in the order of evaluation. -/
theorem analyse_prepared : (e : Expr) → (slot : Option Ty) → (scope : ScopeId) → (c : Checker) →
    (e.outline.analyse slot scope c).error = none →
    Prepared c.tempCount (e.outline.analyse slot scope c).node
      (e.outline.analyse slot scope c).checker.tempCount
  | .literal info value, slot, scope, c, _ => .literal (clean_of_new _ _)
  | .name info written cName assignable, slot, scope, c, h => by
      rw [outline, ofName, analyse] at h ⊢
      unfold analyseName at h ⊢
      cases hl : c.lookup scope written info.position with
      | error e => rw [hl] at h; cases h
      | ok entry =>
          rw [hl] at h
          dsimp only at h ⊢
          cases hk : entry.kind.isType with
          | true => rw [hk] at h; cases h
          | false => exact .name (clean_of_new _ _)
  | .element info written cName index, slot, scope, c, h => by
      rw [outline, ofElement, analyse] at h ⊢
      cases hl : c.lookup scope written info.position with
      | error e => rw [hl] at h; cases h
      | ok entry =>
          rw [hl] at h
          dsimp only at h ⊢
          cases helem : entry.type.element? with
          | none => rw [helem] at h; cases h
          | some type =>
              rw [helem] at h
              dsimp only at h ⊢
              obtain ⟨hindex, -, heq⟩ := Outcome.andThen_parts h
              rw [heq]
              refine .element (clean_of_new _ _) ?_
              rw [Outcome.map, fitIndex_checker]
              exact (analyse_prepared index _ scope c hindex).fitIndex info.position _
  | .unary info operator operand temp, slot, scope, c, h => by
      rw [outline, ofUnary, analyse] at h ⊢
      obtain ⟨hop, hfinish, heq⟩ := Outcome.andThen_parts h
      rw [heq]
      exact (analyse_prepared operand none scope c hop).finishUnary hfinish
  | .binary info left operator right temp, slot, scope, c, h => by
      rw [outline, ofBinary, analyse] at h ⊢
      obtain ⟨hleft, h, heq⟩ := Outcome.andThen_parts h
      rw [heq]
      obtain ⟨hright, hfinish, heq⟩ := Outcome.andThen_parts h
      rw [heq]
      exact (analyse_prepared left none scope c hleft).finishBinary
        (analyse_prepared right none scope _ hright) hfinish
  | .call info written cName args, slot, scope, c, h => by
      rw [outline, ofCall, analyse] at h ⊢
      cases hl : c.lookup scope written info.position with
      | error e => rw [hl] at h; cases h
      | ok entry =>
          rw [hl] at h
          dsimp only at h ⊢
          cases hcallee : entry.callee? with
          | none => rw [hcallee] at h; cases h
          | some callee =>
              obtain ⟨params, result⟩ := callee
              rw [hcallee] at h
              dsimp only at h ⊢
              cases harity : arityCause? params.length (outlineAll args).length with
              | some cause => rw [harity] at h; cases h
              | none =>
                  rw [harity] at h
                  dsimp only at h ⊢
                  obtain ⟨hargs, -, heq⟩ := Outcome.andThen_parts h
                  rw [heq]
                  exact .call (clean_of_new _ _) (analyseArgs_prepared args params info.position
                    scope c (arityCause?_eq_none harity) hargs)

theorem analyseArgs_prepared : (args : List Expr) → (params : List Ty) → (position : Position) →
    (scope : ScopeId) → (c : Checker) → (outlineAll args).length = params.length →
    (analyseArgs (outlineAll args) params position scope c).error = none →
    PreparedAll c.tempCount (analyseArgs (outlineAll args) params position scope c).node
      (analyseArgs (outlineAll args) params position scope c).checker.tempCount
  | [], [], position, scope, c, _, _ => by
      rw [outlineAll, analyseArgs]
      · exact .nil
      · simp
  | arg :: args, param :: params, position, scope, c, hlen, h => by
      rw [outlineAll, analyseArgs] at h ⊢
      obtain ⟨harg, hrest, heq⟩ := Outcome.andThen_parts h
      rw [heq]
      obtain ⟨hanalyse, -, heq⟩ := Outcome.andThen_parts harg
      rw [heq] at hrest ⊢
      have hfirst := (analyse_prepared arg (some param) scope c hanalyse).fit param position
        (arg.outline.analyse (some param) scope c).checker
      refine .cons hfirst ?_
      rw [fit_checker] at hrest ⊢
      exact analyseArgs_prepared args params position scope _ (Nat.succ.inj hlen) hrest

end

/-! ## Temporaries of a prepared expression -/

mutual

/-- The temporaries of an expression, in the order of evaluation. -/
def temps : Expr → List String
  | literal _ _ => []
  | name _ _ _ _ => []
  | element _ _ _ index => index.temps
  | unary _ _ operand temp => operand.temps ++ temp.toList
  | binary _ left _ right temp => left.temps ++ right.temps ++ temp.toList
  | call _ _ _ args => tempsAll args

def tempsAll : List Expr → List String
  | [] => []
  | e :: rest => e.temps ++ tempsAll rest

end

mutual

/-- The temporaries that hold an object while the value is used. A call to the host needs its own
only, since its operands are dropped with it. -/
def held : Expr → List String
  | literal _ _ => []
  | name _ _ _ _ => []
  | element _ _ _ index => index.held
  | unary _ _ _ (some temp) => [temp]
  | unary _ _ operand none => operand.held
  | binary _ _ _ _ (some temp) => [temp]
  | binary _ left _ right none => left.held ++ right.held
  | call _ _ _ args => heldAll args

def heldAll : List Expr → List String
  | [] => []
  | e :: rest => e.held ++ heldAll rest

end

mutual

theorem Prepared.temps_eq : {e : Expr} → {m n : Nat} → Prepared m e n →
    m ≤ n ∧ e.temps = tempsFrom m n
  | .literal _ _, _, _, h => by
      cases h with
      | literal _ => exact ⟨Nat.le_refl _, (Checker.tempsFrom_self _).symm⟩
  | .name _ _ _ _, _, _, h => by
      cases h with
      | name _ => exact ⟨Nat.le_refl _, (Checker.tempsFrom_self _).symm⟩
  | .element _ _ _ index, _, _, h => by
      cases h with
      | element _ hindex => exact hindex.temps_eq
  | .unary _ _ operand _, _, _, h => by
      cases h with
      | hostUnary _ hop _ =>
          obtain ⟨hle, htemps⟩ := hop.temps_eq
          refine ⟨by omega, ?_⟩
          rw [temps, htemps, Checker.tempsFrom_succ hle]
          rfl
      | unary _ hop _ =>
          obtain ⟨hle, htemps⟩ := hop.temps_eq
          refine ⟨hle, ?_⟩
          rw [temps, htemps]
          exact List.append_nil _
  | .binary _ left _ right _, _, _, h => by
      cases h with
      | hostBinary _ hl hr _ _ =>
          obtain ⟨hle, hleft⟩ := hl.temps_eq
          obtain ⟨hle', hright⟩ := hr.temps_eq
          refine ⟨by omega, ?_⟩
          rw [temps, hleft, hright, Checker.tempsFrom_append hle hle',
            Checker.tempsFrom_succ (Nat.le_trans hle hle')]
          rfl
      | binary _ hl hr _ =>
          obtain ⟨hle, hleft⟩ := hl.temps_eq
          obtain ⟨hle', hright⟩ := hr.temps_eq
          refine ⟨Nat.le_trans hle hle', ?_⟩
          rw [temps, hleft, hright, Checker.tempsFrom_append hle hle']
          exact List.append_nil _
  | .call _ _ _ args, _, _, h => by
      cases h with
      | call _ hargs => exact hargs.temps_eq

theorem PreparedAll.temps_eq : {args : List Expr} → {m n : Nat} → PreparedAll m args n →
    m ≤ n ∧ tempsAll args = tempsFrom m n
  | [], _, _, h => by
      cases h with
      | nil => exact ⟨Nat.le_refl _, (Checker.tempsFrom_self _).symm⟩
  | e :: rest, _, _, h => by
      cases h with
      | cons he hrest =>
          obtain ⟨hle, htemps⟩ := he.temps_eq
          obtain ⟨hle', htemps'⟩ := hrest.temps_eq
          refine ⟨Nat.le_trans hle hle', ?_⟩
          rw [tempsAll, htemps, htemps', Checker.tempsFrom_append hle hle']

end

theorem Prepared.nodup_temps {e : Expr} {m n : Nat} (h : Prepared m e n) : e.temps.Nodup := by
  rw [h.temps_eq.2]
  exact Checker.nodup_tempsFrom m n

theorem PreparedAll.nodup_temps {args : List Expr} {m n : Nat} (h : PreparedAll m args n) :
    (tempsAll args).Nodup := by
  rw [h.temps_eq.2]
  exact Checker.nodup_tempsFrom m n

mutual

theorem held_subset : (e : Expr) → e.held ⊆ e.temps
  | .literal _ _ | .name _ _ _ _ => List.Subset.refl _
  | .element _ _ _ index => held_subset index
  | .unary _ _ operand (some temp) => List.subset_append_right _ _
  | .unary _ _ operand none => List.subset_append_of_subset_left _ (held_subset operand)
  | .binary _ left _ right (some temp) => List.subset_append_right _ _
  | .binary _ left _ right none => by
      refine List.subset_append_of_subset_left _ ?_
      exact List.append_subset.mpr ⟨List.subset_append_of_subset_left _ (held_subset left),
        List.subset_append_of_subset_right _ (held_subset right)⟩
  | .call _ _ _ args => heldAll_subset args

theorem heldAll_subset : (args : List Expr) → heldAll args ⊆ tempsAll args
  | [] => List.Subset.refl _
  | e :: rest => List.append_subset.mpr ⟨List.subset_append_of_subset_left _ (held_subset e),
      List.subset_append_of_subset_right _ (heldAll_subset rest)⟩

end

end Expr

end ExtensionCompiler

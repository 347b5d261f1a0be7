import ExtensionCompiler.Proofs.ReadBack
import ExtensionCompiler.Proofs.Rendering

set_option autoImplicit false

/-! # The expressions that values are read as

`Expr.tree` is the expression of C that an analysed expression denotes. What stands in the generated
code is a text, and a compiler splits it into tokens and reads them by the grammar. So the value
must be written such that the tree comes back. It does, but for a minus sign before a negative
number and a zero before an octal digit of a text (`Expr.readExpression_term`). -/

namespace ExtensionCompiler

open Checker (tempName)
open C (isIdentifier readExpression)

/-! ## What an expression denotes -/

/-- A conversion is a call with one argument. -/
def Info.convertTree (info : Info) (value : C.Tree) : C.Tree :=
  match info.conversion with
  | some conversion => .call (.name conversion.function.toList) [value]
  | none => value

def Literal.tree : Literal → C.Tree
  | int value => .ofInt value
  | float value => .number value.render.toList
  | char value => .char [] [value]
  | text value => .text [] value.toList
  | yes => .name "Qtrue".toList
  | no => .name "Qfalse".toList
  | nil => .name "Qnil".toList

namespace Expr

/-- Whether an object is true, as C sees it. -/
def truthTree (object : C.Tree) : C.Tree := .call (.name "RTEST".toList) [object]

mutual

/-- The expression of C that the value is. The result of a call to the host is a temporary, and the
logical operators on objects choose between the two truth values of the host. -/
def tree : Expr → C.Tree
  | literal info value => info.convertTree value.tree
  | name info _ cName _ => info.convertTree (.name cName.toList)
  | element info _ cName index => info.convertTree (.index (.name cName.toList) index.tree)
  | unary info operator operand temp =>
    info.convertTree <| match temp with
      | some temp => .name temp.toList
      | none =>
        if operator = "!" ∧ info.type.isObject then
          .conditional (truthTree operand.tree) Literal.no.tree Literal.yes.tree
        else .unary operator.toList operand.tree
  | binary info left operator right temp =>
    info.convertTree <| match temp with
      | some temp => .name temp.toList
      | none =>
        if info.type.isObject then
          .conditional (.binary (truthTree left.tree) operator.toList (truthTree right.tree))
            Literal.yes.tree Literal.no.tree
        else .binary left.tree operator.toList right.tree
  | call info _ cName args => info.convertTree (.call (.name cName.toList) (trees args))

def trees : List Expr → List C.Tree
  | [] => []
  | e :: rest => e.tree :: trees rest

end

theorem tree_convert (info : Info) (value : C.Term) :
    (info.convert value).tree .meant = info.convertTree (value.tree .meant) := by
  unfold Info.convert Info.convertTree
  cases info.conversion with
  | none => rfl
  | some conversion => rfl

mutual

/-- The term of a value is meant as its tree. -/
theorem tree_term : (e : Expr) → e.term.tree .meant = e.tree
  | .literal info value => by
      rw [term, tree_convert, tree]
      cases value <;> rfl
  | .name info written cName assignable => by rw [term, tree_convert, tree, C.Term.tree]
  | .element info written cName index => by
      rw [term, tree_convert, tree, C.Term.tree, tree_term index]
  | .unary info operator operand (some temp) => by
      rw [term, tree_convert, tree, unaryTerm, C.Term.tree]
  | .unary info operator operand none => by
      rw [term, tree_convert, tree, ← tree_term operand, unaryTerm]
      split
      · rfl
      · rw [C.Term.tree_meant_unary]
  | .binary info left operator right (some temp) => by
      rw [term, tree_convert, tree, binaryTerm, C.Term.tree]
  | .binary info left operator right none => by
      rw [term, tree_convert, tree, ← tree_term left, ← tree_term right, binaryTerm]
      split <;> rfl
  | .call info written cName args => by
      rw [term, tree_convert, tree, C.Term.tree, trees_terms args]

theorem trees_terms : (args : List Expr) → C.Term.trees .meant (terms args) = trees args
  | [] => rfl
  | arg :: rest => by rw [terms, C.Term.trees, trees, tree_term arg, trees_terms rest]

end

mutual

/-- Whether a floating point number is written out somewhere. -/
def hasFloat : Expr → Bool
  | literal _ (.float _) => true
  | literal _ _ | name _ _ _ _ => false
  | element _ _ _ index => index.hasFloat
  | unary _ _ operand _ => operand.hasFloat
  | binary _ left _ right _ => left.hasFloat || right.hasFloat
  | call _ _ _ args => anyFloat args

def anyFloat : List Expr → Bool
  | [] => false
  | e :: rest => e.hasFloat || anyFloat rest

end

/-! ## Conversions

Analysis attaches no conversions but those between two types. -/

end Expr

/-- The conversion leads from one type to another. -/
def Info.Bridges (info : Info) : Prop :=
  ∀ conversion, info.conversion = some conversion →
    ∃ value slot, Conversion.between value slot = .through conversion

namespace Expr

mutual

/-- All conversions in the expression lead from one type to another. -/
def Bridges : Expr → Prop
  | literal info _ => info.Bridges
  | name info _ _ _ => info.Bridges
  | element info _ _ index => info.Bridges ∧ index.Bridges
  | unary info _ operand _ => info.Bridges ∧ operand.Bridges
  | binary info left _ right _ => info.Bridges ∧ left.Bridges ∧ right.Bridges
  | call info _ _ args => info.Bridges ∧ AllBridge args

def AllBridge : List Expr → Prop
  | [] => True
  | e :: rest => e.Bridges ∧ AllBridge rest

end

end Expr

/-- What holds of the node after both parts, and of what is left if the first one fails, holds of
the node after the sequence. -/
theorem Outcome.andThen_node {α β : Type} {P : β → Prop} {o : Outcome α} {stopped : α → β}
    {next : α → Checker → Outcome β} (hstop : P (stopped o.node))
    (hnext : P (next o.node o.checker).node) : P (o.andThen stopped next).node := by
  unfold andThen
  split
  · exact hstop
  · exact hnext

namespace Expr

mutual

theorem bridges_outline : (e : Expr) → e.outline.Bridges
  | .literal _ _ | .name _ _ _ _ => fun _ h => nomatch h
  | .element _ _ _ index => ⟨fun _ h => (nomatch h), bridges_outline index⟩
  | .unary _ _ operand _ => ⟨fun _ h => (nomatch h), bridges_outline operand⟩
  | .binary _ left _ right _ =>
      ⟨fun _ h => (nomatch h), bridges_outline left, bridges_outline right⟩
  | .call _ _ _ args => ⟨fun _ h => (nomatch h), allBridge_outlineAll args⟩

theorem allBridge_outlineAll : (args : List Expr) → AllBridge (outlineAll args)
  | [] => trivial
  | arg :: rest => ⟨bridges_outline arg, allBridge_outlineAll rest⟩

end

theorem Bridges.withConversion {e : Expr} (h : e.Bridges) {conversion : Option Conversion}
    (hconversion : ∀ k, conversion = some k →
      ∃ value slot, Conversion.between value slot = .through k) :
    (e.withConversion conversion).Bridges := by
  cases e with
  | literal _ _ | name _ _ _ _ => exact hconversion
  | element _ _ _ _ | unary _ _ _ _ | binary _ _ _ _ _ | call _ _ _ _ => exact ⟨hconversion, h.2⟩

theorem Bridges.fit {e : Expr} (h : e.Bridges) (slot : Ty) (position : Position) (c : Checker) :
    (e.fit slot position c).node.Bridges := by
  obtain ⟨-, hnode | ⟨conversion, hnode, hbetween⟩⟩ := e.fit_eq slot position c
  · rw [hnode]
    exact h
  · rw [hnode]
    exact h.withConversion fun k hk => ⟨_, _, hbetween k hk⟩

theorem Bridges.fitIndex {index : Expr} (h : index.Bridges) (position : Position) (c : Checker) :
    (index.fitIndex position c).node.Bridges := by
  obtain ⟨-, hnode | hnode⟩ := index.fitIndex_eq position c
  · rw [hnode]
    exact h
  · rw [hnode]
    exact h.fit _ position c

theorem Bridges.finishUnary {info : Info} {operand : Expr} (hinfo : info.Bridges)
    (hoperand : operand.Bridges) (operator : String) (temp : Option String) (scope : ScopeId)
    (c : Checker) : (finishUnary info operator operand temp scope c).node.Bridges := by
  unfold Expr.finishUnary
  split
  · exact ⟨hinfo, hoperand⟩
  · split <;> exact ⟨hinfo, hoperand⟩

theorem Bridges.finishBinary {info : Info} {left right : Expr} (hinfo : info.Bridges)
    (hleft : left.Bridges) (hright : right.Bridges) (operator : String) (temp : Option String)
    (scope : ScopeId) (c : Checker) :
    (finishBinary info left operator right temp scope c).node.Bridges := by
  unfold Expr.finishBinary
  split
  · unfold finishHostBinary
    have hl := hleft.fit .object info.position c
    have hr (c : Checker) := hright.fit .object info.position c
    refine Outcome.andThen_node ⟨hinfo, hl, hright⟩ (Outcome.andThen_node ⟨hinfo, hl, hr _⟩ ?_)
    split <;> exact ⟨hinfo, hl, hr _⟩
  · split <;> exact ⟨hinfo, hleft, hright⟩

mutual

/-- Analysis attaches conversions between types only, also when it fails. -/
theorem bridges_analyse : (e : Expr) → e.Bridges → (slot : Option Ty) → (scope : ScopeId) →
    (c : Checker) → (e.analyse slot scope c).node.Bridges
  | .literal info value, h, slot, scope, c => h
  | .name info written cName assignable, h, slot, scope, c => by
      rw [analyse]
      unfold analyseName
      split
      · exact h
      · split <;> exact h
  | .element info written cName index, h, slot, scope, c => by
      rw [analyse]
      split
      · exact h
      · split
        · exact h
        · have hindex := bridges_analyse index h.2 (some (.primitive .long)) scope c
          exact ⟨h.1, Outcome.andThen_node hindex (hindex.fitIndex _ _)⟩
  | .unary info operator operand temp, h, slot, scope, c => by
      have hoperand := bridges_analyse operand h.2 none scope c
      rw [analyse]
      exact Outcome.andThen_node ⟨h.1, hoperand⟩ (.finishUnary h.1 hoperand ..)
  | .binary info left operator right temp, h, slot, scope, c => by
      have hleft := bridges_analyse left h.2.1 none scope c
      have hright := bridges_analyse right h.2.2 none scope
      rw [analyse]
      exact Outcome.andThen_node ⟨h.1, hleft, h.2.2⟩ (Outcome.andThen_node
        ⟨h.1, hleft, hright _⟩ (.finishBinary h.1 hleft (hright _) ..))
  | .call info written cName args, h, slot, scope, c => by
      rw [analyse]
      split
      · exact h
      · split
        · exact h
        · split
          · exact h
          · have hargs := fun params => allBridge_analyseArgs args h.2 params info.position scope c
            exact Outcome.andThen_node ⟨h.1, hargs _⟩ ⟨h.1, hargs _⟩

theorem allBridge_analyseArgs : (args : List Expr) → AllBridge args → (params : List Ty) →
    (position : Position) → (scope : ScopeId) → (c : Checker) →
    AllBridge (analyseArgs args params position scope c).node
  | [], h, params, position, scope, c | arg :: args, h, [], position, scope, c => by
      rw [analyseArgs]
      · exact h
      · simp
  | arg :: args, h, param :: params, position, scope, c => by
      have hanalyse := bridges_analyse arg h.1 (some param) scope c
      have harg : ((arg.analyse (some param) scope c).andThen id
          fun arg c => arg.fit param position c).node.Bridges :=
        Outcome.andThen_node hanalyse (hanalyse.fit ..)
      rw [analyseArgs]
      exact Outcome.andThen_node ⟨harg, h.2⟩ ⟨harg, allBridge_analyseArgs args h.2 params ..⟩

end

end Expr

/-! ## Names and operators of the generated code -/

section

variable (ext : Char → Bool)

theorem isIdentifier_tempName (n : Nat) : isIdentifier ext (tempName n) = true := by
  have hlist : (tempName n).toList = '_' :: '_' :: ("extc_tmp_".toList ++ Nat.toDigits 10 n) := by
    rw [tempName, String.toList_append, C.Term.toList_repr]
    rfl
  have hdigits : (Nat.toDigits 10 n).all (C.Token.isWordChar ext) = true := by
    rw [List.all_eq_true]
    intro c hc
    have hdigit := List.all_eq_true.mp (C.Term.all_isDigit n) c hc
    rw [C.Token.isWordChar, hdigit, Bool.or_true]
  have hword : C.Token.isWord ext (tempName n).toList = true := by
    rw [hlist, C.Token.isWord, List.all_cons, List.all_append, hdigits]
    rfl
  have hkeyword : C.Grammar.keywords.contains (tempName n) = false := by
    -- no keyword begins with two underscores
    have hfirst : ∀ k ∈ C.Grammar.keywords, k.toList.take 2 ≠ ['_', '_'] := by decide
    rw [Bool.eq_false_iff]
    intro hcontains
    refine hfirst _ (List.contains_iff_mem.mp hcontains) ?_
    rw [hlist]
    rfl
  rw [isIdentifier, hword, hkeyword]
  rfl

theorem Conversion.isIdentifier_function {value slot : Ty} {conversion : Conversion}
    (h : between value slot = .through conversion) :
    isIdentifier ext conversion.function = true := by
  refine function_of_between (P := (isIdentifier ext · = true)) ?_ rfl rfl h
  rintro kind function (hbox | hunbox)
  · cases kind <;> cases hbox <;> rfl
  · cases kind <;> cases hunbox <;> rfl

end

namespace Operator

variable {operator : String}

theorem exists_sign {operand type : Ty} {assignable : Bool}
    (h : unaryResult? operator operand assignable = some type) :
    ∃ sign ∈ C.Term.signs, operator = String.singleton sign := by
  unfold unaryResult? at h
  split at h
  · exact ⟨'-', by decide, by decide⟩
  · exact ⟨'~', by decide, by decide⟩
  · exact ⟨'!', by decide, by decide⟩
  · exact ⟨'&', by decide, by decide⟩
  · exact ⟨'*', by decide, by decide⟩
  · cases h

theorem toList_mem_operators {table : List String} (h : table.contains operator = true)
    (htable : ∀ op ∈ table, op.toList ∈ C.Token.operators) : operator.toList ∈ C.Token.operators :=
  htable operator (List.contains_iff_mem.mp h)

theorem toList_mem_of_isLogical (h : isLogical operator = true) :
    operator.toList ∈ C.Token.operators :=
  toList_mem_operators h (by decide)

theorem toList_mem_of_nativeResult? {left right type : Ty}
    (h : nativeResult? operator left right = some type) : operator.toList ∈ C.Token.operators := by
  unfold nativeResult? at h
  split at h
  · next hop => exact toList_mem_of_isLogical hop
  split at h
  · next hop => exact toList_mem_operators hop (by decide)
  split at h
  · next hop => exact toList_mem_operators hop (by decide)
  split at h
  · next hop => exact toList_mem_operators hop (by decide)
  · cases h

end Operator

/-! ## The terms of values are regular -/

namespace C.Term

variable {ext : Char → Bool}

theorem Regular.truth {object : Term} (h : Regular ext object) : Regular ext object.truth :=
  .call rfl fun arg harg => by
    rw [List.mem_singleton.mp harg]
    exact h

theorem regular_yes : Regular ext yes := .ident rfl

theorem regular_no : Regular ext no := .ident rfl

theorem Regular.convert {value : Term} (h : Regular ext value) {info : Info}
    (hinfo : info.Bridges) : Regular ext (info.convert value) := by
  unfold Info.convert
  split
  · next conversion hconversion =>
      obtain ⟨_, _, hbetween⟩ := hinfo conversion hconversion
      refine .call (Conversion.isIdentifier_function ext hbetween) fun arg harg => ?_
      rw [List.mem_singleton.mp harg]
      exact h
  · exact h

end C.Term

namespace Expr

open C.Term (Regular)

mutual

/-- The judgement gives the operators, and the temporaries are those that analysis has taken. -/
theorem regular_term {ext : Char → Bool} {find : String → Option Entry} :
    (e : Expr) → Typed find e → {m n : Nat} → Prepared m e n → e.Bridges → e.hasFloat = false →
    (∀ o ∈ e.occurrences, isIdentifier ext o.cName = true) → Regular ext e.term
  | .literal info value, _, _, _, _, hbridges, hfloat, _ => by
      rw [term]
      refine Regular.convert ?_ hbridges
      cases value with
      | int _ => exact .int
      | float _ => cases hfloat
      | char _ => exact .char
      | text _ => exact .text
      | yes => exact C.Term.regular_yes
      | no => exact C.Term.regular_no
      | nil => exact .ident rfl
  | .name info written cName assignable, _, _, _, _, hbridges, _, hnames => by
      rw [term]
      exact Regular.convert (.ident (hnames ⟨written, cName⟩ List.mem_cons_self)) hbridges
  | .element info written cName index, ht, _, _, hp, hbridges, hfloat, hnames => by
      rw [term]
      cases ht with
      | element _ _ htyped _ =>
          cases hp with
          | element _ hprepared =>
              have hindex := regular_term index htyped hprepared hbridges.2 hfloat
                fun o ho => hnames o (List.mem_cons_of_mem _ ho)
              exact (Regular.index (hnames ⟨written, _⟩ List.mem_cons_self) hindex).convert
                hbridges.1
  | .unary info operator operand temp, ht, _, _, hp, hbridges, hfloat, hnames => by
      rw [term]
      cases hp with
      | hostUnary _ _ _ => exact Regular.convert (.ident (isIdentifier_tempName ext _)) hbridges.1
      | unary _ hprepared _ =>
          cases ht with
          | unary htyped _ hresult =>
              have hoperand := regular_term operand htyped hprepared hbridges.2 hfloat hnames
              refine Regular.convert ?_ hbridges.1
              obtain ⟨sign, hsign, rfl⟩ := Operator.exists_sign hresult
              rw [unaryTerm]
              split
              · exact .choice hoperand.truth C.Term.regular_no C.Term.regular_yes
              · exact .unary hsign hoperand
  | .binary info left operator right temp, ht, _, _, hp, hbridges, hfloat, hnames => by
      rw [term]
      rw [hasFloat, Bool.or_eq_false_iff] at hfloat
      obtain ⟨hnamesLeft, hnamesRight⟩ := List.forall_mem_append.mp hnames
      cases hp with
      | hostBinary _ _ _ _ _ =>
          exact Regular.convert (.ident (isIdentifier_tempName ext _)) hbridges.1
      | binary _ hpleft hpright _ =>
          have hterm (htl : Typed find left) (htr : Typed find right)
              (hop : operator.toList ∈ C.Token.operators) :
              Regular ext
                (info.convert (binaryTerm info.type left.term operator right.term none)) := by
            have hleft := regular_term left htl hpleft hbridges.2.1 hfloat.1 hnamesLeft
            have hright := regular_term right htr hpright hbridges.2.2 hfloat.2 hnamesRight
            refine Regular.convert ?_ hbridges.1
            rw [binaryTerm]
            split
            · exact .choice (.binary hop hleft.truth hright.truth) C.Term.regular_yes
                C.Term.regular_no
            · exact .binary hop hleft hright
          cases ht with
          | hostBinary htl _ htr _ _ hlogical =>
              refine hterm htl htr (Operator.toList_mem_of_isLogical (hlogical.resolve_right ?_))
              decide
          | binary htl _ htr _ hresult =>
              exact hterm htl htr (Operator.toList_mem_of_nativeResult? hresult)
  | .call info written cName args, ht, _, _, hp, hbridges, hfloat, hnames => by
      rw [term]
      cases ht with
      | call _ _ htyped =>
          cases hp with
          | call _ hprepared =>
              have hargs := regular_terms args htyped hprepared hbridges.2 hfloat
                fun o ho => hnames o (List.mem_cons_of_mem _ ho)
              exact (Regular.call (hnames ⟨written, _⟩ List.mem_cons_self) hargs).convert
                hbridges.1

theorem regular_terms {ext : Char → Bool} {find : String → Option Entry} :
    (args : List Expr) → {params : List Ty} → TypedArgs find params args → {m n : Nat} →
    PreparedAll m args n → AllBridge args → anyFloat args = false →
    (∀ o ∈ occurrencesAll args, isIdentifier ext o.cName = true) →
    ∀ t ∈ terms args, Regular ext t
  | [], _, _, _, _, _, _, _, _ => fun _ ht => nomatch ht
  | arg :: args, _, ht, _, _, hp, hbridges, hfloat, hnames => by
      rw [anyFloat, Bool.or_eq_false_iff] at hfloat
      cases ht with
      | cons htarg _ htargs =>
          cases hp with
          | cons hparg hpargs =>
              obtain ⟨hfirst, hrest⟩ := List.forall_mem_append.mp hnames
              rw [terms]
              exact List.forall_mem_cons.mpr
                ⟨regular_term arg htarg hparg hbridges.1 hfloat.1 hfirst,
                  regular_terms args htargs hpargs hbridges.2 hfloat.2 hrest⟩

end

mutual

theorem hasFloat_outline : (e : Expr) → e.outline.hasFloat = e.hasFloat
  | .literal _ value => by cases value <;> rfl
  | .name _ _ _ _ => rfl
  | .element _ _ _ index => hasFloat_outline index
  | .unary _ _ operand _ => hasFloat_outline operand
  | .binary _ left _ right _ => congrArg₂ or (hasFloat_outline left) (hasFloat_outline right)
  | .call _ _ _ args => anyFloat_outlineAll args

theorem anyFloat_outlineAll : (args : List Expr) → anyFloat (outlineAll args) = anyFloat args
  | [] => rfl
  | arg :: rest => congrArg₂ or (hasFloat_outline arg) (anyFloat_outlineAll rest)

end

/-- What analysis makes of a new expression has a regular term. -/
theorem regular_of_analyse {ext : Char → Bool} {e e' : Expr} {scope : ScopeId} {c c' : Checker}
    (hnew : e.outline = e)
    (h : (∃ slot, e.analyse slot scope c = .ok e' c')
      ∨ ∃ slot position, e.analyseInto slot scope position c = .ok e' c')
    (hfloat : e.hasFloat = false)
    (hnames : ∀ o ∈ e'.occurrences, isIdentifier ext o.cName = true) : Regular ext e'.term := by
  have hbridges : e.Bridges := hnew ▸ bridges_outline e
  have hparts : Typed (c.find? scope) e' ∧ Prepared c.tempCount e' c'.tempCount ∧ e'.Bridges
      ∧ e'.outline = e.outline := by
    rcases h with ⟨slot, h⟩ | ⟨slot, position, h⟩
    · have htyped := analyse_typed e slot scope c (by rw [h]; rfl)
      have hconversions := bridges_analyse e hbridges slot scope c
      have houtline := outline_analyse e slot scope c
      rw [h] at htyped hconversions houtline
      exact ⟨htyped, prepared_of_analyse hnew h, hconversions, houtline⟩
    · have htyped := (analyseInto_typed (e := e) (by rw [h]; rfl)).1
      have hfirst := bridges_analyse e hbridges (some slot) scope c
      have hconversions : (e.analyseInto slot scope position c).node.Bridges :=
        Outcome.andThen_node hfirst (hfirst.fit ..)
      have houtline := outline_analyseInto e slot scope position c
      rw [h] at htyped hconversions houtline
      exact ⟨htyped, prepared_of_analyseInto hnew h, hconversions, houtline⟩
  obtain ⟨htyped, hprepared, hconversions, houtline⟩ := hparts
  have hfloat' : e'.hasFloat = false := by
    rw [← hasFloat_outline, houtline, hnew, hfloat]
  exact regular_term e' htyped hprepared hconversions hfloat' hnames

end Expr

/-- **The value of an expression is read as the tree it denotes**, just if no minus sign stands
right before a negative number and no text has a zero before an octal digit. An expression that is
new and in which no floating point number is written out is analysed, as a statement or for a slot
of a type, and its names are identifiers in C. Then its text is split into tokens and read by the
grammar without an error, and nothing but the two minus signs and the characters of the text can
differ. -/
theorem Expr.readExpression_term (ext : Char → Bool) (e e' : Expr) (scope : ScopeId)
    (c c' : Checker) (hnew : e.outline = e)
    (h : (∃ slot, e.analyse slot scope c = .ok e' c')
      ∨ ∃ slot position, e.analyseInto slot scope position c = .ok e' c')
    (hfloat : e.hasFloat = false)
    (hnames : ∀ o ∈ e'.occurrences, isIdentifier ext o.cName = true) :
    readExpression ext e'.term.render = some (e'.term.tree .read)
      ∧ (readExpression ext e'.term.render = some e'.tree ↔ e'.term.isFaithful = true) := by
  have hread := (regular_of_analyse hnew h hfloat hnames).readExpression_render
  refine ⟨hread, ?_⟩
  rw [hread, Option.some.injEq, ← tree_term]
  exact C.Term.tree_read_eq_iff e'.term

/-- `total(-(~(-5)) % 'x', !nil && "0\"\0z")`: signs before signs, and two operands that become
objects. -/
def Expr.nestedSigns : Expr :=
  let here := Position.unknown
  let literal (value : Literal) := Expr.ofLiteral value here
  let signs := Expr.ofUnary "-" (.ofUnary "~" (literal (.int (-5))) here) here
  let null := Expr.ofUnary "!" (literal .nil) here
  .ofCall "total"
    [.ofBinary signs "%" (literal (.char 'x')) here,
      .ofBinary null "&&" (literal (.text "0\"\x00z")) here] here

theorem Expr.nestedSigns_read :
    Expr.nestedSigns.outline = Expr.nestedSigns
      ∧ ∃ e' c', Expr.nestedSigns.analyse none Checker.global Checker.afterHeader = .ok e' c'
        ∧ Expr.nestedSigns.hasFloat = false
        ∧ (∀ o ∈ e'.occurrences, isIdentifier (fun _ => false) o.cName = true)
        ∧ e'.term.render = "total(((-(~-5)) % 'x'), ((RTEST((RTEST(Qnil) ? Qfalse : Qtrue)) && "
          ++ "RTEST(rb_str_new2(\"0\\\"\\0z\"))) ? Qtrue : Qfalse))"
        ∧ readExpression (fun _ => false) e'.term.render = some e'.tree := by
  have hnew : Expr.nestedSigns.outline = Expr.nestedSigns := rfl
  have hok : (Expr.nestedSigns.analyse none Checker.global Checker.afterHeader).error = none := by
    decide +kernel
  have hnames : ∀ o ∈
      (Expr.nestedSigns.analyse none Checker.global Checker.afterHeader).node.occurrences,
      isIdentifier (fun _ => false) o.cName = true := by
    decide +kernel
  have hfaithful : (Expr.nestedSigns.analyse none Checker.global
      Checker.afterHeader).node.term.isFaithful = true := by
    decide +kernel
  have hread := Expr.readExpression_term (fun _ => false) Expr.nestedSigns _ Checker.global
    Checker.afterHeader _ hnew (.inl ⟨none, Outcome.eq_ok hok⟩) rfl hnames
  exact ⟨hnew, _, _, Outcome.eq_ok hok, rfl, hnames, by decide +kernel, hread.2.mpr hfaithful⟩

/-- A minus sign before a negative number. -/
def Expr.negatedNumber : Expr :=
  let here := Position.unknown
  .ofUnary "-" (.ofLiteral (.int (-5)) here) here

/-- Analysis accepts it, and its text is read as a decrement of the number without its sign. -/
theorem Expr.negatedNumber_misread :
    Expr.negatedNumber.outline = Expr.negatedNumber
      ∧ ∃ e' c', Expr.negatedNumber.analyse none Checker.global (Checker.start .empty) = .ok e' c'
        ∧ e'.term.render = "(--5)"
        ∧ e'.tree = .unary ['-'] (.unary ['-'] (.number ['5']))
        ∧ readExpression (fun _ => false) e'.term.render
          = some (.unary ['-', '-'] (.number ['5'])) := by
  have hok : (Expr.negatedNumber.analyse none Checker.global (Checker.start .empty)).error
      = none := by
    decide +kernel
  have hregular : C.Term.Regular (fun _ => false)
      (Expr.negatedNumber.analyse none Checker.global (Checker.start .empty)).node.term :=
    regular_of_analyse rfl (.inl ⟨none, Outcome.eq_ok hok⟩) rfl fun _ ho => nomatch ho
  refine ⟨rfl, _, _, Outcome.eq_ok hok, by decide +kernel, rfl, ?_⟩
  rw [hregular.readExpression_render]
  rfl

/-- **A text is written as one literal, on one line and with no quote inside that is not escaped.
The literal can always be read, and what is read is the text just if no zero in it stands before an
octal digit.** -/
theorem Expr.unescape_textLiteral (ext : Char → Bool) (s : String) (position : Position) :
    ∃ body, (Expr.ofLiteral (.text s) position).term.render.toList = '"' :: (body ++ ['"'])
      ∧ C.LiteralBody '"' body
      ∧ C.Token.split ext (Expr.ofLiteral (.text s) position).term.render.toList
        = some [.text [] body]
      ∧ ∃ read, C.unescape .plain body = some read
        ∧ (read = s.toList ↔ C.zeroRuns s.toList = false) := by
  have hquote : '"' = '"' ∨ '"' = '\'' := .inl rfl
  have htext : (Expr.ofLiteral (.text s) position).term.render.toList
      = '"' :: (C.escape '"' s.toList ++ ['"']) := C.toList_textLiteral s
  obtain ⟨⟨read, hread, -⟩, -⟩ := C.unescape_escape_length hquote s.toList
  refine ⟨C.escape '"' s.toList, htext, C.literalBody_escape s.toList, ?_, read, hread, ?_⟩
  · rw [htext, ← List.append_nil ('"' :: _)]
    refine (C.Token.Splits.nil.token (List.cons_ne_nil _ _) ?_).split_eq
    rw [List.append_nil]
    exact C.Token.scan_text s.toList []
  · rw [← C.unescape_escape_iff hquote s.toList, hread, Option.some.injEq]

/-- A zero before a digit: two characters, which are read as the one with the number seven. -/
theorem Expr.textLiteral_zero_seven :
    let literal := Expr.ofLiteral (.text "\x007") Position.unknown
    literal.term.render = "\"\\07\"" ∧ C.unescape .plain ['\\', '0', '7'] = some ['\x07'] := by
  decide +kernel

end ExtensionCompiler

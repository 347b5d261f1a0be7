import ExtensionCompiler.Proofs.Canonical
import ExtensionCompiler.Proofs.Origins
import ExtensionCompiler.Proofs.Rescanned

set_option autoImplicit false

/-! # Names that are introduced more than once

A name is introduced once in a scope. The one exception is a function: its definition may take the
place of a prototype that was there before, and has to have the signature of it.

That is decided by the entry of the name (`Introduction.CompletesEntry`), and the entry does not
tell whether it is that of a prototype or of a definition. So a definition may as well take the
place of another definition. `Stmt.introductions_of_analyseAll` says that this is all that can
happen: the first rule holds of a name just if it is defined at most once. -/

namespace ExtensionCompiler

open Checker (Grows TakesTemps)

/-! ## Introductions -/

/-- What a prototype or the definition of a function is introduced as. The signature is the type of
a function without a name. -/
structure FunctionForm where
  isDefinition : Bool
  isExternal : Bool
  signature : Ty

/-- A name that a statement introduces in a scope, with its form if it is the name of a function. -/
structure Introduction where
  scope : ScopeId
  name : String
  form : Option FunctionForm

namespace Introduction

/-- Whether the definition of a function introduces the name. -/
def isDefinition (i : Introduction) : Bool := i.form.any FunctionForm.isDefinition

/-- `j` is the definition of a function with the signature of `i`, which no header provides. -/
def Completes (j i : Introduction) : Prop :=
  ∃ f g, i.form = some f ∧ j.form = some g ∧ f.isExternal = false ∧ g.isDefinition = true
    ∧ f.signature.same g.signature = true

/-- What is allowed of one name in one scope: to be introduced once, or by a prototype that no
header provides and then by a definition with its signature. -/
def Allowed (is : List Introduction) : Prop :=
  is.length ≤ 1 ∨ ∃ i j, is = [i, j] ∧ i.isDefinition = false ∧ j.Completes i

/-- The introductions of a name in a scope. -/
def ofName (is : List Introduction) (scope : ScopeId) (name : String) : List Introduction :=
  is.filter fun i => decide (i.scope = scope ∧ i.name = name)

theorem Completes.isDefinition {i j : Introduction} (h : j.Completes i) :
    j.isDefinition = true := by
  obtain ⟨f, g, -, hg, -, hdefinition, -⟩ := h
  rw [Introduction.isDefinition, hg]
  exact hdefinition

theorem Allowed.countP_le {is : List Introduction} (h : Allowed is) :
    is.countP isDefinition ≤ 1 := by
  rcases h with hlength | ⟨i, j, rfl, hi, -⟩
  · exact Nat.le_trans List.countP_le_length hlength
  · rw [List.countP_cons, List.countP_singleton, hi]
    split <;> simp

/-- If only definitions are introduced again, then what is allowed is the same as one definition. -/
theorem allowed_iff {is : List Introduction} (h : is.Pairwise fun i j => j.Completes i) :
    Allowed is ↔ is.countP isDefinition ≤ 1 := by
  refine ⟨Allowed.countP_le, fun hcount => ?_⟩
  match is, h, hcount with
  | [], _, _ => exact .inl (Nat.zero_le 1)
  | [i], _, _ => exact .inl (Nat.le_refl 1)
  | [i, j], h, hcount =>
      have hcompletes := List.rel_of_pairwise_cons h List.mem_cons_self
      refine .inr ⟨i, j, rfl, ?_, hcompletes⟩
      rw [List.countP_cons, List.countP_singleton, if_pos hcompletes.isDefinition] at hcount
      by_contra hi
      rw [Bool.not_eq_false] at hi
      rw [if_pos hi] at hcount
      omega
  | i :: j :: k :: rest, h, hcount =>
      -- the second and the third are both definitions
      have hj := (List.rel_of_pairwise_cons h List.mem_cons_self).isDefinition
      have hk := (List.rel_of_pairwise_cons h
        (List.mem_cons_of_mem j List.mem_cons_self)).isDefinition
      rw [List.countP_cons, List.countP_cons, List.countP_cons, if_pos hj, if_pos hk] at hcount
      omega

end Introduction

/-- The type of a function with the parameters and the result that are written. -/
def Parameter.signature (params : List Parameter) (result : Descriptor) (depth : Nat)
    (registry : Registry) : Ty :=
  .function none none (params.map fun p => Ty.resolve registry p.descriptor p.depth)
    (Ty.resolve registry result depth)

/-- The parameters that have a name introduce it in the scope of the body. -/
def Parameter.introductions (params : List Parameter) (inner : ScopeId) : List Introduction :=
  (names params).map fun name => ⟨inner, name, none⟩

/-- The names that a visit introduces, in order. An assignment introduces its target if nothing
around declares it, and an alias of a tag under its own name introduces nothing. -/
def Visit.introductions (v : Visit) : List Introduction :=
  match v.part with
  | .var d => [⟨v.scope, d.name, none⟩]
  | .array d => [⟨v.scope, d.name, none⟩]
  | .assign d =>
    match d.target.asName? with
    | some name => if (v.before.find? v.scope name).isNone then [⟨v.scope, name, none⟩] else []
    | none => []
  | .aggregate d => [⟨v.scope, d.name, none⟩]
  | .forward d => [⟨v.scope, d.tag, none⟩]
  | .typeAlias d => if d.isTagAlias then [] else [⟨v.scope, d.name, none⟩]
  | .prototype d =>
    [⟨v.scope, d.name,
      some ⟨false, d.isExternal,
        Parameter.signature d.params d.descriptor d.depth v.before.registry⟩⟩]
  | .function d =>
    Parameter.introductions d.params v.before.scopes.length
      ++ [⟨v.scope, d.name,
        some ⟨true, false, Parameter.signature d.params d.descriptor d.depth v.before.registry⟩⟩]
  | .method d =>
    Parameter.introductions d.params v.before.scopes.length ++ [⟨v.scope, d.name, none⟩]
  | .classDef d => [⟨v.scope, d.name, none⟩]
  | .ret _ | .print _ | .evaluation _ | .condition _ | .count _ => []

/-- The names that the analysis of statements introduces, in order. -/
def Stmt.introductions (stmts : List Stmt) (scope : ScopeId) (c : Checker) : List Introduction :=
  (visitsAll stmts scope c).flatMap Visit.introductions

/-! ## What becomes of the entries -/

/-- The entry is one of a function of the form, or of no function. -/
def Entry.Fits (e : Entry) : Option FunctionForm → Prop
  | none => e.kind ≠ .function
  | some f => e.kind = .function ∧ e.isExternal = f.isExternal ∧ e.type.same f.signature = true

/-- A definition that leaves the entry of a name as it finds it. -/
def Introduction.CompletesEntry (j : Introduction) (e : Entry) : Prop :=
  j.isDefinition = true ∧ e.isExternal = false ∧ e.Fits j.form

/-- What completes the entry of an introduction completes the introduction. -/
theorem Introduction.CompletesEntry.completes {i j : Introduction} {e : Entry}
    (h : j.CompletesEntry e) (hfits : e.Fits i.form) : j.Completes i := by
  obtain ⟨hdefinition, hexternal, hfits'⟩ := h
  cases hj : j.form with
  | none =>
      rw [isDefinition, hj] at hdefinition
      cases hdefinition
  | some g =>
      rw [isDefinition, hj] at hdefinition
      rw [hj] at hfits'
      cases hi : i.form with
      | none =>
          rw [hi] at hfits
          exact absurd hfits'.1 hfits
      | some f =>
          rw [hi] at hfits
          obtain ⟨-, hexternal', hsame⟩ := hfits
          refine ⟨f, g, hi, hj, hexternal'.symm.trans hexternal, hdefinition, ?_⟩
          have hsymm := Ty.same_equivalence.symm hsame
          exact Ty.same_equivalence.trans hsymm hfits'.2.2

namespace Checker

/-- The second state has the entries of the first and those of the introductions. A name is only
introduced again by a definition that completes what it finds. -/
structure TakesNames (c : Checker) (is : List Introduction) (c' : Checker) : Prop where
  grows : c.Grows c'
  apart : is.Pairwise fun i j => i.scope = j.scope → i.name = j.name → j.Completes i
  free : ∀ i ∈ is, ∀ e, c.entryIn? i.scope i.name = some e → i.CompletesEntry e
  there : ∀ i ∈ is, ∃ e, c'.entryIn? i.scope i.name = some e ∧ e.Fits i.form
  only : ∀ id name e, c'.entryIn? id name = some e →
    c.entryIn? id name = some e ∨ ∃ i ∈ is, i.scope = id ∧ i.name = name

namespace TakesNames

variable {c c' c'' : Checker} {is js : List Introduction}

theorem of_eq (hgrows : c.Grows c')
    (h : ∀ id name, c'.entryIn? id name = c.entryIn? id name) : TakesNames c [] c' where
  grows := hgrows
  apart := .nil
  free _ hi := absurd hi List.not_mem_nil
  there _ hi := absurd hi List.not_mem_nil
  only id name _ he := .inl ((h id name).symm.trans he)

theorem of_temps {scope : ScopeId} (h : TakesTemps scope c c') : TakesNames c [] c' :=
  of_eq (h.edits (b := false)).grows h.entryIn?_eq

theorem of_addScope (c : Checker) (name : String) (kind : ScopeKind) (parent : ScopeId) :
    TakesNames c [] (c.addScope name kind parent).2 :=
  of_eq (Edit.grows (b := false) (.pushScope c _ rfl rfl)) (c.entryIn?_pushScope rfl)

theorem of_setReturnType (c : Checker) (id : ScopeId) (type : Option Ty) :
    TakesNames c [] (c.setReturnType id type) :=
  of_eq (Edit.grows (b := false) (.setReturnType c id type)) (c.entryIn?_setReturnType id type)

theorem of_register (c : Checker) (name : String) (type : Ty) (position : Position) :
    TakesNames c [] (c.register name type position) :=
  of_eq (.refl c) fun _ _ => rfl

theorem trans (h : TakesNames c is c') (h' : TakesNames c' js c'') :
    TakesNames c (is ++ js) c'' where
  grows := h.grows.trans h'.grows
  apart := by
    refine List.pairwise_append.mpr ⟨h.apart, h'.apart, fun i hi j hj hscope hname => ?_⟩
    obtain ⟨e, he, hfits⟩ := h.there i hi
    rw [hscope, hname] at he
    exact (h'.free j hj e he).completes hfits
  free i hi e he := by
    rcases List.mem_append.mp hi with hfirst | hsecond
    · exact h.free i hfirst e he
    · exact h'.free i hsecond e (h.grows.entryIn? he)
  there i hi := by
    rcases List.mem_append.mp hi with hfirst | hsecond
    · obtain ⟨e, he, hfits⟩ := h.there i hfirst
      exact ⟨e, h'.grows.entryIn? he, hfits⟩
    · exact h'.there i hsecond
  only id name e he := by
    rcases h'.only id name e he with hmiddle | ⟨i, hi, hkey⟩
    · rcases h.only id name e hmiddle with hold | ⟨i, hi, hkey⟩
      · exact .inl hold
      · exact .inr ⟨i, List.mem_append_left js hi, hkey⟩
    · exact .inr ⟨i, List.mem_append_right is hi, hkey⟩

theorem of_declare {id : ScopeId} {entry : Entry} (h : c.declare id entry = .ok c')
    (hid : id < c.scopes.length) {form : Option FunctionForm} (hfits : entry.Fits form) :
    TakesNames c [⟨id, entry.name, form⟩] c' where
  grows := by
    obtain ⟨-, rfl⟩ := declare_eq_ok h
    refine grows_modifyScope c id fun s hs => ?_
    rw [scope_eq_of_getElem? hs]
    exact ⟨[entry], [], s.returnType, by simp⟩
  apart := List.pairwise_singleton _ _
  free i hi _ he := by
    rw [List.mem_singleton.mp hi, (declare_eq_ok h).1] at he
    cases he
  there i hi := by
    rw [List.mem_singleton.mp hi]
    exact ⟨entry, entryIn?_of_declare h hid, hfits⟩
  only i name e he := by
    rcases adds_of_declare h i name e he with hold | ⟨rfl, rfl⟩
    · exact .inl hold
    · refine .inr ⟨_, List.mem_singleton_self _, rfl, ?_⟩
      obtain ⟨s, -, hget⟩ := entryIn?_eq_some_iff.mp he
      exact Scope.name_of_get? hget

/-- A definition that completes an entry changes nothing. -/
theorem of_completes {i : Introduction} {e : Entry} (he : c.entryIn? i.scope i.name = some e)
    (h : i.CompletesEntry e) : TakesNames c [i] c where
  grows := .refl c
  apart := List.pairwise_singleton _ _
  free j hj e' he' := by
    rw [List.mem_singleton.mp hj] at he' ⊢
    rw [he] at he'
    cases he'
    exact h
  there j hj := by
    rw [List.mem_singleton.mp hj]
    exact ⟨e, he, h.2.2⟩
  only _ _ _ he := .inl he

theorem length_lt (h : TakesNames c is c') {id : ScopeId} (hid : id < c.scopes.length) :
    id < c'.scopes.length :=
  Nat.lt_of_lt_of_le hid h.grows.length_le

end TakesNames

end Checker

open Checker (TakesNames)

/-! ## Parameters -/

namespace Parameter

variable {declare : Bool} {inner : ScopeId}

theorem introductions_cons (p : Parameter) (rest : List Parameter) :
    introductions (p :: rest) inner = introductions [p] inner ++ introductions rest inner := by
  rw [introductions, introductions, introductions, names_cons, names_cons, List.map_append,
    List.map_append]
  simp [names]

theorem takesNames_of_analyse {p p' : Parameter} {c c' : Checker}
    (h : analyse declare inner p c = .ok p' c') (hinner : inner < c.scopes.length) :
    TakesNames c (if declare then introductions [p] inner else []) c' := by
  obtain ⟨descriptor, depth, name, position, type, cName⟩ := p
  cases declare with
  | false =>
      cases h
      exact .of_eq (.refl c) fun _ _ => rfl
  | true =>
      cases name with
      | none =>
          cases h
          exact .of_eq (.refl c) fun _ _ => rfl
      | some name =>
          obtain ⟨c₂, hdeclare, hok⟩ := Outcome.ofDeclare_ok (congrArg Outcome.error h)
          cases hok.symm.trans h
          exact .of_declare hdeclare hinner (Scope.variableEntry_kind_ne _ _ _ _ _)

/-- Parameters are introduced in order if they are declared. -/
theorem takesNames_of_analyseAll {params params' : List Parameter} {c c' : Checker}
    (h : analyseAll declare inner params c = .ok params' c') (hinner : inner < c.scopes.length) :
    TakesNames c (if declare then introductions params inner else []) c' := by
  induction params generalizing params' c c' with
  | nil =>
      cases h
      rw [show introductions [] inner = [] from rfl, ite_self]
      exact .of_eq (.refl c) fun _ _ => rfl
  | cons p rest ih =>
      obtain ⟨first, c₁, others, hfirst, hothers, rfl, -⟩ := analyseAll_cons_ok h
      have hhead := takesNames_of_analyse hfirst hinner
      have hboth := hhead.trans (ih hothers (hhead.length_lt hinner))
      rw [introductions_cons]
      cases declare with
      | false | true => exact hboth

end Parameter

/-! ## Visits -/

/-- The entry of a function fits its signature, with or without the names. -/
theorem Scope.functionEntry_fits (s : Scope) (name : String) (params : List Ty) (result : Ty)
    (isDefinition isExternal : Bool) (position : Position) :
    (s.functionEntry .function name params result isExternal position).Fits
      (some ⟨isDefinition, isExternal, .function none none params result⟩) := by
  refine ⟨rfl, rfl, ?_⟩
  rw [Ty.same_iff_canonical_eq]
  rfl

/-- What a definition takes the place of is provided by no header. -/
theorem Function.isExternal_of_prototype? {name cName : String} {params : List Ty} {result : Ty}
    {scope : Scope} (h : prototype? name params result scope = some cName) {entry : Entry}
    (hentry : scope.get? name = some entry) : entry.isExternal = false := by
  unfold prototype? at h
  rw [hentry] at h
  dsimp only at h
  split at h
  · split at h
    · rename_i hcond
      simpa using hcond.2.1
    · cases h
  · cases h

namespace Visit

variable {scope : ScopeId} {c : Checker}

theorem takesNames_function {d : Function} (hok : (d.enter scope c).error = none)
    (hscope : scope < c.scopes.length) :
    TakesNames c (introductions ⟨scope, c, .function d⟩) (d.enter scope c).checker := by
  have hentered := Function.enter_entered hok
  generalize (d.enter scope c).node = node at hentered
  generalize (d.enter scope c).checker = after at hentered ⊢
  -- the parameters, in either case
  have hparams {params : List Parameter} {c₁ : Checker} {returnType : Ty}
      (hanalyse : Parameter.analyseAll true c.scopes.length d.params
        (c.addScope d.name .function scope).2 = .ok params c₁)
      (hreturn : returnType = Ty.resolve c₁.registry d.descriptor d.depth) :
      Ty.function none none (Parameter.types params) returnType
          = Parameter.signature d.params d.descriptor d.depth c.registry
        ∧ TakesNames c (Parameter.introductions d.params c.scopes.length)
            (c₁.setReturnType c.scopes.length (some returnType)) := by
    have htypes := Parameter.types_of_analyseAll hanalyse
    have hnames := Parameter.takesNames_of_analyseAll hanalyse
      (Checker.length_lt_of_edits_addScope .refl)
    refine ⟨?_, ?_⟩
    · rw [Parameter.signature, htypes, hreturn, Parameter.registry_of_analyseAll hanalyse]
      rfl
    · have hall := ((TakesNames.of_addScope c d.name .function scope).trans hnames).trans
        (.of_setReturnType c₁ c.scopes.length (some returnType))
      rwa [List.append_nil] at hall
  cases hentered with
  | @completes params c₁ returnType cName hanalyse hreturn hproto =>
      obtain ⟨hsignature, hnames⟩ := hparams hanalyse hreturn
      obtain ⟨entry, hget, hkind, -, hsame⟩ := Function.prototype?_eq_some hproto
      have hexternal := Function.isExternal_of_prototype? hproto hget
      rw [Checker.get?_scope] at hget
      refine hnames.trans (.of_completes hget ⟨rfl, hexternal, hkind, hexternal, ?_⟩)
      rw [← hsignature]
      exact hsame none none
  | @declares params c₁ c₂ returnType entry hanalyse hreturn hentry hdeclare =>
      obtain ⟨hsignature, hnames⟩ := hparams hanalyse hreturn
      have hname : entry.name = d.name := by
        rw [hentry]
        rfl
      refine hnames.trans ?_
      rw [← hname]
      refine .of_declare hdeclare (hnames.length_lt hscope) ?_
      rw [← hsignature, hentry]
      exact Scope.functionEntry_fits _ _ _ _ _ _ _

theorem takesNames_method {d : Method} (hok : (d.enter scope c).error = none)
    (hscope : scope < c.scopes.length) :
    TakesNames c (introductions ⟨scope, c, .method d⟩) (d.enter scope c).checker := by
  obtain ⟨params, c₁, entry, hanalyse, rfl, hdeclare, -⟩ := Method.enter_ok hok
  have hnames := Parameter.takesNames_of_analyseAll hanalyse
    (Checker.length_lt_of_edits_addScope (.single (.setReturnType _ _ _)))
  have hparams := ((TakesNames.of_addScope c d.name .function scope).trans
    (.of_setReturnType _ _ _)).trans hnames
  exact hparams.trans (.of_declare hdeclare (hparams.length_lt hscope)
    (show EntryKind.method ≠ .function by decide))

theorem takesNames_classDef {d : ClassDef} (hok : (d.enter scope c).error = none)
    (hscope : scope < c.scopes.length) :
    TakesNames c (introductions ⟨scope, c, .classDef d⟩) (d.enter scope c).checker := by
  obtain ⟨-, -, c₁, inner, hdeclare, hempty, htemps, heq⟩ := ClassDef.enter_ok hok
  have hname : TakesNames c [⟨scope, d.name, none⟩] c₁ :=
    .of_declare hdeclare hscope (show EntryKind.classHandle ≠ .function by decide)
  rw [heq]
  exact hname.trans (.of_eq (Checker.Edit.grows (b := false) (.pushScope c₁ _ hempty htemps))
    (c₁.entryIn?_pushScope hempty))

theorem takesNames_assign {d : Assignment} (hok : (d.analyse scope c).error = none)
    (hscope : scope < c.scopes.length) :
    TakesNames c (introductions ⟨scope, c, .assign d⟩) (d.analyse scope c).checker := by
  obtain ⟨c₁, hdeclare, htemps⟩ := Assignment.declareTarget_of_analyse hok
  have hsilent : TakesNames c [] c := .of_eq (.refl c) fun _ _ => rfl
  have htarget : TakesNames c (introductions ⟨scope, c, .assign d⟩) c₁ := by
    unfold introductions
    unfold Assignment.declareTarget at hdeclare
    dsimp only
    cases hname : d.target.asName? with
    | none =>
        rw [hname] at hdeclare
        cases hdeclare
        exact hsilent
    | some name =>
        rw [hname] at hdeclare
        dsimp only at hdeclare ⊢
        cases hfind : c.find? scope name with
        | some e =>
            rw [hfind] at hdeclare
            cases hdeclare
            exact hsilent
        | none =>
            rw [hfind] at hdeclare
            exact .of_declare hdeclare hscope (Scope.variableEntry_kind_ne _ _ _ _ _)
  have hall := htarget.trans (.of_temps htemps)
  rwa [List.append_nil] at hall

theorem takesNames_typeAlias {d : TypeAlias} (hok : (d.analyse scope c).error = none)
    (hscope : scope < c.scopes.length) :
    TakesNames c (introductions ⟨scope, c, .typeAlias d⟩) (d.analyse scope c).checker := by
  cases htag : d.isTagAlias with
  | true =>
      have hsame : d.analyse scope c = .ok d c := by
        unfold TypeAlias.analyse
        rw [if_pos htag]
      have hnone : introductions ⟨scope, c, .typeAlias d⟩ = [] := if_pos htag
      rw [hsame, hnone]
      exact .of_eq (.refl c) fun _ _ => rfl
  | false =>
      have hone : introductions ⟨scope, c, .typeAlias d⟩ = [⟨scope, d.name, none⟩] :=
        if_neg (by simp [htag])
      obtain ⟨cName, type, c₁, entry, -, rfl, hdeclare, heq⟩ := TypeAlias.analyse_ok hok htag
      rw [heq, hone]
      exact (TakesNames.of_register c d.name type d.position).trans
        (.of_declare hdeclare hscope (show EntryKind.type ≠ .function by decide))

/-- **A visit introduces names**, and declares nothing else. -/
theorem takesNames {v : Visit} (hok : v.outcome.error = none)
    (hscope : v.scope < v.before.scopes.length) :
    TakesNames v.before v.introductions v.after := by
  obtain ⟨scope, c, p⟩ := v
  cases p with
  | var d =>
      obtain ⟨type, value, c₁, c₂, entry, -, hvalue, rfl, hdeclare, heq⟩ := Variable.analyse_ok hok
      have htemps := Expr.analyseOptionInto_takesTemps type scope d.position d.value c
      rw [hvalue] at htemps
      show TakesNames c _ (d.analyse scope c).checker
      rw [heq]
      have hvalues := TakesNames.of_temps htemps
      exact hvalues.trans
        (.of_declare hdeclare (hvalues.length_lt hscope) (Scope.variableEntry_kind_ne _ _ _ _ _))
  | array d =>
      obtain ⟨size, initial, c₁, htemps, -, -, -, hdeclare⟩ :=
        ArrayVariable.declare_of_analyse hok
      have helements := TakesNames.of_temps htemps
      exact helements.trans (.of_declare hdeclare (helements.length_lt hscope)
        (show EntryKind.array ≠ .function by decide))
  | assign d => exact takesNames_assign hok hscope
  | ret d => exact .of_temps (Return.takesTemps_of_analyse hok)
  | print d => exact .of_temps (Print.analyseValues_takesTemps d.position scope d.values c)
  | evaluation d => exact .of_temps (d.value.analyse_takesTemps none scope c)
  | aggregate d =>
      obtain ⟨type, c₁, c₂, entry, -, hc₁, rfl, hdeclare, heq⟩ := Aggregate.declare_ok hok
      have hopen : TakesNames c [] c₁ := by
        rw [hc₁]
        exact (TakesNames.of_addScope c d.name .aggregate scope).trans (.of_register _ _ _ _)
      show TakesNames c _ (d.declare scope c).checker
      rw [heq]
      exact hopen.trans (.of_declare hdeclare (hopen.length_lt hscope)
        (show EntryKind.aggregate ≠ .function by decide))
  | forward d =>
      obtain ⟨cName, type, c₁, entry, -, rfl, hdeclare, heq⟩ := Forward.analyse_ok hok
      show TakesNames c _ (d.analyse scope c).checker
      rw [heq]
      exact .of_declare hdeclare hscope (show EntryKind.type ≠ .function by decide)
  | typeAlias d => exact takesNames_typeAlias hok hscope
  | prototype d =>
      obtain ⟨params, c₁, c₂, entry, hparams, rfl, hdeclare, heq⟩ := Prototype.analyse_ok hok
      have htypes := Parameter.types_of_analyseAll hparams
      have hnames := Parameter.takesNames_of_analyseAll hparams hscope
      show TakesNames c _ (d.analyse scope c).checker
      rw [heq]
      refine hnames.trans (.of_declare hdeclare (hnames.length_lt hscope) ?_)
      rw [Parameter.signature, ← htypes, ← Parameter.registry_of_analyseAll hparams]
      exact Scope.functionEntry_fits _ _ _ _ _ _ _
  | condition e => exact .of_temps (e.analyseCondition_takesTemps scope c)
  | count d => exact .of_temps (CountLoop.takesTemps_of_analyse hok)
  | function d => exact takesNames_function hok hscope
  | method d => exact takesNames_method hok hscope
  | classDef d => exact takesNames_classDef hok hscope

end Visit

/-! ## Runs -/

theorem Run.takesNames {c c' : Checker} {visits : List Visit} (h : Run c visits c')
    (hscopes : ∀ v ∈ visits, v.scope < v.before.scopes.length) :
    TakesNames c (visits.flatMap Visit.introductions) c' := by
  induction h with
  | done c => exact .of_eq (.refl c) fun _ _ => rfl
  | @step v rest c' hok _ ih =>
      obtain ⟨hv, hrest⟩ := List.forall_mem_cons.mp hscopes
      rw [List.flatMap_cons]
      exact (Visit.takesNames hok hv).trans (ih hrest)

/-- **What may be introduced again, and what is.** If the analysis of statements succeeds, the names
of the scopes are those that were there and those that the statements introduce. When a statement
introduces a name of a scope again, it is the definition of a function with the signature of what
introduced the name before, and no header provides that. So every name of a scope is introduced
once, or by a prototype and then by a definition, just if it is not defined twice as a function. -/
theorem Stmt.introductions_of_analyseAll (stmts : List Stmt) (scope : ScopeId) (c : Checker)
    (hscope : scope < c.scopes.length) (h : (analyseAll stmts scope c).error = none) :
    (∀ id name, ((analyseAll stmts scope c).checker.entryIn? id name).isSome = true
        ↔ (c.entryIn? id name).isSome = true
          ∨ ∃ i ∈ introductions stmts scope c, i.scope = id ∧ i.name = name)
      ∧ (introductions stmts scope c).Pairwise
          (fun i j => i.scope = j.scope → i.name = j.name → j.Completes i)
      ∧ ∀ id name, Introduction.Allowed
            (Introduction.ofName (introductions stmts scope c) id name)
          ↔ (Introduction.ofName (introductions stmts scope c) id name).countP
              Introduction.isDefinition ≤ 1 := by
  have htraced := analyseAll_traced stmts scope c h
  have hnames := htraced.run.takesNames (htraced.inRange hscope)
  refine ⟨fun id name => ⟨fun hthere => ?_, fun hthere => ?_⟩, hnames.apart, fun id name => ?_⟩
  · obtain ⟨e, he⟩ := Option.isSome_iff_exists.mp hthere
    rcases hnames.only id name e he with hold | hnew
    · exact .inl (Option.isSome_of_eq_some hold)
    · exact .inr hnew
  · rcases hthere with hold | ⟨i, hi, rfl, rfl⟩
    · obtain ⟨e, he⟩ := Option.isSome_iff_exists.mp hold
      exact Option.isSome_of_eq_some (hnames.grows.entryIn? he)
    · obtain ⟨e, he, -⟩ := hnames.there i hi
      exact Option.isSome_of_eq_some he
  · refine Introduction.allowed_iff ?_
    have hkeys : ∀ i ∈ Introduction.ofName (introductions stmts scope c) id name,
        i.scope = id ∧ i.name = name := fun i hi => of_decide_eq_true (List.mem_filter.mp hi).2
    refine (hnames.apart.filter _).imp_of_mem fun hi hj hcompletes => ?_
    obtain ⟨hiscope, hiname⟩ := hkeys _ hi
    obtain ⟨hjscope, hjname⟩ := hkeys _ hj
    exact hcompletes (hiscope.trans hjscope.symm) (hiname.trans hjname.symm)

namespace Stmt

/-- The prototype of a function `f`. -/
def prototypeOfF : Stmt :=
  .prototype
    { descriptor := .named "void", depth := 0, name := "f",
      params :=
        [{ descriptor := .named "int", depth := 0, name := some "x", position := .unknown }],
      position := .unknown }

/-- The definition of `f`, with another name for the parameter and nothing in its body. -/
def definitionOfF : Stmt :=
  .function
    { descriptor := .named "void", depth := 0, name := "f",
      params :=
        [{ descriptor := .named "int", depth := 0, name := some "y", position := .unknown }],
      position := .unknown }
    []

/-- What introduces `f` in the global scope of statements with nothing before them. -/
def introducingF (stmts : List Stmt) : List Introduction :=
  Introduction.ofName (introductions stmts Checker.global (Checker.start .empty))
    Checker.global "f"

theorem definition_after_prototype :
    (analyseAll [prototypeOfF, definitionOfF] Checker.global (Checker.start .empty)).error = none
      ∧ (introducingF [prototypeOfF, definitionOfF]).length = 2
      ∧ Introduction.Allowed (introducingF [prototypeOfF, definitionOfF]) := by
  have hok : (analyseAll [prototypeOfF, definitionOfF] Checker.global
      (Checker.start .empty)).error = none := by decide +kernel
  refine ⟨hok, by decide +kernel, ?_⟩
  obtain ⟨-, -, hallowed⟩ := introductions_of_analyseAll _ Checker.global (Checker.start .empty)
    (by decide) hok
  exact (hallowed Checker.global "f").mpr (by decide +kernel)

theorem definition_after_definition :
    (analyseAll [definitionOfF, definitionOfF] Checker.global (Checker.start .empty)).error = none
      ∧ ¬ Introduction.Allowed (introducingF [definitionOfF, definitionOfF]) := by
  have htwice : (introducingF [definitionOfF, definitionOfF]).countP Introduction.isDefinition
      = 2 := by decide +kernel
  refine ⟨by decide +kernel, fun hallowed => ?_⟩
  have hone := hallowed.countP_le
  omega

end Stmt

end ExtensionCompiler

import ExtensionCompiler.Proofs.Slots
import Mathlib.Data.List.Nodup

set_option autoImplicit false

/-! # Where entries come from

Every entry of an analysed unit was declared by one visit, and `Visit.Declares` lists the ways in
which a visit can declare one: as a variable or a parameter, as an object, under the heading of a
function or a method, or as the name of a type. In each case it says how the entry and the node of
the visit hang together. The main statement is `Run.exists_declares`: whatever a run leaves in the
scopes was there before, or one of its visits declares it. -/

namespace ExtensionCompiler

/-! ## Entries that are added -/

namespace Checker

/-- The entries of the second state are those of the first and some that `P` holds of. -/
def Adds (P : ScopeId → Entry → Prop) (c c' : Checker) : Prop :=
  ∀ id name e, c'.entryIn? id name = some e → c.entryIn? id name = some e ∨ P id e

namespace Adds

variable {P Q : ScopeId → Entry → Prop} {c c' c'' : Checker}

theorem of_eq (h : ∀ id name, c'.entryIn? id name = c.entryIn? id name) : Adds P c c' := by
  intro id name e he
  exact .inl ((h id name).symm.trans he)

theorem trans (h : Adds P c c') (h' : Adds P c' c'') : Adds P c c'' := by
  intro id name e he
  rcases h' id name e he with hmiddle | hnew
  · exact h id name e hmiddle
  · exact .inr hnew

theorem mono (h : Adds P c c') (hPQ : ∀ id e, P id e → Q id e) : Adds Q c c' := by
  intro id name e he
  exact (h id name e he).imp_right (hPQ id e)

end Adds

variable {id : ScopeId}

theorem adds_of_declare {c c' : Checker} {entry : Entry}
    (h : c.declare id entry = .ok c') : Adds (fun i e => i = id ∧ e = entry) c c' := by
  intro i name e he
  obtain ⟨s', hs', hget⟩ := entryIn?_eq_some_iff.mp he
  by_cases hi : i = id
  · subst hi
    rw [getElem?_of_declare h] at hs'
    obtain ⟨s, hs, rfl⟩ := Option.map_eq_some_iff.mp hs'
    rw [Scope.get?, List.find?_append, Option.or_eq_some_iff] at hget
    rcases hget with hold | ⟨-, hnew⟩
    · exact .inl (entryIn?_eq_some_iff.mpr ⟨s, hs, hold⟩)
    · exact .inr ⟨rfl, List.mem_singleton.mp (List.mem_of_find?_eq_some hnew)⟩
  · obtain ⟨-, rfl⟩ := declare_eq_ok h
    rw [getElem?_modifyScope_ne c (Ne.symm hi)] at hs'
    exact .inl (entryIn?_eq_some_iff.mpr ⟨s', hs', hget⟩)

theorem TakesTemps.entryIn?_eq {scope : ScopeId} {c c' : Checker} (h : TakesTemps scope c c')
    (id : ScopeId) (name : String) : c'.entryIn? id name = c.entryIn? id name := by
  -- an entry is found in a scope as it is found without the temporaries
  have hbare : ∀ d : Checker, d.entryIn? id name
      = (d.scopes.map Scope.bare)[id]?.bind fun s => s.get? name := by
    intro d
    rw [entryIn?, List.getElem?_map]
    cases d.scopes[id]? with
    | none => rfl
    | some s => rfl
  rw [hbare, hbare, h.map_bare]

theorem entryIn?_setReturnType (c : Checker) (inner : ScopeId) (type : Option Ty) (id : ScopeId)
    (name : String) : (c.setReturnType inner type).entryIn? id name = c.entryIn? id name := by
  unfold setReturnType entryIn?
  rw [getElem?_modifyScope]
  split
  · cases c.scopes[id]? with
    | none => rfl
    | some s => rfl
  · rfl

/-- A new scope is empty. -/
theorem entryIn?_pushScope (c : Checker) {scope : Scope} (h : scope.entries = []) (id : ScopeId)
    (name : String) : (c.pushScope scope).2.entryIn? id name = c.entryIn? id name := by
  unfold pushScope entryIn?
  by_cases hid : id < c.scopes.length
  · rw [List.getElem?_append_left hid]
  · rw [List.getElem?_append_right (Nat.le_of_not_lt hid),
      List.getElem?_eq_none (Nat.le_of_not_lt hid)]
    cases id - c.scopes.length with
    | zero => simp [Scope.get?, h]
    | succ n => rfl

/-- Nothing is declared before the first statement. -/
theorem entryIn?_start (registry : Registry) (id : ScopeId) (name : String) :
    (start registry).entryIn? id name = none := by
  cases id with
  | zero => rfl
  | succ id => rfl

/-- The names of a scope are distinct, so every entry is found under its name. -/
theorem Tidy.entryIn?_of_mem {c : Checker} (h : c.Tidy) {s : Scope} (hs : c.scopes[id]? = some s)
    {e : Entry} (he : e ∈ s.entries) : c.entryIn? id e.name = some e := by
  have hthere : (s.get? e.name).isSome = true := by
    rw [Scope.get?, List.find?_isSome]
    exact ⟨e, he, decide_eq_true rfl⟩
  obtain ⟨e', hget⟩ := Option.isSome_iff_exists.mp hthere
  have hsame : e' = e := List.inj_on_of_nodup_map (h.distinct s (List.mem_of_getElem? hs))
    (Scope.mem_of_get? hget) he (Scope.name_of_get? hget)
  rw [entryIn?_eq_some_iff.mpr ⟨s, hs, hget⟩, hsame]

theorem Tidy.typeIn?_of_mem {c : Checker} (h : c.Tidy) {s : Scope} (hs : c.scopes[id]? = some s)
    {e : Entry} (he : e ∈ s.entries) : c.typeIn? id e.name = some e.type := by
  rw [typeIn?, h.entryIn?_of_mem hs he]
  rfl

end Checker

open Checker (Adds Edits TakesTemps)

theorem EntryKind.isType_ofVariable (type : Ty) : (ofVariable type).isType = false := by
  unfold ofVariable
  split <;> rfl

/-- Whether entries of the kind are functions or methods. -/
def EntryKind.isCallable : EntryKind → Bool
  | .function | .method => true
  | _ => false

theorem EntryKind.isCallable_ofVariable (type : Ty) : (ofVariable type).isCallable = false := by
  unfold ofVariable
  split <;> rfl

variable {scope : ScopeId}

/-- The entries of named parameters, if they are declared at all. -/
theorem Parameter.adds_of_analyseAll {declare : Bool} {params params' : List Parameter}
    {c c' : Checker} (h : analyseAll declare scope params c = .ok params' c') :
    Adds (fun id e => declare = true ∧ id = scope ∧ e.kind = .ofVariable e.type
      ∧ ∃ p ∈ params', p.name = some e.name ∧ p.type = e.type) c c' := by
  induction params generalizing params' c c' with
  | nil =>
      cases h
      exact .of_eq fun _ _ => rfl
  | cons q rest ih =>
      obtain ⟨first, c₁, others, hfirst, hothers, rfl, -⟩ := analyseAll_cons_ok h
      have hhead : Adds (fun id e => declare = true ∧ id = scope ∧ e.kind = .ofVariable e.type
          ∧ first.name = some e.name ∧ first.type = e.type) c c₁ := by
        unfold analyse at hfirst
        dsimp only at hfirst
        split at hfirst
        · rename_i name hname
          obtain ⟨c₂, hdeclare, hok⟩ := Outcome.ofDeclare_ok (congrArg Outcome.error hfirst)
          rw [hok] at hfirst
          cases hfirst
          refine (Checker.adds_of_declare hdeclare).mono ?_
          rintro id e ⟨rfl, rfl⟩
          exact ⟨rfl, rfl, rfl, hname, rfl⟩
        · cases hfirst
          exact .of_eq fun _ _ => rfl
      refine (hhead.mono ?_).trans ((ih hothers).mono ?_)
      · rintro id e ⟨hdeclare, hid, hkind, hp⟩
        exact ⟨hdeclare, hid, hkind, first, List.mem_cons_self, hp⟩
      · rintro id e ⟨hdeclare, hid, hkind, p, hp, hrest⟩
        exact ⟨hdeclare, hid, hkind, p, List.mem_cons_of_mem _ hp, hrest⟩

/-! ## What is left besides declarations -/

theorem Assignment.declareTarget_of_analyse {d : Assignment} {c : Checker}
    (h : (d.analyse scope c).error = none) :
    ∃ c₁, d.declareTarget scope c = .ok c₁ ∧ TakesTemps scope c₁ (d.analyse scope c).checker := by
  obtain ⟨target, value, c₁, c₂, c₃, hdeclare, htarget, -, hvalue, heq⟩ := analyse_ok h
  have hfirst := d.target.analyse_takesTemps none scope c₁
  have hsecond := d.value.analyseInto_takesTemps target.type scope d.position c₂
  rw [htarget] at hfirst
  rw [hvalue] at hsecond
  rw [heq]
  exact ⟨c₁, hdeclare, hfirst.trans hsecond⟩

/-- A name that is assigned to first becomes a variable that holds an object. -/
theorem Assignment.adds_of_declareTarget {d : Assignment} {c c' : Checker}
    (h : d.declareTarget scope c = .ok c') :
    Adds (fun _ e => e.kind = .ofVariable .object ∧ e.type = .object) c c' := by
  unfold declareTarget at h
  split at h
  · cases h
    exact .of_eq fun _ _ => rfl
  · split at h
    · cases h
      exact .of_eq fun _ _ => rfl
    · refine (Checker.adds_of_declare h).mono ?_
      rintro id e ⟨-, rfl⟩
      exact ⟨rfl, rfl⟩

theorem Return.takesTemps_of_analyse {d : Return} {c : Checker}
    (h : (d.analyse scope c).error = none) : TakesTemps scope c (d.analyse scope c).checker := by
  obtain ⟨function, value, c₁, -, hvalue, heq⟩ := analyse_ok h
  have htemps := Expr.analyseOptionInto_takesTemps (expected c function) scope d.position d.value c
  rw [hvalue] at htemps
  rw [heq]
  exact htemps

theorem CountLoop.takesTemps_of_analyse {d : CountLoop} {c : Checker}
    (h : (d.analyse scope c).error = none) : TakesTemps scope c (d.analyse scope c).checker := by
  obtain ⟨counter, left, right, c₁, c₂, -, hleft, hright, heq⟩ := analyse_ok h
  have hfirst := d.left.analyseInto_takesTemps counter.type scope d.position c
  have hsecond := d.right.analyseInto_takesTemps counter.type scope d.position c₁
  rw [hleft] at hfirst
  rw [hright] at hsecond
  rw [heq]
  exact hfirst.trans hsecond

/-! ## Parameters of methods -/

namespace Ty

theorem pendings_of_isObject {ty : Ty} (h : ty.isObject = true) : ty.pendings = [] := by
  rw [← pendings_unaliased]
  unfold isObject at h
  split at h
  · rename_i hobject
    rw [hobject]
    rfl
  · cases h

theorem pendings_of_isText {ty : Ty} (h : ty.isText = true) : ty.pendings = [] := by
  rw [← pendings_unaliased]
  unfold isText at h
  split at h
  · rename_i base hpointer
    split at h
    · rename_i hchar
      rw [hpointer]
      show base.pendings = []
      rw [← pendings_unaliased, hchar]
      rfl
    · cases h
  · cases h

/-- Only numbers and texts have a function that makes them of an object. -/
theorem pendings_of_unboxFunction? {ty : Ty} {function : String}
    (h : ty.unboxFunction? = some function) : ty.pendings = [] := by
  unfold unboxFunction? at h
  split at h
  · rename_i hprimitive
    rw [← pendings_unaliased, hprimitive]
    rfl
  · split at h
    · rename_i htext
      exact pendings_of_isText htext
    · cases h

end Ty

/-- A type that an object can be converted to waits for nothing. -/
theorem Conversion.pendings_of_between {slot : Ty} (h : between .object slot ≠ .impossible) :
    slot.pendings = [] := by
  cases hobject : slot.isObject with
  | true => exact Ty.pendings_of_isObject hobject
  | false =>
      cases hunbox : slot.unboxFunction? with
      | some function => exact Ty.pendings_of_unboxFunction? hunbox
      | none =>
          unfold between at h
          rw [hobject, hunbox] at h
          exact absurd rfl h

/-- An object can be converted to every parameter of a method. -/
theorem Method.between_params {d : Method} {scope : ScopeId} {c : Checker}
    (h : (d.enter scope c).error = none) :
    ∀ p ∈ (d.enter scope c).node.params, Conversion.between .object p.type ≠ .impossible := by
  obtain ⟨params, c₁, entry, hparams, -, -, hnode⟩ := enter_ok h
  rw [enter_eq] at h
  obtain ⟨-, hrest⟩ := (Outcome.andThen_error_eq_none_iff _ _ _).mp h
  rw [hparams] at hrest
  change (d.finish c.scopes.length scope params c₁).error = none at hrest
  unfold finish at hrest
  dsimp only at hrest
  split at hrest
  · cases hrest
  · rename_i hnative
    rw [hnode]
    intro p hp
    have hbridge := List.find?_eq_none.mp hnative p hp
    simpa using hbridge

/-- No parameter of a method waits for anything: the host could not call it. -/
theorem Method.pendings_params {d : Method} {scope : ScopeId} {c : Checker}
    (h : (d.enter scope c).error = none) :
    Ty.waitingIn true (Parameter.types (d.enter scope c).node.params) = [] := by
  rw [Ty.waitingIn_eq_flatMap, List.flatMap_eq_nil_iff]
  intro ty hty
  obtain ⟨p, hp, rfl⟩ := List.mem_map.mp hty
  exact Conversion.pendings_of_between (between_params h p hp)

/-! ## Visits -/

/-- The types of an analysed part that the second pass rescans. An announcement is looked up again
under its name. -/
def Part.rescanned : Part → List Ty
  | .var d => [d.type]
  | .array d => [d.type]
  | .forward d => [.pending d.name]
  | .typeAlias d => if d.isTagAlias then [] else [d.type]
  | .prototype d =>
    Parameter.types d.params ++ match d.type with
      | some (.function _ _ _ result) => [result]
      | _ => []
  | .function d => Parameter.types d.params ++ [d.returnType]
  | .method d => Parameter.types d.params
  | _ => []

/-- The entry that the node of a prototype, a function or a method stands for. -/
def Part.callable? : Part → Option Entry
  | .prototype d =>
    match d.type with
    | some (.function name cName _ result) =>
      some
        { name := d.name, cName := d.cName, kind := .function,
          type := .function name cName (Parameter.types d.params) result,
          isExternal := d.isExternal, position := d.position }
    | _ => none
  | .function d =>
    some
      { name := d.name, cName := d.cName, kind := .function, type := d.type,
        position := d.position }
  | .method d =>
    some
      { name := d.name, cName := d.cName, kind := .method,
        type := .function (some d.name) (some d.cName) (Parameter.types d.params) .object,
        position := d.position }
  | _ => none

/-- The ways in which a visit declares an entry in the scope `id`. -/
inductive Visit.Declares (v : Visit) (id : ScopeId) (e : Entry) : Prop
  /-- A class, or a name that is assigned to first. -/
  | object : e.kind.isType = false → e.type = .object → Declares v id e
  /-- A variable or a parameter. -/
  | slot : e.kind.isType = false → v.DeclaresVar id e.name e.type →
      e.type ∈ v.result.part.rescanned → Declares v id e
  | method (params : List Ty) : e.kind.isType = false →
      e.type = .function (some e.name) (some e.cName) params .object →
      (∀ ty ∈ params, ty ∈ v.result.part.rescanned) → e.type.pendings = [] → Declares v id e
  /-- A prototype or a function. -/
  | heading : id = v.scope → e.kind = .function →
      v.result.part.signature? = some ⟨.function, e.name, e.type⟩ → Declares v id e
  | forward {d : Forward} : v.part = .forward d → id = v.scope → e.name = d.tag → e.kind = .type →
      e.cName = (v.before.scope v.scope).linkageName .type d.name false →
      e.type = .aliased d.tag e.cName (d.target v.before.registry) →
      v.result.part = .forward { d with cName := e.cName, type := e.type } → Declares v id e
  | typeAlias {d : TypeAlias} : v.part = .typeAlias d → d.isTagAlias = false → id = v.scope →
      e.name = d.name → e.kind = .type →
      e.cName = (v.before.scope v.scope).linkageName .type d.name d.isExternal →
      e.type = .aliased d.name e.cName (Ty.resolve v.before.registry d.descriptor d.depth) →
      v.result.part = .typeAlias { d with cName := e.cName, type := e.type } → Declares v id e
  | aggregate {d : Aggregate} : v.part = .aggregate d → id = v.scope → e.name = d.name →
      e.kind = .aggregate →
      e.cName = d.typeName v.scope (v.before.addScope d.name .aggregate v.scope).2 →
      e.type = .aggregate d.kind d.name e.cName v.before.scopes.length → Declares v id e

/-- If the entry is a function or a method, the visit has made it with its node. -/
def Visit.Heads (v : Visit) (_ : ScopeId) (e : Entry) : Prop :=
  e.kind.isCallable = true → v.result.part.callable? = some e

/-- What becomes of an entry that a visit adds to the scopes. -/
def Visit.Makes (v : Visit) (id : ScopeId) (e : Entry) : Prop :=
  v.Declares id e ∧ v.Heads id e

namespace Visit

variable {v : Visit} {scope : ScopeId}

theorem heads_of_plain {id : ScopeId} {e : Entry} (h : e.kind.isCallable = false) :
    v.Heads id e := by
  intro hcallable
  rw [h] at hcallable
  cases hcallable

theorem adds_var {c : Checker} {d : Variable}
    (hok : (d.analyse scope c).error = none) (hscope : scope < c.scopes.length) :
    Adds (Makes ⟨scope, c, .var d⟩) c (d.analyse scope c).checker := by
  have hslot := declares_var hok hscope
  obtain ⟨type, value, c₁, c₂, entry, htype, hvalue, hentry, hdeclare, heq⟩ :=
    Variable.analyse_ok hok
  have htemps := Expr.analyseOptionInto_takesTemps type scope d.position d.value c
  rw [hvalue] at htemps
  have hresult : (Visit.mk scope c (.var d)).result.part.rescanned = [type] := by
    show [(d.analyse scope c).node.type] = _
    rw [heq]
    rfl
  rw [heq]
  refine (Adds.of_eq htemps.entryIn?_eq).trans ((Checker.adds_of_declare hdeclare).mono ?_)
  rintro id e ⟨rfl, rfl⟩
  rw [hentry]
  refine ⟨.slot (EntryKind.isType_ofVariable type) ?_ ?_,
    heads_of_plain (EntryKind.isCallable_ofVariable type)⟩
  · rw [← htype] at hslot
    exact hslot
  · rw [hresult]
    exact List.mem_singleton_self type

theorem adds_array {c : Checker} {d : ArrayVariable}
    (hok : (d.analyse scope c).error = none) (hscope : scope < c.scopes.length) :
    Adds (Makes ⟨scope, c, .array d⟩) c (d.analyse scope c).checker := by
  obtain ⟨size', hsize', hslot⟩ := declares_array hok hscope
  obtain ⟨size, initial, c₁, htemps, hsize, -, htype, hdeclare⟩ :=
    ArrayVariable.declare_of_analyse hok
  obtain rfl : size = size' := Option.some.inj (hsize.symm.trans hsize')
  have hresult : (Visit.mk scope c (.array d)).result.part.rescanned
      = [.array (Ty.resolve c.registry d.descriptor 0) size] := congrArg (fun ty => [ty]) htype
  refine (Adds.of_eq htemps.entryIn?_eq).trans ((Checker.adds_of_declare hdeclare).mono ?_)
  rintro id e ⟨rfl, rfl⟩
  refine ⟨.slot rfl hslot ?_, heads_of_plain rfl⟩
  rw [hresult]
  exact List.mem_singleton_self _

theorem adds_assign {c : Checker} {d : Assignment} (hok : (d.analyse scope c).error = none) :
    Adds (Makes ⟨scope, c, .assign d⟩) c (d.analyse scope c).checker := by
  obtain ⟨c₁, hdeclare, htemps⟩ := Assignment.declareTarget_of_analyse hok
  refine ((Assignment.adds_of_declareTarget hdeclare).mono ?_).trans (.of_eq htemps.entryIn?_eq)
  rintro id e ⟨hkind, htype⟩
  exact ⟨.object (hkind ▸ EntryKind.isType_ofVariable _) htype,
    heads_of_plain (hkind ▸ EntryKind.isCallable_ofVariable _)⟩

theorem adds_forward {c : Checker} {d : Forward} (hok : (d.analyse scope c).error = none) :
    Adds (Makes ⟨scope, c, .forward d⟩) c (d.analyse scope c).checker := by
  obtain ⟨c₁, hdeclare, heq⟩ := Outcome.ofDeclare_ok hok
  change d.analyse scope c = _ at heq
  have hresult : (Visit.mk scope c (.forward d)).result.part
      = .forward (d.analyse scope c).node := rfl
  rw [heq] at hresult ⊢
  refine (Checker.adds_of_declare hdeclare).mono ?_
  rintro id e ⟨rfl, rfl⟩
  exact ⟨.forward rfl rfl rfl rfl rfl rfl hresult, heads_of_plain rfl⟩

theorem adds_typeAlias {c : Checker} {d : TypeAlias} (hok : (d.analyse scope c).error = none) :
    Adds (Makes ⟨scope, c, .typeAlias d⟩) c (d.analyse scope c).checker := by
  have hresult : (Visit.mk scope c (.typeAlias d)).result.part
      = .typeAlias (d.analyse scope c).node := rfl
  cases htag : d.isTagAlias with
  | true =>
      refine .of_eq fun id name => ?_
      unfold TypeAlias.analyse
      rw [if_pos htag]
      rfl
  | false =>
      unfold TypeAlias.analyse at hok hresult ⊢
      rw [if_neg (by simp [htag])] at hok hresult ⊢
      obtain ⟨c₁, hdeclare, heq⟩ := Outcome.ofDeclare_ok hok
      rw [heq] at hresult ⊢
      intro id name e he
      rcases Checker.adds_of_declare hdeclare id name e he with hold | ⟨rfl, rfl⟩
      · exact .inl hold
      · exact .inr ⟨.typeAlias rfl htag rfl rfl rfl rfl rfl hresult, heads_of_plain rfl⟩

theorem adds_aggregate {c : Checker} {d : Aggregate} (hok : (d.declare scope c).error = none) :
    Adds (Makes ⟨scope, c, .aggregate d⟩) c (d.declare scope c).checker := by
  obtain ⟨type, c₁, c₂, entry, htype, hc₁, hentry, hdeclare, heq⟩ := Aggregate.declare_ok hok
  rw [heq]
  have hopen : ∀ id name, c₁.entryIn? id name = c.entryIn? id name := by
    intro id name
    rw [hc₁]
    exact c.entryIn?_pushScope rfl id name
  refine (Adds.of_eq hopen).trans ((Checker.adds_of_declare hdeclare).mono ?_)
  rintro id e ⟨rfl, rfl⟩
  rw [hentry, htype]
  exact ⟨.aggregate rfl rfl rfl rfl rfl rfl, heads_of_plain rfl⟩

theorem adds_prototype {c : Checker} {d : Prototype} (hok : (d.analyse scope c).error = none) :
    Adds (Makes ⟨scope, c, .prototype d⟩) c (d.analyse scope c).checker := by
  obtain ⟨params, c₁, c₂, entry, hparams, hentry, hdeclare, heq⟩ := Prototype.analyse_ok hok
  have hresult : (Visit.mk scope c (.prototype d)).result.part
      = .prototype (d.analyse scope c).node := rfl
  rw [heq] at hresult ⊢
  refine ((Parameter.adds_of_analyseAll hparams).mono ?_).trans
    ((Checker.adds_of_declare hdeclare).mono ?_)
  · -- the parameters of a prototype are declared nowhere
    rintro id e ⟨hdeclared, -⟩
    cases hdeclared
  · rintro id e ⟨rfl, rfl⟩
    rw [hentry] at hresult ⊢
    refine ⟨.heading rfl rfl ?_, fun _ => ?_⟩
    · rw [hresult]
      rfl
    · rw [hresult]
      rfl

/-- The parameters of a function or a method, in the scope that is opened for it. -/
theorem adds_params {inner : ScopeId} {written params : List Parameter} {c c₁ : Checker}
    (hanalyse : Parameter.analyseAll true inner written c = .ok params c₁)
    (hlen : inner < c.scopes.length)
    (hparam : ∀ p ∈ params, ∀ {name}, p.name = some name →
      v.DeclaresVar inner name (Ty.resolve c.registry p.descriptor p.depth))
    (hrescanned : ∀ p ∈ params, p.type ∈ v.result.part.rescanned) : Adds v.Makes c c₁ := by
  refine (Parameter.adds_of_analyseAll hanalyse).mono ?_
  rintro id e ⟨-, rfl, hkind, p, hp, hname, htype⟩
  have hdeclared := (Parameter.declared_of_analyseAll hanalyse hlen).2 p hp
  refine ⟨.slot (hkind ▸ EntryKind.isType_ofVariable _) ?_ (htype ▸ hrescanned p hp),
    heads_of_plain (hkind ▸ EntryKind.isCallable_ofVariable _)⟩
  rw [← htype, hdeclared.type_eq]
  exact hparam p hp hname

theorem adds_function {c : Checker} {d : Function}
    (hok : (d.enter scope c).error = none) (hscope : scope < c.scopes.length) :
    Adds (Makes ⟨scope, c, .function d⟩) c (d.enter scope c).checker := by
  have hparam (p : Parameter) (hp : p ∈ (d.enter scope c).node.params) {name : String}
      (hname : p.name = some name) := declares_functionParam hok hscope hp hname
  have hresult : (Visit.mk scope c (.function d)).result.part
      = .function (d.enter scope c).node := rfl
  have hentered := Function.enter_entered hok
  generalize (d.enter scope c).node = node at hentered hparam hresult
  generalize (d.enter scope c).checker = after at hentered ⊢
  have hopen : ∀ id name, (c.addScope d.name .function scope).2.entryIn? id name
      = c.entryIn? id name := c.entryIn?_pushScope rfl
  -- the parameters, in either case
  have hslots {c₁ : Checker} (hanalyse : Parameter.analyseAll true c.scopes.length d.params
      (c.addScope d.name .function scope).2 = .ok node.params c₁) :
      Adds (Makes ⟨scope, c, .function d⟩) c c₁ := by
    refine (Adds.of_eq hopen).trans (adds_params hanalyse
      (Checker.length_lt_of_edits_addScope .refl) hparam fun p hp => ?_)
    rw [hresult]
    exact List.mem_append_left _ (List.mem_map_of_mem hp)
  cases hentered with
  | @completes params c₁ returnType cName hanalyse _ _ =>
      exact (hslots hanalyse).trans (.of_eq (c₁.entryIn?_setReturnType _ _))
  | @declares params c₁ c₂ returnType entry hanalyse _ hentry hdeclare =>
      refine ((hslots hanalyse).trans (.of_eq (c₁.entryIn?_setReturnType _ _))).trans
        ((Checker.adds_of_declare hdeclare).mono ?_)
      rintro id e ⟨rfl, rfl⟩
      rw [hentry] at hresult ⊢
      refine ⟨.heading rfl rfl ?_, fun _ => ?_⟩
      · rw [hresult]
        rfl
      · rw [hresult]
        rfl

theorem adds_method {c : Checker} {d : Method} (hok : (d.enter scope c).error = none) :
    Adds (Makes ⟨scope, c, .method d⟩) c (d.enter scope c).checker := by
  have hnone := Method.pendings_params hok
  have hparam (p : Parameter) (hp : p ∈ (d.enter scope c).node.params) {name : String}
      (hname : p.name = some name) := declares_methodParam hok hp hname
  have hresult : (Visit.mk scope c (.method d)).result.part
      = .method (d.enter scope c).node := rfl
  obtain ⟨params, c₁, entry, hanalyse, hentry, hdeclare, hnode⟩ := Method.enter_ok hok
  rw [hnode] at hnone hparam hresult
  have hopen : ∀ id name, ((c.addScope d.name .function scope).2.setReturnType c.scopes.length
      (some .object)).entryIn? id name = c.entryIn? id name := by
    intro id name
    rw [Checker.entryIn?_setReturnType]
    exact c.entryIn?_pushScope rfl id name
  have hslots := adds_params (v := ⟨scope, c, .method d⟩) hanalyse
    (Checker.length_lt_of_edits_addScope (.single (.setReturnType _ _ _))) hparam
    fun p hp => hresult ▸ List.mem_map_of_mem hp
  refine ((Adds.of_eq hopen).trans hslots).trans ((Checker.adds_of_declare hdeclare).mono ?_)
  rintro id e ⟨rfl, rfl⟩
  rw [hentry] at hresult ⊢
  refine ⟨.method (Parameter.types params) rfl rfl (fun ty hty => hresult ▸ hty) ?_, fun _ => ?_⟩
  · show Ty.waitingIn true (Parameter.types params) ++ [] = []
    rw [List.append_nil]
    exact hnone
  · rw [hresult]
    rfl

theorem adds_classDef {c : Checker} {d : ClassDef} (hok : (d.enter scope c).error = none) :
    Adds (Makes ⟨scope, c, .classDef d⟩) c (d.enter scope c).checker := by
  obtain ⟨-, -, c₁, inner, hdeclare, hempty, -, heq⟩ := ClassDef.enter_ok hok
  rw [heq]
  refine ((Checker.adds_of_declare hdeclare).mono ?_).trans (.of_eq (c₁.entryIn?_pushScope hempty))
  rintro id e ⟨rfl, rfl⟩
  exact ⟨.object rfl rfl, heads_of_plain rfl⟩

/-- What a visit adds to the scopes, it declares; functions and methods it makes with its node. -/
theorem adds (hok : v.outcome.error = none) (hscope : v.scope < v.before.scopes.length) :
    Adds v.Makes v.before v.after := by
  obtain ⟨scope, c, p⟩ := v
  have htemps {c' : Checker} (h : TakesTemps scope c c') : Adds (Makes ⟨scope, c, p⟩) c c' :=
    .of_eq h.entryIn?_eq
  cases p with
  | var d => exact adds_var hok hscope
  | array d => exact adds_array hok hscope
  | assign d => exact adds_assign hok
  | ret d => exact htemps (Return.takesTemps_of_analyse hok)
  | print d => exact htemps (Print.analyseValues_takesTemps d.position scope d.values c)
  | evaluation d => exact htemps (d.value.analyse_takesTemps none scope c)
  | aggregate d => exact adds_aggregate hok
  | forward d => exact adds_forward hok
  | typeAlias d => exact adds_typeAlias hok
  | prototype d => exact adds_prototype hok
  | condition e => exact htemps (e.analyseCondition_takesTemps scope c)
  | count d => exact htemps (CountLoop.takesTemps_of_analyse hok)
  | function d => exact adds_function hok hscope
  | method d => exact adds_method hok
  | classDef d => exact adds_classDef hok

end Visit

/-- **Every entry that a run leaves was there before, or one of its visits declares it.** -/
theorem Run.exists_declares {c c' : Checker} {visits : List Visit} (h : Run c visits c')
    (hscope : ∀ v ∈ visits, v.scope < v.before.scopes.length) {id : ScopeId} {name : String}
    {e : Entry} (he : c'.entryIn? id name = some e) :
    c.entryIn? id name = some e
      ∨ ∃ vs v ws, visits = vs ++ v :: ws ∧ v.after.entryIn? id name = some e
        ∧ v.Declares id e ∧ v.Heads id e := by
  induction h with
  | done => exact .inl he
  | @step v rest c' hok hrest ih =>
      rcases ih (fun u hu => hscope u (List.mem_cons_of_mem v hu)) he with
        hafter | ⟨vs, u, ws, rfl, hu, hmakes⟩
      · rcases Visit.adds hok (hscope v List.mem_cons_self) id name e hafter with hbefore | hnew
        · exact .inl hbefore
        · exact .inr ⟨[], v, rest, rfl, hafter, hnew⟩
      · exact .inr ⟨v :: vs, u, ws, rfl, hu, hmakes⟩

end ExtensionCompiler

import ExtensionCompiler.C.Code
import ExtensionCompiler.Proofs.Hoisting
import ExtensionCompiler.Proofs.Sessions
import ExtensionCompiler.Proofs.Temporaries

set_option autoImplicit false

/-! # Generated names

The C names that are made, not given: those of entries are a lead for the kind with the source name
after it, those of temporaries have a number, and the receiver of a method has one of its own. No
lead begins another one, so a C name shows both the kind and the source name, whatever that is; and
the numbers of temporaries are given out once. So no two generated names of a scope are equal after
any session (`Session.runAll_namesApart`).

What a header provides keeps its name, and the C name of a type has that of its class in it. Both
can be anything, and nothing is said of them. -/

namespace ExtensionCompiler

/-! ## C names by their leads -/

namespace EntryKind

theorem lead_append_ne_tempName (k : EntryKind) (name : String) (n : Nat) :
    k.lead ++ name ≠ Checker.tempName n := by
  intro h
  rw [Checker.tempName, ← String.toList_inj, String.toList_append, String.toList_append] at h
  cases k <;> simp [lead] at h

theorem lead_append_ne_selfName (k : EntryKind) (name : String) :
    k.lead ++ name ≠ C.Params.selfName := by
  intro h
  rw [C.Params.selfName, ← String.toList_inj, String.toList_append] at h
  cases k <;> simp [lead] at h

end EntryKind

theorem Checker.tempName_ne_selfName (n : Nat) : tempName n ≠ C.Params.selfName := by
  intro h
  rw [tempName, C.Params.selfName, ← String.toList_inj, String.toList_append] at h
  simp at h

/-- Whether the C name of the entry is made from the kind and the source name alone. -/
def Entry.isGenerated (entry : Entry) : Bool := !entry.kind.isType && !entry.isExternal

theorem Entry.Linked.cName_of_isGenerated {entry : Entry} (h : entry.Linked)
    (hgenerated : entry.isGenerated = true) :
    entry.kind.isType = false ∧ entry.cName = entry.kind.lead ++ entry.name := by
  simp only [isGenerated, Bool.and_eq_true, Bool.not_eq_true'] at hgenerated
  refine ⟨hgenerated.1, ?_⟩
  rw [h hgenerated.1, hgenerated.2]
  rfl

/-! ## The names of a scope -/

namespace Scope

/-- The generated C names of the entries. -/
def generatedNames (s : Scope) : List String := (s.entries.filter Entry.isGenerated).map Entry.cName

/-- Entries have C names as they should, and no two have one name. -/
structure IsNamed (s : Scope) : Prop where
  linked : ∀ e ∈ s.entries, e.Linked
  distinct : (s.entries.map Entry.name).Nodup

namespace IsNamed

variable {s : Scope}

theorem of_nil (h : s.entries = []) : s.IsNamed where
  linked := by simp [h]
  distinct := by simp [h]

theorem append (h : s.IsNamed) {entry : Entry} (hlinked : entry.Linked)
    (hfree : entry.name ∉ s.entries.map Entry.name) :
    IsNamed { s with entries := s.entries ++ [entry] } where
  linked := by
    intro e he
    rcases List.mem_append.mp he with hold | hnew
    · exact h.linked e hold
    · rwa [List.mem_singleton.mp hnew]
  distinct := by
    rw [List.map_append, List.map_singleton, List.nodup_append_comm]
    exact List.nodup_cons.mpr ⟨hfree, h.distinct⟩

theorem setType (h : s.IsNamed) (name : String) (type : Ty) : (s.setType name type).IsNamed where
  linked := by
    intro e he
    obtain ⟨old, hold, rfl⟩ := List.mem_map.mp he
    split
    · exact h.linked old hold
    · exact h.linked old hold
  distinct := by
    have hnames : (s.setType name type).entries.map Entry.name = s.entries.map Entry.name := by
      rw [Scope.setType, List.map_map]
      refine List.map_congr_left fun e _ => ?_
      dsimp only [Function.comp]
      split <;> rfl
    rw [hnames]
    exact h.distinct

/-- Entries of one scope that have different names have different C names. -/
theorem nodup_generatedNames (h : s.IsNamed) : s.generatedNames.Nodup := by
  have hnames : (s.entries.filter Entry.isGenerated).Pairwise fun e e' => e.name ≠ e'.name :=
    (List.pairwise_map.mp h.distinct).sublist List.filter_sublist
  apply List.pairwise_map.mpr
  refine hnames.imp_of_mem ?_
  intro e e' he he' hne heq
  obtain ⟨hmem, hgenerated⟩ := List.mem_filter.mp he
  obtain ⟨hmem', hgenerated'⟩ := List.mem_filter.mp he'
  obtain ⟨hkind, hcName⟩ := (h.linked e hmem).cName_of_isGenerated hgenerated
  obtain ⟨hkind', hcName'⟩ := (h.linked e' hmem').cName_of_isGenerated hgenerated'
  rw [hcName, hcName'] at heq
  exact hne ((EntryKind.lead_append_inj hkind hkind').mp heq).1

theorem exists_lead_of_mem (h : s.IsNamed) {cName : String} (hmem : cName ∈ s.generatedNames) :
    ∃ (k : EntryKind) (name : String), cName = k.lead ++ name := by
  obtain ⟨e, he, rfl⟩ := List.mem_map.mp hmem
  obtain ⟨hentry, hgenerated⟩ := List.mem_filter.mp he
  exact ⟨e.kind, e.name, ((h.linked e hentry).cName_of_isGenerated hgenerated).2⟩

end IsNamed

end Scope

/-! ## The temporaries of all scopes -/

namespace Checker

/-- The names of the temporaries, scope by scope. -/
def tempNames (c : Checker) : List String := c.scopes.flatMap fun s => s.temps.map Prod.fst

/-- The temporaries are some of those with a number below the next one, each at most once. -/
structure TempsCounted (c : Checker) : Prop where
  nodup : c.tempNames.Nodup
  below : ∀ name ∈ c.tempNames, ∃ n < c.tempCount, name = tempName n

theorem tempNames_modifyScope (c : Checker) (id : ScopeId) {f : Scope → Scope}
    (hf : ∀ s, (f s).temps = s.temps) : (c.modifyScope id f).tempNames = c.tempNames := by
  unfold tempNames modifyScope
  dsimp only
  induction c.scopes generalizing id with
  | nil => cases id <;> rfl
  | cons s rest ih =>
      cases id with
      | zero => simp [hf]
      | succ id => simp [ih]

theorem tempNames_pushScope (c : Checker) {new : Scope} (hnew : new.temps = []) :
    (c.pushScope new).2.tempNames = c.tempNames := by
  simp [tempNames, pushScope, hnew]

/-- A new temporary stands somewhere among the old ones, if its scope is open. -/
theorem tempNames_allocateTemp (c : Checker) (id : ScopeId) (type : Ty) :
    (c.allocateTemp id type).2.tempNames.Perm
      (if id < c.scopes.length then tempName c.tempCount :: c.tempNames else c.tempNames) := by
  unfold tempNames allocateTemp modifyScope
  dsimp only
  generalize tempName c.tempCount = name
  induction c.scopes generalizing id with
  | nil => cases id <;> exact .refl _
  | cons s rest ih =>
      cases id with
      | zero => simp
      | succ id =>
          have hrest := (ih id).append_left (s.temps.map Prod.fst)
          by_cases hid : id < rest.length
          · rw [if_pos hid] at hrest
            simpa [hid] using hrest.trans List.perm_middle
          · rw [if_neg hid] at hrest
            simpa [hid] using hrest

namespace TempsCounted

variable {c : Checker}

theorem of_eq (h : c.TempsCounted) {c' : Checker} (hnames : c'.tempNames = c.tempNames)
    (hcount : c'.tempCount = c.tempCount) : c'.TempsCounted where
  nodup := hnames ▸ h.nodup
  below := by rw [hnames, hcount]; exact h.below

theorem tempName_notMem (h : c.TempsCounted) {n : Nat} (hn : c.tempCount ≤ n) :
    tempName n ∉ c.tempNames := by
  intro hmem
  obtain ⟨m, hm, heq⟩ := h.below _ hmem
  have := tempName_injective heq
  omega

theorem allocateTemp (h : c.TempsCounted) (id : ScopeId) (type : Ty) :
    (c.allocateTemp id type).2.TempsCounted := by
  have hperm := c.tempNames_allocateTemp id type
  have hcount : (c.allocateTemp id type).2.tempCount = c.tempCount + 1 := rfl
  by_cases hid : id < c.scopes.length
  · rw [if_pos hid] at hperm
    refine ⟨hperm.nodup_iff.mpr (List.nodup_cons.mpr ⟨h.tempName_notMem (Nat.le_refl _), h.nodup⟩),
      ?_⟩
    intro name hname
    rw [hcount]
    rcases List.mem_cons.mp (hperm.mem_iff.mp hname) with rfl | hold
    · exact ⟨c.tempCount, by omega, rfl⟩
    · obtain ⟨n, hn, rfl⟩ := h.below name hold
      exact ⟨n, by omega, rfl⟩
  · rw [if_neg hid] at hperm
    refine ⟨hperm.nodup_iff.mpr h.nodup, ?_⟩
    intro name hname
    obtain ⟨n, hn, rfl⟩ := h.below name (hperm.mem_iff.mp hname)
    exact ⟨n, by rw [hcount]; omega, rfl⟩

end TempsCounted

/-! ## What one operation keeps -/

/-- Every scope is named, and the temporaries are counted. -/
structure AllNamed (c : Checker) : Prop where
  named : ∀ s ∈ c.scopes, s.IsNamed
  counted : c.TempsCounted

theorem allNamed_start (registry : Registry) : (start registry).AllNamed where
  named := by
    intro s hs
    rw [List.mem_singleton.mp hs]
    exact .of_nil rfl
  counted := ⟨List.nodup_nil, List.forall_mem_nil _⟩

theorem AllNamed.pushScope {c : Checker} (h : c.AllNamed) {new : Scope}
    (hentries : new.entries = []) (htemps : new.temps = []) : (c.pushScope new).2.AllNamed where
  named := by
    intro s hs
    rcases List.mem_append.mp hs with hold | hnew
    · exact h.named s hold
    · rw [List.mem_singleton.mp hnew]
      exact .of_nil hentries
  counted := h.counted.of_eq (c.tempNames_pushScope htemps) rfl

/-- It is enough to look at the one scope that has changed. -/
theorem named_modifyScope {c : Checker} (h : ∀ s ∈ c.scopes, s.IsNamed) {id : ScopeId}
    {f : Scope → Scope} (hf : ∀ s, c.scopes[id]? = some s → s.IsNamed → (f s).IsNamed) :
    ∀ s ∈ (c.modifyScope id f).scopes, s.IsNamed := by
  intro s hs
  rcases mem_modifyScope hs with hold | ⟨old, hold, rfl⟩
  · exact h s hold
  · exact hf old hold (h old (List.mem_of_getElem? hold))

end Checker

namespace Session

theorem Declaration.linked_entry (d : Declaration) (scope : Scope) : (d.entry scope).Linked := by
  cases d with
  | var name type isExternal position => exact scope.linked_variableEntry _ _ _ _
  | array name type initial isExternal position => exact scope.linked_arrayEntry _ _ _ _ _
  | typeName name type isExternal position => exact scope.linked_typeEntry _ _ _ _
  | aggregate name type isExternal position => exact scope.linked_aggregateEntry _ _ _ _
  | function kind name params result isExternal position =>
      exact scope.linked_functionEntry _ _ _ _ _ _
  | classHandle name position => exact scope.linked_classEntry _ _

namespace Op

theorem allNamed_run (op : Op) {c : Checker} (h : c.AllNamed) : (op.run c).2.AllNamed := by
  cases op with
  | addScope name kind parent | addClassScope className classCName parent =>
      exact h.pushScope rfl rfl
  | declare id d =>
      rw [run_declare]
      by_cases htaken : d.name ∈ (c.scope id).entries.map Entry.name
      · rwa [if_pos htaken]
      · rw [if_neg htaken]
        refine ⟨Checker.named_modifyScope h.named ?_,
          h.counted.of_eq (c.tempNames_modifyScope id fun _ => rfl) rfl⟩
        intro s hs hnamed
        rw [Checker.scope_eq_of_getElem? hs] at htaken
        exact hnamed.append (d.linked_entry s) (by rwa [Declaration.name_entry])
  | setType id name type =>
      exact ⟨Checker.named_modifyScope h.named fun s _ hnamed => hnamed.setType name type,
        h.counted.of_eq (c.tempNames_modifyScope id fun _ => rfl) rfl⟩
  | allocateTemp id type =>
      refine ⟨?_, h.counted.allocateTemp id type⟩
      show ∀ s ∈ (c.modifyScope id _).scopes, s.IsNamed
      exact Checker.named_modifyScope h.named fun s _ hnamed => ⟨hnamed.linked, hnamed.distinct⟩

/-- What every operation keeps is kept by a session. -/
theorem allNamed_runAll (ops : List Op) {c : Checker} (h : c.AllNamed) :
    (runAll ops c).2.AllNamed := by
  induction ops generalizing c with
  | nil => exact h
  | cons op ops ih => exact ih (op.allNamed_run h)

end Op

end Session

/-! ## Names apart -/

namespace Checker

/-- In every scope, the generated names of entries, the temporaries of all scopes and the name of
the receiver are all different, and the temporaries that are still to come are different from them.
-/
structure NamesApart (c : Checker) : Prop where
  nodup : ∀ s ∈ c.scopes, (s.generatedNames ++ c.tempNames ++ [C.Params.selfName]).Nodup
  fresh : ∀ s ∈ c.scopes, ∀ n, c.tempCount ≤ n →
    tempName n ∉ s.generatedNames ++ c.tempNames ++ [C.Params.selfName]

theorem AllNamed.namesApart {c : Checker} (h : c.AllNamed) : c.NamesApart where
  nodup := by
    intro s hs
    have hnamed := h.named s hs
    have hself : C.Params.selfName ∉ s.generatedNames ++ c.tempNames := by
      intro hmem
      rcases List.mem_append.mp hmem with hentry | htemp
      · obtain ⟨k, name, heq⟩ := hnamed.exists_lead_of_mem hentry
        exact k.lead_append_ne_selfName name heq.symm
      · obtain ⟨n, _, heq⟩ := h.counted.below _ htemp
        exact tempName_ne_selfName n heq.symm
    have hdisjoint : s.generatedNames.Disjoint c.tempNames := by
      intro cName hentry htemp
      obtain ⟨k, name, rfl⟩ := hnamed.exists_lead_of_mem hentry
      obtain ⟨n, _, heq⟩ := h.counted.below _ htemp
      exact k.lead_append_ne_tempName name n heq
    rw [List.nodup_append_comm]
    exact List.nodup_cons.mpr
      ⟨hself, hnamed.nodup_generatedNames.append h.counted.nodup hdisjoint⟩
  fresh := by
    intro s hs n hn hmem
    rcases List.mem_append.mp hmem with hold | hself
    · rcases List.mem_append.mp hold with hentry | htemp
      · obtain ⟨k, name, heq⟩ := (h.named s hs).exists_lead_of_mem hentry
        exact k.lead_append_ne_tempName name n heq.symm
      · exact h.counted.tempName_notMem hn htemp
    · exact tempName_ne_selfName n (List.mem_singleton.mp hself)

end Checker

namespace Session

/-- **Generated names are apart in every scope after any session.** -/
theorem runAll_namesApart (registry : Registry) (ops : List Op) :
    (Op.runAll ops (.start registry)).2.NamesApart :=
  (Op.allNamed_runAll ops (Checker.allNamed_start registry)).namesApart

/-- A session with names that look like parts of generated ones, and two scopes that take
temporaries in turn. -/
def lookalikes : List Op :=
  let here := Position.unknown
  [.declare Checker.global (.function .method "x" [] .object false here),
    .declare Checker.global (.function .function "f_x" [] .void false here),
    .addScope "run" .function Checker.global,
    .allocateTemp 1 .object,
    .declare 1 (.var "" (.primitive .int) false here),
    .declare 1 (.var "tmp_0" (.pointer .object 1) false here),
    .setType 1 "tmp_0" (.primitive .int),
    .declare 1 (.var "__extc_tmp_0" (.primitive .int) true here),
    .allocateTemp Checker.global .object,
    .allocateTemp 1 .object]

/-- The names of the function in it. What a header provides is not among them, though it has the
name of a temporary. -/
theorem lookalikes_namesApart :
    ((Op.runAll lookalikes (.start .empty)).2.scope 1).generatedNames
          = ["__extc_v_", "__extc_ptr_tmp_0"]
      ∧ ((Op.runAll lookalikes (.start .empty)).2.scope Checker.global).generatedNames
          = ["__extc_f_x", "__extc_c_f_f_x"]
      ∧ (Op.runAll lookalikes (.start .empty)).2.tempNames
          = ["__extc_tmp_1", "__extc_tmp_0", "__extc_tmp_2"]
      ∧ ((Op.runAll lookalikes (.start .empty)).2.find? 1 "__extc_tmp_0").map Entry.cName
          = some "__extc_tmp_0"
      ∧ (Op.runAll lookalikes (.start .empty)).2.NamesApart :=
  ⟨by decide +kernel, by decide +kernel, by decide +kernel, by decide +kernel,
    runAll_namesApart .empty lookalikes⟩

end Session

end ExtensionCompiler

import ExtensionCompiler.Proofs.GeneratedNames
import ExtensionCompiler.Proofs.Typedefs

set_option autoImplicit false

/-! # Local variables

A function declares the variables and the temporaries of its scope at the top of its body. Their
names in C are generated, so no two are equal and none is a parameter that the host passes
(`Passes.isApart_declarations`).

The second pass changes types only, so an entry that a visit has made is the same in the end, but
for its type (`Passes.entryIn?_of_visit`). -/

namespace ExtensionCompiler

/-! ## Names through both passes -/

namespace Checker

theorem Edit.allNamed {b : Bool} {c c' : Checker} (h : Edit b c c') (hc : c.AllNamed) :
    c'.AllNamed := by
  cases h with
  | temp id =>
      refine ⟨?_, hc.counted.allocateTemp id .object⟩
      show ∀ s ∈ (c.modifyScope id _).scopes, s.IsNamed
      exact named_modifyScope hc.named fun s _ hnamed => ⟨hnamed.linked, hnamed.distinct⟩
  | @declare _ id entry hdeclare hlinked =>
      rw [declare_eq_ite] at hdeclare
      by_cases htaken : entry.name ∈ (c.scope id).entries.map Entry.name
      · rw [if_pos htaken] at hdeclare
        cases hdeclare
      · rw [if_neg htaken] at hdeclare
        cases hdeclare
        refine ⟨named_modifyScope hc.named ?_,
          hc.counted.of_eq (c.tempNames_modifyScope id fun _ => rfl) rfl⟩
        intro s hs hnamed
        rw [scope_eq_of_getElem? hs] at htaken
        exact hnamed.append hlinked htaken
  | pushScope scope hentries htemps => exact hc.pushScope hentries htemps
  | setReturnType id type =>
      exact ⟨named_modifyScope hc.named fun s _ hnamed => ⟨hnamed.linked, hnamed.distinct⟩,
        hc.counted.of_eq (c.tempNames_modifyScope id fun _ => rfl) rfl⟩
  | register name type position _ _ => exact ⟨hc.named, hc.counted.of_eq rfl rfl⟩

theorem Edits.allNamed {b : Bool} {c c' : Checker} (h : Edits b c c') (hc : c.AllNamed) :
    c'.AllNamed :=
  h.invariant Edit.allNamed hc

end Checker

namespace Scope

/-- The names in C of the local variables and the temporaries. -/
def localNames (s : Scope) : List String :=
  (s.entries.filter fun e => e.isLocal []).map Entry.cName ++ s.temps.map Prod.fst

theorem names_declarations (s : Scope) (skip : List String) (storage : String) :
    ((s.declarations skip storage).map C.Declaration.name).Sublist s.localNames := by
  rw [declarations, localNames, List.map_append, List.map_map, List.map_map]
  refine List.Sublist.append ?_ (List.Sublist.refl _)
  refine (List.monotone_filter_right s.entries fun e he => ?_).map Entry.cName
  simp only [Entry.isLocal, Bool.and_eq_true] at he ⊢
  exact ⟨he.1, rfl⟩

theorem localNames_untyped (s : Scope) : s.untyped.localNames = s.localNames := by
  rw [localNames, localNames, untyped, List.filter_map, List.map_map]
  rfl

/-- The names are distinct, and made by the generator. -/
structure IsApart (names : List String) : Prop where
  nodup : names.Nodup
  generated : ∀ name ∈ names, (∃ (k : EntryKind) (source : String), name = k.lead ++ source)
    ∨ ∃ n, name = Checker.tempName n

theorem IsApart.sublist {names names' : List String} (h : IsApart names')
    (hsub : names.Sublist names') : IsApart names where
  nodup := h.nodup.sublist hsub
  generated name hname := h.generated name (hsub.subset hname)

theorem IsApart.notMem {names : List String} (h : IsApart names) {name : String}
    (hname : name.toList.head? ≠ some '_') : name ∉ names := by
  intro hmem
  rcases h.generated name hmem with ⟨k, source, rfl⟩ | ⟨n, rfl⟩
  · apply hname
    rw [String.toList_append]
    cases k <;> rfl
  · exact Checker.tempName_ne hname n rfl

end Scope

theorem Entry.isGenerated_of_isLocal {e : Entry} (h : e.isLocal [] = true) :
    e.isGenerated = true := by
  simp only [isLocal, Bool.and_eq_true] at h
  have hkind : e.kind.isType = false := by
    cases hk : e.kind <;> simp_all [EntryKind.isStorage, EntryKind.isType]
  simp [isGenerated, hkind, h.1.2]

theorem Checker.AllNamed.isApart {c : Checker} (h : c.AllNamed) {s : Scope} (hs : s ∈ c.scopes) :
    Scope.IsApart s.localNames := by
  have hnamed := h.named s hs
  have hlocals : ((s.entries.filter fun e => e.isLocal []).map Entry.cName).Sublist
      s.generatedNames :=
    (List.monotone_filter_right s.entries fun _ => Entry.isGenerated_of_isLocal).map Entry.cName
  have htemps : (s.temps.map Prod.fst).Sublist c.tempNames := by
    obtain ⟨before, after, heq⟩ := List.append_of_mem hs
    rw [tempNames, heq, List.flatMap_append, List.flatMap_cons]
    exact (List.sublist_append_left _ _).trans (List.sublist_append_right _ _)
  refine ⟨?_, ?_⟩
  · have hall := (List.nodup_append.mp (h.namesApart.nodup s hs)).1
    exact hall.sublist (hlocals.append htemps)
  · intro name hname
    rcases List.mem_append.mp hname with hentry | htemp
    · exact .inl (hnamed.exists_lead_of_mem (hlocals.subset hentry))
    · obtain ⟨n, -, heq⟩ := h.counted.below name (htemps.subset htemp)
      exact .inr ⟨n, heq⟩

namespace Passes

variable {unit : List Stmt} {registry : Registry} {checked : Checked} {visits : List Visit}
  {middle : Checker}

variable (h : Passes unit registry checked visits middle)
include h

/-- The names of local variables are distinct and generated in every scope of a checked unit. -/
theorem isApart_declarations (id : ScopeId) (skip : List String) (storage : String) :
    Scope.IsApart (((checked.checker.scope id).declarations skip storage).map
      C.Declaration.name) := by
  refine Scope.IsApart.sublist ?_ (Scope.names_declarations _ skip storage)
  rcases checked.checker.scope_mem_or_eq id with hmem | hglobal
  · obtain ⟨s, hs, heq⟩ := h.retyped.mem hmem
    rw [← Scope.localNames_untyped, heq, Scope.localNames_untyped]
    exact (h.run.edits.allNamed (Checker.allNamed_start registry)).isApart hs
  · rw [hglobal]
    exact ⟨List.nodup_nil, List.forall_mem_nil _⟩

/-! ## Entries through both passes -/

/-- An entry that was there before the second pass is there after it, with another type perhaps. -/
theorem entryIn?_of_middle {id : ScopeId}
    {name : String} {entry : Entry} (hentry : middle.entryIn? id name = some entry) :
    ∃ type, checked.checker.entryIn? id name = some { entry with type } := by
  obtain ⟨s, hs, hget⟩ := Checker.entryIn?_eq_some_iff.mp hentry
  have hscope := h.retyped.getElem? id
  rw [hs, Option.map_some, Option.map_eq_some_iff] at hscope
  obtain ⟨s', hs', heq⟩ := hscope
  have hmem : { entry with type := .void } ∈ s'.untyped.entries := by
    rw [heq]
    exact List.mem_map_of_mem (Scope.mem_of_get? hget)
  obtain ⟨e, he, hsame⟩ := List.mem_map.mp hmem
  have hentry' : e = { entry with type := e.type } := by
    cases e
    cases entry
    cases hsame
    rfl
  have hsource : e.name = entry.name := (Entry.mk.inj hsame).1
  have hname : e.name = name := hsource.trans (Scope.name_of_get? hget)
  refine ⟨e.type, ?_⟩
  rw [← hentry', ← hname]
  exact h.tidy.entryIn?_of_mem hs' he

/-- What a visit has declared is there in the end. -/
theorem entryIn?_of_visit {x : Revisit} (hx : x ∈ Visit.revisits visits middle) {id : ScopeId}
    {name : String} {entry : Entry} (hentry : x.visit.after.entryIn? id name = some entry) :
    ∃ type, checked.checker.entryIn? id name = some { entry with type } := by
  obtain ⟨-, -, -, rest, hrest, -, -⟩ := h.run.at_revisit middle hx
  exact h.entryIn?_of_middle (hrest.grows.entryIn? hentry)

end Passes

/-! ## The variables of parameters -/

namespace Parameter

/-- The scope has a local variable for the parameter if this has a name. -/
def Bound (p : Parameter) (scope : ScopeId) (c : Checker) : Prop :=
  ∀ name ∈ p.name, ∃ entry, c.entryIn? scope name = some entry ∧ entry.isLocal [] = true
    ∧ entry.kind ≠ .array ∧ entry.cName = p.cName

variable {scope : ScopeId} {c c' : Checker}

theorem Bound.grows {p : Parameter} (h : p.Bound scope c) (hc : c.Grows c') : p.Bound scope c' := by
  intro name hname
  obtain ⟨entry, hentry, hrest⟩ := h name hname
  exact ⟨entry, hc.entryIn? hentry, hrest⟩

theorem bound_of_analyse {p p' : Parameter} (h : analyse true scope p c = .ok p' c')
    (hscope : scope < c.scopes.length) : p'.Bound scope c' := by
  unfold analyse at h
  dsimp only at h
  split at h
  · rename_i name hname
    obtain ⟨c₂, hdeclare, hok⟩ := Outcome.ofDeclare_ok (congrArg Outcome.error h)
    rw [hok] at h
    cases h
    intro n hn
    cases hname.symm.trans hn
    refine ⟨_, Checker.entryIn?_of_declare hdeclare hscope, ?_, ?_, rfl⟩
    · simp only [Entry.isLocal, Scope.variableEntry, EntryKind.ofVariable]
      split <;> rfl
    · simp only [Scope.variableEntry, EntryKind.ofVariable]
      split <;> decide
  · rename_i hnone
    cases h
    exact fun n hn => absurd hn (hnone n rfl)

theorem bound_of_analyseAll {params params' : List Parameter}
    (h : analyseAll true scope params c = .ok params' c') (hscope : scope < c.scopes.length) :
    ∀ p ∈ params', p.Bound scope c' := by
  induction params generalizing params' c c' with
  | nil =>
      cases h
      exact List.forall_mem_nil _
  | cons q rest ih =>
      obtain ⟨first, c₁, others, hfirst, hothers, rfl, hstep, hlater⟩ := analyseAll_cons_ok h
      have hlength := Nat.lt_of_lt_of_le hscope hstep.grows.length_le
      exact List.forall_mem_cons.mpr
        ⟨(bound_of_analyse hfirst hscope).grows hlater.grows, ih hothers hlength⟩

end Parameter

end ExtensionCompiler

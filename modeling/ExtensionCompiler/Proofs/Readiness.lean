import ExtensionCompiler.Proofs.Rescanned

set_option autoImplicit false

/-! # Parts that are ready to be settled

What the node of a part waits for after analysis comes from the names that the part mentions alone
(`Visit.mem_pendings_rescanned`). A visit is `Ready` in a state of the second pass if all of that is
settled there. Its revisit then leaves every entry of the scopes alone or gives it a type without
pending names (`Visit.Ready.cleans`), and none of the entries that the visit has declared is left
waiting (`Visit.Declares.settled`). -/

namespace ExtensionCompiler

/-! ## What a node waits for -/

/-- The name is one that the part mentions, or the meaning of one waits for it. -/
def Part.WaitsFor (p : Part) (registry : Registry) (m : String) : Prop :=
  ∃ name ∈ p.mentions, m = name ∨ m ∈ (registry.meaning name).pendings

theorem Part.waitsFor_of_resolve {p : Part} {registry : Registry} {d : Descriptor} {depth : Nat}
    (hmentions : ∀ name ∈ d.mentions, name ∈ p.mentions) :
    ∀ m ∈ (Ty.resolve registry d depth).pendings, p.WaitsFor registry m := by
  intro m hm
  rw [Ty.pendings_resolve] at hm
  obtain ⟨name, hname, hwaits⟩ := List.mem_flatMap.mp hm
  exact ⟨name, hmentions name hname, .inr hwaits⟩

/-- What the node of a visit waits for comes from the names that its part mentions. -/
theorem Visit.mem_pendings_rescanned {v : Visit} (hok : v.outcome.error = none) {ty : Ty}
    (hty : ty ∈ v.result.part.rescanned) {m : String} (hm : m ∈ ty.pendings) :
    v.part.WaitsFor v.before.registry m := by
  cases resolves_of_mem_rescanned hok hty with
  | announced hname => exact ⟨_, hname, .inl (List.mem_singleton.mp hm)⟩
  | written hmentions | array hmentions | aliased hmentions _ =>
      exact Part.waitsFor_of_resolve hmentions m hm

/-- A function waits for what the types in its heading wait for. -/
theorem Ty.mem_pendings_function {fname cName : Option String} {params : List Ty} {result : Ty}
    {m : String} : m ∈ (function fname cName params result).pendings
      ↔ ∃ ty ∈ params ++ [result], m ∈ ty.pendings := by
  rw [pendings, waiting, waitingIn_eq_flatMap, List.mem_append, List.mem_flatMap]
  simp only [List.mem_append, List.mem_singleton, or_and_right, exists_or, exists_eq_left]

/-- What the signature of a node waits for is among what the second pass rescans. -/
theorem Part.mem_pendings_of_signature? {p : Part} {kind : EntryKind} {name : String} {type : Ty}
    (hs : p.signature? = some ⟨kind, name, type⟩) {m : String} (hm : m ∈ type.pendings) :
    ∃ ty ∈ p.rescanned, m ∈ ty.pendings := by
  rcases signature?_form hs with hself | ⟨fname, cName, params, result, rfl, hmem⟩
  · exact ⟨type, hself, hm⟩
  · obtain ⟨ty, hty, hwaits⟩ := Ty.mem_pendings_function.mp hm
    exact ⟨ty, hmem ty hty, hwaits⟩

/-! ## Settling with what is settled -/

/-- Every name keeps its type, or gets one that waits for nothing. -/
abbrev Checker.Cleans (c c' : Checker) : Prop := c.Gives (fun ty => ty.pendings = []) c'

/-- If all that a part waits for is settled, settling it leaves nothing new to wait for. -/
theorem Part.cleans_rescan (p : Part) (scope : ScopeId) (c : Checker)
    (h : ∀ ty ∈ p.rescanned, ∀ m ∈ ty.pendings, c.registry.Settled m) :
    c.Cleans (p.rescan scope c).2 := by
  refine p.gives_rescan scope c (fun fname cName types result htypes hresult => ?_) ?_ ?_
  · refine List.eq_nil_iff_forall_not_mem.mpr fun m hm => ?_
    obtain ⟨ty, hty, hwaits⟩ := Ty.mem_pendings_function.mp hm
    have hnil : ty.pendings = [] := by
      rcases List.mem_append.mp hty with hparam | hlast
      · exact htypes ty hparam
      · rw [List.mem_singleton.mp hlast]
        exact hresult
    rw [hnil] at hwaits
    cases hwaits
  · rintro d rfl
    exact h _ (List.mem_singleton_self _) d.name (List.mem_singleton_self _)
  · intro ty hty
    have hnil : (ty.rescan c.registry).pendings = [] :=
      Registry.pendings_rescan_eq_nil_iff.mpr (h ty hty)
    refine ⟨hnil, ?_⟩
    rw [Ty.pendings, Ty.settle, Ty.waiting_rescan_if, ← Ty.waiting_rescan]
    exact hnil

/-! ## Visits that are ready -/

namespace Visit

/-- All that the part of the visit mentions is settled, and was waiting for settled names only. -/
def Ready (v : Visit) (r : Checker) : Prop :=
  ∀ m, v.part.WaitsFor v.before.registry m → r.registry.Settled m

variable {v : Visit} {r : Checker}

theorem Ready.settled (h : v.Ready r) (hok : v.outcome.error = none) {ty : Ty}
    (hty : ty ∈ v.result.part.rescanned) : ∀ m ∈ ty.pendings, r.registry.Settled m :=
  fun m hm => h m (mem_pendings_rescanned hok hty hm)

theorem Ready.cleans (h : v.Ready r) (hok : v.outcome.error = none) :
    r.Cleans (v.settle r).2 :=
  Part.cleans_rescan v.result.part v.scope r fun _ hty => h.settled hok hty

/-- The revisit gives a node's type to the entry of the node. -/
theorem Ready.settled_signature (h : v.Ready r) (hok : v.outcome.error = none) {kind : EntryKind}
    {name : String} {type : Ty} (hs : v.result.part.signature? = some ⟨kind, name, type⟩)
    (hne : type.pendings ≠ []) (hthere : (r.typeIn? v.scope name).isSome) :
    ∃ ty, (v.settle r).2.typeIn? v.scope name = some ty ∧ ty.pendings = [] := by
  obtain ⟨settled, -, hwaiting, hgiven⟩ :=
    Part.signature?_rescan v.scope r hs (isEntered_result hok)
  refine ⟨settled, hgiven (.inr hne) hthere, ?_⟩
  rw [Ty.pendings, hwaiting, List.flatMap_eq_nil_iff]
  intro m hm
  obtain ⟨ty, hty, hwaits⟩ := Part.mem_pendings_of_signature? hs hm
  exact h.settled hok hty m hwaits

/-- An entry that a visit has declared waits for nothing, or it does not after the revisit. -/
theorem Declares.settled {id : ScopeId} {e : Entry} (h : v.Declares id e)
    (hok : v.outcome.error = none) (hready : v.Ready r) (hthere : (r.typeIn? id e.name).isSome) :
    e.type.pendings = []
      ∨ ∃ ty, (v.settle r).2.typeIn? id e.name = some ty ∧ ty.pendings = [] := by
  by_cases hnil : e.type.pendings = []
  · exact .inl hnil
  · right
    cases h with
    | object _ htype | aggregate _ _ _ _ _ htype =>
        rw [htype] at hnil
        exact absurd rfl hnil
    | method _ _ _ _ htype => exact absurd htype hnil
    | slot _ hvar hty =>
        have hpending : e.type.pending?.isSome = true := by
          rw [Option.isSome_iff_ne_none]
          exact fun hnone => hnil (Ty.noPending_iff.mp hnone)
        refine ⟨e.type.rescan r.registry, ?_, ?_⟩
        · rw [hvar.settle r hthere, if_pos hpending]
        · exact Registry.pendings_rescan_eq_nil_iff.mpr (hready.settled hok hty)
    | heading hid _ hs =>
        subst hid
        exact hready.settled_signature hok hs hnil hthere
    | @typeAlias d _ htag hid hname _ _ _ hresult =>
        subst hid
        have hs : v.result.part.signature? = some ⟨.type, e.name, e.type⟩ := by
          rw [hresult, Part.signature?, hname, if_neg]
          show ¬ d.isTagAlias = true
          rw [htag]
          exact Bool.false_ne_true
        exact hready.settled_signature hok hs hnil hthere
    | @forward d hpart hid hname _ _ _ hresult =>
        subst hid
        refine ⟨.aliased d.tag e.cName (r.registry.meaning d.name), ?_, ?_⟩
        · show (v.result.part.rescan v.scope r).2.typeIn? v.scope e.name = _
          rw [hresult, hname]
          rw [hname] at hthere
          exact Checker.typeIn?_setType_self hthere _
        · refine hready d.name ⟨d.name, ?_, .inl rfl⟩
          rw [hpart]
          exact List.mem_singleton_self _

end Visit

end ExtensionCompiler

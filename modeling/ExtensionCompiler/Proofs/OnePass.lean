import ExtensionCompiler.Proofs.Readiness

set_option autoImplicit false

/-! # One settling pass is enough

The second pass looks every pending name up once, in the order of the source, and there is no third.
`Stmt.MentionsIntroduced` says when that is enough: every name of a type that is mentioned has one
introduction, by a structure or union anywhere in the unit or by an alias before the mention.

The proof follows the registry. In the first pass an alias may come to wait for structures that have
not been met, but for nothing else, since the aliases it mentions have been met
(`Run.sure_of_mentions`). So when the second pass begins, all that anything waits for is settled
(`Visit.Due`), and every part is ready when its turn comes (`Run.ready`). -/

namespace ExtensionCompiler

/-! ## Introductions -/

namespace Part

/-- The name that a part introduces as a structure or union. -/
def structureName? : Part → Option String
  | .aggregate d => some d.name
  | _ => none

/-- The name that a part introduces as an alias. -/
def aliasName? : Part → Option String
  | .typeAlias d => if d.isTagAlias then none else some d.name
  | _ => none

theorem typeName?_of_structureName? {p : Part} {name : String}
    (h : p.structureName? = some name) : p.typeName? = some name := by
  cases p with
  | aggregate d => exact h
  | _ => cases h

theorem typeName?_of_aliasName? {p : Part} {name : String} (h : p.aliasName? = some name) :
    p.typeName? = some name := by
  cases p with
  | typeAlias d => exact h
  | _ => cases h

end Part

namespace Stmt

/-- The name is introduced exactly once in the unit: by a structure or union anywhere, or by an
alias among the first `i` parts. -/
def IntroducedBefore (unit : List Stmt) (i : Nat) (name : String) : Prop :=
  (typeNames unit).count name = 1
    ∧ (name ∈ (headsAll unit).filterMap Part.structureName?
      ∨ name ∈ ((headsAll unit).take i).filterMap Part.aliasName?)

/-- Every name of a type that a part of the unit mentions is introduced exactly once, by a structure
or union anywhere in the unit or by an alias before the part. -/
def MentionsIntroduced (unit : List Stmt) : Prop :=
  ∀ i : Fin (headsAll unit).length, ∀ name ∈ ((headsAll unit).get i).mentions,
    IntroducedBefore unit i name

instance (unit : List Stmt) (i : Nat) (name : String) : Decidable (IntroducedBefore unit i name) :=
  inferInstanceAs (Decidable (_ ∧ (_ ∨ _)))

instance (unit : List Stmt) : Decidable (MentionsIntroduced unit) :=
  inferInstanceAs (Decidable (∀ i : Fin (headsAll unit).length,
    ∀ name ∈ ((headsAll unit).get i).mentions, IntroducedBefore unit i name))

/-- A structure or union introduces the name, and nothing else does. -/
def Sure (unit : List Stmt) (name : String) : Prop :=
  (typeNames unit).count name = 1 ∧ name ∈ (headsAll unit).filterMap Part.structureName?

theorem MentionsIntroduced.of_split {unit : List Stmt} (h : MentionsIntroduced unit)
    {before after : List Part} {p : Part} (hsplit : headsAll unit = before ++ p :: after)
    {name : String} (hname : name ∈ p.mentions) :
    (typeNames unit).count name = 1
      ∧ (Sure unit name ∨ name ∈ before.filterMap Part.typeName?) := by
  have hget : (headsAll unit)[before.length]? = some p := by
    rw [hsplit, List.getElem?_append_right (Nat.le_refl _), Nat.sub_self]
    rfl
  obtain ⟨hlt, hp⟩ := List.getElem?_eq_some_iff.mp hget
  have hmentions : name ∈ ((headsAll unit).get ⟨before.length, hlt⟩).mentions := by
    rw [List.get_eq_getElem, hp]
    exact hname
  obtain ⟨hcount, hintro⟩ := h ⟨before.length, hlt⟩ name hmentions
  refine ⟨hcount, hintro.imp (fun hmem => ⟨hcount, hmem⟩) fun hmem => ?_⟩
  have htake : (headsAll unit).take before.length = before := by
    rw [hsplit, List.take_left]
  rw [htake] at hmem
  obtain ⟨q, hq, hqname⟩ := List.mem_filterMap.mp hmem
  exact List.mem_filterMap.mpr ⟨q, hq, Part.typeName?_of_aliasName? hqname⟩

end Stmt

/-- A name that is introduced exactly once is introduced by one part. -/
theorem Part.eq_of_count_eq_one {parts : List Part} {name : String}
    (h : (parts.filterMap typeName?).count name = 1) {p q : Part} (hp : p ∈ parts) (hq : q ∈ parts)
    (hpname : p.typeName? = some name) (hqname : q.typeName? = some name) : q = p := by
  obtain ⟨before, after, rfl⟩ := List.append_of_mem hp
  rw [List.filterMap_append, List.filterMap_cons_some hpname, List.count_append,
    List.count_cons_self] at h
  -- no other part can have the name
  have hother {l : List Part} (hcount : (l.filterMap typeName?).count name = 0) : q ∉ l := by
    intro hmem
    exact List.count_eq_zero.mp hcount (List.mem_filterMap.mpr ⟨q, hmem, hqname⟩)
  rcases List.mem_append.mp hq with hbefore | htail
  · exact absurd hbefore (hother (by omega))
  · rcases List.mem_cons.mp htail with heq | hafter
    · exact heq
    · exact absurd hafter (hother (by omega))

/-! ## The first pass -/

namespace Registry

/-- Every name stands for itself, or for a type that waits for names of which `P` holds. -/
def WaitsOnly (P : String → Prop) (registry : Registry) : Prop :=
  ∀ n, registry.meaning n = .pending n ∨ ∀ m ∈ (registry.meaning n).pendings, P m

variable {P : String → Prop} {registry : Registry}

theorem WaitsOnly.pendings (h : registry.WaitsOnly P) {name : String}
    (hname : P name ∨ registry.Names name) : ∀ m ∈ (registry.meaning name).pendings, P m := by
  rcases h name with hself | hwaits
  · intro m hm
    rcases hname with hP | hnames
    · rw [hself] at hm
      rwa [List.mem_singleton.mp hm]
    · rw [Names, hself] at hnames
      cases hnames
  · exact hwaits

theorem WaitsOnly.register (h : registry.WaitsOnly P) (name : String) {type : Ty}
    (htype : ∀ m ∈ type.pendings, P m) (position : Position) :
    (registry.register name type position).WaitsOnly P := by
  intro n
  rw [meaning_register]
  split
  · exact .inr htype
  · exact h n

end Registry

namespace Visit

/-- What a visit binds a name to waits for what the names that its part mentions wait for. -/
theorem Introduces.mem_pendings {v : Visit} {name : String} {type : Ty} {position : Position}
    (h : v.Introduces name type position) (hok : v.outcome.error = none)
    (hname : v.part.typeName? = some name) {m : String} (hm : m ∈ type.pendings) :
    ∃ key ∈ v.part.mentions, m ∈ (v.before.registry.meaning key).pendings := by
  cases hp : v.part with
  | typeAlias d =>
      obtain ⟨cName, rfl, -⟩ := h.type_of_alias hok hp hname
      change m ∈ (Ty.resolve v.before.registry d.descriptor d.depth).pendings at hm
      rw [Ty.pendings_resolve] at hm
      obtain ⟨key, hkey, hwaits⟩ := List.mem_flatMap.mp hm
      refine ⟨key, ?_, hwaits⟩
      rw [hp, Part.typeName?] at hname
      split at hname
      · cases hname
      · rename_i htag
        rwa [Part.mentions, if_neg htag]
  | aggregate d =>
      have hs := h.signed (List.ne_nil_of_mem hm)
      rw [show v.result.part = (v.part.analyse v.scope v.before).node from rfl, hp] at hs
      cases hs
  | _ =>
      rw [hp] at hname
      cases hname

theorem Introduces.names_after {v : Visit} {name : String} {type : Ty} {position : Position}
    (h : v.Introduces name type position) : v.after.registry.Names name := by
  rw [Registry.Names, h.meaning_after]
  rcases h.form with ⟨kind, tag, cName, scope, rfl⟩ | ⟨cName, d, depth, rfl⟩
  · rfl
  · rfl

end Visit

/-- If a part mentions only names of which `P` holds or that were introduced before it, then only
for names of which `P` holds can these be waiting when it is visited. -/
theorem Run.sure_of_mentions {c c' : Checker} {visits : List Visit} (h : Run c visits c')
    {P : String → Prop}
    (hknown : ∀ vs v ws, visits = vs ++ v :: ws → ∀ name ∈ v.part.mentions,
      P name ∨ c.registry.Names name ∨ name ∈ Visit.typeNames vs)
    (hc : c.registry.WaitsOnly P) :
    ∀ v ∈ visits, ∀ name ∈ v.part.mentions, ∀ m ∈ (v.before.registry.meaning name).pendings,
      P m := by
  induction h with
  | done c => exact List.forall_mem_nil _
  | @step v rest c' hok _ ih =>
      have hfirst : ∀ name ∈ v.part.mentions, ∀ m ∈ (v.before.registry.meaning name).pendings,
          P m := by
        intro name hname
        refine hc.pendings ?_
        rcases hknown [] v rest rfl name hname with hP | hnames | hmem
        · exact .inl hP
        · exact .inr hnames
        · exact absurd hmem List.not_mem_nil
      have hafter : v.after.registry.WaitsOnly P := by
        cases hv : v.part.typeName? with
        | none => rwa [(Visit.registry_of_typeName?_eq_none hv v.before).1]
        | some bound =>
            obtain ⟨type, position, hintro⟩ := Visit.introduces hok hv
            rw [hintro.early]
            refine hc.register bound (fun m hm => ?_) position
            obtain ⟨key, hkey, hwaits⟩ := hintro.mem_pendings hok hv hm
            exact hfirst key hkey m hwaits
      intro u hu
      rcases List.mem_cons.mp hu with rfl | hu
      · exact hfirst
      · refine ih (fun vs w ws hsplit name hname => ?_) hafter u hu
        rcases hknown (v :: vs) w ws (by rw [hsplit]; rfl) name hname with hP | hnames | hmem
        · exact .inl hP
        · exact .inr (.inl (hnames.edits (v.part.analyse_edits v.scope v.before)))
        · -- the name was bound by this visit, or by one after it
          rw [Visit.typeNames_cons, List.mem_append, Option.mem_toList] at hmem
          rcases hmem with hself | hlater
          · obtain ⟨type, position, hintro⟩ := Visit.introduces hok hself
            exact .inr (.inl hintro.names_after)
          · exact .inr (.inr hlater)

/-! ## The second pass -/

namespace Visit

/-- The visit has bound the name to a type that waits for something. -/
def Owes (v : Visit) (name : String) : Prop :=
  v.part.typeName? = some name
    ∧ ∃ type position, v.Introduces name type position ∧ type.pendings ≠ []

/-- Every name that the visits bind is settled, or one of those that are still to be revisited owes
it. -/
def Due (visits rest : List Visit) (registry : Registry) : Prop :=
  ∀ n ∈ typeNames visits, registry.Settled n ∨ ∃ w ∈ rest, w.Owes n

/-- What a structure or union is bound to waits for nothing. -/
theorem Owes.structureName? {v : Visit} {name : String} (h : v.Owes name)
    (hok : v.outcome.error = none) : v.part.structureName? = none := by
  obtain ⟨hname, type, position, hintro, hne⟩ := h
  obtain ⟨m, hm⟩ := List.exists_mem_of_ne_nil _ hne
  obtain ⟨key, hkey, -⟩ := hintro.mem_pendings hok hname hm
  cases hp : v.part with
  | aggregate d =>
      rw [hp] at hkey
      exact absurd hkey List.not_mem_nil
  | _ => rfl

end Visit

/-- A name means what the last visit that binds it has bound it to, so that some visit owes it if it
is not settled. -/
theorem Run.due {c c' : Checker} {visits : List Visit} (h : Run c visits c') :
    Visit.Due visits visits c'.registry := by
  induction h with
  | done c => exact List.forall_mem_nil _
  | @step v rest c' hok hrest ih =>
      intro n hn
      by_cases hlater : n ∈ Visit.typeNames rest
      · exact (ih n hlater).imp_right fun ⟨w, hw, howes⟩ => ⟨w, List.mem_cons_of_mem v hw, howes⟩
      · rw [Visit.typeNames_cons, List.mem_append, Option.mem_toList] at hn
        have hself : v.part.typeName? = some n := hn.resolve_right hlater
        obtain ⟨type, position, hintro⟩ := Visit.introduces hok hself
        by_cases hnil : type.pendings = []
        · left
          rwa [Registry.Settled, hrest.meaning_of_not_mem hlater, hintro.meaning_after]
        · exact .inr ⟨v, List.mem_cons_self, hself, type, position, hintro, hnil⟩

namespace Visit

/-- A revisit that is ready pays what the visit owes, and takes nothing back. -/
theorem Due.settle {visits rest : List Visit} {v : Visit} {r : Checker}
    (h : Due visits (v :: rest) r.registry) (hok : v.outcome.error = none) (hready : v.Ready r) :
    Due visits rest (v.settle r).2.registry := by
  cases hv : v.part.typeName? with
  | none =>
      rw [(registry_of_typeName?_eq_none hv r).2]
      intro n hn
      rcases h n hn with hsettled | ⟨w, hw, howes⟩
      · exact .inl hsettled
      · rcases List.mem_cons.mp hw with rfl | hw
        · cases hv.symm.trans howes.1
        · exact .inr ⟨w, hw, howes⟩
  | some bound =>
      obtain ⟨type, position, hintro⟩ := introduces hok hv
      have hpaid : (type.rescan r.registry).pendings = [] := by
        refine Registry.pendings_rescan_eq_nil_iff.mpr fun m hm => ?_
        obtain ⟨key, hkey, hwaits⟩ := hintro.mem_pendings hok hv hm
        exact hready m ⟨key, hkey, .inr hwaits⟩
      have hkept (n : String) (hn : r.registry.Settled n) :
          (v.settle r).2.registry.Settled n := by
        rw [hintro.late r]
        split
        · rw [Registry.Settled, Registry.meaning_register]
          split
          · exact hpaid
          · exact hn
        · exact hn
      intro n hn
      rcases h n hn with hsettled | ⟨w, hw, howes⟩
      · exact .inl (hkept n hsettled)
      · rcases List.mem_cons.mp hw with rfl | hw
        · -- the name is the one that the visit owes, and it is bound again
          obtain ⟨hname, type', position', hintro', hne⟩ := howes
          cases hv.symm.trans hname
          have htype : type' = type := hintro'.meaning_after.symm.trans hintro.meaning_after
          have hpending : type.pending?.isSome = true := by
            rw [Option.isSome_iff_ne_none]
            exact fun hnone => hne (htype ▸ Ty.noPending_iff.mp hnone)
          left
          rw [hintro.late r, if_pos hpending, Registry.Settled, Registry.meaning_register,
            if_pos rfl]
          exact hpaid
        · exact .inr ⟨w, hw, howes⟩

variable {unit : List Stmt} {visits vs rest : List Visit}

theorem typeNames_eq (hparts : visits.map Visit.part = Stmt.headsAll unit) :
    typeNames visits = Stmt.typeNames unit := by
  rw [Stmt.typeNames, ← hparts, List.filterMap_map]
  rfl

/-- A structure or union is settled all the time. -/
theorem Due.settled_of_sure {registry : Registry} (h : Due visits rest registry)
    (hparts : visits.map Visit.part = Stmt.headsAll unit)
    (hrest : ∀ w ∈ rest, w ∈ visits ∧ w.outcome.error = none) {name : String}
    (hname : Stmt.Sure unit name) : registry.Settled name := by
  obtain ⟨hcount, hmem⟩ := hname
  obtain ⟨p, hp, hpname⟩ := List.mem_filterMap.mp hmem
  have hbound : name ∈ typeNames visits := by
    rw [typeNames_eq hparts]
    exact List.mem_filterMap.mpr ⟨p, hp, Part.typeName?_of_structureName? hpname⟩
  rcases h name hbound with hsettled | ⟨w, hw, howes⟩
  · exact hsettled
  · obtain ⟨hwmem, hwok⟩ := hrest w hw
    have hwpart : w.part ∈ Stmt.headsAll unit := hparts ▸ List.mem_map_of_mem hwmem
    have hsame : w.part = p := Part.eq_of_count_eq_one hcount hp hwpart
      (Part.typeName?_of_structureName? hpname) howes.1
    have hnone := howes.structureName? hwok
    rw [hsame, hpname] at hnone
    cases hnone

/-- A name that is introduced once is settled as soon as what introduces it was revisited. -/
theorem Due.settled_of_met {registry : Registry} (h : Due (vs ++ rest) rest registry)
    {name : String} (hcount : (typeNames (vs ++ rest)).count name = 1)
    (hmet : name ∈ typeNames vs) : registry.Settled name := by
  rw [typeNames, List.filterMap_append] at hcount
  rcases h name (by rw [typeNames, List.filterMap_append]; exact List.mem_append_left _ hmet) with
    hsettled | ⟨w, hw, howes⟩
  · exact hsettled
  · exfalso
    have hfirst : 0 < (typeNames vs).count name := List.count_pos_iff.mpr hmet
    have hsecond : 0 < (typeNames rest).count name :=
      List.count_pos_iff.mpr (mem_typeNames hw howes.1)
    rw [List.count_append] at hcount
    change (typeNames vs).count name + (typeNames rest).count name = 1 at hcount
    omega

end Visit

/-- **Every part is ready when its turn comes.** All that the parts mention is introduced once, and
what the mentioned names wait for on the first visit is introduced by structures and unions. -/
theorem Run.ready {c c' : Checker} {unit : List Stmt} {rest : List Visit} (h : Run c rest c')
    (vs : List Visit) (hparts : (vs ++ rest).map Visit.part = Stmt.headsAll unit)
    (hnames : Stmt.MentionsIntroduced unit)
    (hsure : ∀ v ∈ rest, ∀ name ∈ v.part.mentions,
      ∀ m ∈ (v.before.registry.meaning name).pendings, Stmt.Sure unit m)
    (r : Checker) (hdue : Visit.Due (vs ++ rest) rest r.registry) :
    (∀ x ∈ Visit.revisits rest r, x.visit.Ready x.state)
      ∧ Visit.Due (vs ++ rest) [] (Visit.settleAll rest r).registry := by
  induction h generalizing vs r with
  | done c => exact ⟨List.forall_mem_nil _, hdue⟩
  | @step v rest c' hok hrest ih =>
      have hmems : ∀ w ∈ v :: rest, w ∈ vs ++ v :: rest ∧ w.outcome.error = none := fun w hw =>
        ⟨List.mem_append_right vs hw, (Run.step hok hrest).outcome_ok w hw⟩
      have hsettled (m : String) (hm : Stmt.Sure unit m) : r.registry.Settled m :=
        hdue.settled_of_sure hparts hmems hm
      have hready : v.Ready r := by
        rintro m ⟨name, hname, rfl | hwaits⟩
        · have hsplit : Stmt.headsAll unit
              = vs.map Visit.part ++ v.part :: rest.map Visit.part := by
            rw [← hparts, List.map_append, List.map_cons]
          obtain ⟨hcount, hintro⟩ := hnames.of_split hsplit hname
          rcases hintro with hm | hmet
          · exact hsettled m hm
          · refine hdue.settled_of_met ?_ ?_
            · rwa [Visit.typeNames_eq hparts]
            · rwa [List.filterMap_map] at hmet
        · exact hsettled m (hsure v List.mem_cons_self name hname m hwaits)
      have hassoc : vs ++ v :: rest = (vs ++ [v]) ++ rest := by simp
      obtain ⟨hothers, hlast⟩ := ih (vs ++ [v]) (hassoc ▸ hparts)
        (fun u hu => hsure u (List.mem_cons_of_mem v hu)) (v.settle r).2
        (hassoc ▸ hdue.settle hok hready)
      exact ⟨List.forall_mem_cons.mpr ⟨hready, hothers⟩, hassoc ▸ hlast⟩

/-! ## Entries and bindings in the end -/

namespace Visit

theorem settleAll_append (vs ws : List Visit) (r : Checker) :
    settleAll (vs ++ ws) r = settleAll ws (settleAll vs r) := by
  rw [settleAll, List.map_append, Placed.settleAll_append]
  rfl

theorem revisits_append (vs ws : List Visit) (r : Checker) :
    revisits (vs ++ ws) r = revisits vs r ++ revisits ws (settleAll vs r) := by
  induction vs generalizing r with
  | nil => rfl
  | cons v rest ih =>
      show _ :: revisits (rest ++ ws) (v.settle r).2 = _
      rw [ih]
      rfl

end Visit

variable {c c' : Checker}

/-- Revisits that are all ready leave nothing to wait for that was not there before. -/
theorem Run.cleans {visits : List Visit} (h : Run c visits c') (r : Checker)
    (hready : ∀ x ∈ Visit.revisits visits r, x.visit.Ready x.state) :
    r.Cleans (Visit.settleAll visits r) := by
  induction h generalizing r with
  | done c => exact .refl r
  | @step v rest c' hok _ ih =>
      have hfirst : v.Ready r := hready ⟨v, r⟩ List.mem_cons_self
      exact (hfirst.cleans hok).trans
        (ih (v.settle r).2 fun x hx => hready x (List.mem_cons_of_mem _ hx))

/-- If all revisits are ready, no entry that the visits have declared is left waiting. -/
theorem Run.entries_settled {visits : List Visit} (h : Run c visits c')
    (hscope : ∀ v ∈ visits, v.scope < v.before.scopes.length)
    (hready : ∀ x ∈ Visit.revisits visits c', x.visit.Ready x.state)
    (hempty : ∀ id name, c.entryIn? id name = none) {id : ScopeId} {name : String} {type : Ty}
    (htype : (Visit.settleAll visits c').typeIn? id name = some type) : type.pendings = [] := by
  have hretyped := Placed.settleAll_retyped (visits.map Visit.result) c'
  obtain ⟨e, he⟩ : ∃ e, c'.entryIn? id name = some e := by
    have hthere := hretyped.isSome_typeIn? id name
    rw [show (Placed.settleAll (visits.map Visit.result) c').2.typeIn? id name = _ from htype,
      Option.isSome_some] at hthere
    obtain ⟨ty, hty⟩ := Option.isSome_iff_exists.mp hthere.symm
    obtain ⟨e, he, -⟩ := Option.map_eq_some_iff.mp hty
    exact ⟨e, he⟩
  rcases h.exists_declares hscope he with hold | ⟨vs, v, ws, rfl, -, hdeclares, -⟩
  · rw [hempty] at hold
    cases hold
  · obtain ⟨hbefore, hok, hafter⟩ := h.split
    have hname : e.name = name := by
      obtain ⟨s, -, hget⟩ := Checker.entryIn?_eq_some_iff.mp he
      exact Scope.name_of_get? hget
    rw [Visit.revisits_append] at hready
    rw [Visit.settleAll_append] at htype
    have hvisit := hready ⟨v, Visit.settleAll vs c'⟩
      (List.mem_append_right _ List.mem_cons_self)
    -- up to the revisit the entry keeps its type, or waits for nothing any more
    have hfirst := hbefore.cleans c' fun x hx => hready x (List.mem_append_left _ hx)
    have hlast := hafter.cleans (v.settle (Visit.settleAll vs c')).2 fun x hx =>
      hready x (List.mem_append_right _ (List.mem_cons_of_mem _ hx))
    have hdeclared : c'.typeIn? id name = some e.type := by
      rw [Checker.typeIn?, he]
      rfl
    have hnow : ∃ ty, (v.settle (Visit.settleAll vs c')).2.typeIn? id name = some ty
        ∧ ty.pendings = [] := by
      have hcleans := hvisit.cleans hok
      rcases hfirst id name with hkept | ⟨ty, hty, hnil⟩
      · rw [hdeclared] at hkept
        rcases hdeclares.settled hok hvisit (by rw [hname, hkept]; rfl) with hnil | hsettled
        · exact hcleans.holds hkept hnil
        · rwa [hname] at hsettled
      · exact hcleans.holds hty hnil
    obtain ⟨ty, hty, hnil⟩ := hnow
    obtain ⟨ty', hty', hnil'⟩ := hlast.holds hty hnil
    cases htype.symm.trans hty'
    exact hnil'

/-- What binding the names of some visits preserves, both passes over them preserve. -/
theorem Run.registry_invariant {visits : List Visit} (h : Run c visits c')
    {P : Registry → Prop} (hP : ∀ name ∈ Visit.typeNames visits, ∀ registry type position,
      P registry → P (registry.register name type position)) :
    (P c.registry → P c'.registry)
      ∧ ∀ r : Checker, P r.registry → P (Visit.settleAll visits r).registry := by
  induction h with
  | done c => exact ⟨id, fun r => id⟩
  | @step v rest c' hok _ ih =>
      obtain ⟨hfirst, hsecond⟩ := ih fun name hname => hP name (by
        rw [Visit.typeNames_cons]
        exact List.mem_append_right _ hname)
      cases hv : v.part.typeName? with
      | none =>
          refine ⟨fun hc => hfirst ?_, fun r hr => hsecond (v.settle r).2 ?_⟩
          · rwa [(Visit.registry_of_typeName?_eq_none hv v.before).1]
          · rwa [(Visit.registry_of_typeName?_eq_none hv r).2]
      | some name =>
          obtain ⟨type, position, hintro⟩ := Visit.introduces hok hv
          have hbind := hP name (Visit.mem_typeNames List.mem_cons_self hv)
          refine ⟨fun hc => hfirst ?_, fun r hr => hsecond (v.settle r).2 ?_⟩
          · rw [hintro.early]
            exact hbind _ _ _ hc
          · rw [hintro.late r]
            split
            · exact hbind _ _ _ hr
            · exact hr

/-- Every announced name is mentioned or introduced, so that it is introduced in either case. -/
theorem Stmt.MentionsIntroduced.mem_typeNames_of_announced {unit : List Stmt}
    (h : MentionsIntroduced unit) {name : String} (hname : name ∈ (announceAll unit .empty).names) :
    name ∈ typeNames unit := by
  obtain ⟨p, hp, position, hannounced⟩ := Registry.mem_names_announceAll.mp hname
  have hmention (hmem : name ∈ p.mentions) : name ∈ typeNames unit := by
    obtain ⟨before, after, hsplit⟩ := List.append_of_mem hp
    have hcount := (h.of_split hsplit hmem).1
    exact List.count_pos_iff.mp (by omega)
  cases p with
  | forward d =>
      cases hannounced
      exact hmention (List.mem_singleton_self _)
  | typeAlias d =>
      cases hannounced
      by_cases htag : d.isTagAlias = true
      · refine hmention ?_
        rw [Part.mentions, if_pos htag]
        exact List.mem_singleton_self _
      · refine List.mem_filterMap.mpr ⟨.typeAlias d, hp, ?_⟩
        rw [Part.typeName?, if_neg htag]
  | _ => cases hannounced

/-- The check after the passes finds nothing if there is nothing. -/
theorem Checker.unresolved?_eq_none (htidy : c.Tidy)
    (hentries : ∀ id name type, c.typeIn? id name = some type → type.pendings = [])
    (hbindings : ∀ b ∈ c.registry.bindings, b.type.pendings = []) : c.unresolved? = none := by
  refine List.findSome?_eq_none_iff.mpr fun d hd => ?_
  rw [Option.map_eq_none_iff]
  refine Ty.noPending_iff.mpr ?_
  rcases List.mem_append.mp hd with hentry | hbinding
  · obtain ⟨s, hs, hmem⟩ := List.mem_flatMap.mp hentry
    obtain ⟨e, he, rfl⟩ := List.mem_map.mp hmem
    obtain ⟨id, hid⟩ := List.mem_iff_getElem?.mp hs
    exact hentries id e.name e.type (htidy.typeIn?_of_mem hid he)
  · obtain ⟨b, hb, rfl⟩ := List.mem_map.mp hbinding
    exact hbindings b hb

section Announced

variable {unit : List Stmt} {visits : List Visit} {middle : Checker}

/-- What the mentioned names wait for on a visit is introduced by structures and unions. -/
theorem Run.sure (h : Run (Checker.start (Stmt.announceAll unit .empty)) visits middle)
    (hparts : visits.map Visit.part = Stmt.headsAll unit) (hnames : Stmt.MentionsIntroduced unit) :
    ∀ v ∈ visits, ∀ name ∈ v.part.mentions,
      ∀ m ∈ (v.before.registry.meaning name).pendings, Stmt.Sure unit m := by
  refine h.sure_of_mentions (fun vs v ws hsplit name hname => ?_)
    fun n => .inl (Registry.blank_announceAll unit n)
  have hheads : Stmt.headsAll unit = vs.map Visit.part ++ v.part :: ws.map Visit.part := by
    rw [← hparts, hsplit, List.map_append, List.map_cons]
  refine (hnames.of_split hheads hname).2.imp_right fun hmet => .inr ?_
  rwa [List.filterMap_map] at hmet

/-- When nothing is due any more, no binding is left waiting: only names that the unit introduces
are bound, each once. -/
theorem Run.bindings_settled
    (h : Run (Checker.start (Stmt.announceAll unit .empty)) visits middle)
    (hparts : visits.map Visit.part = Stmt.headsAll unit) (hnames : Stmt.MentionsIntroduced unit)
    (hdue : Visit.Due visits [] (Visit.settleAll visits middle).registry) :
    ∀ b ∈ (Visit.settleAll visits middle).registry.bindings, b.type.pendings = [] := by
  have htypeNames := Visit.typeNames_eq hparts
  have hbound := h.registry_invariant
    (P := fun registry => registry.Distinct ∧ ∀ n ∈ registry.names, n ∈ Stmt.typeNames unit)
    (fun name hname registry type position ⟨hdistinct, hsub⟩ => by
      refine ⟨hdistinct.register name type position, fun n hn => ?_⟩
      rcases Registry.mem_names_register.mp hn with rfl | hold
      · exact htypeNames ▸ hname
      · exact hsub n hold)
  obtain ⟨hdistinct, hsub⟩ := hbound.2 middle (hbound.1
    ⟨Registry.distinct_announceAll unit, fun n hn => hnames.mem_typeNames_of_announced hn⟩)
  intro b hb
  have hmem : b.name ∈ Visit.typeNames visits := by
    rw [htypeNames]
    exact hsub _ (List.mem_map_of_mem hb)
  rcases hdue b.name hmem with hsettled | ⟨w, hw, -⟩
  · rwa [Registry.Settled, Registry.meaning, hdistinct.get?_eq_some hb,
      Option.getD_some] at hsettled
  · exact absurd hw List.not_mem_nil

end Announced

/-! ## The check -/

/-- A unit that analysis accepts is accepted if the second pass leaves nothing pending. -/
theorem check_ok_of_settleAll {unit : List Stmt} {registry : Registry}
    (hok : (Stmt.analyseAll unit Checker.global (Checker.start registry)).error = none)
    (hnone : (Visit.settleAll (Stmt.visitsAll unit Checker.global (Checker.start registry))
      (Stmt.analyseAll unit Checker.global (Checker.start registry)).checker).unresolved? = none) :
    ∃ checked, check unit registry = .ok checked := by
  have htraced := Stmt.analyseAll_traced unit Checker.global (Checker.start registry) hok
  rw [Visit.settleAll, ← htraced.results, ← Stmt.rescanAll_eq_settle] at hnone
  unfold check
  dsimp only at hnone ⊢
  rw [hok]
  dsimp only
  rw [hnone]
  exact ⟨_, rfl⟩

/-- **One settling pass is enough.** A unit that analysis accepts is accepted, if every name of a
type that it mentions is introduced exactly once, by a structure or union anywhere or by an alias
before the mention. -/
theorem check_ok_of_mentionsIntroduced (unit : List Stmt)
    (hok : (Stmt.analyseAll unit Checker.global
      (Checker.start (Stmt.announceAll unit .empty))).error = none)
    (hnames : Stmt.MentionsIntroduced unit) :
    ∃ checked, check unit (Stmt.announceAll unit .empty) = .ok checked := by
  refine check_ok_of_settleAll hok ?_
  have htraced := Stmt.analyseAll_traced unit Checker.global _ hok
  have hrun := htraced.run
  have hscope := htraced.inRange Nat.zero_lt_one
  have hparts := Stmt.map_part_visitsAll unit Checker.global
    (Checker.start (Stmt.announceAll unit .empty))
  obtain ⟨hready, hdue⟩ := hrun.ready [] hparts hnames (hrun.sure hparts hnames) _ hrun.due
  refine Checker.unresolved?_eq_none ?_ (fun id name type htype => ?_) ?_
  · exact (Placed.settleAll_retyped _ _).tidy (hrun.tidy (Checker.tidy_start _))
  · exact hrun.entries_settled hscope hready (Checker.entryIn?_start _) htype
  · exact hrun.bindings_settled hparts hnames hdue

/-! ## An instance

Both structures come last. Before them, `link` points to the first, `visitor` takes the other as a
parameter of a parameter and returns a `link`, and a function uses all of these, after a prototype
that it completes. -/

namespace Stmt

def forwardUnit : List Stmt :=
  let here := Position.unknown
  let callback : Descriptor := .signature "void" [(.named "union pair", 1)] 0
  let params : List Parameter :=
    [{ descriptor := .named "visitor", depth := 0, name := some "v", position := here },
      { descriptor := .named "pair", depth := 1, name := some "p", position := here }]
  [.forward { kind := .struct, name := "node", position := here },
    .typeAlias
      { name := "link", descriptor := .named "struct node", depth := 1, position := here },
    .typeAlias
      { name := "visitor", descriptor := .signature "link" [(.named "node", 1), (callback, 0)] 0,
        depth := 0, position := here },
    .prototype
      { descriptor := .named "link", depth := 0, name := "walk", params, position := here },
    .typeAlias
      { name := "node", descriptor := .named "struct node", depth := 0, position := here },
    .function
      { descriptor := .named "link", depth := 0, name := "walk", params, position := here }
      [.var
        { form := .pointer, descriptor := .named "node", depth := 1, name := "at", value := none,
          position := here }],
    .aggregate { kind := .struct, name := "node", position := here }
      [.var
        { form := .plain, descriptor := .named "link", depth := 0, name := "next", value := none,
          position := here }],
    .aggregate { kind := .union, name := "pair", position := here }
      [.var
        { form := .pointer, descriptor := .named "node", depth := 1, name := "first",
          value := none, position := here }]]

end Stmt

theorem check_forwardUnit :
    Stmt.MentionsIntroduced Stmt.forwardUnit
      ∧ (Stmt.analyseAll Stmt.forwardUnit Checker.global
          (Checker.start (Stmt.announceAll Stmt.forwardUnit .empty))).checker.unresolved? ≠ none
      ∧ ∃ checked, check Stmt.forwardUnit (Stmt.announceAll Stmt.forwardUnit .empty)
          = .ok checked := by
  have hnames : Stmt.MentionsIntroduced Stmt.forwardUnit := by decide +kernel
  refine ⟨hnames, by decide +kernel, ?_⟩
  exact check_ok_of_mentionsIntroduced Stmt.forwardUnit (by decide +kernel) hnames

end ExtensionCompiler

import ExtensionCompiler.Proofs.Written

set_option autoImplicit false

/-! # What names mean in the end

Both passes bind names of types, and what is resolved at some moment depends on what the names mean
then. If every name is bound by one structure or alias at most, meanings can only ripen: a name that
is settled at one moment means the same ever after (`Registry.KeptIn`). This module follows the
registry through both passes of such a unit, up to the last state.

A type that was resolved on the first visit to a part, and rescanned on the second if anything was
pending, is then just what its descriptor resolves to in the last state
(`Passes.settled_resolve`). -/

namespace ExtensionCompiler

/-! ## Registries that agree on what is settled -/

namespace Registry

variable {early middle late : Registry}

/-- What is settled in the first registry means the same in the second. -/
def KeptIn (early late : Registry) : Prop :=
  ∀ m, early.Settled m → late.meaning m = early.meaning m

theorem KeptIn.refl (registry : Registry) : registry.KeptIn registry := fun _ _ => rfl

theorem KeptIn.settled (h : early.KeptIn late) {m : String} (hm : early.Settled m) :
    late.Settled m := by
  rw [Settled, h m hm]
  exact hm

theorem KeptIn.trans (h : early.KeptIn middle) (h' : middle.KeptIn late) : early.KeptIn late := by
  intro m hm
  rw [h' m (h.settled hm), h m hm]

/-- A name that was not settled can be bound to anything. -/
theorem keptIn_register {registry : Registry} {name : String} (h : ¬ registry.Settled name)
    (type : Ty) (position : Position) :
    registry.KeptIn (registry.register name type position) := by
  intro m hm
  have hne : m ≠ name := fun heq => h (heq ▸ hm)
  rw [meaning_register, if_neg hne]

end Registry

namespace Ty

mutual

/-- A rescan looks at nothing but the meanings of the names that are pending. -/
theorem rescan_congr {registry registry' : Registry} : (ty : Ty) →
    (∀ m ∈ ty.pendings, registry'.meaning m = registry.meaning m) →
    ty.rescan registry' = ty.rescan registry
  | pending name, h => by
      rw [rescan_pending, rescan_pending]
      exact h name (List.mem_singleton_self name)
  | primitive _, _ | aggregate _ _ _ _, _ | object, _ => rfl
  | pointer base _, h | array base _, h | aliased _ _ base, h => by
      rw [rescan, rescan, rescan_congr base h]
  | function name cName params result, h => by
      rw [rescan, rescan, rescanAll_congr params fun m hm => h m (List.mem_append_left _ hm),
        rescan_congr result fun m hm => h m (List.mem_append_right _ hm)]

theorem rescanAll_congr {registry registry' : Registry} : (tys : List Ty) →
    (∀ m ∈ waitingIn true tys, registry'.meaning m = registry.meaning m) →
    rescanAll registry' tys = rescanAll registry tys
  | [], _ => rfl
  | ty :: rest, h => by
      rw [rescanAll, rescanAll, rescan_congr ty fun m hm => h m (List.mem_append_left _ hm),
        rescanAll_congr rest fun m hm => h m (List.mem_append_right _ hm)]

end

theorem resolveName_of_keptIn {early late : Registry} (h : early.KeptIn late) {name : String}
    (hname : (resolveName early name).pendings = []) :
    resolveName late name = resolveName early name := by
  rw [resolveName_eq] at hname
  rw [resolveName_eq, resolveName_eq]
  cases hk : Descriptor.keyword? name with
  | some ty => rfl
  | none =>
      rw [hk] at hname
      exact h _ hname

mutual

/-- A descriptor that has been resolved to a type without pending names stays resolved to it. -/
theorem resolve_of_keptIn {early late : Registry} (h : early.KeptIn late) : (d : Descriptor) →
    (depth : Nat) → (resolve early d depth).pendings = [] →
    resolve late d depth = resolve early d depth
  | .named name, depth, hnil => by
      rw [resolve, pendings, waiting_pointerTo] at hnil
      rw [resolve, resolve, resolveName_of_keptIn h hnil]
  | .signature base params resultDepth, depth, hnil => by
      rw [resolve, pendings, waiting_pointerTo, waiting, waiting_pointerTo,
        List.append_eq_nil_iff] at hnil
      rw [resolve, resolve, resolveName_of_keptIn h hnil.2, resolveParams_of_keptIn h params hnil.1]

theorem resolveParams_of_keptIn {early late : Registry} (h : early.KeptIn late) :
    (params : List (Descriptor × Nat)) → waitingIn true (resolveParams early params) = [] →
    resolveParams late params = resolveParams early params
  | [], _ => rfl
  | (d, depth) :: rest, hnil => by
      rw [resolveParams, waitingIn, List.append_eq_nil_iff] at hnil
      rw [resolveParams, resolveParams, resolve_of_keptIn h d depth hnil.1,
        resolveParams_of_keptIn h rest hnil.2]

end

end Ty

/-! ## Distinct names -/

namespace Visit

/-- The names that visits bind, in order. -/
def typeNames (visits : List Visit) : List String := visits.filterMap fun v => v.part.typeName?

variable {v : Visit} {name : String}

theorem mem_typeNames {visits : List Visit} (hv : v ∈ visits)
    (hname : v.part.typeName? = some name) : name ∈ typeNames visits :=
  List.mem_filterMap.mpr ⟨v, hv, hname⟩

theorem typeNames_cons (v : Visit) (rest : List Visit) :
    typeNames (v :: rest) = v.part.typeName?.toList ++ typeNames rest := by
  unfold typeNames
  rw [List.filterMap_cons]
  cases v.part.typeName? with
  | none => rfl
  | some name => rfl

/-- Of visits that bind distinct names, the first binds none that the others bind. -/
theorem ne_of_nodup_cons {rest : List Visit} (h : (typeNames (v :: rest)).Nodup) {other : String}
    (hname : v.part.typeName? = some name) (hother : other ∈ typeNames rest) : other ≠ name := by
  rintro rfl
  rw [typeNames_cons, hname, Option.toList_some, List.singleton_append, List.nodup_cons] at h
  exact h.1 hother

theorem nodup_of_nodup_cons {rest : List Visit} (h : (typeNames (v :: rest)).Nodup) :
    (typeNames rest).Nodup := by
  rw [typeNames_cons] at h
  exact (List.nodup_append.mp h).2.1

theorem Introduces.meaning_after {type : Ty} {position : Position}
    (h : v.Introduces name type position) : v.after.registry.meaning name = type := by
  rw [h.early, Registry.meaning_register, if_pos rfl]

end Visit

/-! ## Both passes -/

variable {c c' : Checker} {visits : List Visit}

/-- A name that no visit binds goes on meaning what it meant. -/
theorem Run.meaning_of_not_mem (h : Run c visits c')
    {name : String} (hname : name ∉ Visit.typeNames visits) :
    c'.registry.meaning name = c.registry.meaning name := by
  induction h with
  | done => rfl
  | @step v rest c' hok _ ih =>
      rw [Visit.typeNames_cons, List.mem_append, not_or] at hname
      rw [ih hname.2]
      cases hv : v.part.typeName? with
      | none => rw [(Visit.registry_of_typeName?_eq_none hv c').1]
      | some other =>
          obtain ⟨type, position, hintro⟩ := Visit.introduces hok hv
          have hne : name ≠ other := by
            intro heq
            rw [hv] at hname
            exact hname.1 (List.mem_singleton.mpr heq)
          rw [hintro.early, Registry.meaning_register, if_neg hne]

/-- The first pass binds names that were pending, so it keeps what is settled. -/
theorem Run.keptIn (h : Run c visits c') (hdistinct : (Visit.typeNames visits).Nodup)
    (hnew : ∀ name ∈ Visit.typeNames visits, c.registry.meaning name = .pending name) :
    c.registry.KeptIn c'.registry
      ∧ ∀ v ∈ visits, v.before.registry.KeptIn c'.registry
        ∧ v.after.registry.KeptIn c'.registry := by
  induction h with
  | done c => exact ⟨.refl _, fun v hv => nomatch hv⟩
  | @step v rest c' hok _ ih =>
      have hrest := Visit.nodup_of_nodup_cons hdistinct
      have hsub : ∀ name ∈ Visit.typeNames rest, name ∈ Visit.typeNames (v :: rest) := by
        intro name hmem
        rw [Visit.typeNames_cons]
        exact List.mem_append_right _ hmem
      -- one step: at most one name is bound, and it is none of those to come
      obtain ⟨hkept, hnext⟩ : v.before.registry.KeptIn v.after.registry
          ∧ ∀ name ∈ Visit.typeNames rest, v.after.registry.meaning name = .pending name := by
        cases hv : v.part.typeName? with
        | none =>
            rw [(Visit.registry_of_typeName?_eq_none hv v.before).1]
            exact ⟨.refl _, fun name hmem => hnew name (hsub name hmem)⟩
        | some bound =>
            obtain ⟨type, position, hintro⟩ := Visit.introduces hok hv
            have hpending := hnew bound (Visit.mem_typeNames List.mem_cons_self hv)
            rw [hintro.early]
            refine ⟨Registry.keptIn_register ?_ type position, fun name hmem => ?_⟩
            · rw [Registry.Settled, hpending]
              exact List.cons_ne_nil _ _
            · rw [Registry.meaning_register, if_neg (Visit.ne_of_nodup_cons hdistinct hv hmem)]
              exact hnew name (hsub name hmem)
      obtain ⟨hafter, hothers⟩ := ih hrest hnext
      have hall := hkept.trans hafter
      exact ⟨hall, List.forall_mem_cons.mpr ⟨⟨hall, hafter⟩, hothers⟩⟩

/-- The second pass binds aliases again that were not settled, so it keeps what is settled. What is
still to come is bound as the first pass has left it. -/
theorem Run.settleAll_keptIn (h : Run c visits c')
    (hdistinct : (Visit.typeNames visits).Nodup) (r : Checker)
    (hleft : ∀ v ∈ visits, ∀ name, v.part.typeName? = some name →
      r.registry.meaning name = v.after.registry.meaning name) :
    r.registry.KeptIn (Visit.settleAll visits r).registry
      ∧ ∀ x ∈ Visit.revisits visits r,
          x.state.registry.KeptIn (Visit.settleAll visits r).registry
          ∧ (x.visit.settle x.state).2.registry.KeptIn (Visit.settleAll visits r).registry := by
  induction h generalizing r with
  | done c => exact ⟨.refl _, fun x hx => nomatch hx⟩
  | @step v rest c' hok _ ih =>
      have hrest := Visit.nodup_of_nodup_cons hdistinct
      have hothers (u : Visit) (hu : u ∈ rest) := hleft u (List.mem_cons_of_mem v hu)
      obtain ⟨hkept, hnext⟩ : r.registry.KeptIn (v.settle r).2.registry
          ∧ ∀ u ∈ rest, ∀ name, u.part.typeName? = some name →
            (v.settle r).2.registry.meaning name = u.after.registry.meaning name := by
        cases hv : v.part.typeName? with
        | none =>
            rw [(Visit.registry_of_typeName?_eq_none hv r).2]
            exact ⟨.refl _, hothers⟩
        | some bound =>
            obtain ⟨type, position, hintro⟩ := Visit.introduces hok hv
            rw [hintro.late r]
            split
            · rename_i hpending
              refine ⟨Registry.keptIn_register ?_ _ position, fun u hu name hname => ?_⟩
              · -- the alias is still bound to the type that it had after the first pass
                rw [Registry.Settled, hleft v List.mem_cons_self bound hv, hintro.meaning_after,
                  ← Ty.noPending_iff, Ty.NoPending]
                exact Option.isSome_iff_ne_none.mp hpending
              · have hne := Visit.ne_of_nodup_cons hdistinct hv (Visit.mem_typeNames hu hname)
                rw [Registry.meaning_register, if_neg hne]
                exact hothers u hu name hname
            · exact ⟨.refl _, hothers⟩
      obtain ⟨hafter, hlater⟩ := ih hrest (v.settle r).2 hnext
      have hall := hkept.trans hafter
      exact ⟨hall, List.forall_mem_cons.mpr ⟨⟨hall, hafter⟩, hlater⟩⟩

/-- What the first pass knows at any visit settles to `late`, if what it binds there does. -/
theorem Run.settlesTo (h : Run c visits c') {late : Registry}
    (hstart : c.registry.SettlesTo late) (r : Checker)
    (hbound : ∀ x ∈ Visit.revisits visits r, x.visit.before.registry.SettlesTo late →
      ∀ name type position, x.visit.Introduces name type position →
        type.rescan late = late.meaning name) :
    ∀ x ∈ Visit.revisits visits r, x.visit.before.registry.SettlesTo late := by
  refine (h.invariant_revisits (I := fun c _ => c.registry.SettlesTo late) hstart
    fun x hx hok _ _ hbefore => ?_).2
  cases hv : x.visit.part.typeName? with
  | none => rwa [(Visit.registry_of_typeName?_eq_none hv r).1]
  | some bound =>
      obtain ⟨type, position, hintro⟩ := Visit.introduces hok hv
      intro name ty hget
      rw [hintro.early, Registry.get?_register] at hget
      split at hget
      · rename_i hself
        cases hget
        rw [hself]
        exact hbound x hx hbefore bound type position hintro
      · exact hbefore name ty hget

/-! ## Up to the last state -/

/-- A registry in which every name is announced at most. -/
def Registry.Blank (registry : Registry) : Prop := ∀ name, registry.meaning name = .pending name

theorem Registry.Blank.announce {registry : Registry} (h : registry.Blank) (name : String)
    (position : Position) : (registry.announce name position).Blank := by
  unfold Registry.announce
  split
  · exact h
  · intro m
    rw [meaning_register]
    split
    · rename_i heq
      rw [heq]
    · exact h m

theorem Registry.blank_announceAll (unit : List Stmt) :
    (Stmt.announceAll unit .empty).Blank :=
  Stmt.announceAll_invariant (fun _ name position h => h.announce name position) unit
    fun _ => rfl

theorem Registry.Blank.settlesTo {registry : Registry} (h : registry.Blank) (late : Registry) :
    registry.SettlesTo late := by
  intro name ty hget
  have hmeaning := h name
  rw [meaning, hget, Option.getD_some] at hmeaning
  rw [hmeaning, Ty.rescan_pending]

namespace Passes

variable {unit : List Stmt} {registry : Registry} {checked : Checked} {visits : List Visit}
  {middle : Checker}

/-- When the second pass begins, a name means what the visit that binds it has made of it. -/
theorem meaning_middle (h : Passes unit registry checked visits middle)
    (hdistinct : (Visit.typeNames visits).Nodup) {v : Visit} (hv : v ∈ visits) {name : String}
    (hname : v.part.typeName? = some name) :
    middle.registry.meaning name = v.after.registry.meaning name := by
  obtain ⟨before, after, rfl⟩ := List.append_of_mem hv
  obtain ⟨-, -, hrun⟩ := h.run.split
  refine hrun.meaning_of_not_mem fun hmem => ?_
  have hsuffix : (Visit.typeNames (v :: after)).Nodup := by
    rw [Visit.typeNames, List.filterMap_append] at hdistinct
    exact (List.nodup_append.mp hdistinct).2.1
  exact Visit.ne_of_nodup_cons hsuffix hname hmem rfl

section Distinct

variable (h : Passes unit registry checked visits middle) (hblank : registry.Blank)
  (hdistinct : (Visit.typeNames visits).Nodup)

include h hdistinct

variable {x : Revisit}

/-- What the second pass knows at a revisit is kept up to the end. -/
theorem state_keptIn (hx : x ∈ Visit.revisits visits middle) :
    x.state.registry.KeptIn checked.checker.registry
      ∧ (x.visit.settle x.state).2.registry.KeptIn checked.checker.registry := by
  have hkept := (h.run.settleAll_keptIn hdistinct middle
    fun v hv name hname => h.meaning_middle hdistinct hv hname).2 x hx
  rwa [h.settleAll_eq] at hkept

include hblank

/-- What the first pass knows at a visit is kept up to the end. -/
theorem before_keptIn {v : Visit} (hv : v ∈ visits) :
    v.before.registry.KeptIn checked.checker.registry
      ∧ v.after.registry.KeptIn checked.checker.registry := by
  have hfirst := (h.run.keptIn hdistinct fun name _ => hblank name).2 v hv
  have hsecond := (h.run.settleAll_keptIn hdistinct middle
    fun v hv name hname => h.meaning_middle hdistinct hv hname).1
  rw [h.settleAll_eq] at hsecond
  exact ⟨hfirst.1.trans hsecond, hfirst.2.trans hsecond⟩

/-- What a visit binds settles to what the name means in the end. -/
theorem rescan_introduced (hx : x ∈ Visit.revisits visits middle)
    (hbefore : x.visit.before.registry.SettlesTo checked.checker.registry) {name : String}
    {type : Ty} {position : Position} (hintro : x.visit.Introduces name type position) :
    type.rescan checked.checker.registry = checked.checker.registry.meaning name := by
  obtain ⟨hmem, -⟩ := h.run.at_revisit middle hx
  obtain ⟨hkeptBefore, hkeptAfter⟩ := h.before_keptIn hblank hdistinct hmem
  obtain ⟨hkeptState, hkeptSettled⟩ := h.state_keptIn hdistinct hx
  by_cases hnil : type.pendings = []
  · -- a type that waits for nothing is bound for good, and a rescan would not change it
    have hfinal : checked.checker.registry.meaning name = type := by
      rw [hkeptAfter name (by rw [Registry.Settled, hintro.meaning_after]; exact hnil)]
      exact hintro.meaning_after
    rw [hfinal]
    rcases hintro.form with ⟨kind, tag, cName, scope, rfl⟩ | ⟨cName, d, depth, rfl⟩
    · rw [Ty.rescan]
    · rw [Ty.rescan, Ty.rescan_resolve hbefore, Ty.resolve_of_keptIn hkeptBefore d depth hnil]
  · -- an alias is bound again, to what its pending names mean by then and ever after
    have hsettled := h.aliasSettles hx name type (hintro.signed hnil)
    have hpending : type.pending?.isSome = true := by
      rw [Option.isSome_iff_ne_none]
      exact fun hnone => hnil (Ty.noPending_iff.mp hnone)
    have hlate : (x.visit.settle x.state).2.registry.meaning name
        = type.rescan x.state.registry := by
      rw [hintro.late x.state, if_pos hpending, Registry.meaning_register, if_pos rfl]
    have hfinal : checked.checker.registry.meaning name = type.rescan x.state.registry := by
      rw [hkeptSettled name ?_, hlate]
      rw [Registry.Settled, hlate]
      exact Registry.pendings_rescan_eq_nil_iff.mpr hsettled
    rw [hfinal]
    exact Ty.rescan_congr type fun m hm => hkeptState m (hsettled m hm)

theorem before_settlesTo (hx : x ∈ Visit.revisits visits middle) :
    x.visit.before.registry.SettlesTo checked.checker.registry := by
  refine h.run.settlesTo (hblank.settlesTo _) middle ?_ x hx
  intro y hy hbefore name type position hintro
  exact h.rescan_introduced hblank hdistinct hy hbefore hintro

/-- **A type that was resolved on a visit, and rescanned on the revisit if anything in it was
pending, is resolved for good** as soon as nothing in it is pending. -/
theorem settled_resolve (hx : x ∈ Visit.revisits visits middle) (d : Descriptor) (depth : Nat)
    {type settled : Ty} (htype : type = Ty.resolve x.visit.before.registry d depth)
    (hsettled : settled = if type.pending?.isSome then type.rescan x.state.registry else type)
    (hnil : settled.pendings = []) : settled = Ty.resolve checked.checker.registry d depth := by
  obtain ⟨hmem, -⟩ := h.run.at_revisit middle hx
  have hlate : type.rescan checked.checker.registry
      = Ty.resolve checked.checker.registry d depth := by
    rw [htype]
    exact Ty.rescan_resolve (h.before_settlesTo hblank hdistinct hx) d depth
  split at hsettled
  · rw [hsettled] at hnil
    rw [hsettled, ← hlate]
    refine (Ty.rescan_congr type fun m hm => ?_).symm
    exact (h.state_keptIn hdistinct hx).1 m (Registry.pendings_rescan_eq_nil_iff.mp hnil m hm)
  · rw [hsettled, htype] at hnil
    rw [hsettled, htype]
    exact (Ty.resolve_of_keptIn (h.before_keptIn hblank hdistinct hmem).1 d depth hnil).symm

end Distinct

end Passes

end ExtensionCompiler

import ExtensionCompiler.Proofs.NormalTypes
import ExtensionCompiler.Proofs.Pending

set_option autoImplicit false

/-! # What a second look at a type settles

`Ty.Awaits` says that a name is pending in a type, at any depth: under pointers, in arrays, behind
aliases, among parameters and in results. A rescan looks each such name up once. It leaves nothing
pending just if every name that the type awaits is registered with a type that awaits nothing, and
it leaves a type that awaits nothing as it is just if the pointers of the type are in normal form
(`Ty.rescan_settles_exactly`). Pointers that are not are put in order even where
there is nothing to look up. -/

namespace ExtensionCompiler

namespace Ty

/-! ## Names that a type awaits -/

/-- The name is pending somewhere in the type. -/
inductive Awaits (name : String) : Ty → Prop
  | here : Awaits name (pending name)
  | pointer {base : Ty} {depth : Nat} : Awaits name base → Awaits name (pointer base depth)
  | array {base : Ty} {size : Nat} : Awaits name base → Awaits name (array base size)
  | aliased {n c : String} {target : Ty} : Awaits name target → Awaits name (aliased n c target)
  | param {n c : Option String} {params : List Ty} {result param : Ty} :
      param ∈ params → Awaits name param → Awaits name (function n c params result)
  | result {n c : Option String} {params : List Ty} {result : Ty} :
      Awaits name result → Awaits name (function n c params result)

theorem mem_waitingIn {deep : Bool} {tys : List Ty} {name : String} :
    name ∈ waitingIn deep tys ↔ ∃ ty ∈ tys, name ∈ ty.waiting deep := by
  rw [waitingIn_eq_flatMap, List.mem_flatMap]

theorem Awaits.mem_pendings {name : String} {ty : Ty} (h : ty.Awaits name) :
    name ∈ ty.pendings := by
  induction h with
  | here => exact List.mem_singleton_self name
  | pointer _ ih | array _ ih | aliased _ ih => exact ih
  | param hparam _ ih => exact List.mem_append_left _ (mem_waitingIn.mpr ⟨_, hparam, ih⟩)
  | result _ ih => exact List.mem_append_right _ ih

mutual

theorem awaits_of_mem_pendings {name : String} : (ty : Ty) → name ∈ ty.pendings → ty.Awaits name
  | pending n, h => by
      rw [List.mem_singleton.mp h]
      exact .here
  | pointer base depth, h => .pointer (awaits_of_mem_pendings base h)
  | array base size, h => .array (awaits_of_mem_pendings base h)
  | aliased n c target, h => .aliased (awaits_of_mem_pendings target h)
  | function n c params result, h => by
      rcases List.mem_append.mp h with hparams | hresult
      · obtain ⟨param, hparam, hawaits⟩ := awaits_of_mem_waitingIn params hparams
        exact .param hparam hawaits
      · exact .result (awaits_of_mem_pendings result hresult)
  | primitive _, h | aggregate _ _ _ _, h | object, h => absurd h List.not_mem_nil

theorem awaits_of_mem_waitingIn {name : String} : (tys : List Ty) → name ∈ waitingIn true tys →
    ∃ ty ∈ tys, ty.Awaits name
  | [], h => absurd h List.not_mem_nil
  | ty :: rest, h => by
      rcases List.mem_append.mp h with hfirst | hrest
      · exact ⟨ty, List.mem_cons_self, awaits_of_mem_pendings ty hfirst⟩
      · obtain ⟨found, hfound, hawaits⟩ := awaits_of_mem_waitingIn rest hrest
        exact ⟨found, List.mem_cons_of_mem ty hfound, hawaits⟩

end

variable {name : String} {ty : Ty}

/-- **The names that a type awaits are its pending names.** -/
theorem mem_pendings_iff : name ∈ ty.pendings ↔ ty.Awaits name :=
  ⟨awaits_of_mem_pendings ty, Awaits.mem_pendings⟩

theorem noPending_iff_not_awaits : ty.NoPending ↔ ∀ name, ¬ ty.Awaits name := by
  simp only [noPending_iff, List.eq_nil_iff_forall_not_mem, mem_pendings_iff]

/-- A name that is found pending is one that the type awaits. -/
theorem awaits_of_pending? (h : ty.pending? = some name) : ty.Awaits name := by
  rw [← head?_pendings] at h
  exact mem_pendings_iff.mp (List.mem_of_head? h)

/-! ## Names that get settled -/

/-- Only a registered name can mean a type that awaits nothing. -/
theorem noPending_meaning_iff {registry : Registry} :
    (registry.meaning name).NoPending
      ↔ ∃ target, registry.get? name = some target ∧ target.NoPending := by
  rw [Registry.meaning]
  cases hget : registry.get? name with
  | none =>
      constructor
      · intro h
        cases h
      · rintro ⟨target, hsome, -⟩
        cases hsome
  | some target =>
      constructor
      · intro h
        exact ⟨target, rfl, h⟩
      · rintro ⟨found, hfound, h⟩
        cases hfound
        exact h

theorem noPending_rescan_iff {registry : Registry} :
    (ty.rescan registry).NoPending
      ↔ ∀ name, ty.Awaits name → (registry.meaning name).NoPending := by
  simp only [noPending_iff, pendings, waiting_rescan, List.flatMap_eq_nil_iff]
  exact forall_congr' fun name => imp_congr_left mem_pendings_iff

/-! ## Types with nothing to settle -/

section

variable {registry : Registry}

mutual

/-- A rescan that has nothing to look up still puts the pointers in order. -/
theorem normal_rescan_of_pendings : (ty : Ty) → ty.pendings = [] → (ty.rescan registry).Normal
  | pending name, h => by cases h
  | pointer base depth, h => by
      rw [rescan]
      exact (normal_rescan_of_pendings base h).pointerTo fun hdepth =>
        Nat.lt_of_lt_of_le (Nat.pos_of_ne_zero hdepth) (Nat.le_add_left _ _)
  | array base size, h => hasDepths_array.mpr (normal_rescan_of_pendings base h)
  | aliased n c target, h => hasDepths_aliased.mpr (normal_rescan_of_pendings target h)
  | function n c params result, h => by
      obtain ⟨hparams, hresult⟩ := List.append_eq_nil_iff.mp h
      exact hasDepths_function.mpr
        ⟨normal_rescanAll_of_waitingIn params hparams, normal_rescan_of_pendings result hresult⟩
  | primitive kind, _ => hasDepths_primitive kind
  | aggregate kind n c scope, _ => hasDepths_aggregate kind n c scope
  | object, _ => hasDepths_object

theorem normal_rescanAll_of_waitingIn : (tys : List Ty) → waitingIn true tys = [] →
    ∀ ty ∈ rescanAll registry tys, ty.Normal
  | [], _ => List.forall_mem_nil _
  | ty :: rest, h => by
      obtain ⟨hfirst, hrest⟩ := List.append_eq_nil_iff.mp h
      exact List.forall_mem_cons.mpr
        ⟨normal_rescan_of_pendings ty hfirst, normal_rescanAll_of_waitingIn rest hrest⟩

end

mutual

theorem rescan_of_normal : (ty : Ty) → ty.Normal → ty.pendings = [] → ty.rescan registry = ty
  | pending name, _, h => by cases h
  | pointer base depth, hnormal, h => by
      obtain ⟨⟨hpos, hbare⟩, hbase⟩ := hasDepths_pointer.mp hnormal
      -- the base is no pointer, so no levels are added up
      rw [rescan, rescan_of_normal base hbase h,
        pointerTo_of_not_isBarePointer hbare (Nat.ne_of_gt hpos)]
  | array base size, hnormal, h => by
      rw [rescan, rescan_of_normal base (hasDepths_array.mp hnormal) h]
  | aliased n c target, hnormal, h => by
      rw [rescan, rescan_of_normal target (hasDepths_aliased.mp hnormal) h]
  | function n c params result, hnormal, h => by
      obtain ⟨hparams, hresult⟩ := hasDepths_function.mp hnormal
      obtain ⟨hnone, hnone'⟩ := List.append_eq_nil_iff.mp h
      rw [rescan, rescanAll_of_normal params hparams hnone, rescan_of_normal result hresult hnone']
  | primitive _, _, _ => rfl
  | aggregate _ _ _ _, _, _ => rfl
  | object, _, _ => rfl

theorem rescanAll_of_normal : (tys : List Ty) → (∀ ty ∈ tys, ty.Normal) →
    waitingIn true tys = [] → rescanAll registry tys = tys
  | [], _, _ => rfl
  | ty :: rest, hnormal, h => by
      obtain ⟨hty, hrest⟩ := List.forall_mem_cons.mp hnormal
      obtain ⟨hnone, hnone'⟩ := List.append_eq_nil_iff.mp h
      rw [rescanAll, rescan_of_normal ty hty hnone, rescanAll_of_normal rest hrest hnone']

end

theorem rescan_eq_self_iff {ty : Ty} (h : ty.NoPending) :
    ty.rescan registry = ty ↔ ty.Normal := by
  have hnone := noPending_iff.mp h
  constructor
  · intro heq
    have hnormal : (ty.rescan registry).Normal := normal_rescan_of_pendings ty hnone
    rwa [heq] at hnormal
  · intro hnormal
    exact rescan_of_normal ty hnormal hnone

end

/-- **A rescan settles what the registry can settle, and nothing else.** Nothing is pending after it
just if every name that the type awaits is registered with a type in which nothing is pending. A
type that awaits no name stays as it is just if it is in normal form. -/
theorem rescan_settles_exactly (registry : Registry) (ty : Ty) :
    ((ty.rescan registry).pending? = none
        ↔ ∀ name, ty.Awaits name →
            ∃ target, registry.get? name = some target ∧ target.pending? = none)
      ∧ ((∀ name, ¬ ty.Awaits name) → (ty.rescan registry = ty ↔ ty.Normal)) := by
  constructor
  · exact noPending_rescan_iff.trans (forall₂_congr fun _ _ => noPending_meaning_iff)
  · intro hawaits
    exact rescan_eq_self_iff (noPending_iff_not_awaits.mpr hawaits)

/-- A pointer to a function that takes three nodes and a link, and returns a handle. -/
def visitorType : Ty :=
  pointer
    (function none none
      [array (pending "node") 3,
        aliased "link" "__extc_t_Object_link" (pointer (pending "node") 1)]
      (pending "handle")) 1

/-- The type is settled once `node` and `handle` are defined, and not before. A further look changes
nothing, whatever the registry. -/
theorem visitorType_rescan :
    visitorType.Normal ∧ visitorType.Awaits "node"
      ∧ (∃ target, Registry.listAfter.get? "node" = some target ∧ target.pending? = none)
      ∧ (visitorType.rescan .listBefore).pending? = some "node"
      ∧ (visitorType.rescan .listAfter).rescan .listBefore = visitorType.rescan .listAfter := by
  have hnode : visitorType.Awaits "node" := awaits_of_pending? rfl
  have hsettled : (visitorType.rescan .listAfter).NoPending := by decide
  refine ⟨by decide, hnode, ?_, by decide, ?_⟩
  · exact (rescan_settles_exactly .listAfter visitorType).1.mp hsettled "node" hnode
  · exact ((rescan_settles_exactly .listBefore (visitorType.rescan .listAfter)).2
      (noPending_iff_not_awaits.mp hsettled)).mpr (by decide)

end Ty

end ExtensionCompiler

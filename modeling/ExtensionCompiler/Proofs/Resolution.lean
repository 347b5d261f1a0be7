import ExtensionCompiler.Ty.Descriptor

set_option autoImplicit false

/-! # Resolution now or later

A descriptor can be resolved against an early registry and rescanned against a later one, or be
resolved against the later one at once. `Registry.SettlesTo` says what the two registries must have
in common: every name that the early one binds is bound by the later one to the rescanned type.
`Ty.rescan_resolve_eq_resolve_late` says that the two ways then end in one type.

Depths of indirection are merged on both ways, at other moments. That this makes no difference is
`Ty.rescan_pointerTo`. -/

namespace ExtensionCompiler

/-! ## Levels of indirection -/

namespace Ty

@[simp] theorem pointerTo_zero (base : Ty) : pointerTo base 0 = base := by
  simp [pointerTo]

theorem pointerTo_pointer (base : Ty) (inner depth : Nat) :
    pointerTo (pointer base inner) depth = if depth = 0 then pointer base inner
      else pointer base (inner + depth) := by
  simp [pointerTo]

/-- Levels of indirection add up, whatever lies under them. -/
theorem pointerTo_pointerTo (base : Ty) (inner outer : Nat) :
    pointerTo (pointerTo base inner) outer = pointerTo base (inner + outer) := by
  by_cases hin : inner = 0
  · subst hin
    rw [pointerTo_zero, Nat.zero_add]
  · by_cases hout : outer = 0
    · subst hout
      rw [pointerTo_zero, Nat.add_zero]
    · have hsum : inner + outer ≠ 0 := by omega
      cases base with
      | pointer base depth =>
          rw [pointerTo_pointer, pointerTo_pointer, if_neg hin, if_neg hsum, pointerTo_pointer,
            if_neg hout, Nat.add_assoc]
      | _ => simp [pointerTo, hin, hout]

/-- A rescan goes under levels of indirection, also where it uncovers further ones. -/
theorem rescan_pointerTo (registry : Registry) (base : Ty) (depth : Nat) :
    (pointerTo base depth).rescan registry = pointerTo (base.rescan registry) depth := by
  by_cases hd : depth = 0
  · subst hd
    rw [pointerTo_zero, pointerTo_zero]
  · cases base with
    | pointer base inner =>
        -- the inner levels may meet new ones below them before the outer ones are added
        rw [pointerTo_pointer, if_neg hd, rescan, rescan, pointerTo_pointerTo]
    | _ => simp [pointerTo, hd, rescan]

end Ty

/-! ## What a name stands for -/

/-- The type that a name stands for, the pending name if it is not bound. -/
def Registry.meaning (registry : Registry) (name : String) : Ty :=
  (registry.get? name).getD (.pending name)

/-- The type of a name that is a keyword. -/
def Descriptor.keyword? (name : String) : Option Ty :=
  match Primitive.ofKeyword? (String.ofList (normalised name)) with
  | some kind => some (.primitive kind)
  | none => if normalised name = "object".toList then some .object else none

theorem Descriptor.type_of_keyword? {name : String} {ty : Ty} (h : keyword? name = some ty) :
    (∃ kind, ty = .primitive kind) ∨ ty = .object := by
  unfold keyword? at h
  split at h
  · exact .inl ⟨_, (Option.some.inj h).symm⟩
  · split at h
    · exact .inr (Option.some.inj h).symm
    · cases h

/-- The name that a registry is asked for. -/
def Descriptor.key (name : String) : String := String.ofList (bareName (normalised name))

namespace Ty

theorem rescan_pending (registry : Registry) (name : String) :
    (pending name).rescan registry = registry.meaning name := by
  rw [rescan, Registry.meaning]

/-- A name is a keyword, or it means what the registry says. -/
theorem resolveName_eq (registry : Registry) (name : String) :
    resolveName registry name
      = (Descriptor.keyword? name).getD (registry.meaning (Descriptor.key name)) := by
  unfold resolveName Descriptor.keyword?
  dsimp only
  -- the table of keywords is long, and nothing here depends on what is in it
  generalize Primitive.ofKeyword? (String.ofList (Descriptor.normalised name)) = found
  cases found with
  | some kind => rfl
  | none =>
      by_cases hobj : Descriptor.normalised name = "object".toList
      · simp only [if_pos hobj, Option.getD_some]
      · simp only [if_neg hobj, Option.getD_none, Registry.meaning, Descriptor.key]

/-- The type of a keyword holds nothing that a rescan could change. -/
theorem rescan_of_keyword? {name : String} {ty : Ty} (h : Descriptor.keyword? name = some ty)
    (registry : Registry) : ty.rescan registry = ty := by
  rcases Descriptor.type_of_keyword? h with ⟨kind, rfl⟩ | rfl
  · rw [rescan]
  · rw [rescan]

end Ty

/-! ## Registries that know more later -/

namespace Registry

/-- Every name that `early` binds means in `late` what a rescan makes of the early type. -/
def SettlesTo (early late : Registry) : Prop :=
  ∀ name ty, early.get? name = some ty → ty.rescan late = late.meaning name

/-- A bound type stands in the bindings, under its name. -/
theorem mem_of_get? {registry : Registry} {name : String} {ty : Ty}
    (h : registry.get? name = some ty) :
    ∃ b ∈ registry.bindings, b.name = name ∧ b.type = ty := by
  obtain ⟨b, hb, rfl⟩ := Option.map_eq_some_iff.mp h
  refine ⟨b, List.mem_of_find?_eq_some hb, ?_, rfl⟩
  simpa using List.find?_some hb

/-- It is enough to look at the bindings. -/
theorem settlesTo_of_bindings {early late : Registry}
    (h : ∀ b ∈ early.bindings, b.type.rescan late = late.meaning b.name) :
    early.SettlesTo late := by
  intro name ty hget
  obtain ⟨b, hb, rfl, rfl⟩ := mem_of_get? hget
  exact h b hb

theorem SettlesTo.rescan_meaning {early late : Registry} (h : early.SettlesTo late)
    (name : String) : (early.meaning name).rescan late = late.meaning name := by
  cases hget : early.get? name with
  | none =>
      -- The name is pending, and the rescan looks it up.
      rw [meaning, hget, Option.getD_none, Ty.rescan_pending]
  | some ty =>
      rw [meaning, hget, Option.getD_some]
      exact h name ty hget

end Registry

/-! ## Early and late resolution -/

namespace Ty

theorem rescan_resolveName {early late : Registry} (h : early.SettlesTo late) (name : String) :
    (resolveName early name).rescan late = resolveName late name := by
  rw [resolveName_eq, resolveName_eq]
  cases hk : Descriptor.keyword? name with
  | some ty => exact rescan_of_keyword? hk late
  | none => exact h.rescan_meaning (Descriptor.key name)

mutual

/-- By recursion on the descriptor: a signature resolves its parameters one by one. -/
theorem rescan_resolve {early late : Registry} (h : early.SettlesTo late) :
    (d : Descriptor) → (depth : Nat) → (resolve early d depth).rescan late = resolve late d depth
  | .named name, depth => by
      rw [resolve, resolve, rescan_pointerTo, rescan_resolveName h]
  | .signature base params resultDepth, depth => by
      rw [resolve, resolve, rescan_pointerTo, rescan, rescan_pointerTo, rescan_resolveName h,
        rescanAll_resolveParams h params]

theorem rescanAll_resolveParams {early late : Registry} (h : early.SettlesTo late) :
    (params : List (Descriptor × Nat)) →
      rescanAll late (resolveParams early params) = resolveParams late params
  | [] => rfl
  | (d, depth) :: rest => by
      rw [resolveParams, resolveParams, rescanAll, rescan_resolve h d depth,
        rescanAll_resolveParams h rest]

end

/-- **Resolving early and rescanning later is resolving late.** The two registries may differ in any
way in which names get settled: a pending name may have become an aggregate, an alias or a pointer,
and an alias that was registered with a pending name in it may have been filled in. -/
theorem rescan_resolve_eq_resolve_late (early late : Registry)
    (h : ∀ name ty, early.get? name = some ty →
      ty.rescan late = (late.get? name).getD (pending name))
    (d : Descriptor) (depth : Nat) :
    (resolve early d depth).rescan late = resolve late d depth :=
  rescan_resolve h d depth

end Ty

/-! ## An instance

A list type and a handle: `link` was registered as an alias while `node` was pending, and `handle`
turns out to be a pointer. -/

namespace Registry

def listBefore : Registry :=
  ⟨[⟨"node", .pending "node", .unknown⟩, ⟨"handle", .pending "handle", .unknown⟩,
    ⟨"link", .aliased "link" "__extc_t_Object_link" (.pointer (.pending "node") 1), .unknown⟩]⟩

def listAfter : Registry :=
  ⟨[⟨"node", .aggregate .struct "node" "__extc_t_Object_node" 1, .unknown⟩,
    ⟨"handle", .pointer (.primitive .char) 2, .unknown⟩,
    ⟨"link", .aliased "link" "__extc_t_Object_link"
      (.pointer (.aggregate .struct "node" "__extc_t_Object_node" 1) 1), .unknown⟩]⟩

/-- A pointer to a function that takes a pointer to a `link` and a function pointer, and returns a
pointer to a `handle`. -/
def listDescriptor : Descriptor :=
  .signature "handle" [(.named "link", 1), (.signature "struct node" [(.named "handle", 3)] 1, 0)] 1

theorem listBefore_settlesTo : listBefore.SettlesTo listAfter :=
  settlesTo_of_bindings (by decide +kernel)

theorem rescan_resolve_listDescriptor :
    listBefore.SettlesTo listAfter
      ∧ (Ty.resolve listBefore listDescriptor 2).rescan listAfter
        = Ty.resolve listAfter listDescriptor 2 :=
  ⟨listBefore_settlesTo,
    Ty.rescan_resolve_eq_resolve_late listBefore listAfter listBefore_settlesTo listDescriptor 2⟩

end Registry

end ExtensionCompiler

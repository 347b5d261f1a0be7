import ExtensionCompiler.Proofs.Resolution
import ExtensionCompiler.Ty.Compatible

set_option autoImplicit false

/-! # Compatibility before and after the second pass

Values are checked against their slots in the first pass, when types may still hold pending names,
and the check is not repeated. So what it decides must outlive the rescan. `Ty.compatible_rescan`
says that it does: types that are the same stay the same, and a slot goes on taking what it took,
unless the rescan turns the slot into `void`, which takes nothing at all.

Levels of indirection are what could go wrong. A rescan merges the levels over a name with those of
its meaning, and `holds` counts levels. So the statement is about registries in which no name stands
for a pointer (an alias of a pointer is no pointer here), and about types in which no pointer stands
right over another (`Ty.Flat`). -/

namespace ExtensionCompiler

/-! ## Pointers over pointers -/

/-- Whether the type is a pointer as it stands, without looking through aliases. -/
def Ty.isBarePointer : Ty → Bool
  | pointer _ _ => true
  | _ => false

/-- No name stands for a pointer. -/
def Registry.Pointerless (registry : Registry) : Prop :=
  ∀ name ty, registry.get? name = some ty → ty.isBarePointer = false

namespace Ty

mutual

/-- No pointer in the type stands right over another pointer. -/
def Flat : Ty → Prop
  | pointer base _ => base.isBarePointer = false ∧ base.Flat
  | array base _ => base.Flat
  | aliased _ _ target => target.Flat
  | function _ _ params result => FlatAll params ∧ result.Flat
  | primitive _ => True
  | aggregate _ _ _ _ => True
  | object => True
  | pending _ => True

def FlatAll : List Ty → Prop
  | [] => True
  | ty :: rest => ty.Flat ∧ FlatAll rest

end

theorem Flat.unaliased (ty : Ty) (h : ty.Flat) : ty.unaliased.Flat := by
  fun_induction Ty.unaliased ty with
  | case1 name cName target ih => exact ih h
  | case2 ty _ => exact h

variable {registry : Registry}

/-- A rescan brings no pointer up from below a name. -/
theorem isBarePointer_rescan (hreg : registry.Pointerless) {ty : Ty}
    (h : ty.isBarePointer = false) : (ty.rescan registry).isBarePointer = false := by
  cases ty with
  | pointer base depth => cases h
  | pending name =>
      rw [rescan]
      cases hget : registry.get? name with
      | none => rfl
      | some ty => exact hreg name ty hget
  | _ => rfl

theorem pointerTo_of_not_isBarePointer {base : Ty} (h : base.isBarePointer = false) {depth : Nat}
    (hd : depth ≠ 0) : pointerTo base depth = pointer base depth := by
  cases base with
  | pointer base inner => cases h
  | _ => simp [pointerTo, hd]

/-! ## Looking through aliases -/

/-- A rescan may uncover an alias, but it keeps those that are there. -/
theorem unaliased_rescan (registry : Registry) (ty : Ty) :
    (ty.unaliased.rescan registry).unaliased = (ty.rescan registry).unaliased := by
  fun_induction unaliased ty with
  | case1 name cName target ih => exact ih
  | case2 ty _ => rfl

theorem concrete_unaliased (ty : Ty) : ty.unaliased.concrete = ty.concrete := by
  fun_induction unaliased ty with
  | case1 name cName target ih => exact ih
  | case2 ty _ => rfl

/-- A rescan goes into aliases and results. -/
theorem concrete_rescan (registry : Registry) (ty : Ty) :
    (ty.concrete.rescan registry).concrete = (ty.rescan registry).concrete := by
  fun_induction concrete ty with
  | case1 name cName target ih | case2 name cName params result ih => exact ih
  | case3 ty _ _ => rfl

theorem unaliased_same (b a : Ty) : a.unaliased.same b = a.same b := by
  fun_induction unaliased a with
  | case1 name cName target ih =>
      rw [same]
      exact ih
  | case2 a _ => rfl

theorem same_unaliased (b : Ty) : (a : Ty) → a.same b.unaliased = a.same b
  | aliased _ _ target => by
      rw [same, same]
      exact same_unaliased b target
  | object => by rw [same, same, isObject, isObject, unaliased_unaliased]
  | primitive _ | pointer _ _ | array _ _ | aggregate _ _ _ _ | function _ _ _ _ | pending _ => by
      rw [same, same, unaliased_unaliased]

theorem holds_unaliased (a b : Ty) : a.unaliased.holds b.unaliased = a.holds b := by
  unfold holds
  rw [unaliased_unaliased, unaliased_unaliased]

/-- A type that is known behind its aliases may be rescanned without them. -/
theorem same_rescan_of_unaliased (a : Ty) {b c : Ty}
    (h : b.unaliased = c) : a.same (b.rescan registry) = a.same (c.rescan registry) := by
  rw [← same_unaliased (b.rescan registry), ← unaliased_rescan, h, same_unaliased]

theorem holds_rescan_of_unaliased {a b a' b' : Ty} (ha : a.unaliased = a') (hb : b.unaliased = b') :
    (a.rescan registry).holds (b.rescan registry)
      = (a'.rescan registry).holds (b'.rescan registry) := by
  rw [← holds_unaliased, ← unaliased_rescan registry a, ← unaliased_rescan registry b, ha, hb,
    holds_unaliased]

/-! ## Types that are the same -/

mutual

theorem same_refl : (ty : Ty) → ty.same ty = true
  | aliased name cName target => by
      rw [same, ← same_unaliased, unaliased, same_unaliased]
      exact same_refl target
  | primitive _ | aggregate _ _ _ _ | pending _ => by simp [same, unaliased]
  | pointer base _ | array base _ => by simp [same, unaliased, same_refl base]
  | function _ _ params result => by
      simp [same, unaliased, sameAll_refl params, same_refl result]
  | object => rfl

theorem sameAll_refl : (tys : List Ty) → sameAll tys tys = true
  | [] => rfl
  | ty :: rest => by rw [sameAll, same_refl ty, sameAll_refl rest, Bool.and_self]

end

/-- Equal levels over types that are the same. -/
theorem same_pointerTo {a b : Ty} (ha : a.isBarePointer = false) (hb : b.isBarePointer = false)
    (h : a.same b = true) (depth : Nat) :
    (pointerTo a depth).same (pointerTo b depth) = true := by
  by_cases hd : depth = 0
  · subst hd
    rwa [pointerTo_zero, pointerTo_zero]
  · rw [pointerTo_of_not_isBarePointer ha hd, pointerTo_of_not_isBarePointer hb hd]
    simp [same, unaliased, h]

mutual

/-- By recursion on the left type. What the right one is behind its aliases, the left one says. -/
theorem same_rescan {registry : Registry} (hreg : registry.Pointerless) : (a b : Ty) →
    a.Flat → b.Flat → a.same b = true →
    (a.rescan registry).same (b.rescan registry) = true
  | aliased name cName target, b, ha, hb, h => by
      rw [same] at h
      rw [rescan, same]
      exact same_rescan hreg target b ha hb h
  | primitive k, b, _, _, h => by
      rw [same] at h
      split at h
      · rename_i l hl
        rw [same_rescan_of_unaliased _ hl]
        simpa [same, rescan, unaliased] using h
      · cases h
  | pointer base depth, b, ha, hb, h => by
      rw [same] at h
      split at h
      · rename_i base' depth' hb'
        rw [Bool.and_eq_true, decide_eq_true_eq] at h
        obtain ⟨rfl, hbase⟩ := h
        have hflat : base'.isBarePointer = false ∧ base'.Flat := by
          have hun := hb.unaliased
          rwa [hb'] at hun
        have ih := same_rescan hreg base base' ha.2 hflat.2 hbase
        rw [same_rescan_of_unaliased _ hb', rescan, rescan]
        exact same_pointerTo (isBarePointer_rescan hreg ha.1) (isBarePointer_rescan hreg hflat.1)
          ih depth
      · cases h
  | array base size, b, ha, hb, h => by
      rw [same] at h
      split at h
      · rename_i base' size' hb'
        rw [Bool.and_eq_true, decide_eq_true_eq] at h
        obtain ⟨rfl, hbase⟩ := h
        have hflat : base'.Flat := by
          have hun := hb.unaliased
          rwa [hb'] at hun
        have ih := same_rescan hreg base base' ha hflat hbase
        rw [same_rescan_of_unaliased _ hb']
        simp [same, rescan, unaliased, ih]
      · cases h
  | aggregate kind name cName scope, b, _, _, h => by
      rw [same] at h
      split at h
      · rename_i hb'
        rw [same_rescan_of_unaliased _ hb']
        simpa [same, rescan, unaliased] using h
      · cases h
  | function name cName params result, b, ha, hb, h => by
      rw [same] at h
      split at h
      · rename_i params' result' hb'
        rw [Bool.and_eq_true] at h
        have hflat : FlatAll params' ∧ result'.Flat := by
          have hun := hb.unaliased
          rwa [hb'] at hun
        have ihparams := sameAll_rescanAll hreg params params' ha.1 hflat.1 h.1
        have ihresult := same_rescan hreg result result' ha.2 hflat.2 h.2
        rw [same_rescan_of_unaliased _ hb']
        simp [same, rescan, unaliased, ihparams, ihresult]
      · cases h
  | object, b, _, _, h => by
      rw [same, isObject] at h
      split at h
      · rename_i hb'
        rw [same_rescan_of_unaliased _ hb']
        rfl
      · cases h
  | pending name, b, _, _, h => by
      rw [same] at h
      split at h
      · rename_i name' hb'
        -- both become the meaning of the one name, whatever that is
        rw [same_rescan_of_unaliased _ hb', of_decide_eq_true h]
        exact same_refl _
      · cases h

theorem sameAll_rescanAll {registry : Registry} (hreg : registry.Pointerless) :
    (as bs : List Ty) → FlatAll as → FlatAll bs → sameAll as bs = true →
    sameAll (rescanAll registry as) (rescanAll registry bs) = true
  | [], [], _, _, _ => rfl
  | [], _ :: _, _, _, h => nomatch h
  | _ :: _, [], _, _, h => nomatch h
  | a :: as, b :: bs, ha, hb, h => by
      rw [sameAll, Bool.and_eq_true] at h
      rw [rescanAll, rescanAll, sameAll, same_rescan hreg a b ha.1 hb.1 h.1,
        sameAll_rescanAll hreg as bs ha.2 hb.2 h.2, Bool.and_self]

end

/-! ## Slots and the values they take -/

theorem isVoid_rescan (registry : Registry) {ty : Ty} (h : ty.isVoid = true) :
    (ty.rescan registry).isVoid = true := by
  unfold isVoid at h ⊢
  split at h
  · rename_i hvoid
    rw [← unaliased_rescan, hvoid]
    rfl
  · cases h

variable {a b : Ty}

/-- `void` takes nothing. -/
theorem isVoid_of_holds (h : a.holds b = true) : a.isVoid = false := by
  unfold holds at h
  unfold isVoid
  split at h
  · rename_i k l hk _
    rw [hk]
    cases k with
    | void => exact absurd h (by simp [Primitive.holds, Primitive.rank?])
    | _ => rfl
  all_goals simp_all

theorem primitive_holds_self {k : Primitive} (h : (primitive k).isVoid = false) :
    k.holds k = true := by
  cases k with
  | void => cases h
  | _ => rfl

/-- Apart from numbers and pointers, a slot takes what has its own type and nothing else. -/
theorem holds_eq_same (b : Ty) : (a : Ty) → (∀ k, a.unaliased ≠ primitive k) →
    (∀ base depth, a.unaliased ≠ pointer base depth) → a.holds b = a.same b
  | aliased _ _ target, hk, hp => by
      rw [same]
      exact holds_eq_same b target hk hp
  | primitive k, hk, _ => absurd rfl (hk k)
  | pointer base depth, _, hp => absurd rfl (hp base depth)
  | object, _, _ => by
      rw [same, isObject, holds]
      cases b.unaliased <;> rfl
  | array _ _, _, _ | aggregate _ _ _ _, _, _ | function _ _ _ _, _, _ | pending _, _, _ => by
      rw [same, holds]
      cases b.unaliased <;> rfl

/-- Every slot but `void` takes what has its own type. -/
theorem holds_of_same (h : a.same b = true) (hvoid : a.isVoid = false) : a.holds b = true := by
  cases ha : a.unaliased with
  | primitive k =>
      rw [← unaliased_same, ha, same] at h
      rw [isVoid, ha] at hvoid
      split at h
      · rename_i l hb
        rw [← of_decide_eq_true h] at hb
        unfold holds
        rw [ha, hb]
        exact primitive_holds_self hvoid
      · cases h
  | pointer base depth =>
      rw [← unaliased_same, ha, same] at h
      split at h
      · rename_i base' depth' hb
        rw [Bool.and_eq_true, decide_eq_true_eq] at h
        obtain ⟨rfl, hbase⟩ := h
        unfold holds
        rw [ha, hb]
        dsimp only
        split
        · rename_i hcond
          exact decide_eq_true hcond.1
        · simp [hbase]
      · cases h
  | _ =>
      rw [holds_eq_same b a (by simp [ha]) (by simp [ha])]
      exact h

/-- The ways in which a slot takes a value: numbers widen, a `void` pointer takes any single
pointer, a single pointer takes an array, and all else is the same. -/
theorem holds_cases (h : a.holds b = true) :
    (∃ k l, a.unaliased = primitive k ∧ b.unaliased = primitive l ∧ k.holds l = true)
      ∨ (∃ base base', a.unaliased = pointer base 1 ∧ base.isVoid = true
        ∧ b.unaliased = pointer base' 1)
      ∨ (∃ base base' size, a.unaliased = pointer base 1 ∧ b.unaliased = array base' size
        ∧ base.same base' = true)
      ∨ a.same b = true := by
  cases ha : a.unaliased with
  | primitive k =>
      unfold holds at h
      rw [ha] at h
      cases hb : b.unaliased with
      | primitive l =>
          rw [hb] at h
          exact .inl ⟨k, l, rfl, rfl, h⟩
      | _ => rw [hb] at h; cases h
  | pointer base depth =>
      unfold holds at h
      rw [ha] at h
      cases hb : b.unaliased with
      | pointer base' depth' =>
          rw [hb] at h
          dsimp only at h
          split at h
          · rename_i hcond
            have hd : depth' = 1 := of_decide_eq_true h
            exact .inr (.inl ⟨base, base', by rw [hcond.1], hcond.2, by rw [hd]⟩)
          · refine .inr (.inr (.inr ?_))
            rw [← unaliased_same, ha, same, hb]
            exact h
      | array base' size =>
          rw [hb] at h
          dsimp only at h
          rw [Bool.and_eq_true, decide_eq_true_eq] at h
          exact .inr (.inr (.inl ⟨base, base', size, by rw [h.1], rfl, h.2⟩))
      | _ => rw [hb] at h; cases h
  | _ =>
      refine .inr (.inr (.inr ?_))
      rw [← holds_eq_same b a (by simp [ha]) (by simp [ha])]
      exact h

theorem holds_rescan {registry : Registry} (hreg : registry.Pointerless) (ha : a.Flat)
    (hb : b.Flat) (h : a.holds b = true) (hvoid : (a.rescan registry).isVoid = false) :
    (a.rescan registry).holds (b.rescan registry) = true := by
  -- a rescan of a single pointer over what is no pointer is a single pointer again
  have hpointer {base : Ty} (hbase : (pointer base 1).Flat) :
      (pointer base 1).rescan registry = pointer (base.rescan registry) 1 := by
    rw [rescan]
    exact pointerTo_of_not_isBarePointer (isBarePointer_rescan hreg hbase.1) (by decide)
  have hflat := ha.unaliased
  have hflat' := hb.unaliased
  rcases holds_cases h with ⟨k, l, hk, hl, hkl⟩ | ⟨base, base', hp, hbase, hp'⟩
    | ⟨base, base', size, hp, hp', hbase⟩ | hsame
  · rw [holds_rescan_of_unaliased hk hl]
    exact hkl
  · rw [hp] at hflat
    rw [hp'] at hflat'
    rw [holds_rescan_of_unaliased hp hp', hpointer hflat, hpointer hflat']
    simp [holds, unaliased, isVoid_rescan registry hbase]
  · rw [hp] at hflat
    rw [hp'] at hflat'
    have ih := same_rescan hreg base base' hflat.2 hflat' hbase
    rw [holds_rescan_of_unaliased hp hp', hpointer hflat]
    simp [holds, unaliased, rescan, ih]
  · exact holds_of_same (same_rescan hreg a b ha hb hsame) hvoid

/-- **Compatibility outlives the second pass.** Types that were the same are the same after the
rescan. A slot that took a value takes it after the rescan just if it has not become `void`. -/
theorem compatible_rescan (registry : Registry) (hreg : registry.Pointerless) (a b : Ty)
    (ha : a.Flat) (hb : b.Flat) :
    (a.same b = true → (a.rescan registry).same (b.rescan registry) = true)
      ∧ (a.holds b = true →
        ((a.rescan registry).holds (b.rescan registry) = true
          ↔ (a.rescan registry).isVoid = false)) :=
  ⟨same_rescan hreg a b ha hb, fun h => ⟨isVoid_of_holds, holds_rescan hreg ha hb h⟩⟩

end Ty

/-! ## An instance

A name that turns out to be an alias of a pointer, and one that turns out to be `void`. -/

namespace Registry

theorem pointerless_of_bindings {registry : Registry}
    (h : ∀ b ∈ registry.bindings, b.type.isBarePointer = false) : registry.Pointerless := by
  intro name ty hget
  obtain ⟨b, hb, -, rfl⟩ := mem_of_get? hget
  exact h b hb

def linkAndNothing : Registry :=
  ⟨[⟨"link", .aliased "link" "__extc_t_Object_link"
      (.pointer (.aggregate .struct "node" "__extc_t_Object_node" 1) 1), .unknown⟩,
    ⟨"nothing", .aliased "nothing" "__extc_t_Object_nothing" .void, .unknown⟩]⟩

/-- A pointer to links takes an array of links before and after the rescan. A slot of the type
`nothing` takes a value of that type before and not after. -/
theorem compatible_rescan_linkAndNothing :
    linkAndNothing.Pointerless
      ∧ (Ty.pointer (.pending "link") 1).holds (.array (.pending "link") 3) = true
      ∧ ((Ty.pointer (.pending "link") 1).rescan linkAndNothing).holds
          ((Ty.array (.pending "link") 3).rescan linkAndNothing) = true
      ∧ (Ty.pending "nothing").holds (.pending "nothing") = true
      ∧ ¬ ((Ty.pending "nothing").rescan linkAndNothing).holds
          ((Ty.pending "nothing").rescan linkAndNothing) = true := by
  have hreg : linkAndNothing.Pointerless := pointerless_of_bindings (by decide)
  have hlink := Ty.compatible_rescan linkAndNothing hreg (.pointer (.pending "link") 1)
    (.array (.pending "link") 3) ⟨rfl, trivial⟩ trivial
  have hnothing := Ty.compatible_rescan linkAndNothing hreg (.pending "nothing")
    (.pending "nothing") trivial trivial
  refine ⟨hreg, by decide, (hlink.2 (by decide)).mpr (by decide +kernel), by decide, ?_⟩
  rw [hnothing.2 (by decide)]
  decide +kernel

end Registry

end ExtensionCompiler

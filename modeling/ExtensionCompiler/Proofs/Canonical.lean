import ExtensionCompiler.Proofs.Compatibility

set_option autoImplicit false

/-! # Canonical forms of types

`Ty.canonical` takes all aliases out of a type, the names of functions with them, and leaves of an
aggregate its kind and its name. Two types are the same for the checker just if their canonical
forms are equal (`Ty.same_iff_canonical_eq`), so being the same is an equivalence. What a slot takes
depends on canonical forms alone (`Ty.holds_canonical`).

Aliases are taken out and nothing is merged: a pointer to an alias of a pointer is not the same as
a pointer with two levels. -/

namespace ExtensionCompiler.Ty

mutual

/-- The type without aliases and without the names of functions. Of an aggregate, kind and name are
left; its C name and its scope are blanked. -/
def canonical : Ty → Ty
  | primitive kind => primitive kind
  | pointer base depth => pointer base.canonical depth
  | array base size => array base.canonical size
  | aggregate kind name _ _ => aggregate kind name "" 0
  | aliased _ _ target => target.canonical
  | function _ _ params result => function none none (canonicalAll params) result.canonical
  | object => object
  | pending name => pending name

def canonicalAll : List Ty → List Ty
  | [] => []
  | ty :: rest => ty.canonical :: canonicalAll rest

end

/-! ## Aliases and canonical forms -/

theorem unaliased_ne_aliased (ty : Ty) (name cName : String) (target : Ty) :
    ty.unaliased ≠ aliased name cName target := by
  fun_induction unaliased ty with
  | case1 _ _ inner ih => exact ih
  | case2 ty hty => exact hty name cName target

theorem canonical_unaliased (ty : Ty) : ty.unaliased.canonical = ty.canonical := by
  fun_induction unaliased ty with
  | case1 name cName target ih =>
      rw [canonical]
      exact ih
  | case2 ty _ => rfl

@[simp] theorem unaliased_canonical (ty : Ty) : ty.canonical.unaliased = ty.canonical := by
  fun_induction unaliased ty with
  | case1 name cName target ih =>
      rw [canonical]
      exact ih
  | case2 ty hty =>
      cases ty with
      | aliased name cName target => exact absurd rfl (hty name cName target)
      | _ => rfl

mutual

@[simp] theorem canonical_canonical : (ty : Ty) → ty.canonical.canonical = ty.canonical
  | aliased _ _ target => by
      rw [canonical]
      exact canonical_canonical target
  | pointer base _ | array base _ => by simp [canonical, canonical_canonical base]
  | function _ _ params result => by
      simp [canonical, canonicalAll_canonicalAll params, canonical_canonical result]
  | primitive _ => rfl
  | aggregate _ _ _ _ => rfl
  | object => rfl
  | pending _ => rfl

theorem canonicalAll_canonicalAll : (tys : List Ty) →
    canonicalAll (canonicalAll tys) = canonicalAll tys
  | [] => rfl
  | ty :: rest => by
      simp [canonicalAll, canonical_canonical ty, canonicalAll_canonicalAll rest]

end

/-- Whether a type is `void` can be told from its canonical form. -/
theorem isVoid_canonical (ty : Ty) : ty.canonical.isVoid = ty.isVoid := by
  rw [isVoid, isVoid, unaliased_canonical, ← canonical_unaliased]
  cases hty : ty.unaliased with
  | aliased name cName target => exact absurd hty (ty.unaliased_ne_aliased name cName target)
  | _ => rfl

theorem isVoid_iff (ty : Ty) : ty.isVoid = true ↔ ty.unaliased = void := by
  rw [isVoid, void]
  cases ty.unaliased with
  | primitive kind => cases kind <;> simp
  | _ => simp

/-! ## Types that are the same -/

mutual

/-- By recursion on the left type. The right one is taken behind its aliases, where its constructor
can be compared. -/
theorem same_iff_canonical_eq : (a b : Ty) → (a.same b = true ↔ a.canonical = b.canonical)
  | aliased _ _ target, b => by
      rw [same, canonical]
      exact same_iff_canonical_eq target b
  | primitive k, b => by
      rw [← same_unaliased b, ← canonical_unaliased b]
      cases hb : b.unaliased with
      | aliased name cName target => exact absurd hb (b.unaliased_ne_aliased name cName target)
      | _ => simp [same, unaliased, canonical]
  | pointer base depth, b => by
      rw [← same_unaliased b, ← canonical_unaliased b]
      cases hb : b.unaliased with
      | aliased name cName target => exact absurd hb (b.unaliased_ne_aliased name cName target)
      | pointer base' depth' =>
          simp [same, unaliased, canonical, same_iff_canonical_eq base base', and_comm]
      | _ => simp [same, unaliased, canonical]
  | array base size, b => by
      rw [← same_unaliased b, ← canonical_unaliased b]
      cases hb : b.unaliased with
      | aliased name cName target => exact absurd hb (b.unaliased_ne_aliased name cName target)
      | array base' size' =>
          simp [same, unaliased, canonical, same_iff_canonical_eq base base', and_comm]
      | _ => simp [same, unaliased, canonical]
  | aggregate kind name _ _, b => by
      rw [← same_unaliased b, ← canonical_unaliased b]
      cases hb : b.unaliased with
      | aliased name cName target => exact absurd hb (b.unaliased_ne_aliased name cName target)
      | _ => simp [same, unaliased, canonical]
  | function _ _ params result, b => by
      rw [← same_unaliased b, ← canonical_unaliased b]
      cases hb : b.unaliased with
      | aliased name cName target => exact absurd hb (b.unaliased_ne_aliased name cName target)
      | function name' cName' params' result' =>
          simp [same, unaliased, canonical, sameAll_iff_canonicalAll_eq params params',
            same_iff_canonical_eq result result']
      | _ => simp [same, unaliased, canonical]
  | object, b => by
      rw [← same_unaliased b, ← canonical_unaliased b]
      cases hb : b.unaliased with
      | aliased name cName target => exact absurd hb (b.unaliased_ne_aliased name cName target)
      | _ => simp [same, isObject, unaliased, canonical]
  | pending name, b => by
      rw [← same_unaliased b, ← canonical_unaliased b]
      cases hb : b.unaliased with
      | aliased name cName target => exact absurd hb (b.unaliased_ne_aliased name cName target)
      | _ => simp [same, unaliased, canonical]

theorem sameAll_iff_canonicalAll_eq : (as bs : List Ty) →
    (sameAll as bs = true ↔ canonicalAll as = canonicalAll bs)
  | [], [] | [], _ :: _ => by simp [sameAll, canonicalAll]
  | _ :: _, [] => by simp [sameAll, canonicalAll]
  | a :: as, b :: bs => by
      simp [sameAll, canonicalAll, same_iff_canonical_eq a b, sameAll_iff_canonicalAll_eq as bs]

end

theorem same_canonical (a b : Ty) : a.canonical.same b.canonical = a.same b := by
  rw [Bool.eq_iff_iff, same_iff_canonical_eq, same_iff_canonical_eq, canonical_canonical,
    canonical_canonical]

/-! ## What a slot takes -/

/-- **What a slot takes is a matter of canonical forms.** Numbers and pointers have rules of their
own; any other slot takes what is the same. -/
theorem holds_canonical (a b : Ty) : a.canonical.holds b.canonical = a.holds b := by
  cases ha : a.unaliased with
  | aliased name cName target => exact absurd ha (a.unaliased_ne_aliased name cName target)
  | primitive k =>
      rw [← holds_unaliased a b, ← canonical_unaliased a, ← canonical_unaliased b, ha]
      cases hb : b.unaliased with
      | aliased name cName target => exact absurd hb (b.unaliased_ne_aliased name cName target)
      | _ => rfl
  | pointer base depth =>
      rw [← holds_unaliased a b, ← canonical_unaliased a, ← canonical_unaliased b, ha]
      cases hb : b.unaliased with
      | aliased name cName target => exact absurd hb (b.unaliased_ne_aliased name cName target)
      | pointer base' depth' =>
          simp [holds, unaliased, canonical, isVoid_canonical, same_canonical]
      | array base' size => simp [holds, unaliased, canonical, same_canonical]
      | _ => rfl
  | _ =>
      have hform : a.canonical.unaliased = a.unaliased.canonical := by
        rw [unaliased_canonical, canonical_unaliased]
      rw [ha] at hform
      rw [holds_eq_same b a (by simp [ha]) (by simp [ha]),
        holds_eq_same _ a.canonical (by simp [hform, canonical]) (by simp [hform, canonical]),
        same_canonical]

/-- Types that are the same may stand for each other on both sides of a slot. -/
theorem holds_congr {a a' b b' : Ty} (ha : a.same a' = true) (hb : b.same b' = true) :
    a.holds b = a'.holds b' := by
  rw [same_iff_canonical_eq] at ha hb
  calc a.holds b
      _ = a.canonical.holds b.canonical := (holds_canonical a b).symm
      _ = a'.canonical.holds b'.canonical := by rw [ha, hb]
      _ = a'.holds b' := holds_canonical a' b'

/-- A slot takes a value of its own type, unless it is `void`. -/
theorem holds_iff_of_same {a b : Ty} (h : a.same b = true) :
    a.holds b = true ↔ a.unaliased ≠ void := by
  rw [ne_eq, ← isVoid_iff, Bool.not_eq_true]
  exact ⟨isVoid_of_holds, holds_of_same h⟩

theorem same_equivalence : Equivalence fun a b : Ty => a.same b = true where
  refl := same_refl
  symm h := by
    rw [same_iff_canonical_eq] at h ⊢
    exact h.symm
  trans h h' := by
    rw [same_iff_canonical_eq] at h h' ⊢
    exact h.trans h'

/-- **Being the same is equality of canonical forms, and slots respect it.** It is an equivalence;
types that are the same take the same values and are taken by the same slots; and a slot takes a
value of its own type just if it is not `void` behind its aliases. -/
theorem same_iff_canonical_and_holds_respects (a b : Ty) :
    (a.same b = true ↔ a.canonical = b.canonical)
      ∧ (Equivalence fun a b : Ty => a.same b = true)
      ∧ (∀ a' b' : Ty, a.same a' = true → b.same b' = true → a.holds b = a'.holds b')
      ∧ (a.same b = true → (a.holds b = true ↔ a.unaliased ≠ void)) :=
  ⟨same_iff_canonical_eq a b, same_equivalence, fun _ _ => holds_congr, holds_iff_of_same⟩

/-! ## An instance

A link to nodes, written with two aliases and without any. -/

def nodeLink : Ty :=
  .aliased "link" "__extc_t_Object_link"
    (.pointer (.aliased "cell" "__extc_t_Object_cell"
      (.aggregate .struct "node" "__extc_t_Object_node" 1)) 1)

def plainLink : Ty := .pointer (.aggregate .struct "node" "struct node" 4) 1

/-- The two links are the same, take the same arrays of nodes, and take each other. A slot that is
`void` behind an alias does not take `void`, though the types are the same. -/
theorem nodeLink_same_plainLink :
    nodeLink.same plainLink = true ∧ nodeLink.canonical = plainLink.canonical
      ∧ nodeLink.holds (.array (.aggregate .struct "node" "n" 2) 3)
        = plainLink.holds (.array (.aggregate .struct "node" "n" 2) 3)
      ∧ nodeLink.holds plainLink = true
      ∧ (aliased "nothing" "n" void).same void = true
      ∧ ¬ (aliased "nothing" "n" void).holds void = true := by
  have hsame : nodeLink.same plainLink = true := by decide
  have hlinks := same_iff_canonical_and_holds_respects nodeLink plainLink
  have harray := same_iff_canonical_and_holds_respects nodeLink
    (.array (.aggregate .struct "node" "n" 2) 3)
  have hvoid := same_iff_canonical_and_holds_respects (aliased "nothing" "n" void) void
  refine ⟨hsame, hlinks.1.mp hsame, harray.2.2.1 plainLink _ hsame (by decide), ?_, by decide, ?_⟩
  · exact (hlinks.2.2.2 hsame).mpr (by decide)
  · exact fun h => (hvoid.2.2.2 (by decide)).mp h rfl

end ExtensionCompiler.Ty

import ExtensionCompiler.Proofs.Canonical

set_option autoImplicit false

/-! # Laws of slots and aliases, and where addresses break them

One would expect two laws. What a slot takes, a wider slot takes as well; and an alias may be
replaced by its target. Both hold but for addresses, and this module says exactly where they stop.

* A `void` pointer takes every single pointer, and a single pointer takes an array of its base. But
  a `void` pointer does not take an array, unless it is one of `void`. There is no other gap in a
  chain of slots (`Ty.holds_trans_iff`).
* Levels of indirection are added up over a pointer, but not over an alias of a pointer. So a
  pointer to an alias is the same as a pointer to its target just if the target is no pointer
  (`Ty.same_resolve_alias_iff`). In C the two are one type in any case, which `Ty.merged` shows. -/

namespace ExtensionCompiler

/-! ## Slots in a chain -/

theorem Primitive.holds_trans {k l m : Primitive} (hkl : k.holds l = true)
    (hlm : l.holds m = true) : k.holds m = true := by
  unfold holds at hkl hlm ⊢
  cases hk : k.rank? with
  | none => rw [hk] at hkl; cases hkl
  | some r =>
      cases hl : l.rank? with
      | none => rw [hk, hl] at hkl; cases hkl
      | some s =>
          cases hm : m.rank? with
          | none => rw [hl, hm] at hlm; cases hlm
          | some t =>
              rw [hk, hl] at hkl
              rw [hl, hm] at hlm
              simp only [decide_eq_true_eq] at hkl hlm ⊢
              omega

namespace Ty

/-- Whether the type is a single pointer to `void`. -/
def isVoidPointer (ty : Ty) : Bool :=
  match ty.unaliased with
  | pointer base depth => decide (depth = 1) && base.isVoid
  | _ => false

/-- Whether the type is an array of anything but `void`. -/
def isValueArray (ty : Ty) : Bool :=
  match ty.unaliased with
  | array element _ => !element.isVoid
  | _ => false

theorem isVoidPointer_iff (ty : Ty) :
    ty.isVoidPointer = true ↔ ∃ base, ty.unaliased = pointer base 1 ∧ base.isVoid = true := by
  unfold isVoidPointer
  cases ty.unaliased with
  | pointer base depth =>
      simp only [Bool.and_eq_true, decide_eq_true_eq, pointer.injEq]
      constructor
      · rintro ⟨rfl, hvoid⟩
        exact ⟨base, ⟨rfl, rfl⟩, hvoid⟩
      · rintro ⟨_, ⟨rfl, rfl⟩, hvoid⟩
        exact ⟨rfl, hvoid⟩
  | _ => simp

theorem isValueArray_iff (ty : Ty) :
    ty.isValueArray = true
      ↔ ∃ element size, ty.unaliased = array element size ∧ element.isVoid = false := by
  unfold isValueArray
  cases ty.unaliased with
  | array element size => simp
  | _ => simp

/-- What is `void` is the same as `void` only. -/
theorem same_of_isVoid {a : Ty} (ha : a.isVoid = true) (b : Ty) : a.same b = b.isVoid := by
  have hform (ty : Ty) : ty.isVoid = true ↔ ty.canonical = void := by
    rw [← isVoid_canonical, isVoid_iff, unaliased_canonical]
  rw [Bool.eq_iff_iff, same_iff_canonical_eq, (hform a).mp ha, hform b]
  exact eq_comm

/-- A slot for single pointers of any sort does not take an array of values. -/
theorem holds_eq_false_of_isVoidPointer {a c : Ty} (ha : a.isVoidPointer = true)
    (hc : c.isValueArray = true) : a.holds c = false := by
  obtain ⟨base, hbase, hvoid⟩ := (isVoidPointer_iff a).mp ha
  obtain ⟨element, size, helement, hvalue⟩ := (isValueArray_iff c).mp hc
  unfold holds
  rw [hbase, helement]
  simp [same_of_isVoid hvoid, hvalue]

theorem holds_pointer_of_isVoidPointer {a c base : Ty} (ha : a.isVoidPointer = true)
    (hc : c.unaliased = pointer base 1) : a.holds c = true := by
  obtain ⟨abase, habase, hvoid⟩ := (isVoidPointer_iff a).mp ha
  unfold holds
  rw [habase, hc]
  simp [hvoid]

/-- A chain of two slots neither of which is the same as what it takes: it is a chain of numbers, or
a `void` pointer stands at its head. -/
theorem holds_trans_of_proper {a b c : Ty} (hab : a.holds b = true) (hbc : b.holds c = true)
    (hnab : ¬ a.same b = true) (hnbc : ¬ b.same c = true) :
    a.holds c = true ∨ (a.isVoidPointer = true ∧ c.isArray = true) := by
  rcases holds_cases hab with ⟨k, l, hk, hl, hkl⟩ | ⟨base, base', hp, hvoid, hp'⟩
    | ⟨base, base', size, -, hb, -⟩ | hsame
  · -- below a number there are only numbers
    rcases holds_cases hbc with ⟨l', m, hl', hm, hlm⟩ | ⟨_, _, hb, -, -⟩ | ⟨_, _, _, hb, -, -⟩
      | hsame
    · rw [hl] at hl'
      cases hl'
      refine .inl ?_
      unfold holds
      rw [hk, hm]
      exact Primitive.holds_trans hkl hlm
    · rw [hl] at hb
      cases hb
    · rw [hl] at hb
      cases hb
    · exact absurd hsame hnbc
  · have ha : a.isVoidPointer = true := (isVoidPointer_iff a).mpr ⟨base, hp, hvoid⟩
    rcases holds_cases hbc with ⟨_, _, hb, -, -⟩ | ⟨_, inner, -, -, hc⟩ | ⟨_, _, _, -, hc, -⟩
      | hsame
    · rw [hp'] at hb
      cases hb
    · exact .inl (holds_pointer_of_isVoidPointer ha hc)
    · refine .inr ⟨ha, ?_⟩
      rw [isArray, hc]
    · exact absurd hsame hnbc
  · -- an array takes what is the same, and nothing else
    rcases holds_cases hbc with ⟨_, _, hb', -, -⟩ | ⟨_, _, hb', -, -⟩ | ⟨_, _, _, hb', -, -⟩ | hsame
    · rw [hb] at hb'
      cases hb'
    · rw [hb] at hb'
      cases hb'
    · rw [hb] at hb'
      cases hb'
    · exact absurd hsame hnbc
  · exact absurd hsame hnab

/-- A `void` pointer takes an array just if it is one of `void`. -/
theorem holds_array_of_isVoidPointer {a c : Ty} (ha : a.isVoidPointer = true)
    (hc : c.isArray = true) (hvalue : ¬ c.isValueArray = true) : a.holds c = true := by
  obtain ⟨base, hbase, hvoid⟩ := (isVoidPointer_iff a).mp ha
  unfold isArray at hc
  split at hc
  · rename_i element size helement
    have hnone : element.isVoid = true := by
      simpa [isValueArray, helement] using hvalue
    unfold holds
    rw [hbase, helement]
    simp [same_of_isVoid hvoid, hnone]
  · cases hc

/-- **A slot takes what its values take, but for an array under a `void` pointer.** -/
theorem holds_trans_iff (a b c : Ty) (hab : a.holds b = true) (hbc : b.holds c = true) :
    a.holds c = true ↔ ¬ (a.isVoidPointer = true ∧ c.isValueArray = true) := by
  constructor
  · rintro hac ⟨ha, hc⟩
    rw [holds_eq_false_of_isVoidPointer ha hc] at hac
    cases hac
  · intro hgap
    by_cases hsame : a.same b = true
    · rw [holds_congr hsame (same_refl c)]
      exact hbc
    · by_cases hsame' : b.same c = true
      · rw [← holds_congr (same_refl a) hsame']
        exact hab
      · rcases holds_trans_of_proper hab hbc hsame hsame' with hac | ⟨ha, hc⟩
        · exact hac
        · exact holds_array_of_isVoidPointer ha hc fun hvalue => hgap ⟨ha, hvalue⟩

/-- A chain of numbers behind an alias, and the chain with a gap. -/
theorem holds_trans_meters :
    (primitive .longDouble).holds (aliased "meters" "__extc_t_Object_meters" (primitive .float))
        = true
      ∧ (aliased "meters" "__extc_t_Object_meters" (primitive .float)).holds (primitive .ulongLong)
        = true
      ∧ (primitive .longDouble).holds (primitive .ulongLong) = true
      ∧ ¬ (pointer void 1).holds (array (primitive .int) 3) = true := by
  refine ⟨by decide, by decide, ?_, ?_⟩
  · exact (holds_trans_iff _ (aliased "meters" "__extc_t_Object_meters" (primitive .float)) _
      (by decide) (by decide)).mpr (by decide)
  · intro h
    exact (holds_trans_iff _ (pointer (primitive .int) 1) _ (by decide) (by decide)).mp h
      (by decide)

/-- Every slot of the chain takes the next type, and the first does not take the last. -/
theorem voidPointer_skips_array :
    (pointer void 1).holds (pointer (primitive .int) 1) = true
      ∧ (pointer (primitive .int) 1).holds (array (primitive .int) 3) = true
      ∧ ¬ (pointer void 1).holds (array (primitive .int) 3) = true := by
  decide

/-! ## Aliases under pointers -/

mutual

/-- The type as C sees it: without aliases, and with the levels of pointers over pointers added
up. -/
def merged : Ty → Ty
  | primitive kind => primitive kind
  | pointer base depth => pointerTo base.merged depth
  | array base size => array base.merged size
  | aggregate kind name _ _ => aggregate kind name "" 0
  | aliased _ _ target => target.merged
  | function _ _ params result => function none none (mergedAll params) result.merged
  | object => object
  | pending name => pending name

def mergedAll : List Ty → List Ty
  | [] => []
  | ty :: rest => ty.merged :: mergedAll rest

end

theorem merged_pointerTo (base : Ty) (depth : Nat) :
    (pointerTo base depth).merged = pointerTo base.merged depth := by
  by_cases hd : depth = 0
  · subst hd
    rw [pointerTo_zero, pointerTo_zero]
  · cases base with
    | pointer base inner =>
        rw [pointerTo_pointer, if_neg hd, merged, merged, pointerTo_pointerTo]
    | _ => simp [pointerTo, hd, merged]

/-- No pointer has the form of its base, whatever its depth. -/
theorem canonical_pointer_ne (base : Ty) (depth : Nat) :
    (pointer base depth).canonical ≠ base.canonical := by
  rw [canonical]
  intro h
  have hsize := congrArg sizeOf h
  simp at hsize
  omega

/-- A name that is no keyword and is bound to an alias resolves to a pointer to that alias. -/
theorem resolve_alias {registry : Registry} {written name cName : String} {target : Ty}
    (hword : Descriptor.keyword? written = none)
    (hget : registry.get? (Descriptor.key written) = some (aliased name cName target)) (k : Nat) :
    resolve registry (.named written) k = pointerTo (aliased name cName target) k := by
  rw [resolve, resolveName_eq, hword, Option.getD_none, Registry.meaning, hget, Option.getD_some]

theorem same_pointerTo_alias_iff (name cName : String) (target : Ty) (k : Nat) :
    (pointerTo (aliased name cName target) k).same (pointerTo target k) = true
      ↔ k = 0 ∨ target.isBarePointer = false := by
  by_cases hk : k = 0
  · subst hk
    rw [pointerTo_zero, pointerTo_zero, same]
    exact iff_of_true (same_refl target) (.inl rfl)
  · rw [@pointerTo_of_not_isBarePointer (aliased name cName target) rfl k hk]
    cases hbare : target.isBarePointer with
    | false =>
        rw [pointerTo_of_not_isBarePointer hbare hk]
        simp [same, unaliased, same_refl]
    | true =>
        cases target with
        | pointer base depth =>
            -- the levels agree only if the target has none, and then the bases do not
            have hbase := canonical_pointer_ne base depth
            rw [pointerTo_pointer, if_neg hk, same_iff_canonical_eq, canonical, canonical,
              canonical]
            simp [hk, hbase]
        | _ => cases hbare

/-- **A pointer to an alias is the same as a pointer to its target just if the target is no
pointer.** The alias may be written in any way in which a descriptor can name it. In C the two types
are one in any case. -/
theorem same_resolve_alias_iff (registry : Registry) (written name cName : String) (target : Ty)
    (k : Nat) (hword : Descriptor.keyword? written = none)
    (hget : registry.get? (Descriptor.key written) = some (aliased name cName target)) :
    ((resolve registry (.named written) k).same (pointerTo target k) = true
        ↔ k = 0 ∨ target.isBarePointer = false)
      ∧ (resolve registry (.named written) k).merged = (pointerTo target k).merged := by
  rw [resolve_alias hword hget]
  refine ⟨same_pointerTo_alias_iff name cName target k, ?_⟩
  rw [merged_pointerTo, merged_pointerTo, merged]

end Ty

/-! ### An instance

A structure behind two aliases, and a pointer behind one. -/

namespace Registry

def cellsAndRows : Registry :=
  ⟨[⟨"cell", .aliased "cell" "__extc_t_Object_cell"
      (.aliased "node" "__extc_t_Object_node" (.aggregate .struct "n" "struct n" 1)), .unknown⟩,
    ⟨"row", .aliased "row" "__extc_t_Object_row" (.pointer (.primitive .int) 1), .unknown⟩]⟩

/-- Three levels over `cell` are three levels over its target. One level over `row` are not the same
as two levels over `int`, though they are one type in C. -/
theorem resolve_cellsAndRows :
    cellsAndRows.get? (Descriptor.key " struct  cell") = some (.aliased "cell"
        "__extc_t_Object_cell"
        (.aliased "node" "__extc_t_Object_node" (.aggregate .struct "n" "struct n" 1)))
      ∧ (Ty.resolve cellsAndRows (.named " struct  cell") 3).same
          (.pointer
            (.aliased "node" "__extc_t_Object_node" (.aggregate .struct "n" "struct n" 1)) 3)
        = true
      ∧ (Ty.resolve cellsAndRows (.named "row") 1).merged = .pointer (.primitive .int) 2 := by
  have hcell := Ty.same_resolve_alias_iff cellsAndRows " struct  cell" "cell"
    "__extc_t_Object_cell"
    (.aliased "node" "__extc_t_Object_node" (.aggregate .struct "n" "struct n" 1)) 3
    (by decide +kernel) (by decide +kernel)
  have hrow := Ty.same_resolve_alias_iff cellsAndRows "row" "row" "__extc_t_Object_row"
    (.pointer (.primitive .int) 1) 1 (by decide +kernel) (by decide +kernel)
  exact ⟨by decide +kernel, hcell.1.mpr (.inr rfl), hrow.2⟩

/-- A pointer to a `row` and a pointer to what `row` stands for are not the same to the checker. -/
theorem row_not_transparent :
    cellsAndRows.get? "row" = some (.aliased "row" "__extc_t_Object_row"
        (.pointer (.primitive .int) 1))
      ∧ ¬ (Ty.resolve cellsAndRows (.named "row") 1).same
          (Ty.pointerTo (.pointer (.primitive .int) 1) 1) = true := by
  decide +kernel

end Registry

end ExtensionCompiler

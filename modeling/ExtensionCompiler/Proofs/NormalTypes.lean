import ExtensionCompiler.Proofs.Compatibility
import ExtensionCompiler.Proofs.Hoisting
import ExtensionCompiler.Proofs.PassInvariants

set_option autoImplicit false

/-! # Pointers in normal form

A type is in normal form if each of its pointers has at least one level and none stands right over
another (`Ty.Normal`). The levels over a type are put on by `Ty.pointerTo`, which adds them up, and
whatever makes a type of others keeps to it: resolution, the second pass, what an address leads to,
the conversion of a value. The one exception is `Ty.addressOf`, which counts in a machine word. So
the levels are followed with a bound (`Levels`): a type that is declared is `Ty.Within` it, and the
type of a value is such a type or the type of an address of one (`Ty.Reached`), with one level more.

This module follows the levels through operations on types, through the changes that a state can
undergo, and through the analysis of expressions (`Expr.analyse_within`). Analysis may stop at an
error; the node and the state that it leaves are within the bound then as well (`Outcome.Within`).
-/

namespace ExtensionCompiler

/-! ## Types -/

namespace Ty

mutual

/-- The pointers in a type: what each of them points to, and its depth. -/
def pointers : Ty → List (Ty × Nat)
  | pointer base depth => (base, depth) :: base.pointers
  | array base _ => base.pointers
  | aliased _ _ target => target.pointers
  | function _ _ params result => pointersIn params ++ result.pointers
  | primitive _ => []
  | aggregate _ _ _ _ => []
  | object => []
  | pending _ => []

def pointersIn : List Ty → List (Ty × Nat)
  | [] => []
  | ty :: rest => ty.pointers ++ pointersIn rest

end

/-- Each pointer in the type has a depth with `D`, and none stands right over another. -/
def HasDepths (D : Nat → Prop) (ty : Ty) : Prop :=
  ∀ p ∈ ty.pointers, D p.2 ∧ p.1.isBarePointer = false

/-- No pointer in the type has depth zero, and none stands right over another. -/
def Normal (ty : Ty) : Prop := ty.HasDepths fun depth => 0 < depth

instance (ty : Ty) : Decidable ty.Normal :=
  inferInstanceAs (Decidable (∀ p ∈ ty.pointers, 0 < p.2 ∧ p.1.isBarePointer = false))

variable {D : Nat → Prop}

@[simp] theorem hasDepths_primitive (kind : Primitive) : (primitive kind).HasDepths D :=
  List.forall_mem_nil _

@[simp] theorem hasDepths_object : object.HasDepths D := List.forall_mem_nil _

@[simp] theorem hasDepths_pending (name : String) : (pending name).HasDepths D :=
  List.forall_mem_nil _

@[simp] theorem hasDepths_aggregate (kind : AggregateKind) (name cName : String)
    (scope : ScopeId) : (aggregate kind name cName scope).HasDepths D :=
  List.forall_mem_nil _

variable {base ty : Ty} {depth : Nat}

theorem hasDepths_pointer :
    (pointer base depth).HasDepths D
      ↔ (D depth ∧ base.isBarePointer = false) ∧ base.HasDepths D :=
  List.forall_mem_cons

theorem hasDepths_array {size : Nat} :
    (array base size).HasDepths D ↔ base.HasDepths D := Iff.rfl

theorem hasDepths_aliased {name cName : String} {target : Ty} :
    (aliased name cName target).HasDepths D ↔ target.HasDepths D := Iff.rfl

theorem mem_pointersIn {tys : List Ty} {p : Ty × Nat} :
    p ∈ pointersIn tys ↔ ∃ ty ∈ tys, p ∈ ty.pointers := by
  induction tys with
  | nil => simp [pointersIn]
  | cons ty rest ih => simp [pointersIn, ih]

theorem hasDepths_function {name cName : Option String} {params : List Ty} {result : Ty} :
    (function name cName params result).HasDepths D
      ↔ (∀ ty ∈ params, ty.HasDepths D) ∧ result.HasDepths D := by
  refine List.forall_mem_append.trans
    (and_congr_left fun _ => ⟨fun h ty hty p hp => ?_, fun h p hp => ?_⟩)
  · exact h p (mem_pointersIn.mpr ⟨ty, hty, hp⟩)
  · obtain ⟨ty, hty, hp⟩ := mem_pointersIn.mp hp
    exact h ty hty p hp

theorem HasDepths.mono {E : Nat → Prop} (h : ty.HasDepths D)
    (hDE : ∀ depth, D depth → E depth) : ty.HasDepths E :=
  fun p hp => ⟨hDE p.2 (h p hp).1, (h p hp).2⟩

/-- The levels of the type itself. -/
def levels : Ty → Nat
  | pointer _ depth => depth
  | _ => 0

theorem levels_of_not_isBarePointer (h : ty.isBarePointer = false) : ty.levels = 0 := by
  cases ty with
  | pointer base depth => cases h
  | _ => rfl

/-- **Levels may be put over any type**, and over a pointer too: only the sum counts. -/
theorem HasDepths.pointerTo (h : base.HasDepths D)
    (hsum : depth ≠ 0 → D (base.levels + depth)) : (pointerTo base depth).HasDepths D := by
  by_cases hd : depth = 0
  · rw [hd, pointerTo_zero]
    exact h
  · have hdepth := hsum hd
    cases hbare : base.isBarePointer with
    | false =>
        rw [levels_of_not_isBarePointer hbare, Nat.zero_add] at hdepth
        rw [pointerTo_of_not_isBarePointer hbare hd]
        exact hasDepths_pointer.mpr ⟨⟨hdepth, hbare⟩, h⟩
    | true =>
        cases base with
        | pointer base inner =>
            obtain ⟨⟨-, hbase⟩, hinner⟩ := hasDepths_pointer.mp h
            rw [pointerTo_pointer, if_neg hd]
            exact hasDepths_pointer.mpr ⟨⟨hdepth, hbase⟩, hinner⟩
        | _ => cases hbare

theorem HasDepths.unaliased (h : ty.HasDepths D) : ty.unaliased.HasDepths D := by
  fun_induction Ty.unaliased ty with
  | case1 name cName target ih => exact ih (hasDepths_aliased.mp h)
  | case2 ty _ => exact h

theorem HasDepths.concrete (h : ty.HasDepths D) : ty.concrete.HasDepths D := by
  fun_induction Ty.concrete ty with
  | case1 name cName target ih => exact ih (hasDepths_aliased.mp h)
  | case2 name cName params result ih => exact ih (hasDepths_function.mp h).2
  | case3 ty _ _ => exact h

theorem HasDepths.signature {result : Ty} {params : List Ty} (h : ty.HasDepths D)
    (hs : ty.signature? = some (params, result)) :
    (∀ param ∈ params, param.HasDepths D) ∧ result.HasDepths D := by
  have hty := h.unaliased
  unfold signature? at hs
  split at hs
  · rename_i hfunction
    rw [hfunction] at hty
    cases hs
    exact hasDepths_function.mp hty
  · cases hs

end Ty

/-! ## Bounds on the levels -/

/-- How many levels pointers may have. -/
structure Levels where
  /-- Those of a registered type that is a pointer itself. -/
  registered : Nat
  /-- Those of a pointer in any type that is declared or registered. -/
  held : Nat
  held_pos : 0 < held

/-- The bound after the second pass: a name under a pointer may have turned out to mean a pointer,
and then the levels of both are added up. -/
def Levels.settled (l : Levels) : Levels :=
  ⟨l.registered, l.held + l.registered, Nat.add_pos_left l.held_pos _⟩

namespace Ty

variable {l : Levels} {ty : Ty}

def Within (l : Levels) (ty : Ty) : Prop := ty.HasDepths fun depth => 0 < depth ∧ depth ≤ l.held

/-- The type may be registered. -/
def Registered (l : Levels) (ty : Ty) : Prop := ty.levels ≤ l.registered ∧ ty.Within l

/-- The type may be that of a value: the value is of a declared type, or the address of one. -/
def Reached (l : Levels) (ty : Ty) : Prop := ∃ t : Ty, t.Within l ∧ (ty = t ∨ ty = t.addressOf)

theorem Within.normal (h : ty.Within l) : ty.Normal := h.mono fun _ hdepth => hdepth.1

theorem Within.settled (h : ty.Within l) : ty.Within l.settled :=
  h.mono fun _ hdepth => ⟨hdepth.1, Nat.le_add_right_of_le hdepth.2⟩

theorem Within.reached (h : ty.Within l) : ty.Reached l := ⟨ty, h, .inl rfl⟩

theorem Registered.pointerTo (h : ty.Registered l) {depth : Nat}
    (hdepth : depth + l.registered ≤ l.held) : (ty.pointerTo depth).Within l :=
  h.2.pointerTo fun hd => by
    have hlevels := h.1
    omega

/-- Some levels may be taken off a pointer. -/
theorem Within.lower {base : Ty} {depth fewer : Nat} (h : (pointer base depth).Within l)
    (hfewer : fewer ≤ depth) : (base.pointerTo fewer).Within l := by
  obtain ⟨⟨hdepth, hbare⟩, hbase⟩ := hasDepths_pointer.mp h
  refine hbase.pointerTo fun hd => ?_
  rw [levels_of_not_isBarePointer hbare]
  omega

theorem Within.element {element : Ty} (h : ty.Within l) (he : ty.element? = some element) :
    element.Within l := by
  have hty := h.unaliased
  unfold element? at he
  split at he
  · rename_i base size hbase
    rw [hbase] at hty
    cases he
    exact hasDepths_array.mp hty
  · rename_i base depth hbase
    rw [hbase] at hty
    have hpos := (hasDepths_pointer.mp hty).1.1.1
    rw [← Option.some.inj he]
    refine Within.lower hty ?_
    unfold wordSize
    omega
  · cases he

/-- **What an address leads to is of a declared type**, however the levels are counted. -/
theorem Reached.element {element : Ty} (h : ty.Reached l) (he : ty.element? = some element) :
    element.Within l := by
  obtain ⟨t, ht, rfl | rfl⟩ := h
  · exact ht.element he
  · cases t with
    | pointer base depth =>
        rw [← Option.some.inj he]
        refine Within.lower ht ?_
        unfold wordSize
        omega
    | _ =>
        rw [← Option.some.inj he]
        exact ht

theorem Reached.concrete (h : ty.Reached l) : ty.concrete.Reached l := by
  obtain ⟨t, ht, rfl | rfl⟩ := h
  · exact Within.reached (HasDepths.concrete ht)
  · exact ⟨t, ht, .inr (by cases t <;> rfl)⟩

theorem Reached.wider {other : Ty} (h : ty.Reached l) (hother : other.Reached l) :
    (ty.wider other).Reached l := by
  unfold Ty.wider
  split
  · exact Within.reached (hasDepths_primitive _)
  · exact h
  · exact hother
  · exact h

/-- No address is an array. -/
theorem Reached.of_isArray (h : ty.Reached l) (harray : ty.isArray = true) : ty.Within l := by
  obtain ⟨t, ht, rfl | rfl⟩ := h
  · exact ht
  · cases t <;> cases harray

/-- **If the bound leaves room in a machine word**, a value has a type in normal form, and the
levels that were counted are those that there are. -/
theorem Reached.hasDepths (h : ty.Reached l) (hroom : l.held + 1 < wordSize) :
    ty.HasDepths fun depth => 0 < depth ∧ depth < wordSize := by
  obtain ⟨t, ht, hty⟩ := h
  have hinner : t.HasDepths fun depth => 0 < depth ∧ depth < wordSize :=
    ht.mono fun depth hdepth => ⟨hdepth.1, by omega⟩
  rcases hty with rfl | rfl
  · exact hinner
  · cases t with
    | pointer base depth =>
        obtain ⟨⟨hdepth, hbare⟩, -⟩ := hasDepths_pointer.mp ht
        refine hasDepths_pointer.mpr ⟨⟨?_, hbare⟩, (hasDepths_pointer.mp hinner).2⟩
        rw [Nat.mod_eq_of_lt (by omega)]
        omega
    | _ => exact hasDepths_pointer.mpr ⟨⟨⟨Nat.one_pos, by decide⟩, rfl⟩, hinner⟩

end Ty

/-! ## Resolution and the second look -/

namespace Descriptor

mutual

/-- The depths that a descriptor asks for under `depth` levels of indirection. -/
def depths : Descriptor → Nat → List Nat
  | named _, depth => [depth]
  | signature _ params resultDepth, depth => max depth 1 :: resultDepth :: depthsIn params

def depthsIn : List (Descriptor × Nat) → List Nat
  | [] => []
  | (descriptor, depth) :: rest => descriptor.depths depth ++ depthsIn rest

end

end Descriptor

/-- There is room for depths over any type that is registered. -/
def Levels.Admits (l : Levels) (depths : List Nat) : Prop :=
  ∀ depth ∈ depths, depth + l.registered ≤ l.held

/-- Every type that is registered is in normal form. -/
def Registry.Normal (registry : Registry) : Prop := ∀ b ∈ registry.bindings, b.type.Normal

instance (registry : Registry) : Decidable registry.Normal :=
  inferInstanceAs (Decidable (∀ b ∈ registry.bindings, b.type.Normal))

def Registry.Within (l : Levels) (registry : Registry) : Prop :=
  ∀ b ∈ registry.bindings, b.type.Registered l

namespace Registry.Within

variable {l : Levels} {registry : Registry}

theorem meaning (h : registry.Within l) (name : String) : (registry.meaning name).Registered l := by
  unfold Registry.meaning
  cases hget : registry.get? name with
  | none => exact ⟨Nat.zero_le _, Ty.hasDepths_pending name⟩
  | some ty =>
      obtain ⟨b, hb, -, rfl⟩ := mem_of_get? hget
      exact h b hb

theorem put {new : Binding} (hnew : new.type.Registered l) {bindings : List Binding}
    (h : ∀ b ∈ bindings, b.type.Registered l) :
    ∀ b ∈ Registry.put new bindings, b.type.Registered l := by
  induction bindings with
  | nil => simpa [Registry.put] using hnew
  | cons old rest ih =>
      obtain ⟨hold, hrest⟩ := List.forall_mem_cons.mp h
      rw [Registry.put]
      split
      · exact List.forall_mem_cons.mpr ⟨hnew, hrest⟩
      · exact List.forall_mem_cons.mpr ⟨hold, ih hrest⟩

theorem resolveName (h : registry.Within l) (name : String) :
    (Ty.resolveName registry name).Registered l := by
  rw [Ty.resolveName_eq]
  unfold Descriptor.keyword?
  split
  · exact ⟨Nat.zero_le _, Ty.hasDepths_primitive _⟩
  · split
    · exact ⟨Nat.zero_le _, Ty.hasDepths_object⟩
    · exact h.meaning _

mutual

/-- **A descriptor stands for a type within the bound** if there is room for what it asks for. -/
theorem resolve (h : registry.Within l) : (descriptor : Descriptor) → (depth : Nat) →
    l.Admits (descriptor.depths depth) → (Ty.resolve registry descriptor depth).Within l
  | .named name, depth, hroom => by
      rw [Ty.resolve]
      exact (h.resolveName name).pointerTo (hroom depth List.mem_cons_self)
  | .signature base params resultDepth, depth, hroom => by
      obtain ⟨hdepth, hrest⟩ := List.forall_mem_cons.mp hroom
      obtain ⟨hresult, hparams⟩ := List.forall_mem_cons.mp hrest
      rw [Ty.resolve]
      refine Ty.HasDepths.pointerTo (Ty.hasDepths_function.mpr
        ⟨resolveParams h params hparams, (h.resolveName base).pointerTo hresult⟩) fun _ => ?_
      show 0 < 0 + max depth 1 ∧ 0 + max depth 1 ≤ l.held
      omega

theorem resolveParams (h : registry.Within l) : (params : List (Descriptor × Nat)) →
    l.Admits (Descriptor.depthsIn params) → ∀ ty ∈ Ty.resolveParams registry params, ty.Within l
  | [], _ => List.forall_mem_nil _
  | (descriptor, depth) :: rest, hroom => by
      obtain ⟨hfirst, hrest⟩ := List.forall_mem_append.mp hroom
      rw [Ty.resolveParams]
      exact List.forall_mem_cons.mpr
        ⟨resolve h descriptor depth hfirst, resolveParams h rest hrest⟩

end

/-- Only a pending name becomes a pointer at the second look. -/
theorem levels_rescan (h : registry.Within l) {ty : Ty} (hbare : ty.isBarePointer = false) :
    (ty.rescan registry).levels ≤ l.registered := by
  cases ty with
  | pending name =>
      rw [Ty.rescan_pending]
      exact (h.meaning name).1
  | pointer base depth => cases hbare
  | _ => exact Nat.zero_le _

mutual

/-- **The second look at a type needs as much room more as a registered type can take.** -/
theorem rescan (h : registry.Within l.settled) : (ty : Ty) → ty.Within l →
    (ty.rescan registry).Within l.settled
  | .pending name, _ => by
      rw [Ty.rescan_pending]
      exact (h.meaning name).2
  | .pointer base depth, hty => by
      obtain ⟨⟨⟨hpos, hdepth⟩, hbare⟩, hbase⟩ := Ty.hasDepths_pointer.mp hty
      have hlevels : (base.rescan registry).levels ≤ l.registered := h.levels_rescan hbare
      rw [Ty.rescan]
      refine Ty.HasDepths.pointerTo (rescan h base hbase) fun _ => ?_
      show 0 < _ + depth ∧ _ + depth ≤ l.held + l.registered
      omega
  | .array base size, hty => by
      rw [Ty.rescan]
      exact rescan h base (Ty.hasDepths_array.mp hty)
  | .aliased name cName target, hty => by
      rw [Ty.rescan]
      exact rescan h target (Ty.hasDepths_aliased.mp hty)
  | .function name cName params result, hty => by
      rw [Ty.rescan]
      obtain ⟨hparams, hresult⟩ := Ty.hasDepths_function.mp hty
      exact Ty.hasDepths_function.mpr ⟨rescanAll h params hparams, rescan h result hresult⟩
  | .primitive _, hty | .aggregate _ _ _ _, hty | .object, hty => by
      rw [Ty.rescan]
      exact hty.settled

theorem rescanAll (h : registry.Within l.settled) : (tys : List Ty) → (∀ ty ∈ tys, ty.Within l) →
    ∀ ty ∈ Ty.rescanAll registry tys, ty.Within l.settled
  | [], _ => List.forall_mem_nil _
  | ty :: rest, htys => by
      obtain ⟨hty, hrest⟩ := List.forall_mem_cons.mp htys
      rw [Ty.rescanAll]
      exact List.forall_mem_cons.mpr ⟨rescan h ty hty, rescanAll h rest hrest⟩

end

end Registry.Within

/-! ## States -/

/-- The types that a scope holds: of its entries, of what its function returns, and of its
temporaries. -/
def Scope.types (s : Scope) : List Ty :=
  s.entries.map Entry.type ++ (s.returnType.toList ++ s.temps.map Prod.snd)

def Scope.Within (l : Levels) (s : Scope) : Prop := ∀ ty ∈ s.types, ty.Within l

theorem Scope.within_iff {l : Levels} {s : Scope} :
    s.Within l ↔ (∀ e ∈ s.entries, e.type.Within l) ∧ (∀ ty ∈ s.returnType, ty.Within l)
      ∧ ∀ t ∈ s.temps, t.2.Within l := by
  unfold Scope.Within Scope.types
  rw [List.forall_mem_append, List.forall_mem_append, List.forall_mem_map, List.forall_mem_map]
  simp only [Option.mem_toList, Option.mem_def]

namespace Checker

/-- The types that a state holds: those that are registered, and those in its scopes. -/
def types (c : Checker) : List Ty :=
  c.registry.bindings.map Binding.type ++ c.scopes.flatMap Scope.types

structure Within (l : Levels) (c : Checker) : Prop where
  registry : c.registry.Within l
  scopes : ∀ s ∈ c.scopes, s.Within l

variable {l : Levels} {c : Checker}

theorem within_start {registry : Registry} (h : registry.Within l) : (start registry).Within l :=
  ⟨h, by simp [start, globalScope, Scope.Within, Scope.types]⟩

namespace Within

theorem types (h : c.Within l) : ∀ ty ∈ c.types, ty.Within l := by
  refine List.forall_mem_append.mpr ⟨List.forall_mem_map.mpr fun b hb => (h.registry b hb).2, ?_⟩
  exact List.forall_mem_flatMap.mpr h.scopes

theorem settled (h : c.Within l) : c.Within l.settled :=
  ⟨fun b hb => ⟨(h.registry b hb).1, (h.registry b hb).2.settled⟩,
    fun s hs ty hty => (h.scopes s hs ty hty).settled⟩

theorem scope (h : c.Within l) (id : ScopeId) : (c.scope id).Within l := by
  rcases c.scope_mem_or_eq id with hmem | heq
  · exact h.scopes _ hmem
  · rw [heq]
    simp [globalScope, Scope.Within, Scope.types]

variable {id : ScopeId} {type : Ty}

theorem find (h : c.Within l) {name : String} {entry : Entry}
    (hfind : c.find? id name = some entry) : entry.type.Within l := by
  obtain ⟨⟨s, hs, hmem⟩, -⟩ := mem_of_find? hfind
  exact (Scope.within_iff.mp (h.scopes s hs)).1 entry hmem

/-- It is enough to look at the one scope that is changed. -/
theorem modifyScope (h : c.Within l) (id : ScopeId) {f : Scope → Scope}
    (hf : ∀ s, s.Within l → (f s).Within l) : (c.modifyScope id f).Within l := by
  refine ⟨h.registry, fun s hs => ?_⟩
  rcases mem_modifyScope hs with hold | ⟨old, hold, rfl⟩
  · exact h.scopes s hold
  · exact hf old (h.scopes old (List.mem_of_getElem? hold))

theorem declare {c' : Checker} {entry : Entry} (h : c.Within l)
    (hentry : entry.type.Within l) (hdeclare : c.declare id entry = .ok c') : c'.Within l := by
  obtain ⟨-, rfl⟩ := declare_eq_ok hdeclare
  refine h.modifyScope id fun _ _ => ?_
  obtain ⟨hentries, hrest⟩ := Scope.within_iff.mp (h.scope id)
  exact Scope.within_iff.mpr
    ⟨List.forall_mem_append.mpr ⟨hentries, List.forall_mem_singleton.mpr hentry⟩, hrest⟩

theorem setType (h : c.Within l) (id : ScopeId) (name : String)
    (htype : type.Within l) : (c.setType id name type).Within l := by
  refine h.modifyScope id fun s hs => ?_
  obtain ⟨hentries, hrest⟩ := Scope.within_iff.mp hs
  refine Scope.within_iff.mpr ⟨fun e he => ?_, hrest⟩
  obtain ⟨old, hold, rfl⟩ := List.mem_map.mp he
  split
  · exact htype
  · exact hentries old hold

theorem setReturnType (h : c.Within l) (id : ScopeId) (htype : type.Within l) :
    (c.setReturnType id (some type)).Within l := by
  refine h.modifyScope id fun s hs => ?_
  obtain ⟨hentries, -, htemps⟩ := Scope.within_iff.mp hs
  refine Scope.within_iff.mpr ⟨hentries, fun ty hty => ?_, htemps⟩
  rw [← Option.mem_some.mp hty]
  exact htype

theorem register (h : c.Within l) (name : String) (htype : type.Registered l)
    (position : Position) : (c.register name type position).Within l :=
  ⟨Registry.Within.put htype h.registry, h.scopes⟩

theorem allocateTemp (h : c.Within l) (id : ScopeId) : (c.allocateTemp id .object).2.Within l := by
  have hmodified : (c.modifyScope id fun s =>
      { s with temps := s.temps ++ [(tempName c.tempCount, Ty.object)] }).Within l := by
    refine h.modifyScope id fun s hs => ?_
    obtain ⟨hentries, hreturn, htemps⟩ := Scope.within_iff.mp hs
    exact Scope.within_iff.mpr ⟨hentries, hreturn,
      List.forall_mem_append.mpr ⟨htemps, List.forall_mem_singleton.mpr Ty.hasDepths_object⟩⟩
  exact ⟨hmodified.registry, hmodified.scopes⟩

/-- A new scope holds nothing. -/
theorem pushScope (h : c.Within l) {scope : Scope} (hscope : scope.types = []) :
    (c.pushScope scope).2.Within l := by
  refine ⟨h.registry, List.forall_mem_append.mpr ⟨h.scopes, List.forall_mem_singleton.mpr ?_⟩⟩
  rw [Scope.Within, hscope]
  exact List.forall_mem_nil _

theorem addScope (h : c.Within l) (name : String) (kind : ScopeKind) (parent : ScopeId) :
    (c.addScope name kind parent).2.Within l := h.pushScope rfl

theorem addClassScope (h : c.Within l) (className classCName : String) (parent : ScopeId) :
    (c.addClassScope className classCName parent).2.Within l := h.pushScope rfl

end Within

end Checker

/-! ## Outcomes -/

/-- The state that was left is within the bound, and the node has `P`. -/
abbrev Outcome.Within {α : Type} (l : Levels) (P : α → Prop) (o : Outcome α) : Prop :=
  o.Leaves P (Checker.Within l)

section

variable {l : Levels} {entry : Entry}

theorem Outcome.within_ofDeclare {α : Type} {P : α → Prop} {c : Checker} (hc : c.Within l)
    {id : ScopeId} (hentry : entry.type.Within l) {node done : α} (hnode : P node)
    (hdone : P done) : (ofDeclare (c.declare id entry) c node done).Within l P := by
  unfold ofDeclare
  split
  · rename_i c' hdeclare
    exact ⟨hdone, hc.declare hentry hdeclare⟩
  · exact ⟨hnode, hc⟩

/-! ## Operators, conversions and entries -/

theorem Literal.within_naturalType (literal : Literal) : literal.naturalType.Within l := by
  cases literal with
  | text value =>
      exact Ty.HasDepths.pointerTo (Ty.hasDepths_primitive .char) fun _ =>
        ⟨Nat.one_pos, l.held_pos⟩
  | _ => exact List.forall_mem_nil _

theorem Literal.within_typeFor (literal : Literal) (slot : Option Ty) :
    (literal.typeFor slot).Within l := by
  have hnatural : literal.naturalType.Within l := literal.within_naturalType
  cases slot with
  | none => exact hnatural
  | some slot =>
      rw [typeFor]
      unfold typeIn
      split
      · split
        · exact Ty.hasDepths_primitive _
        · exact hnatural
      · split
        · exact Ty.hasDepths_primitive _
        · exact hnatural
      · exact hnatural

/-- A conversion leads to an object or to the type of the slot itself. -/
theorem Conversion.within_resultType {value slot : Ty} {conversion : Conversion}
    (h : between value slot = .through conversion) (hslot : slot.Within l) :
    conversion.resultType.Within l := by
  unfold between at h
  split at h
  · split at h
    · cases h
      exact Ty.hasDepths_object
    · cases h
  · split at h
    · cases h
      exact hslot
    · cases h
  · cases h

theorem Entry.reached_valueType (h : entry.type.Within l) : entry.valueType.Reached l := by
  unfold valueType
  split
  · exact ⟨entry.type, h, .inr rfl⟩
  · exact ⟨entry.type, h, .inr rfl⟩
  · exact h.reached

/-- What can be assigned to is of its declared type. -/
theorem Entry.within_valueType (h : entry.type.Within l)
    (hassignable : entry.isAssignable = true) : entry.valueType.Within l := by
  unfold isAssignable at hassignable
  unfold valueType
  split
  · rename_i hkind
    rw [hkind] at hassignable
    cases hassignable
  · rename_i hkind
    rw [hkind] at hassignable
    cases hassignable
  · exact h

theorem Entry.within_callee {params : List Ty} {result : Ty}
    (h : entry.type.Within l) (hcallee : entry.callee? = some (params, result)) :
    (∀ param ∈ params, param.Within l) ∧ result.Within l := by
  have hty := h.unaliased
  unfold callee? at hcallee
  split at hcallee
  · rename_i htype
    rw [htype] at hty
    cases hcallee
    exact Ty.hasDepths_function.mp hty
  · rename_i htype
    rw [htype] at hty
    exact (Ty.hasDepths_pointer.mp hty).2.signature hcallee
  · rename_i htype
    rw [htype] at hty
    exact (Ty.hasDepths_pointer.mp hty).2.signature hcallee
  · cases hcallee

namespace Operator

variable {operator : String} {type : Ty}

/-- What an operation on native values can give: a truth value, a number, or a moved address. -/
theorem nativeResult?_cases {left right : Ty} (h : nativeResult? operator left right = some type) :
    type = .primitive .int ∨ type = left.concrete.wider right.concrete ∨ type = left.concrete := by
  unfold nativeResult? at h
  repeat' split at h
  all_goals cases h
  all_goals simp

/-- What a unary operation can give without a call to the host: a value like its operand, a truth
value, an address, or what an address leads to. -/
theorem unaryResult?_cases {operand : Ty} {assignable : Bool}
    (h : unaryResult? operator operand assignable = some type) :
    operand.element? = some type
      ∨ operator ≠ "*" ∧ (type = operand.concrete ∨ type = .object ∨ type = .primitive .int
        ∨ (assignable || operand.isArray) = true ∧ type = operand.addressOf) := by
  unfold unaryResult? at h
  split at h
  case h_5 => exact .inl h
  all_goals repeat' split at h
  all_goals cases h
  all_goals simp [*]

theorem reached_nativeResult {left right : Ty} (hleft : left.Reached l) (hright : right.Reached l)
    (h : nativeResult? operator left right = some type) : type.Reached l := by
  rcases nativeResult?_cases h with rfl | rfl | rfl
  · exact Ty.Within.reached (Ty.hasDepths_primitive .int)
  · exact hleft.concrete.wider hright.concrete
  · exact hleft.concrete

end Operator

/-! ## Expressions -/

/-- The types that a node holds: of its value, and of the value after conversion. -/
def Info.types (info : Info) : List Ty :=
  info.type :: (info.conversion.map Conversion.resultType).toList

/-- The type of the value is one that values have, and a declared one if the node is a place. What
it is converted to is a declared type too. -/
structure Info.Within (l : Levels) (isPlace : Bool) (info : Info) : Prop where
  type : info.type.Reached l
  place : isPlace = true → info.type.Within l
  conversion : ∀ conversion ∈ info.conversion, conversion.resultType.Within l

namespace Info

variable {isPlace : Bool} {info : Info}

theorem within_of_type (htype : info.type.Within l)
    (hconversion : ∀ conversion ∈ info.conversion, conversion.resultType.Within l) :
    info.Within l isPlace :=
  ⟨htype.reached, fun _ => htype, hconversion⟩

/-- Before analysis a node has no type and no conversion. -/
theorem within_new (position : Position) : ({ position } : Info).Within l isPlace :=
  within_of_type (Ty.hasDepths_primitive .void) (by simp)

theorem Within.types (h : info.Within l isPlace) : ∀ ty ∈ info.types, ty.Reached l := by
  refine List.forall_mem_cons.mpr ⟨h.type, fun ty hty => ?_⟩
  obtain ⟨conversion, hconversion, rfl⟩ := Option.map_eq_some_iff.mp (Option.mem_toList.mp hty)
  exact (h.conversion conversion hconversion).reached

theorem Within.withType {isPlace' : Bool} (h : info.Within l isPlace) {type : Ty}
    (htype : type.Within l) : ({ info with type } : Info).Within l isPlace' :=
  within_of_type htype h.conversion

end Info

end

namespace Expr

mutual

/-- The types that the nodes of an expression hold. -/
def types : Expr → List Ty
  | literal info _ => info.types
  | name info _ _ _ => info.types
  | element info _ _ index => info.types ++ index.types
  | unary info _ operand _ => info.types ++ operand.types
  | binary info left _ right _ => info.types ++ (left.types ++ right.types)
  | call info _ _ args => info.types ++ typesAll args

def typesAll : List Expr → List Ty
  | [] => []
  | e :: rest => e.types ++ typesAll rest

end

mutual

def Within (l : Levels) : Expr → Prop
  | literal info _ => info.Within l false
  | name info _ _ assignable => info.Within l assignable
  | element info _ _ index => info.Within l true ∧ index.Within l
  | unary info operator operand _ => info.Within l (decide (operator = "*")) ∧ operand.Within l
  | binary info left _ right _ => info.Within l false ∧ left.Within l ∧ right.Within l
  | call info _ _ args => info.Within l false ∧ AllWithin l args

def AllWithin (l : Levels) : List Expr → Prop
  | [] => True
  | e :: rest => e.Within l ∧ AllWithin l rest

end

variable {l : Levels}

theorem allWithin_iff {es : List Expr} : AllWithin l es ↔ ∀ e ∈ es, e.Within l := by
  induction es with
  | nil => simp [AllWithin]
  | cons e rest ih => rw [AllWithin, ih, List.forall_mem_cons]

variable {e : Expr}

theorem Within.info (h : e.Within l) : e.info.Within l e.isPlace := by
  cases e with
  | literal _ _ | name _ _ _ _ => exact h
  | element _ _ _ _ | unary _ _ _ _ | binary _ _ _ _ _ | call _ _ _ _ => exact h.1

theorem Within.withInfo (h : e.Within l) {info : Info}
    (hinfo : info.Within l e.isPlace) : (e.withInfo info).Within l := by
  cases e with
  | literal _ _ | name _ _ _ _ => exact hinfo
  | element _ _ _ _ | unary _ _ _ _ | binary _ _ _ _ _ | call _ _ _ _ => exact ⟨hinfo, h.2⟩

theorem Within.withConversion (h : e.Within l) {conversion : Option Conversion}
    (hconversion : ∀ conv ∈ conversion, conv.resultType.Within l) :
    (e.withConversion conversion).Within l :=
  h.withInfo ⟨h.info.type, h.info.place, hconversion⟩

/-- The type that the place of use sees is one of those that the node holds. -/
theorem Within.type (h : e.Within l) : e.type.Reached l := by
  unfold Expr.type
  split
  · rename_i conversion hsome
    exact (h.info.conversion conversion hsome).reached
  · exact h.info.type

theorem Within.type_of_isAssignable (h : e.Within l) (hassignable : e.isAssignable = true) :
    e.type.Within l := by
  obtain ⟨hnone, hplace⟩ := Bool.and_eq_true_iff.mp hassignable
  unfold Expr.type
  split
  · rename_i conversion hsome
    exact h.info.conversion conversion hsome
  · exact h.info.place hplace

mutual

theorem reached_types : (e : Expr) → e.Within l → ∀ ty ∈ e.types, ty.Reached l
  | literal _ _, h | name _ _ _ _, h => Info.Within.types h
  | element _ _ _ e, h | unary _ _ e _, h =>
      List.forall_mem_append.mpr ⟨h.1.types, reached_types e h.2⟩
  | binary _ left _ right _, h => List.forall_mem_append.mpr ⟨h.1.types,
      List.forall_mem_append.mpr ⟨reached_types left h.2.1, reached_types right h.2.2⟩⟩
  | call _ _ _ args, h => List.forall_mem_append.mpr ⟨h.1.types, reached_typesAll args h.2⟩

theorem reached_typesAll : (es : List Expr) → AllWithin l es → ∀ ty ∈ typesAll es, ty.Reached l
  | [], _ => List.forall_mem_nil _
  | e :: rest, h => List.forall_mem_append.mpr ⟨reached_types e h.1, reached_typesAll rest h.2⟩

end

/-! ### Analysis -/

section Analysis

variable {scope : ScopeId} {c : Checker}

theorem fit_within {e : Expr} (he : e.Within l) {slot : Ty} (hslot : slot.Within l)
    (position : Position) (hc : c.Within l) : (e.fit slot position c).Within l (Within l) := by
  -- whether the slot takes the value or not, the value is what is left
  obtain ⟨hchecker, hnode⟩ := e.fit_eq slot position c
  refine ⟨?_, hchecker.symm ▸ hc⟩
  rcases hnode with hnode | ⟨conversion, hnode, hbetween⟩
  · rw [hnode]
    exact he
  · rw [hnode]
    exact he.withConversion fun k hk => Conversion.within_resultType (hbetween k hk) hslot

theorem fitIndex_within {index : Expr} (hindex : index.Within l) (position : Position)
    (hc : c.Within l) : (fitIndex index position c).Within l (Within l) := by
  obtain ⟨hchecker, hnode⟩ := index.fitIndex_eq position c
  refine ⟨?_, hchecker.symm ▸ hc⟩
  rcases hnode with hnode | hnode
  · rw [hnode]
    exact hindex
  · rw [hnode]
    exact (fit_within hindex (Ty.hasDepths_primitive .long) position hc).node

variable {info : Info}

theorem analyseName_within (written cName : String) {assignable : Bool}
    (hinfo : info.Within l assignable) (scope : ScopeId) (hc : c.Within l) :
    (analyseName info written cName assignable scope c).Within l (Within l) := by
  unfold analyseName
  split
  · exact ⟨hinfo, hc⟩
  · rename_i entry hlookup
    have hentry := hc.find (Checker.lookup_eq_ok hlookup)
    split
    · exact ⟨hinfo, hc⟩
    · exact ⟨⟨Entry.reached_valueType hentry, Entry.within_valueType hentry, hinfo.conversion⟩, hc⟩

theorem finishUnary_within {operator : String} (hinfo : info.Within l (decide (operator = "*")))
    {operand : Expr} (hoperand : operand.Within l) (temp : Option String) (scope : ScopeId)
    (hc : c.Within l) : (finishUnary info operator operand temp scope c).Within l (Within l) := by
  unfold finishUnary
  split
  · exact ⟨⟨hinfo.withType Ty.hasDepths_object, hoperand⟩, hc.allocateTemp scope⟩
  · split
    · rename_i type hresult
      refine ⟨⟨?_, hoperand⟩, hc⟩
      rcases Operator.unaryResult?_cases hresult with helement | ⟨hother, hcases⟩
      · exact hinfo.withType (hoperand.type.element helement)
      · have htype : type.Reached l := by
          rcases hcases with rfl | rfl | rfl | ⟨hplace, rfl⟩
          · exact hoperand.type.concrete
          · exact Ty.Within.reached Ty.hasDepths_object
          · exact Ty.Within.reached (Ty.hasDepths_primitive .int)
          · refine ⟨operand.type, ?_, .inr rfl⟩
            exact (Bool.or_eq_true_iff.mp hplace).elim hoperand.type_of_isAssignable
              hoperand.type.of_isArray
        exact ⟨htype, fun hstar => absurd (of_decide_eq_true hstar) hother, hinfo.conversion⟩
    · exact ⟨⟨hinfo, hoperand⟩, hc⟩

variable (hinfo : info.Within l false) {left right : Expr} (hleft : left.Within l)
  (hright : right.Within l)
include hinfo hleft hright

theorem finishHostBinary_within (operator : String) (temp : Option String) (scope : ScopeId)
    (hc : c.Within l) :
    (finishHostBinary info left operator right temp scope c).Within l (Within l) := by
  unfold finishHostBinary
  refine (fit_within hleft Ty.hasDepths_object info.position hc).andThen
    (fun left hleft => ⟨hinfo, hleft, hright⟩) fun left c hleft hc => ?_
  refine (fit_within hright Ty.hasDepths_object info.position hc).andThen
    (fun right hright => ⟨hinfo, hleft, hright⟩) fun right c hright hc => ?_
  have hobject : Info.Within l false { info with type := .object } :=
    hinfo.withType Ty.hasDepths_object
  split
  · exact ⟨⟨hobject, hleft, hright⟩, hc⟩
  · exact ⟨⟨hobject, hleft, hright⟩, hc.allocateTemp scope⟩

theorem finishBinary_within (operator : String) (temp : Option String) (scope : ScopeId)
    (hc : c.Within l) :
    (finishBinary info left operator right temp scope c).Within l (Within l) := by
  unfold finishBinary
  split
  · exact finishHostBinary_within hinfo hleft hright operator temp scope hc
  · split
    · rename_i type hresult
      have htype := Operator.reached_nativeResult hleft.type hright.type hresult
      exact ⟨⟨⟨htype, fun hplace => absurd hplace Bool.false_ne_true, hinfo.conversion⟩, hleft,
        hright⟩, hc⟩
    · exact ⟨⟨hinfo, hleft, hright⟩, hc⟩

end Analysis

mutual

/-- **Analysis of an expression keeps to the bound**, also where it stops at an error. -/
theorem analyse_within : (e : Expr) → (slot : Option Ty) → (scope : ScopeId) → (c : Checker) →
    e.Within l → c.Within l → (e.analyse slot scope c).Within l (Within l)
  | literal info value, slot, scope, c, he, hc =>
      ⟨Info.Within.withType he (value.within_typeFor slot), hc⟩
  | name info written cName assignable, slot, scope, c, he, hc =>
      analyseName_within written cName he scope hc
  | element info written cName index, slot, scope, c, he, hc => by
      obtain ⟨hinfo, hindex⟩ := he
      rw [analyse]
      split
      · exact ⟨⟨hinfo, hindex⟩, hc⟩
      · rename_i entry hlookup
        split
        · exact ⟨⟨hinfo, hindex⟩, hc⟩
        · rename_i type helement
          have htype := (hc.find (Checker.lookup_eq_ok hlookup)).element helement
          have hfitted := (analyse_within index (some (.primitive .long)) scope c hindex hc).andThen
            (fun _ hleft => hleft) fun index c hindex hc =>
              fitIndex_within hindex info.position hc
          exact hfitted.map fun index hindex => ⟨hinfo.withType htype, hindex⟩
  | unary info operator operand temp, slot, scope, c, he, hc => by
      obtain ⟨hinfo, hoperand⟩ := he
      rw [analyse]
      exact (analyse_within operand none scope c hoperand hc).andThen
        (fun _ hoperand => ⟨hinfo, hoperand⟩)
        fun _ _ hoperand hc => finishUnary_within hinfo hoperand temp scope hc
  | binary info left operator right temp, slot, scope, c, he, hc => by
      obtain ⟨hinfo, hleft, hright⟩ := he
      rw [analyse]
      refine (analyse_within left none scope c hleft hc).andThen
        (fun _ hleft => ⟨hinfo, hleft, hright⟩) fun left c hleft hc => ?_
      exact (analyse_within right none scope c hright hc).andThen
        (fun _ hright => ⟨hinfo, hleft, hright⟩)
        fun right c hright hc => finishBinary_within hinfo hleft hright operator temp scope hc
  | call info written cName args, slot, scope, c, he, hc => by
      obtain ⟨hinfo, hargs⟩ := he
      rw [analyse]
      split
      · exact ⟨⟨hinfo, hargs⟩, hc⟩
      · rename_i entry hlookup
        split
        · exact ⟨⟨hinfo, hargs⟩, hc⟩
        · rename_i params result hcallee
          obtain ⟨hparams, hresult⟩ :=
            Entry.within_callee (hc.find (Checker.lookup_eq_ok hlookup)) hcallee
          split
          · exact ⟨⟨hinfo, hargs⟩, hc⟩
          · exact (analyseArgs_within args params info.position scope c hargs hparams hc).andThen
              (fun args hargs => ⟨hinfo, hargs⟩)
              fun args c hargs hc => ⟨⟨hinfo.withType hresult, hargs⟩, hc⟩

theorem analyseArgs_within : (args : List Expr) → (params : List Ty) → (position : Position) →
    (scope : ScopeId) → (c : Checker) → AllWithin l args → (∀ param ∈ params, param.Within l) →
    c.Within l → (analyseArgs args params position scope c).Within l (AllWithin l)
  | arg :: args, param :: params, position, scope, c, hargs, hparams, hc => by
      obtain ⟨harg, hrest⟩ := hargs
      obtain ⟨hparam, hothers⟩ := List.forall_mem_cons.mp hparams
      rw [analyseArgs]
      refine Outcome.Leaves.andThen (P := Within l) ?_ (fun arg harg => ⟨harg, hrest⟩)
        fun arg c harg hc => ?_
      · exact (analyse_within arg (some param) scope c harg hc).andThen (fun _ hleft => hleft)
          fun arg c harg hc => fit_within harg hparam position hc
      · exact (analyseArgs_within args params position scope c hrest hothers hc).map
          fun args hargs => ⟨harg, hargs⟩
  | [], params, position, scope, c, hargs, hparams, hc
  | arg :: args, [], position, scope, c, hargs, hparams, hc => by
      rw [analyseArgs]
      · exact ⟨hargs, hc⟩
      · simp

end

section Slots

variable {slot : Ty} (hslot : slot.Within l) (scope : ScopeId) (position : Position) {c : Checker}
include hslot

theorem analyseInto_within {e : Expr} (he : e.Within l) (hc : c.Within l) :
    (e.analyseInto slot scope position c).Within l (Within l) :=
  (analyse_within e (some slot) scope c he hc).andThen (fun _ hleft => hleft)
    fun _ _ he hc => fit_within he hslot position hc

theorem analyseOptionInto_within {value : Option Expr} (hvalue : ∀ e ∈ value, e.Within l)
    (hc : c.Within l) :
    (analyseOptionInto slot scope position value c).Within l
      fun value => ∀ e ∈ value, e.Within l := by
  cases value with
  | none => exact ⟨hvalue, hc⟩
  | some e =>
      refine (analyseInto_within hslot scope position (hvalue e rfl) hc).map fun e he v hv => ?_
      rw [← Option.mem_some.mp hv]
      exact he

theorem analyseAllInto_within {es : List Expr} (hes : ∀ e ∈ es, e.Within l) (hc : c.Within l) :
    (analyseAllInto slot scope position es c).Within l fun es => ∀ e ∈ es, e.Within l := by
  induction es generalizing c with
  | nil => exact ⟨hes, hc⟩
  | cons e rest ih =>
      obtain ⟨he, hrest⟩ := List.forall_mem_cons.mp hes
      exact (analyseInto_within hslot scope position he hc).andThen
        (fun e he => List.forall_mem_cons.mpr ⟨he, hrest⟩)
        fun e c he hc => (ih hrest hc).map
          fun rest hrest => List.forall_mem_cons.mpr ⟨he, hrest⟩

end Slots

theorem analyseCondition_within {e : Expr} (he : e.Within l) (scope : ScopeId) {c : Checker}
    (hc : c.Within l) : (e.analyseCondition scope c).Within l (Within l) := by
  refine (analyse_within e none scope c he hc).andThen (fun _ hleft => hleft)
    fun e c he hc => ?_
  split
  · exact ⟨he, hc⟩
  · exact ⟨he, hc⟩

end Expr

end ExtensionCompiler

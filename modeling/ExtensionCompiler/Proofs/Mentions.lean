import ExtensionCompiler.Proofs.Meanings
import ExtensionCompiler.Proofs.Written
import Mathlib.Data.List.Nodup

set_option autoImplicit false

/-! # Names that are mentioned, announced and bound

`Descriptor.mentions` lists the names that a descriptor asks a registry for: all its names, at any
depth of a signature, that are no keywords. What a resolved descriptor waits for is what the
meanings of these names wait for, no more and no less (`Ty.pendings_resolve`).

`Part.announced?` is the name that a part announces before analysis begins. What a unit announces is
read off its parts (`Stmt.announceAll_eq_foldl`), and a registry binds no name twice
(`Registry.Distinct`). -/

namespace ExtensionCompiler

/-! ## Mentions -/

namespace Descriptor

/-- What a written name asks a registry for. A keyword asks for nothing. -/
def asked (name : String) : List String := if (keyword? name).isSome then [] else [key name]

mutual

/-- The names that a descriptor asks a registry for. -/
def mentions : Descriptor → List String
  | .named name => asked name
  | .signature base params _ => mentionsAll params ++ asked base

/-- The names that the parameters of a signature ask for. -/
def mentionsAll : List (Descriptor × Nat) → List String
  | [] => []
  | (d, _) :: rest => d.mentions ++ mentionsAll rest

end

end Descriptor

namespace Ty

theorem pendings_resolveName (registry : Registry) (name : String) :
    (resolveName registry name).pendings
      = (Descriptor.asked name).flatMap fun key => (registry.meaning key).pendings := by
  rw [resolveName_eq, Descriptor.asked]
  cases hk : Descriptor.keyword? name with
  | some ty => exact waiting_of_keyword? hk true
  | none => simp

mutual

/-- **A resolved descriptor waits for what the meanings of its names wait for.** -/
theorem pendings_resolve (registry : Registry) : (d : Descriptor) → (depth : Nat) →
    (resolve registry d depth).pendings
      = d.mentions.flatMap fun key => (registry.meaning key).pendings
  | .named name, depth => by
      rw [resolve, pendings, waiting_pointerTo, Descriptor.mentions, ← pendings,
        pendings_resolveName]
  | .signature base params resultDepth, depth => by
      rw [resolve, pendings, waiting_pointerTo, waiting, waiting_pointerTo, Descriptor.mentions,
        List.flatMap_append, waitingIn_resolveParams registry params, ← pendings,
        pendings_resolveName]

theorem waitingIn_resolveParams (registry : Registry) : (params : List (Descriptor × Nat)) →
    waitingIn true (resolveParams registry params)
      = (Descriptor.mentionsAll params).flatMap fun key => (registry.meaning key).pendings
  | [] => rfl
  | (d, depth) :: rest => by
      rw [resolveParams, waitingIn, Descriptor.mentionsAll, List.flatMap_append,
        waitingIn_resolveParams registry rest, ← pendings, pendings_resolve registry d depth]

end

end Ty

/-- What an alias binds its name to, with the descriptor that it is written with. -/
theorem Visit.Introduces.type_of_alias {v : Visit} {name : String} {type : Ty}
    {position : Position} (h : v.Introduces name type position) (hok : v.outcome.error = none)
    {d : TypeAlias} (hpart : v.part = .typeAlias d) (hname : v.part.typeName? = some name) :
    ∃ cName, type = .aliased name cName (Ty.resolve v.before.registry d.descriptor d.depth)
      ∧ v.result.part = .typeAlias { d with cName, type } := by
  obtain ⟨scope, c, p⟩ := v
  cases hpart
  rw [Part.typeName?] at hname
  split at hname
  · cases hname
  · rename_i htag
    cases hname
    rw [Bool.not_eq_true] at htag
    obtain ⟨cName, type', c₁, entry, htype, -, hdeclare, heq⟩ := TypeAlias.analyse_ok hok htag
    -- both say what the visit has bound the name to
    have hsame : type = type' := by
      rw [← h.meaning_after]
      show (d.analyse scope c).checker.registry.meaning d.name = _
      rw [heq]
      show c₁.registry.meaning d.name = _
      rw [Checker.registry_of_declare hdeclare, Checker.register, Registry.meaning_register,
        if_pos rfl]
    refine ⟨cName, hsame.trans htype, ?_⟩
    show Part.typeAlias (d.analyse scope c).node = _
    rw [heq, hsame]
    rfl

/-! ## Bound names -/

namespace Registry

/-- The names that a registry binds, in order. -/
def names (registry : Registry) : List String := registry.bindings.map (·.name)

variable {registry : Registry} {name : String}

theorem mem_names_iff : name ∈ registry.names ↔ (registry.get? name).isSome = true := by
  rw [names, List.mem_map, get?, Option.isSome_map, find?, List.find?_isSome]
  simp only [decide_eq_true_eq]

theorem names_put (new : Binding) (bindings : List Binding) :
    (put new bindings).map (·.name)
      = if new.name ∈ bindings.map (·.name) then bindings.map (·.name)
        else bindings.map (·.name) ++ [new.name] := by
  induction bindings with
  | nil => rfl
  | cons old rest ih =>
      rw [put]
      by_cases heq : old.name = new.name
      · simp [heq]
      · have hne : ¬ new.name = old.name := fun h => heq h.symm
        rw [if_neg heq, List.map_cons, ih]
        simp only [List.map_cons, List.mem_cons, hne, false_or]
        split <;> rfl

theorem names_register (registry : Registry) (name : String) (type : Ty) (position : Position) :
    (registry.register name type position).names
      = if name ∈ registry.names then registry.names else registry.names ++ [name] :=
  names_put ⟨name, type, position⟩ registry.bindings

theorem mem_names_register {other : String} {type : Ty} {position : Position} :
    other ∈ (registry.register name type position).names
      ↔ other = name ∨ other ∈ registry.names := by
  rw [names_register]
  split
  · rename_i hmem
    refine ⟨.inr, ?_⟩
    rintro (rfl | h)
    · exact hmem
    · exact h
  · rw [List.mem_append, List.mem_singleton, or_comm]

theorem mem_names_announce {other : String} {position : Position} :
    other ∈ (registry.announce name position).names ↔ other = name ∨ other ∈ registry.names := by
  unfold announce
  split
  · rename_i b hfind
    have hmem : name ∈ registry.names := by
      rw [mem_names_iff, get?, hfind]
      rfl
    refine ⟨.inr, ?_⟩
    rintro (rfl | h)
    · exact hmem
    · exact h
  · exact mem_names_register

/-- The names that parts announce are bound, and no others are that were not before. -/
theorem mem_names_foldl_announce {parts : List Part} :
    name ∈ (parts.foldl Part.announce registry).names
      ↔ (∃ p ∈ parts, ∃ position, p.announced? = some (name, position))
        ∨ name ∈ registry.names := by
  induction parts generalizing registry with
  | nil => simp
  | cons p rest ih =>
      rw [List.foldl_cons, ih]
      have hhead : name ∈ (Part.announce registry p).names
          ↔ (∃ position, p.announced? = some (name, position)) ∨ name ∈ registry.names := by
        unfold Part.announce
        cases hp : p.announced? with
        | none => simp
        | some announced =>
            obtain ⟨other, position⟩ := announced
            simp only [mem_names_announce, Option.some.injEq, Prod.mk.injEq, eq_comm (a := name),
              exists_and_left, exists_eq', and_true]
      rw [hhead]
      simp only [List.mem_cons, exists_eq_or_imp, or_assoc, or_left_comm]

theorem mem_names_announceAll {unit : List Stmt} :
    name ∈ (Stmt.announceAll unit .empty).names
      ↔ ∃ p ∈ Stmt.headsAll unit, ∃ position, p.announced? = some (name, position) := by
  rw [Stmt.announceAll_eq_foldl, mem_names_foldl_announce]
  exact or_iff_left List.not_mem_nil

/-- No name is bound twice. -/
def Distinct (registry : Registry) : Prop := registry.names.Nodup

theorem Distinct.register (h : registry.Distinct) (name : String) (type : Ty)
    (position : Position) : (registry.register name type position).Distinct := by
  rw [Distinct, names_register]
  split
  · exact h
  · rename_i hnew
    rw [List.nodup_append]
    refine ⟨h, List.nodup_singleton name, fun a ha b hb heq => ?_⟩
    rw [List.mem_singleton.mp hb] at heq
    exact hnew (heq ▸ ha)

theorem distinct_announceAll (unit : List Stmt) : (Stmt.announceAll unit .empty).Distinct := by
  refine Stmt.announceAll_invariant (P := Distinct) (fun registry name position h => ?_) unit
    List.nodup_nil
  unfold announce
  split
  · exact h
  · exact h.register name _ position

/-- If no name is bound twice, every binding is what its name stands for. -/
theorem Distinct.get?_eq_some (h : registry.Distinct) {b : Binding}
    (hb : b ∈ registry.bindings) : registry.get? b.name = some b.type := by
  have hbound : (registry.get? b.name).isSome = true :=
    mem_names_iff.mp (List.mem_map.mpr ⟨b, hb, rfl⟩)
  obtain ⟨type, htype⟩ := Option.isSome_iff_exists.mp hbound
  obtain ⟨b', hb', hname, rfl⟩ := mem_of_get? htype
  rw [htype, List.inj_on_of_nodup_map h hb' hb hname]

/-- A bound name of a blank registry waits for itself. -/
theorem Blank.get?_eq_some (h : registry.Blank)
    (hname : name ∈ registry.names) : registry.get? name = some (.pending name) := by
  obtain ⟨type, htype⟩ := Option.isSome_iff_exists.mp (mem_names_iff.mp hname)
  have hmeaning := h name
  rw [meaning, htype, Option.getD_some] at hmeaning
  rw [htype, hmeaning]

end Registry

/-- The check after the passes has found nothing pending in the registry. -/
theorem Checker.pendings_of_get? {c : Checker} (h : c.unresolved? = none) {name : String}
    {type : Ty} (htype : c.registry.get? name = some type) : type.pendings = [] := by
  obtain ⟨b, hb, -, rfl⟩ := Registry.mem_of_get? htype
  have hmem : (b.type, b.position) ∈ c.declared :=
    List.mem_append_right _ (List.mem_map.mpr ⟨b, hb, rfl⟩)
  have hnone := List.findSome?_eq_none_iff.mp h _ hmem
  exact Ty.noPending_iff.mp (Option.map_eq_none_iff.mp hnone)

end ExtensionCompiler

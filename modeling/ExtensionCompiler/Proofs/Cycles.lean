import ExtensionCompiler.Proofs.Mentions
import Mathlib.Data.List.Chain

set_option autoImplicit false

/-! # Aliases that lead back to themselves

An alias is bound to what its descriptor means when it is visited, and on the revisit once more,
with what its pending names mean by then. In a cycle of aliases this unfolds the next one again and
again, differently for every order of the declarations, but it never gets rid of the names of the
cycle: wherever one is replaced, it is by a type that waits for one of them (`Registry.Tangled`).
The check after the passes finds it, so that a unit with such a cycle is rejected
(`check_error_of_alias_cycle`). -/

namespace ExtensionCompiler

/-! ## Names that wait for each other -/

/-- The type waits for one of the names. -/
def Ty.WaitsIn (names : List String) (ty : Ty) : Prop := ∃ m ∈ ty.pendings, m ∈ names

namespace Registry

/-- Every one of the names is bound, to a type that waits for one of them. -/
def Tangled (registry : Registry) (names : List String) : Prop :=
  ∀ n ∈ names, ∃ ty, registry.get? n = some ty ∧ ty.WaitsIn names

variable {registry : Registry} {names : List String}

theorem Tangled.waitsIn_meaning (h : registry.Tangled names) {n : String} (hn : n ∈ names) :
    (registry.meaning n).WaitsIn names := by
  obtain ⟨ty, hget, hty⟩ := h n hn
  rwa [meaning, hget, Option.getD_some]

theorem Tangled.register (h : registry.Tangled names) {name : String} {type : Ty}
    (htype : name ∈ names → type.WaitsIn names) (position : Position) :
    (registry.register name type position).Tangled names := by
  intro n hn
  rw [get?_register]
  split
  · rename_i hself
    exact ⟨type, rfl, htype (hself ▸ hn)⟩
  · exact h n hn

/-- A descriptor that mentions one of the names resolves to a type that waits for one. -/
theorem Tangled.waitsIn_resolve (h : registry.Tangled names) {d : Descriptor} {n : String}
    (hd : n ∈ d.mentions) (hn : n ∈ names) (depth : Nat) :
    (Ty.resolve registry d depth).WaitsIn names := by
  obtain ⟨m, hm, hmem⟩ := h.waitsIn_meaning hn
  refine ⟨m, ?_, hmem⟩
  rw [Ty.pendings_resolve]
  exact List.mem_flatMap.mpr ⟨n, hd, hm⟩

/-- A rescan does not get rid of the names. -/
theorem Tangled.waitsIn_rescan (h : registry.Tangled names) {type : Ty}
    (htype : type.WaitsIn names) : (type.rescan registry).WaitsIn names := by
  obtain ⟨n, hn, hmem⟩ := htype
  obtain ⟨m, hm, hmem'⟩ := h.waitsIn_meaning hmem
  refine ⟨m, ?_, hmem'⟩
  rw [Ty.pendings, Ty.waiting_rescan]
  exact List.mem_flatMap.mpr ⟨n, hn, hm⟩

end Registry

/-! ## Tangled names stay tangled -/

/-- If the part gives one of the names a meaning, it is as an alias that mentions one of them. -/
def Part.Entangles (names : List String) (p : Part) : Prop :=
  ∀ n ∈ names, p.typeName? = some n → ∃ d, p = .typeAlias d ∧ ∃ m ∈ d.descriptor.mentions, m ∈ names

/-- What such a visit binds one of the names to waits for one of them. -/
theorem Visit.Introduces.waitsIn {v : Visit} {names : List String} {name : String} {type : Ty}
    {position : Position} (h : v.Introduces name type position) (hok : v.outcome.error = none)
    (hname : v.part.typeName? = some name) (hpart : v.part.Entangles names)
    (hbefore : v.before.registry.Tangled names) (hmem : name ∈ names) : type.WaitsIn names := by
  obtain ⟨d, hd, n, hn, hnames⟩ := hpart name hmem hname
  obtain ⟨cName, rfl, -⟩ := h.type_of_alias hok hd hname
  exact hbefore.waitsIn_resolve hn hnames d.depth

/-- The first pass, one visit. -/
theorem Visit.tangled_after {v : Visit} {names : List String} (hok : v.outcome.error = none)
    (hpart : v.part.Entangles names) (hbefore : v.before.registry.Tangled names) :
    v.after.registry.Tangled names := by
  cases hv : v.part.typeName? with
  | none => rwa [(registry_of_typeName?_eq_none hv v.before).1]
  | some name =>
      obtain ⟨type, position, hintro⟩ := introduces hok hv
      rw [hintro.early]
      exact hbefore.register (hintro.waitsIn hok hv hpart hbefore) position

/-- The second pass, one revisit. -/
theorem Visit.tangled_settle {v : Visit} {names : List String} (hok : v.outcome.error = none)
    (hpart : v.part.Entangles names) (hbefore : v.before.registry.Tangled names) {r : Checker}
    (hr : r.registry.Tangled names) : (v.settle r).2.registry.Tangled names := by
  cases hv : v.part.typeName? with
  | none => rwa [(registry_of_typeName?_eq_none hv r).2]
  | some name =>
      obtain ⟨type, position, hintro⟩ := introduces hok hv
      rw [hintro.late r]
      split
      · refine hr.register (fun hmem => ?_) position
        exact hr.waitsIn_rescan (hintro.waitsIn hok hv hpart hbefore hmem)
      · exact hr

theorem Run.tangled {c c' : Checker} {visits : List Visit} {names : List String}
    (h : Run c visits c') (hparts : ∀ v ∈ visits, v.part.Entangles names)
    (hc : c.registry.Tangled names) :
    c'.registry.Tangled names ∧ ∀ v ∈ visits, v.before.registry.Tangled names := by
  refine h.invariant (I := fun c => c.registry.Tangled names) hc fun v hv hok hbefore => ?_
  exact Visit.tangled_after hok (hparts v hv) hbefore

theorem Run.settleAll_tangled {c c' : Checker} {visits : List Visit} {names : List String}
    (h : Run c visits c') (hparts : ∀ v ∈ visits, v.part.Entangles names)
    (hbefore : ∀ v ∈ visits, v.before.registry.Tangled names) (r : Checker)
    (hr : r.registry.Tangled names) : (Visit.settleAll visits r).registry.Tangled names := by
  refine (h.invariant_revisits (I := fun _ r => r.registry.Tangled names) hr
    fun x hx hok _ _ hr => ?_).1
  have hv := (h.at_revisit r hx).1
  exact Visit.tangled_settle hok (hparts _ hv) (hbefore _ hv) hr

/-- Names that wait for each other are pending for good. -/
theorem check_error_of_tangled {unit : List Stmt} {registry : Registry} (names : List String)
    (hne : names ≠ []) (hstart : registry.Tangled names)
    (hparts : ∀ p ∈ Stmt.headsAll unit, p.Entangles names) :
    ∃ error, check unit registry = .error error := by
  cases hcheck : check unit registry with
  | error e => exact ⟨e, rfl⟩
  | ok checked =>
      exfalso
      have hpasses := passes_of_check hcheck
      have hvisits : ∀ v ∈ Stmt.visitsAll unit Checker.global (Checker.start registry),
          v.part.Entangles names := by
        intro v hv
        refine hparts v.part ?_
        rw [← Stmt.map_part_visitsAll unit Checker.global (Checker.start registry)]
        exact List.mem_map_of_mem hv
      obtain ⟨hmiddle, hbefore⟩ := hpasses.run.tangled hvisits hstart
      have hend := hpasses.run.settleAll_tangled hvisits hbefore _ hmiddle
      rw [hpasses.settleAll_eq] at hend
      obtain ⟨n, hn⟩ := List.exists_mem_of_ne_nil names hne
      obtain ⟨ty, hget, m, hm, -⟩ := hend n hn
      rw [Checker.pendings_of_get? hpasses.resolved hget] at hm
      cases hm

/-! ## Cycles of aliases -/

/-- The descriptor of the alias mentions the name of the other one. -/
def TypeAlias.Mentions (d e : TypeAlias) : Prop := e.name ∈ d.descriptor.mentions

instance (d e : TypeAlias) : Decidable (d.Mentions e) :=
  inferInstanceAs (Decidable (e.name ∈ d.descriptor.mentions))

/-- In a chain that ends where it began, every alias has one that it mentions. -/
theorem TypeAlias.exists_mentions_of_isChain {first : TypeAlias} {rest : List TypeAlias}
    (h : List.IsChain Mentions (first :: rest ++ [first])) {d : TypeAlias}
    (hd : d ∈ first :: rest) : ∃ e ∈ first :: rest, d.Mentions e := by
  obtain ⟨before, after, hsplit⟩ := List.append_of_mem hd
  rw [hsplit, List.append_assoc, List.cons_append] at h
  cases after with
  | nil => exact ⟨first, List.mem_cons_self, (List.isChain_append_cons_cons.mp h).2.1⟩
  | cons e after =>
      refine ⟨e, ?_, (List.isChain_append_cons_cons.mp h).2.1⟩
      rw [hsplit]
      exact List.mem_append_right _ (List.mem_cons_of_mem d List.mem_cons_self)

/-- **A cycle of aliases is rejected.** The aliases may stand anywhere in the unit and in any order,
and mention each other at any depth of their descriptors, as long as the unit gives their names no
other meaning. -/
theorem check_error_of_alias_cycle (unit : List Stmt) (first : TypeAlias) (rest : List TypeAlias)
    (hcycle : List.IsChain TypeAlias.Mentions (first :: rest ++ [first]))
    (hunit : ∀ d ∈ first :: rest, Part.typeAlias d ∈ Stmt.headsAll unit)
    (honly : ∀ d ∈ first :: rest, ∀ p ∈ Stmt.headsAll unit,
      p.typeName? = some d.name → p = .typeAlias d) :
    ∃ error, check unit (Stmt.announceAll unit .empty) = .error error := by
  refine check_error_of_tangled ((first :: rest).map TypeAlias.name) (List.cons_ne_nil _ _)
    (fun n hn => ?_) fun p hp n hn hname => ?_
  · -- every alias announces its name, and until analysis begins that is all that is known of it
    obtain ⟨d, hd, rfl⟩ := List.mem_map.mp hn
    have hbound : d.name ∈ (Stmt.announceAll unit .empty).names :=
      Registry.mem_names_announceAll.mpr ⟨.typeAlias d, hunit d hd, d.position, rfl⟩
    exact ⟨.pending d.name, (Registry.blank_announceAll unit).get?_eq_some hbound, d.name,
      List.mem_singleton_self _, hn⟩
  · obtain ⟨d, hd, rfl⟩ := List.mem_map.mp hn
    obtain ⟨e, he, hmentions⟩ := TypeAlias.exists_mentions_of_isChain hcycle hd
    exact ⟨d, honly d hd p hp hname, e.name, hmentions, List.mem_map_of_mem he⟩

/-! ## An instance

The aliases `queue`, `visitor` and `handle` lead to each other through a tag, a parameter of a
parameter, and the result of a signature. Two of them stand inside a function, and between them is a
variable that uses one. -/

namespace TypeAlias

def queue : TypeAlias :=
  { name := "queue", descriptor := .named "struct  visitor", depth := 2, position := .unknown }

def visitor : TypeAlias :=
  let callback : Descriptor := .signature "void" [(.named "int", 0), (.named "handle", 1)] 0
  { name := "visitor", descriptor := .signature "int" [(callback, 0)] 0, depth := 0,
    position := .unknown }

def handle : TypeAlias :=
  { name := "handle", descriptor := .signature "queue" [] 1, depth := 1, position := .unknown }

end TypeAlias

def Stmt.cyclicUnit : List Stmt :=
  let here := Position.unknown
  [.typeAlias .visitor,
    .function
      { descriptor := .named "void", depth := 0, name := "f", params := [], position := here }
      [.typeAlias .queue,
        .var
          { form := .plain, descriptor := .named "queue", depth := 0, name := "q", value := none,
            position := here },
        .typeAlias .handle]]

theorem check_cyclicUnit :
    List.IsChain TypeAlias.Mentions [.queue, .visitor, .handle, .queue]
      ∧ (Stmt.analyseAll Stmt.cyclicUnit Checker.global
          (Checker.start (Stmt.announceAll Stmt.cyclicUnit .empty))).error = none
      ∧ ∃ error, check Stmt.cyclicUnit (Stmt.announceAll Stmt.cyclicUnit .empty)
          = .error error := by
  have hcycle : List.IsChain TypeAlias.Mentions [.queue, .visitor, .handle, .queue] := by
    decide +kernel
  refine ⟨hcycle, by decide +kernel, ?_⟩
  refine check_error_of_alias_cycle Stmt.cyclicUnit .queue [.visitor, .handle] hcycle ?_ ?_
  · simp [Stmt.cyclicUnit, Stmt.headsAll, Stmt.heads]
  · simp [Stmt.cyclicUnit, Stmt.headsAll, Stmt.heads, Part.typeName?, TypeAlias.queue,
      TypeAlias.visitor, TypeAlias.handle]

end ExtensionCompiler

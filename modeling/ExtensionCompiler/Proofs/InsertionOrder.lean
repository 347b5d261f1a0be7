import Mathlib.Data.List.Induction
import ExtensionCompiler.Proofs.Mentions

set_option autoImplicit false

/-! # The registry as a map in insertion order

A registry comes about by calls that register a name or announce it, and what it holds can be told
from the calls alone (`Registry.InsertionOrdered`): the names stand in the order of their first
calls, each once, and each with what its last effective call has said. Registering is always
effective, and announcing only for a name that is new.

A registry could also be kept in two parts, a table of types and a list of names beside it. The list
gives the order, and a name in it that the table lacks would go unseen. `Registry.Indexed` is such a
pair. Along any calls its parts stay in step, and show what the registry shows. -/

namespace ExtensionCompiler

namespace Registry

/-! ## Calls -/

/-- A call that may change a registry. -/
inductive Call where
  | register (name : String) (type : Ty) (position : Position)
  | announce (name : String) (position : Position)
deriving DecidableEq, Repr

namespace Call

def isRegister : Call → Bool
  | .register _ _ _ => true
  | .announce _ _ => false

/-- What the call says of its name. An announced name stands for itself. -/
def binding : Call → Binding
  | .register name type position => ⟨name, type, position⟩
  | .announce name position => ⟨name, .pending name, position⟩

def name (call : Call) : String := call.binding.name

def run : Call → Registry → Registry
  | .register name type position, registry => registry.register name type position
  | .announce name position, registry => registry.announce name position

/-- What calls make of the empty registry, one after the other. -/
def runAll (calls : List Call) : Registry :=
  calls.foldl (fun registry call => call.run registry) .empty

/-- The call says something new of its name, if it is made after the calls `before`. -/
def IsEffective (before : List Call) (call : Call) : Prop :=
  call.isRegister = true ∨ ∀ earlier ∈ before, earlier.name ≠ call.name

/-- The call is one of `calls` and effective, and no later call of its name is. -/
def IsLatest (calls : List Call) (call : Call) : Prop :=
  ∃ before after, calls = before ++ call :: after ∧ call.IsEffective before
    ∧ ∀ between later rest, after = between ++ later :: rest → later.name = call.name →
        ¬ later.IsEffective (before ++ call :: between)

theorem runAll_concat (calls : List Call) (call : Call) :
    runAll (calls ++ [call]) = call.run (runAll calls) := by
  rw [runAll, List.foldl_append]
  rfl

/-! ### The latest call -/

theorem isLatest_concat_self {calls : List Call} {call : Call} (h : call.IsEffective calls) :
    call.IsLatest (calls ++ [call]) := by
  refine ⟨calls, [], rfl, h, fun between later rest hafter => ?_⟩
  exact absurd hafter.symm (by simp)

/-- A call stays the latest one for its name until one of that name is effective. -/
theorem IsLatest.concat {calls : List Call} {call next : Call} (h : call.IsLatest calls)
    (hnext : next.name = call.name → ¬ next.IsEffective calls) :
    call.IsLatest (calls ++ [next]) := by
  obtain ⟨before, after, rfl, heffective, hlast⟩ := h
  refine ⟨before, after ++ [next], by simp, heffective, fun between later rest hafter hname => ?_⟩
  -- the later call is the new one, or it was there before
  rcases List.eq_nil_or_concat rest with rfl | ⟨rest, last, rfl⟩
  · obtain ⟨rfl, hlater⟩ := List.append_inj' hafter rfl
    cases hlater
    exact hnext hname
  · have hsplit : after ++ [next] = (between ++ later :: rest) ++ [last] := by simpa using hafter
    exact hlast between later rest (List.append_inj' hsplit rfl).1 hname

end Call

/-! ## One call -/

theorem mem_names_iff_find? {registry : Registry} {name : String} :
    name ∈ registry.names ↔ (registry.find? name).isSome = true := by
  rw [mem_names_iff, get?, Option.isSome_map]

/-- A name that is bound is announced without any effect. -/
theorem announce_of_mem {registry : Registry} {name : String} (h : name ∈ registry.names)
    (position : Position) : registry.announce name position = registry := by
  obtain ⟨b, hb⟩ := Option.isSome_iff_exists.mp (mem_names_iff_find?.mp h)
  rw [announce, hb]

theorem announce_of_notMem {registry : Registry} {name : String} (h : name ∉ registry.names)
    (position : Position) :
    registry.announce name position = registry.register name (.pending name) position := by
  have hnone : registry.find? name = none := by
    simpa [mem_names_iff_find?] using h
  rw [announce, hnone]

/-- A call registers what it says if it is effective, and else does nothing. -/
theorem Call.run_eq (call : Call) (registry : Registry) :
    call.run registry
      = if call.isRegister = true ∨ call.name ∉ registry.names then
          registry.register call.name call.binding.type call.binding.position
        else registry := by
  cases call with
  | register name type position => exact (if_pos (.inl rfl)).symm
  | announce name position =>
      by_cases hmem : name ∈ registry.names
      · have hidle : ¬ ((announce name position).isRegister = true
            ∨ (announce name position).name ∉ registry.names) := by
          rintro (h | h)
          · cases h
          · exact h hmem
        rw [if_neg hidle]
        exact announce_of_mem hmem position
      · rw [if_pos (.inr hmem)]
        exact announce_of_notMem hmem position

/-- A new name comes behind the others. -/
theorem put_of_notMem {new : Binding} {bindings : List Binding}
    (h : ∀ b ∈ bindings, b.name ≠ new.name) : put new bindings = bindings ++ [new] := by
  induction bindings with
  | nil => rfl
  | cons old rest ih =>
      obtain ⟨hold, hrest⟩ := List.forall_mem_cons.mp h
      rw [put, if_neg hold, ih hrest, List.cons_append]

/-- A binding that is put in leaves no other of its name, if there was one at most. -/
theorem mem_put {new b : Binding} {bindings : List Binding}
    (hdistinct : (bindings.map Binding.name).Nodup) (hb : b ∈ put new bindings) :
    b = new ∨ b ∈ bindings ∧ b.name ≠ new.name := by
  induction bindings with
  | nil => exact .inl (List.mem_singleton.mp hb)
  | cons old rest ih =>
      obtain ⟨hold, hrest⟩ := List.nodup_cons.mp hdistinct
      rw [put] at hb
      by_cases heq : old.name = new.name
      · rw [if_pos heq] at hb
        refine (List.mem_cons.mp hb).imp id fun hmem => ?_
        refine ⟨List.mem_cons_of_mem old hmem, fun hname => hold ?_⟩
        exact List.mem_map.mpr ⟨b, hmem, hname.trans heq.symm⟩
      · rw [if_neg heq] at hb
        rcases List.mem_cons.mp hb with rfl | hmem
        · exact .inr ⟨List.mem_cons_self, heq⟩
        · exact (ih hrest hmem).imp id fun h => ⟨List.mem_cons_of_mem old h.1, h.2⟩

/-! ## All calls -/

/-- What a registry shows after calls. -/
structure InsertionOrdered (calls : List Call) (registry : Registry) : Prop where
  /-- The names of all calls, in the order of the first call of each. -/
  order : registry.names = (calls.map Call.name).eraseDups
  distinct : registry.names.Nodup
  /-- A name has the type and the position of its last effective call. -/
  latest : ∀ b ∈ registry.bindings, ∃ call : Call, call.IsLatest calls ∧ b = call.binding
  /-- A look-up gives what one meets by going through the registry. -/
  find : ∀ name b, registry.find? name = some b ↔ b ∈ registry.bindings ∧ b.name = name
  get : ∀ name type,
    registry.get? name = some type ↔ ∃ b ∈ registry.bindings, b.name = name ∧ b.type = type
  /-- An announcement leaves all that is there as it is, and puts a new name behind it. -/
  announce : ∀ name position,
    (registry.announce name position).bindings
      = registry.bindings
        ++ if name ∈ registry.names then [] else [⟨name, .pending name, position⟩]

namespace Call

theorem names_runAll (calls : List Call) :
    (runAll calls).names = (calls.map name).eraseDups := by
  induction calls using List.reverseRecOn with
  | nil => rfl
  | append_singleton calls call ih =>
      have hmem : call.name ∈ (runAll calls).names ↔ call.name ∈ calls.map name := by
        rw [ih, List.mem_eraseDups]
      rw [runAll_concat, run_eq, List.map_append, List.map_singleton, List.eraseDups_append, ← ih]
      by_cases hnew : call.name ∈ calls.map name
      · have hgone : [call.name].removeAll (calls.map name) = [] := by
          simpa [List.removeAll] using hnew
        rw [hgone]
        split
        · rw [names_register, if_pos (hmem.mpr hnew)]
          exact (List.append_nil _).symm
        · exact (List.append_nil _).symm
      · have hkept : [call.name].removeAll (calls.map name) = [call.name] := by
          simpa [List.removeAll] using hnew
        rw [hkept, if_pos (.inr fun h => hnew (hmem.mp h)), names_register,
          if_neg fun h => hnew (hmem.mp h)]
        rfl

theorem distinct_run {registry : Registry} (h : registry.Distinct) (call : Call) :
    (call.run registry).Distinct := by
  rw [run_eq]
  split
  · exact h.register _ _ _
  · exact h

theorem distinct_runAll (calls : List Call) : (runAll calls).Distinct := by
  induction calls using List.reverseRecOn with
  | nil => exact List.nodup_nil
  | append_singleton calls call ih =>
      rw [runAll_concat]
      exact distinct_run ih call

/-- The names of a registry are those of its calls. -/
theorem mem_names_runAll {calls : List Call} {name : String} :
    name ∈ (runAll calls).names ↔ ∃ call ∈ calls, call.name = name := by
  rw [names_runAll, List.mem_eraseDups, List.mem_map]

theorem isEffective_iff {calls : List Call} {call : Call} :
    call.IsEffective calls ↔ call.isRegister = true ∨ call.name ∉ (runAll calls).names := by
  rw [IsEffective, mem_names_runAll]
  simp only [not_exists, not_and, ne_eq]

/-- **Every binding is that of the last effective call of its name.** -/
theorem latest_runAll (calls : List Call) :
    ∀ b ∈ (runAll calls).bindings, ∃ call : Call, call.IsLatest calls ∧ b = call.binding := by
  induction calls using List.reverseRecOn with
  | nil => exact List.forall_mem_nil _
  | append_singleton calls next ih =>
      rw [runAll_concat, run_eq]
      split
      · rename_i heffective
        intro b hb
        rcases mem_put (distinct_runAll calls) hb with rfl | ⟨hold, hne⟩
        · exact ⟨next, isLatest_concat_self (isEffective_iff.mpr heffective), rfl⟩
        · obtain ⟨call, hlatest, rfl⟩ := ih b hold
          exact ⟨call, hlatest.concat fun hname => absurd hname.symm hne, rfl⟩
      · rename_i hidle
        intro b hb
        obtain ⟨call, hlatest, rfl⟩ := ih b hb
        exact ⟨call, hlatest.concat fun _ heffective => hidle (isEffective_iff.mp heffective), rfl⟩

end Call

theorem Distinct.find?_eq_some_iff {registry : Registry} (h : registry.Distinct) {name : String}
    {b : Binding} : registry.find? name = some b ↔ b ∈ registry.bindings ∧ b.name = name := by
  constructor
  · intro hfind
    exact ⟨List.mem_of_find?_eq_some hfind, by simpa using List.find?_some hfind⟩
  · rintro ⟨hb, rfl⟩
    have hbound : (registry.find? b.name).isSome = true :=
      mem_names_iff_find?.mp (List.mem_map.mpr ⟨b, hb, rfl⟩)
    obtain ⟨found, hfound⟩ := Option.isSome_iff_exists.mp hbound
    have hname : found.name = b.name := by simpa using List.find?_some hfound
    rw [hfound, List.inj_on_of_nodup_map h (List.mem_of_find?_eq_some hfound) hb hname]

theorem Distinct.get?_eq_some_iff {registry : Registry} (h : registry.Distinct) {name : String}
    {type : Ty} :
    registry.get? name = some type ↔ ∃ b ∈ registry.bindings, b.name = name ∧ b.type = type := by
  simp only [get?, Option.map_eq_some_iff, h.find?_eq_some_iff, and_assoc]

theorem bindings_announce (registry : Registry) (name : String) (position : Position) :
    (registry.announce name position).bindings
      = registry.bindings
        ++ if name ∈ registry.names then [] else [⟨name, .pending name, position⟩] := by
  by_cases hmem : name ∈ registry.names
  · rw [announce_of_mem hmem, if_pos hmem, List.append_nil]
  · rw [announce_of_notMem hmem, if_neg hmem]
    refine put_of_notMem fun b hb hname => hmem ?_
    exact List.mem_map.mpr ⟨b, hb, hname⟩

/-! ## A table with an order beside it -/

/-- A registry in two parts: what names stand for, and the names in order. -/
structure Indexed where
  table : String → Option (Ty × Position)
  order : List String

namespace Indexed

def empty : Indexed := ⟨fun _ => none, []⟩

/-- Writes to the table. The name goes into the order if the table has not had it. -/
def register (x : Indexed) (name : String) (type : Ty) (position : Position) : Indexed where
  table other := if other = name then some (type, position) else x.table other
  order := if (x.table name).isSome then x.order else x.order ++ [name]

def announce (x : Indexed) (name : String) (position : Position) : Indexed :=
  if (x.table name).isSome then x else x.register name (.pending name) position

def run : Call → Indexed → Indexed
  | .register name type position, x => x.register name type position
  | .announce name position, x => x.announce name position

def runAll (calls : List Call) : Indexed := calls.foldl (fun x call => run call x) .empty

/-- Goes through the order. A name that is not in the table is passed over. -/
def bindings (x : Indexed) : List Binding :=
  x.order.filterMap fun name => (x.table name).map fun t => ⟨name, t.1, t.2⟩

def get? (x : Indexed) (name : String) : Option Ty := (x.table name).map Prod.fst

/-- The parts hold what the registry holds. -/
structure Represents (x : Indexed) (registry : Registry) : Prop where
  table : ∀ name, x.table name = (registry.find? name).map fun b => (b.type, b.position)
  order : x.order = registry.names

namespace Represents

variable {x : Indexed} {registry : Registry}

theorem isSome_table (h : x.Represents registry) (name : String) :
    (x.table name).isSome = true ↔ name ∈ registry.names := by
  rw [h.table, Option.isSome_map, mem_names_iff_find?]

theorem register (h : x.Represents registry) (name : String) (type : Ty) (position : Position) :
    (x.register name type position).Represents (registry.register name type position) where
  table other := by
    show (if other = name then some (type, position) else x.table other) = _
    rw [Registry.register, find?, find?_put]
    split
    · rfl
    · exact h.table other
  order := by
    show (if (x.table name).isSome = true then x.order else x.order ++ [name]) = _
    rw [names_register, h.order]
    by_cases hmem : name ∈ registry.names
    · rw [if_pos hmem, if_pos ((h.isSome_table name).mpr hmem)]
    · rw [if_neg hmem, if_neg fun hsome => hmem ((h.isSome_table name).mp hsome)]

theorem announce (h : x.Represents registry) (name : String) (position : Position) :
    (x.announce name position).Represents (registry.announce name position) := by
  rw [Indexed.announce]
  split
  · rename_i hsome
    rw [announce_of_mem ((h.isSome_table name).mp hsome)]
    exact h
  · rename_i hnone
    rw [announce_of_notMem fun hmem => hnone ((h.isSome_table name).mpr hmem)]
    exact h.register name _ position

theorem run (h : x.Represents registry) (call : Call) :
    (Indexed.run call x).Represents (call.run registry) := by
  cases call with
  | register name type position => exact h.register name type position
  | announce name position => exact h.announce name position

/-- If no name is bound twice, going through the order passes no name over. -/
theorem bindings_eq (h : x.Represents registry) (hdistinct : registry.Distinct) :
    x.bindings = registry.bindings := by
  have hfound : ∀ b ∈ registry.bindings,
      (x.table b.name).map (fun t => (⟨b.name, t.1, t.2⟩ : Binding)) = some b := by
    intro b hb
    rw [h.table, hdistinct.find?_eq_some_iff.mpr ⟨hb, rfl⟩]
    rfl
  rw [bindings, h.order, names, List.filterMap_map]
  exact (List.filterMap_congr hfound).trans List.filterMap_some

theorem get?_eq (h : x.Represents registry) (name : String) :
    x.get? name = registry.get? name := by
  rw [Indexed.get?, h.table, Registry.get?, Option.map_map]
  rfl

end Represents

theorem runAll_represents (calls : List Call) :
    (runAll calls).Represents (Call.runAll calls) := by
  induction calls using List.reverseRecOn with
  | nil => exact ⟨fun _ => rfl, rfl⟩
  | append_singleton calls call ih =>
      rw [Call.runAll_concat, runAll, List.foldl_append]
      exact ih.run call

end Indexed

/-- **A registry is a map in insertion order.** After any calls it has every name once, in the order
of the first calls, with what the last effective call said. A table and an order that are kept
apart show the same, and every name of the order is in the table. -/
theorem insertionOrdered_runAll (calls : List Call) :
    InsertionOrdered calls (Call.runAll calls)
      ∧ (Indexed.runAll calls).bindings = (Call.runAll calls).bindings
      ∧ (∀ name, (Indexed.runAll calls).get? name = (Call.runAll calls).get? name)
      ∧ ∀ name ∈ (Indexed.runAll calls).order,
          ((Indexed.runAll calls).table name).isSome = true := by
  have hdistinct := Call.distinct_runAll calls
  have hindexed := Indexed.runAll_represents calls
  refine ⟨⟨Call.names_runAll calls, hdistinct, Call.latest_runAll calls,
    fun _ _ => hdistinct.find?_eq_some_iff, fun _ _ => hdistinct.get?_eq_some_iff,
    bindings_announce _⟩, hindexed.bindings_eq hdistinct, hindexed.get?_eq, fun name hname => ?_⟩
  rw [hindexed.order] at hname
  exact (hindexed.isSome_table name).mpr hname

/-- A type that is announced after its definition, and one that is announced twice before it. -/
def pointAndNode : List Call :=
  [.register "point" .object ⟨"shapes", 1⟩, .announce "node" ⟨"shapes", 2⟩,
    .announce "point" ⟨"shapes", 3⟩, .announce "node" ⟨"shapes", 4⟩,
    .register "node" (.aggregate .struct "node" "__extc_t_Object_node" 1) ⟨"shapes", 5⟩]

/-- The announcements come to nothing but the place of `node`. -/
theorem pointAndNode_insertionOrdered :
    (Call.runAll pointAndNode).bindings
        = [⟨"point", .object, ⟨"shapes", 1⟩⟩,
          ⟨"node", .aggregate .struct "node" "__extc_t_Object_node" 1, ⟨"shapes", 5⟩⟩]
      ∧ "node" ∈ (Indexed.runAll pointAndNode).order
      ∧ ((Indexed.runAll pointAndNode).table "node").isSome = true :=
  ⟨by decide, by decide, (insertionOrdered_runAll pointAndNode).2.2.2 "node" (by decide)⟩

end Registry

end ExtensionCompiler

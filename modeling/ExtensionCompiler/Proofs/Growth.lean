import Mathlib.Logic.Relation
import ExtensionCompiler.Outcome

set_option autoImplicit false

/-! # What analysis does to the state of a check

`Checker.Edit` lists the changes that analysis makes, one at a time: it takes a temporary, declares
an entry, opens a scope, says what a scope returns, or registers a type. Whatever a pass over a unit
does is a chain of them, `Checker.Edits`, so what every edit keeps holds along every analysis. Two
such facts stand here. Analysis only adds (`Edits.grows`): entries and temporaries come behind the
old ones. And every state that it reaches is `Tidy`.

The second pass makes no edits. It changes types and nothing else, which is `Checker.Retyped`, and
so keeps a state tidy as well.

Expressions take temporaries and do nothing else (`Checker.TakesTemps`), and nothing that a look-up
sees changes with these (`TakesTemps.find?_eq`). -/

namespace ExtensionCompiler

/-! ## The type of a name after another was bound -/

namespace Registry

theorem find?_put (new : Binding) (bindings : List Binding) (name : String) :
    (put new bindings).find? (fun b => decide (b.name = name))
      = if name = new.name then some new else bindings.find? fun b => decide (b.name = name) := by
  induction bindings with
  | nil => by_cases h : name = new.name <;> simp [put, h, eq_comm]
  | cons old rest ih =>
      by_cases hold : old.name = new.name
      · rw [put, if_pos hold]
        by_cases h : name = new.name
        · subst h
          simp
        · simp [hold, Ne.symm h, h]
      · rw [put, if_neg hold, List.find?_cons, List.find?_cons, ih]
        by_cases h : old.name = name
        · subst h
          simp [hold]
        · simp [h]

theorem get?_register (registry : Registry) (name : String) (type : Ty) (position : Position)
    (other : String) :
    (registry.register name type position).get? other
      = if other = name then some type else registry.get? other := by
  unfold get? find? register
  rw [find?_put]
  split <;> rfl

end Registry

/-! ## The entry of a name in one scope -/

namespace Scope

theorem get?_globalScope (name : String) : Checker.globalScope.get? name = none := rfl

variable {scope : Scope} {name : String} {entry : Entry}

/-- An entry that is found stays found when entries are added behind. -/
theorem get?_append (h : scope.get? name = some entry) (more : List Entry) :
    { scope with entries := scope.entries ++ more }.get? name = some entry := by
  unfold get? at h ⊢
  rw [List.find?_append, h, Option.some_or]

theorem name_of_get? (h : scope.get? name = some entry) : entry.name = name := by
  simpa using List.find?_some h

theorem mem_of_get? (h : scope.get? name = some entry) : entry ∈ scope.entries :=
  List.mem_of_find?_eq_some h

theorem get?_eq_none_iff : scope.get? name = none ↔ ∀ e ∈ scope.entries, e.name ≠ name := by
  simp [get?]

end Scope

namespace Checker

/-- The entry of a name in a scope, without the scopes around it. -/
def entryIn? (c : Checker) (id : ScopeId) (name : String) : Option Entry :=
  c.scopes[id]?.bind fun s => s.get? name

/-- An index that names no scope gives the same answer as an empty scope. -/
theorem get?_scope (c : Checker) (id : ScopeId) (name : String) :
    (c.scope id).get? name = c.entryIn? id name := by
  unfold scope entryIn?
  cases c.scopes[id]? with
  | none => exact Scope.get?_globalScope name
  | some s => rfl

variable {c c' : Checker} {id : ScopeId} {entry : Entry}

theorem entryIn?_eq_some_iff {name : String} :
    c.entryIn? id name = some entry ↔
      ∃ s, c.scopes[id]? = some s ∧ s.get? name = some entry :=
  Option.bind_eq_some_iff

theorem scope_eq_of_getElem? {s : Scope} (h : c.scopes[id]? = some s) : c.scope id = s := by
  rw [scope, h, Option.getD_some]

theorem getElem?_eq_scope (h : id < c.scopes.length) : c.scopes[id]? = some (c.scope id) := by
  rw [scope, List.getElem?_eq_getElem h, Option.getD_some]

theorem scope_mem_or_eq (c : Checker) (id : ScopeId) :
    c.scope id ∈ c.scopes ∨ c.scope id = globalScope := by
  unfold scope
  cases hs : c.scopes[id]? with
  | none => exact .inr rfl
  | some s => exact .inl (List.mem_of_getElem? hs)

theorem mem_scope (h : entry ∈ (c.scope id).entries) : c.scope id ∈ c.scopes := by
  refine (c.scope_mem_or_eq id).resolve_right fun hempty => ?_
  rw [hempty] at h
  cases h

/-! ## Scopes after an update -/

theorem getElem?_modifyScope (c : Checker) (id : ScopeId) (f : Scope → Scope) (j : ScopeId) :
    (c.modifyScope id f).scopes[j]? = if id = j then c.scopes[j]?.map f else c.scopes[j]? := by
  by_cases h : id = j
  · subst h
    simp [modifyScope]
  · simp [modifyScope, h]

theorem getElem?_modifyScope_ne (c : Checker) {j : ScopeId} (h : id ≠ j) (f : Scope → Scope) :
    (c.modifyScope id f).scopes[j]? = c.scopes[j]? := by
  rw [getElem?_modifyScope, if_neg h]

theorem getElem?_modifyScope_self (c : Checker) (id : ScopeId) (f : Scope → Scope) :
    (c.modifyScope id f).scopes[id]? = c.scopes[id]?.map f := by
  rw [getElem?_modifyScope, if_pos rfl]

@[simp] theorem length_modifyScope (c : Checker) (id : ScopeId) (f : Scope → Scope) :
    (c.modifyScope id f).scopes.length = c.scopes.length := by
  simp [modifyScope]

/-- A declaration that succeeds was not made before, and puts its entry behind the others. -/
theorem declare_eq_ok (h : c.declare id entry = .ok c') :
    c.entryIn? id entry.name = none
      ∧ c' = c.modifyScope id fun _ =>
          { c.scope id with entries := (c.scope id).entries ++ [entry] } := by
  unfold declare Scope.insert at h
  rw [get?_scope] at h
  cases hget : c.entryIn? id entry.name with
  | some old => rw [hget] at h; cases h
  | none =>
      rw [hget] at h
      cases h
      exact ⟨rfl, rfl⟩

/-- The scope of a declaration that succeeded. -/
theorem getElem?_of_declare (h : c.declare id entry = .ok c') :
    c'.scopes[id]? = c.scopes[id]?.map fun s => { s with entries := s.entries ++ [entry] } := by
  obtain ⟨-, rfl⟩ := declare_eq_ok h
  rw [getElem?_modifyScope_self]
  cases hs : c.scopes[id]? with
  | none => rfl
  | some s => rw [Option.map_some, Option.map_some, scope_eq_of_getElem? hs]

theorem length_of_declare
    (h : c.declare id entry = .ok c') : c'.scopes.length = c.scopes.length := by
  obtain ⟨-, rfl⟩ := declare_eq_ok h
  exact length_modifyScope c id _

theorem registry_of_declare (h : c.declare id entry = .ok c') : c'.registry = c.registry := by
  obtain ⟨-, rfl⟩ := declare_eq_ok h
  rfl

/-- A declared entry is found in its scope. -/
theorem entryIn?_of_declare (h : c.declare id entry = .ok c') (hid : id < c.scopes.length) :
    c'.entryIn? id entry.name = some entry := by
  have hnone := (declare_eq_ok h).1
  rw [entryIn?, getElem?_eq_scope hid, Option.bind_some, Scope.get?] at hnone
  rw [entryIn?, getElem?_of_declare h, getElem?_eq_scope hid, Option.map_some, Option.bind_some,
    Scope.get?, List.find?_append, hnone, Option.none_or]
  simp

/-! ## The edits that analysis is made of -/

end Checker

/-- Whether a type goes by a name of its own. -/
def Ty.isNamed : Ty → Bool
  | aggregate _ _ _ _ => true
  | aliased _ _ _ => true
  | _ => false

/-- The C name of the entry is made from its name, as that of all but types is. -/
def Entry.Linked (entry : Entry) : Prop :=
  entry.kind.isType = false →
    entry.cName = if entry.isExternal then entry.name else entry.kind.lead ++ entry.name

namespace Checker

/-- One change to the state of a check. It can be to the registry only if `binds` is set. -/
inductive Edit (binds : Bool) : Checker → Checker → Prop
  | temp (c : Checker) (id : ScopeId) : Edit binds c (c.allocateTemp id .object).2
  | declare {c c' : Checker} {id : ScopeId} {entry : Entry} :
      c.declare id entry = .ok c' → entry.Linked → Edit binds c c'
  | pushScope (c : Checker) (scope : Scope) :
      scope.entries = [] → scope.temps = [] → Edit binds c (c.pushScope scope).2
  | setReturnType (c : Checker) (id : ScopeId) (type : Option Ty) :
      Edit binds c (c.setReturnType id type)
  | register (c : Checker) (name : String) (type : Ty) (position : Position) :
      binds = true → type.isNamed = true → Edit binds c (c.register name type position)

/-- Any number of changes, one after the other. -/
abbrev Edits (binds : Bool) : Checker → Checker → Prop := Relation.ReflTransGen (Edit binds)

variable {b : Bool} {c c' : Checker}

/-- What every edit keeps, all of them keep. -/
theorem Edits.invariant {P : Checker → Prop} (step : ∀ {c c'}, Edit b c c' → P c → P c')
    (h : Edits b c c') (hc : P c) : P c' := by
  induction h with
  | refl => exact hc
  | tail _ hlast ih => exact step hlast ih

theorem Edits.registry_eq (h : Edits false c c') : c'.registry = c.registry := by
  refine h.invariant (P := fun d => d.registry = c.registry) (fun hstep hd => ?_) rfl
  cases hstep with
  | temp id | pushScope scope _ _ | setReturnType id type => exact hd
  | declare hdeclare _ => rw [registry_of_declare hdeclare, hd]
  | register name type position hbinds _ => cases hbinds

theorem Edit.weaken (h : Edit b c c') : Edit true c c' := by
  cases h with
  | temp id => exact .temp c id
  | declare hdeclare hlinked => exact .declare hdeclare hlinked
  | pushScope scope hentries htemps => exact .pushScope c scope hentries htemps
  | setReturnType id type => exact .setReturnType c id type
  | register name type position _ hnamed => exact .register c name type position rfl hnamed

theorem Edits.weaken (h : Edits b c c') : Edits true c c' :=
  h.invariant (P := Edits true c) (fun hstep hprev => hprev.tail hstep.weaken) .refl

theorem mem_modifyScope {id : ScopeId} {f : Scope → Scope} {s : Scope}
    (h : s ∈ (c.modifyScope id f).scopes) :
    s ∈ c.scopes ∨ ∃ old, c.scopes[id]? = some old ∧ s = f old := by
  obtain ⟨j, hj⟩ := List.mem_iff_getElem?.mp h
  rw [getElem?_modifyScope] at hj
  by_cases hid : id = j
  · rw [if_pos hid] at hj
    obtain ⟨old, hold, rfl⟩ := Option.map_eq_some_iff.mp hj
    exact .inr ⟨old, by rw [hid, hold], rfl⟩
  · rw [if_neg hid] at hj
    exact .inl (List.mem_of_getElem? hj)

/-! ## Growth -/

end Checker

/-- A scope with more entries and temporaries behind the old ones. -/
def Scope.Grows (s s' : Scope) : Prop :=
  ∃ entries temps returnType,
    s' = { s with entries := s.entries ++ entries, temps := s.temps ++ temps, returnType }

namespace Scope.Grows

theorem refl (s : Scope) : s.Grows s := ⟨[], [], s.returnType, by simp⟩

theorem trans {s s' s'' : Scope} (h : s.Grows s') (h' : s'.Grows s'') : s.Grows s'' := by
  obtain ⟨es, ts, r, rfl⟩ := h
  obtain ⟨es', ts', r', rfl⟩ := h'
  exact ⟨es ++ es', ts ++ ts', r', by simp⟩

theorem get? {s s' : Scope} (h : s.Grows s') {name : String} {entry : Entry}
    (hget : s.get? name = some entry) : s'.get? name = some entry := by
  obtain ⟨es, ts, r, rfl⟩ := h
  exact get?_append hget es

end Scope.Grows

namespace Checker

/-- Every scope is still there, and has grown. -/
def Grows (c c' : Checker) : Prop :=
  ∀ (id : ScopeId) (s : Scope), c.scopes[id]? = some s →
    ∃ s', c'.scopes[id]? = some s' ∧ s.Grows s'

namespace Grows

variable {c c' c'' : Checker}

theorem refl (c : Checker) : Grows c c := fun _ s hs => ⟨s, hs, .refl s⟩

theorem trans (h : Grows c c') (h' : Grows c' c'') : Grows c c'' := by
  intro id s hs
  obtain ⟨s', hs', hgrow⟩ := h id s hs
  obtain ⟨s'', hs'', hgrow'⟩ := h' id s' hs'
  exact ⟨s'', hs'', hgrow.trans hgrow'⟩

theorem length_le (h : Grows c c') : c.scopes.length ≤ c'.scopes.length := by
  refine Nat.le_of_not_lt fun hlast => ?_
  -- the scope behind the last one of the new state would still have to be there
  obtain ⟨s', hs', -⟩ := h _ _ (List.getElem?_eq_getElem hlast)
  exact absurd (List.getElem?_eq_some_iff.mp hs').1 (Nat.lt_irrefl _)

theorem entryIn? (h : Grows c c') {id : ScopeId} {name : String} {entry : Entry}
    (he : c.entryIn? id name = some entry) : c'.entryIn? id name = some entry := by
  obtain ⟨s, hs, hget⟩ := entryIn?_eq_some_iff.mp he
  obtain ⟨s', hs', hgrow⟩ := h id s hs
  exact entryIn?_eq_some_iff.mpr ⟨s', hs', hgrow.get? hget⟩

end Grows

/-- A scope that is changed to one that has grown. -/
theorem grows_modifyScope (c : Checker) (id : ScopeId) {f : Scope → Scope}
    (hf : ∀ s, c.scopes[id]? = some s → s.Grows (f s)) : Grows c (c.modifyScope id f) := by
  intro j s hs
  by_cases hid : id = j
  · subst hid
    exact ⟨f s, by rw [getElem?_modifyScope_self, hs, Option.map_some], hf s hs⟩
  · exact ⟨s, by rw [getElem?_modifyScope_ne c hid, hs], .refl s⟩

variable {b : Bool}

theorem Edit.grows {c c' : Checker} (h : Edit b c c') : Grows c c' := by
  cases h with
  | temp id =>
      -- the number of temporaries goes up as well, but is no matter of scopes
      exact grows_modifyScope c id
        (f := fun s => { s with temps := s.temps ++ [(tempName c.tempCount, Ty.object)] })
        fun s _ => ⟨[], [(tempName c.tempCount, .object)], s.returnType, by simp⟩
  | @declare _ id entry hd _ =>
      obtain ⟨-, rfl⟩ := declare_eq_ok hd
      refine grows_modifyScope c id fun s hs => ?_
      rw [scope_eq_of_getElem? hs]
      exact ⟨[entry], [], s.returnType, by simp⟩
  | pushScope scope _ _ =>
      intro id s hs
      have hlt : id < c.scopes.length := (List.getElem?_eq_some_iff.mp hs).1
      refine ⟨s, ?_, .refl s⟩
      rw [Checker.pushScope, List.getElem?_append_left hlt, hs]
  | setReturnType id type =>
      exact grows_modifyScope c id fun s _ => ⟨[], [], type, by simp⟩
  | register name type position _ _ => exact .refl c

theorem Edits.grows {c c' : Checker} (h : Edits b c c') : Grows c c' :=
  h.invariant (P := Grows c) (fun hstep hgrow => hgrow.trans hstep.grows) (.refl c)

/-! ## What every state of an analysis has -/

/-- Entries have C names as they should, no two of a scope have one name, and temporaries hold
objects. -/
structure Tidy (c : Checker) : Prop where
  linked : ∀ s ∈ c.scopes, ∀ e ∈ s.entries, e.Linked
  distinct : ∀ s ∈ c.scopes, (s.entries.map Entry.name).Nodup
  temps : ∀ s ∈ c.scopes, ∀ t ∈ s.temps, t.2 = .object

theorem tidy_start (registry : Registry) : (start registry).Tidy where
  linked s hs e he := by
    rw [List.mem_singleton.mp hs] at he
    cases he
  distinct s hs := by
    rw [List.mem_singleton.mp hs]
    exact List.nodup_nil
  temps s hs t ht := by
    rw [List.mem_singleton.mp hs] at ht
    cases ht

/-- It is enough to look at the one scope that has changed. -/
theorem Tidy.modifyScope {c : Checker} (h : c.Tidy) (id : ScopeId) {f : Scope → Scope}
    (hf : ∀ s, c.scopes[id]? = some s →
      (∀ e ∈ (f s).entries, e.Linked) ∧ ((f s).entries.map Entry.name).Nodup
        ∧ ∀ t ∈ (f s).temps, t.2 = .object) : (c.modifyScope id f).Tidy where
  linked s hs := by
    rcases mem_modifyScope hs with hold | ⟨old, hold, rfl⟩
    · exact h.linked s hold
    · exact (hf old hold).1
  distinct s hs := by
    rcases mem_modifyScope hs with hold | ⟨old, hold, rfl⟩
    · exact h.distinct s hold
    · exact (hf old hold).2.1
  temps s hs := by
    rcases mem_modifyScope hs with hold | ⟨old, hold, rfl⟩
    · exact h.temps s hold
    · exact (hf old hold).2.2

theorem Edit.tidy {c c' : Checker} (h : Edit b c c') (hc : c.Tidy) : c'.Tidy := by
  have mem {id : ScopeId} {s : Scope} (hs : c.scopes[id]? = some s) : s ∈ c.scopes :=
    List.mem_of_getElem? hs
  cases h with
  | temp id =>
      have htidy := hc.modifyScope id
        (f := fun s => { s with temps := s.temps ++ [(tempName c.tempCount, Ty.object)] })
        fun s hs => ⟨hc.linked s (mem hs), hc.distinct s (mem hs), fun t ht => by
          rcases List.mem_append.mp ht with hold | hnew
          · exact hc.temps s (mem hs) t hold
          · rw [List.mem_singleton.mp hnew]⟩
      exact ⟨htidy.linked, htidy.distinct, htidy.temps⟩
  | @declare _ id entry hd hlinked =>
      obtain ⟨hnone, rfl⟩ := declare_eq_ok hd
      refine hc.modifyScope id fun s hs => ?_
      rw [scope_eq_of_getElem? hs]
      refine ⟨fun e he => ?_, ?_, hc.temps s (mem hs)⟩
      · rcases List.mem_append.mp he with hold | hnew
        · exact hc.linked s (mem hs) e hold
        · rw [List.mem_singleton.mp hnew]
          exact hlinked
      · -- the name is new to the scope, or the declaration had failed
        rw [entryIn?, hs, Option.bind_some, Scope.get?_eq_none_iff] at hnone
        rw [List.map_append, List.nodup_append]
        refine ⟨hc.distinct s (mem hs), by simp, fun a ha b hb hab => ?_⟩
        obtain ⟨e, he, rfl⟩ := List.mem_map.mp ha
        rw [List.map_singleton, List.mem_singleton] at hb
        exact hnone e he (hab.trans hb)
  | pushScope scope hentries htemps =>
      have hcases : ∀ s ∈ (c.pushScope scope).2.scopes, s ∈ c.scopes ∨ s = scope := by
        intro s hs
        simpa [Checker.pushScope] using hs
      refine ⟨fun s hs => ?_, fun s hs => ?_, fun s hs => ?_⟩
      · rcases hcases s hs with hold | rfl
        · exact hc.linked s hold
        · simp [hentries]
      · rcases hcases s hs with hold | rfl
        · exact hc.distinct s hold
        · simp [hentries]
      · rcases hcases s hs with hold | rfl
        · exact hc.temps s hold
        · simp [htemps]
  | setReturnType id type =>
      exact hc.modifyScope id fun s hs =>
        ⟨hc.linked s (mem hs), hc.distinct s (mem hs), hc.temps s (mem hs)⟩
  | register name type position _ _ => exact ⟨hc.linked, hc.distinct, hc.temps⟩

theorem Edits.tidy {c c' : Checker} (h : Edits b c c') (hc : c.Tidy) : c'.Tidy :=
  h.invariant Edit.tidy hc

/-! ## What the second pass changes -/

end Checker

/-- A scope without the types in it. -/
def Scope.untyped (s : Scope) : Scope :=
  { s with entries := s.entries.map fun e => { e with type := .void }, returnType := none }

namespace Checker

/-- The scopes of the two states differ in types at most. -/
def Retyped (c c' : Checker) : Prop := c'.scopes.map Scope.untyped = c.scopes.map Scope.untyped

namespace Retyped

theorem refl (c : Checker) : Retyped c c := rfl

theorem trans {c c' c'' : Checker} (h : Retyped c c') (h' : Retyped c' c'') : Retyped c c'' :=
  Eq.trans h' h

theorem getElem? {c c' : Checker} (h : Retyped c c') (id : ScopeId) :
    c'.scopes[id]?.map Scope.untyped = c.scopes[id]?.map Scope.untyped := by
  rw [← List.getElem?_map, ← List.getElem?_map, h]

/-- Every scope is one of the old state, apart from types. -/
theorem mem {c c' : Checker} (h : Retyped c c') {s' : Scope} (hs' : s' ∈ c'.scopes) :
    ∃ s ∈ c.scopes, s'.untyped = s.untyped := by
  have hmem : s'.untyped ∈ c'.scopes.map Scope.untyped := List.mem_map_of_mem hs'
  rw [h] at hmem
  obtain ⟨s, hs, heq⟩ := List.mem_map.mp hmem
  exact ⟨s, hs, heq.symm⟩

end Retyped

theorem retyped_modifyScope (c : Checker) (id : ScopeId) {f : Scope → Scope}
    (hf : ∀ s : Scope, (f s).untyped = s.untyped) : Retyped c (c.modifyScope id f) := by
  refine List.ext_getElem? fun j => ?_
  rw [List.getElem?_map, List.getElem?_map, getElem?_modifyScope]
  by_cases hj : id = j
  · rw [if_pos hj, Option.map_map]
    congr 1
    funext s
    exact hf s
  · rw [if_neg hj]

theorem retyped_setType (c : Checker) (id : ScopeId) (name : String) (type : Ty) :
    Retyped c (c.setType id name type) := by
  refine retyped_modifyScope c id fun s => ?_
  unfold Scope.untyped Scope.setType
  dsimp only
  rw [List.map_map]
  congr 1
  refine List.map_congr_left fun e _ => ?_
  dsimp only [Function.comp]
  split <;> rfl

theorem retyped_setReturnType (c : Checker) (id : ScopeId) (type : Option Ty) :
    Retyped c (c.setReturnType id type) :=
  retyped_modifyScope c id fun _ => rfl

end Checker

/-- Every entry is one of the scope that differs in types, apart from its own. -/
theorem Scope.mem_of_untyped_eq {s s' : Scope} (h : s'.untyped = s.untyped) {e' : Entry}
    (he' : e' ∈ s'.entries) :
    ∃ e ∈ s.entries, e'.name = e.name ∧ e'.cName = e.cName ∧ e'.kind = e.kind
      ∧ e'.isExternal = e.isExternal := by
  have hmem : { e' with type := .void } ∈ s'.untyped.entries := List.mem_map_of_mem he'
  rw [h] at hmem
  obtain ⟨e, he, heq⟩ := List.mem_map.mp hmem
  simp only [Entry.mk.injEq] at heq
  exact ⟨e, he, heq.1.symm, heq.2.1.symm, heq.2.2.1.symm, heq.2.2.2.2.2.1.symm⟩

namespace Checker

theorem Retyped.tidy {c c' : Checker} (h : Retyped c c') (hc : c.Tidy) : c'.Tidy where
  linked s' hs' e' he' := by
    obtain ⟨s, hs, heq⟩ := h.mem hs'
    obtain ⟨e, he, hname, hcName, hkind, hext⟩ := Scope.mem_of_untyped_eq heq he'
    have hlinked := hc.linked s hs e he
    unfold Entry.Linked at hlinked ⊢
    rw [hname, hcName, hkind, hext]
    exact hlinked
  distinct s' hs' := by
    obtain ⟨s, hs, heq⟩ := h.mem hs'
    -- names are the same in a scope and in what is left of it without types
    have hnames : ∀ t : Scope, t.entries.map Entry.name = t.untyped.entries.map Entry.name := by
      intro t
      rw [Scope.untyped, List.map_map]
      rfl
    rw [hnames, heq, ← hnames]
    exact hc.distinct s hs
  temps s' hs' := by
    obtain ⟨s, hs, heq⟩ := h.mem hs'
    have htemps : s'.untyped.temps = s.untyped.temps := by rw [heq]
    exact htemps ▸ hc.temps s hs

/-! ## Temporaries -/

/-- The state has changed by temporaries that were taken for objects, and by nothing else. -/
inductive TakesTemps (id : ScopeId) (c : Checker) : Checker → Prop
  | none : TakesTemps id c c
  | more {c' : Checker} : TakesTemps id c c' → TakesTemps id c (c'.allocateTemp id .object).2

namespace TakesTemps

variable {id : ScopeId} {c c' c'' : Checker}

theorem of_eq (h : c' = c) : TakesTemps id c c' := by
  rw [h]
  exact .none

theorem trans (h : TakesTemps id c c') (h' : TakesTemps id c' c'') : TakesTemps id c c'' := by
  induction h' with
  | none => exact h
  | more _ ih => exact .more ih

theorem edits {b : Bool} (h : TakesTemps id c c') : Edits b c c' := by
  induction h with
  | none => exact .refl
  | more _ ih => exact ih.tail (.temp _ id)

end TakesTemps

/-! ## What a look-up sees -/

end Checker

/-- A scope without its temporaries, which no look-up sees. -/
def Scope.bare (s : Scope) : Scope := { s with temps := [] }

namespace Checker

theorem TakesTemps.map_bare {id : ScopeId} {c c' : Checker} (h : TakesTemps id c c') :
    c'.scopes.map Scope.bare = c.scopes.map Scope.bare := by
  induction h with
  | none => rfl
  | @more c' _ ih =>
      rw [← ih]
      refine List.ext_getElem? fun j => ?_
      rw [List.getElem?_map, List.getElem?_map]
      show ((c'.modifyScope id _).scopes[j]?).map Scope.bare = _
      rw [getElem?_modifyScope]
      by_cases hj : id = j
      · rw [if_pos hj, Option.map_map]
        rfl
      · rw [if_neg hj]

/-- Checkers whose scopes differ in temporaries only have the same chains up to temporaries. -/
theorem map_bare_chainWithin {c c' : Checker}
    (h : c'.scopes.map Scope.bare = c.scopes.map Scope.bare) (steps : Nat) (id : ScopeId) :
    (c'.chainWithin steps id).map (Prod.map (fun j => j) Scope.bare)
      = (c.chainWithin steps id).map (Prod.map (fun j => j) Scope.bare) := by
  induction steps generalizing id with
  | zero => rfl
  | succ n ih =>
      have hid : c'.scopes[id]?.map Scope.bare = c.scopes[id]?.map Scope.bare := by
        rw [← List.getElem?_map, ← List.getElem?_map, h]
      -- both walks stop, or both go on to the same parent
      unfold chainWithin
      cases hs : c.scopes[id]? with
      | none =>
          rw [hs, Option.map_none, Option.map_eq_none_iff] at hid
          rw [hid]
      | some s =>
          rw [hs, Option.map_some, Option.map_eq_some_iff] at hid
          obtain ⟨s', hs', hbare⟩ := hid
          have hparent : s'.parent = s.parent := by
            show s'.bare.parent = s.bare.parent
            rw [hbare]
          rw [hs']
          dsimp only
          rw [List.map_cons, List.map_cons, hparent, Prod.map_apply, Prod.map_apply, hbare]
          cases s.parent with
          | none => rfl
          | some parent => exact congrArg (List.cons _) (ih parent)

theorem map_bare_chain {c c' : Checker} (h : c'.scopes.map Scope.bare = c.scopes.map Scope.bare)
    (id : ScopeId) :
    (c'.chain id).map (Prod.map (fun j => j) Scope.bare)
      = (c.chain id).map (Prod.map (fun j => j) Scope.bare) := by
  have hlen : c'.scopes.length = c.scopes.length := by simpa using congrArg List.length h
  rw [chain, chain, hlen]
  exact map_bare_chainWithin h _ id

/-- A look-up does not see temporaries. -/
theorem TakesTemps.find?_eq {scope : ScopeId} {c c' : Checker} (h : TakesTemps scope c c')
    (id : ScopeId) : c'.find? id = c.find? id := by
  funext name
  -- a look-up may as well go over the scopes without their temporaries
  have hfind : ∀ d : Checker, d.find? id name
      = ((d.chain id).map (Prod.map (fun j => j) Scope.bare)).findSome? fun s => s.2.get? name := by
    intro d
    rw [find?, List.findSome?_map]
    rfl
  rw [hfind, hfind, map_bare_chain h.map_bare]

end Checker

end ExtensionCompiler

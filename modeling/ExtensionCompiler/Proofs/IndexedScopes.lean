import ExtensionCompiler.Proofs.Sessions

set_option autoImplicit false

/-! # Scopes with an index

A scope can keep an index beside its entries: a table that leads from a name to the place of its
entry in the list. A look-up then trusts the table and compares no names, a declaration asks only
the table whether a name is taken, and a change of type is written to the one place that the table
gives. All of that is right as long as the table is `Coherent`: it has just the names of the
entries, each with its place. An `Arena` is a state whose scopes have an index. Every operation
keeps every index coherent and does to the entries what it does in a `Checker`, so that a session
leaves the same events and the same scopes behind, and the loops that go outward from a scope end
with the same answers. -/

namespace ExtensionCompiler

namespace Scope

theorem names_setType (scope : Scope) (name : String) (type : Ty) :
    (scope.setType name type).entries.map Entry.name = scope.entries.map Entry.name := by
  rw [setType, List.map_map]
  refine List.map_congr_left fun e _ => ?_
  rw [Function.comp_apply]
  split <;> rfl

/-- A scope with the places of its entries by name. -/
structure Indexed where
  scope : Scope
  index : String → Option Nat

namespace Indexed

/-- A scope in which nothing is declared. -/
def opened (scope : Scope) : Indexed := ⟨scope, fun _ => none⟩

/-- The entry at the place that the index gives, whatever its name. -/
def get? (x : Indexed) (name : String) : Option Entry :=
  (x.index name).bind fun i => x.scope.entries[i]?

/-- Puts an entry behind the others, and its place into the index. -/
def push (x : Indexed) (entry : Entry) : Indexed where
  scope := { x.scope with entries := x.scope.entries ++ [entry] }
  index name := if name = entry.name then some x.scope.entries.length else x.index name

/-- Adds an entry unless the index has its name. -/
def insert (x : Indexed) (entry : Entry) : Except Error Indexed :=
  match x.index entry.name with
  | some _ => .error ⟨.duplicateDeclaration entry.name, entry.position⟩
  | none => .ok (x.push entry)

/-- Gives another type to the entry at the place that the index gives. -/
def setType (x : Indexed) (name : String) (type : Ty) : Indexed :=
  match x.index name with
  | none => x
  | some i =>
    { x with
      scope := { x.scope with entries := x.scope.entries.modify i fun e => { e with type } } }

def addTemp (x : Indexed) (cName : String) (type : Ty) : Indexed :=
  { x with scope := { x.scope with temps := x.scope.temps ++ [(cName, type)] } }

/-- The index has just the names of the entries, each with its place. In particular it gives no
place beyond the entries, and no two entries have one name. -/
def Coherent (x : Indexed) : Prop :=
  ∀ name i, x.index name = some i ↔ (x.scope.entries.map Entry.name)[i]? = some name

theorem coherent_opened {scope : Scope} (h : scope.entries = []) : (opened scope).Coherent := by
  intro name i
  simp [opened, h]

namespace Coherent

variable {x : Indexed} (h : x.Coherent)

include h

theorem index_eq {e : Entry} {i : Nat} (hi : x.scope.entries[i]? = some e) :
    x.index e.name = some i := by
  rw [h, List.getElem?_map, hi, Option.map_some]

theorem index_eq_none_iff (name : String) :
    x.index name = none ↔ name ∉ x.scope.entries.map Entry.name := by
  constructor
  · intro hnone hmem
    obtain ⟨i, hi⟩ := List.mem_iff_getElem?.mp hmem
    rw [(h name i).mpr hi] at hnone
    cases hnone
  · intro hfree
    cases hindex : x.index name with
    | none => rfl
    | some i => exact absurd (List.mem_of_getElem? ((h name i).mp hindex)) hfree

theorem index_eq_none_iff_get? (name : String) :
    x.index name = none ↔ x.scope.get? name = none := by
  rw [h.index_eq_none_iff, get?_eq_none_iff]
  simp

/-- A look-up by the index finds what a look-up by names finds. -/
theorem get?_eq (name : String) : x.get? name = x.scope.get? name := by
  rw [get?]
  cases hfound : x.scope.get? name with
  | none => rw [(h.index_eq_none_iff_get? name).mpr hfound, Option.bind_none]
  | some e =>
      obtain ⟨i, hi⟩ := List.mem_iff_getElem?.mp (mem_of_get? hfound)
      rw [← name_of_get? hfound, h.index_eq hi, Option.bind_some, hi]

theorem insert_eq (entry : Entry) :
    (x.insert entry).map Indexed.scope = x.scope.insert entry := by
  rw [Indexed.insert, Scope.insert]
  cases hfound : x.scope.get? entry.name with
  | none =>
      rw [(h.index_eq_none_iff_get? entry.name).mpr hfound]
      rfl
  | some e =>
      cases hindex : x.index entry.name with
      | none =>
          rw [(h.index_eq_none_iff_get? entry.name).mp hindex] at hfound
          cases hfound
      | some i => rfl

theorem push {entry : Entry} (hnew : x.index entry.name = none) : (x.push entry).Coherent := by
  have hfree := (h.index_eq_none_iff entry.name).mp hnew
  intro name i
  rw [Indexed.push, List.map_append, List.map_singleton]
  dsimp only
  split
  · next heq =>
      subst heq
      rw [Option.some_inj]
      constructor
      · rintro rfl
        simp
      · intro hi
        rcases Nat.lt_or_ge i x.scope.entries.length with hlt | hge
        · -- a place of before does not have the new name
          rw [List.getElem?_append_left (by simpa using hlt)] at hi
          exact absurd (List.mem_of_getElem? hi) hfree
        · rw [List.getElem?_append_right (by simpa using hge), List.getElem?_singleton,
            Option.ite_none_right_eq_some, List.length_map] at hi
          omega
  · next hne =>
      rw [h name i]
      constructor
      · intro hi
        exact (List.getElem?_append_left (List.getElem?_eq_some_iff.mp hi).1).trans hi
      · intro hi
        rcases Nat.lt_or_ge i (x.scope.entries.map Entry.name).length with hlt | hge
        · rwa [List.getElem?_append_left hlt] at hi
        · rw [List.getElem?_append_right hge, List.getElem?_singleton,
            Option.ite_none_right_eq_some] at hi
          exact absurd (Option.some.inj hi.2).symm hne

theorem insert {entry : Entry} {y : Indexed} (hy : x.insert entry = .ok y) : y.Coherent := by
  rw [Indexed.insert] at hy
  cases hnew : x.index entry.name with
  | some i => rw [hnew] at hy; cases hy
  | none =>
      rw [hnew] at hy
      cases hy
      exact h.push hnew

/-- The one place that the index gives has the only entry of the name. -/
theorem setType_eq (name : String) (type : Ty) :
    (x.setType name type).scope = x.scope.setType name type := by
  have hplace (i : Nat) (e : Entry) (hi : x.scope.entries[i]? = some e) :
      e.name = name ↔ x.index name = some i := by
    rw [h, List.getElem?_map, hi, Option.map_some, Option.some_inj]
  rw [Indexed.setType, Scope.setType]
  cases hindex : x.index name with
  | none =>
      have hsame : x.scope.entries.map (fun e => if e.name = name then { e with type } else e)
          = x.scope.entries := by
        refine (List.map_congr_left fun e he => ?_).trans (List.map_id _)
        obtain ⟨i, hi⟩ := List.mem_iff_getElem?.mp he
        rw [if_neg fun hname => by simpa [hindex] using (hplace i e hi).mp hname]
        rfl
      rw [hsame]
  | some i =>
      dsimp only
      congr 1
      refine List.ext_getElem? fun j => ?_
      rw [List.getElem?_modify, List.getElem?_map]
      refine Option.map_congr fun e he => ?_
      simp only [hplace j e he, hindex, Option.some_inj]

theorem setType (name : String) (type : Ty) : (x.setType name type).Coherent := by
  intro other i
  have hindex : (x.setType name type).index = x.index := by
    rw [Indexed.setType]
    split <;> rfl
  rw [hindex, h.setType_eq, names_setType]
  exact h other i

theorem addTemp (cName : String) (type : Ty) : (x.addTemp cName type).Coherent := h

end Coherent

end Indexed

end Scope

open Session

/-- The state of a check whose scopes have an index. -/
structure Arena where
  registry : Registry
  scopes : List Scope.Indexed
  tempCount : Nat := 0

namespace Arena

/-- The state without the indices. -/
def checker (a : Arena) : Checker :=
  { registry := a.registry, scopes := a.scopes.map Scope.Indexed.scope, tempCount := a.tempCount }

def start (registry : Registry) : Arena := { registry, scopes := [.opened Checker.globalScope] }

def scope (a : Arena) (id : ScopeId) : Scope.Indexed :=
  a.scopes[id]?.getD (.opened Checker.globalScope)

def modifyScope (a : Arena) (id : ScopeId) (f : Scope.Indexed → Scope.Indexed) : Arena :=
  { a with scopes := a.scopes.modify id f }

def pushScope (a : Arena) (scope : Scope) : ScopeId × Arena :=
  (a.scopes.length, { a with scopes := a.scopes ++ [.opened scope] })

/-- Does an operation, as `Op.run` does it, with the index of the scope that it names. -/
def run (a : Arena) : Op → Event × Arena
  | .addScope name kind parent =>
    let around := (a.scope parent).scope
    let (id, a) := a.pushScope
      { name, kind, parent := some parent, className := around.className,
        classCName := around.classCName }
    (.opened id parent, a)
  | .addClassScope className classCName parent =>
    let (id, a) := a.pushScope
      { name := className, kind := .classBody, parent := some parent, className, classCName }
    (.opened id parent, a)
  | .declare id d =>
    let entry := d.entry (a.scope id).scope
    match (a.scope id).insert entry with
    | .ok x => (.declared id entry, a.modifyScope id fun _ => x)
    | .error e => (.refused e, a)
  | .setType id name type => (.retyped id name type, a.modifyScope id fun x => x.setType name type)
  | .allocateTemp id type =>
    let name := Checker.tempName a.tempCount
    (.temporary name,
      { (a.modifyScope id fun x => x.addTemp name type) with tempCount := a.tempCount + 1 })

def runAll : List Op → Arena → List Event × Arena
  | [], a => ([], a)
  | op :: ops, a =>
    let (event, a) := a.run op
    let (events, a) := runAll ops a
    (event :: events, a)

/-- Goes outward from a scope until `stop?` has an answer or there is no scope around. The answer is
`none` if that takes more steps than given, or leads to no scope. -/
def searchWithin {α : Type} (a : Arena) (stop? : ScopeId → Scope.Indexed → Option (Option α)) :
    Nat → ScopeId → Option (Option α)
  | 0, _ => none
  | steps + 1, id =>
    match a.scopes[id]? with
    | none => none
    | some x =>
      match stop? id x, x.scope.parent with
      | some answer, _ => some answer
      | none, none => some none
      | none, some parent => a.searchWithin stop? steps parent

/-- The loop that looks a name up. -/
def findWithin (a : Arena) (name : String) : Nat → ScopeId → Option (Option Entry) :=
  a.searchWithin fun _ x => (x.get? name).map some

/-- The loop that looks for the function around a place. -/
def functionWithin (a : Arena) : Nat → ScopeId → Option (Option ScopeId) :=
  a.searchWithin fun id x => match x.scope.kind with
    | .function => some (some id)
    | .classBody => some none
    | .global | .aggregate => none

/-- Every scope has a coherent index. -/
def Coherent (a : Arena) : Prop := ∀ x ∈ a.scopes, x.Coherent

theorem coherent_start (registry : Registry) : (start registry).Coherent :=
  List.forall_mem_singleton.mpr (Scope.Indexed.coherent_opened rfl)

theorem scope_checker (a : Arena) (id : ScopeId) : a.checker.scope id = (a.scope id).scope := by
  rw [Checker.scope, scope, checker, List.getElem?_map]
  cases a.scopes[id]? <;> rfl

theorem getElem?_modifyScope (a : Arena) (id : ScopeId) (f : Scope.Indexed → Scope.Indexed)
    (j : ScopeId) :
    (a.modifyScope id f).scopes[j]? = if id = j then a.scopes[j]?.map f else a.scopes[j]? := by
  by_cases h : id = j
  · subst h
    simp [modifyScope]
  · simp [modifyScope, h]

variable {a : Arena} {id : ScopeId}

theorem scope_eq_of_getElem? {x : Scope.Indexed} (h : a.scopes[id]? = some x) : a.scope id = x := by
  rw [scope, h, Option.getD_some]

theorem lt_length_checker {x : Scope.Indexed}
    (h : a.scopes[id]? = some x) : id < a.checker.scopes.length := by
  rw [checker, List.length_map]
  exact (List.getElem?_eq_some_iff.mp h).1

theorem parentIn?_checker {x : Scope.Indexed}
    (h : a.scopes[id]? = some x) : a.checker.parentIn? id = x.scope.parent := by
  rw [Checker.parentIn?, checker, List.getElem?_map, h]
  rfl

theorem checker_modifyScope (a : Arena) (id : ScopeId) {f : Scope.Indexed → Scope.Indexed}
    {g : Scope → Scope} (hf : (f (a.scope id)).scope = g (a.scope id).scope) :
    (a.modifyScope id f).checker = a.checker.modifyScope id g := by
  have hscopes : (a.modifyScope id f).checker.scopes = (a.checker.modifyScope id g).scopes := by
    refine List.ext_getElem? fun j => ?_
    rw [Checker.getElem?_modifyScope, checker, checker, List.getElem?_map, List.getElem?_map,
      getElem?_modifyScope]
    split
    · next hj =>
        subst hj
        rw [Option.map_map, Option.map_map]
        refine Option.map_congr fun x hx => ?_
        rwa [scope_eq_of_getElem? hx] at hf
    · rfl
  exact congrArg (fun scopes => { a.checker with scopes }) hscopes

theorem checker_pushScope (a : Arena) (new : Scope) :
    (a.pushScope new).1 = (a.checker.pushScope new).1
      ∧ (a.pushScope new).2.checker = (a.checker.pushScope new).2 := by
  simp [pushScope, Checker.pushScope, checker, Scope.Indexed.opened]

namespace Coherent

variable {a : Arena} (h : a.Coherent)

include h

theorem scope (id : ScopeId) : (a.scope id).Coherent := by
  rw [Arena.scope]
  cases hid : a.scopes[id]? with
  | none => exact Scope.Indexed.coherent_opened rfl
  | some x => exact h x (List.mem_of_getElem? hid)

theorem modifyScope (id : ScopeId) {f : Scope.Indexed → Scope.Indexed}
    (hf : (f (a.scope id)).Coherent) : (a.modifyScope id f).Coherent := by
  intro y hy
  obtain ⟨j, hj⟩ := List.mem_iff_getElem?.mp hy
  rw [getElem?_modifyScope] at hj
  split at hj
  · next heq =>
      obtain ⟨x, hx, rfl⟩ := Option.map_eq_some_iff.mp hj
      rwa [heq, scope_eq_of_getElem? hx] at hf
  · exact h y (List.mem_of_getElem? hj)

theorem pushScope {new : Scope} (hnew : new.entries = []) : (a.pushScope new).2.Coherent := by
  exact List.forall_mem_append.mpr
    ⟨h, List.forall_mem_singleton.mpr (Scope.Indexed.coherent_opened hnew)⟩

/-- One operation leaves the event and the scopes behind that it leaves without indices, and every
index coherent. -/
theorem run (op : Op) : (a.run op).1 = (op.run a.checker).1
    ∧ (a.run op).2.checker = (op.run a.checker).2 ∧ (a.run op).2.Coherent := by
  cases op with
  | addScope name kind parent =>
      rw [Arena.run, Op.run, Checker.addScope, a.scope_checker]
      obtain ⟨hid, hscopes⟩ := a.checker_pushScope _
      exact ⟨congrArg (Event.opened · parent) hid, hscopes, h.pushScope rfl⟩
  | addClassScope className classCName parent =>
      obtain ⟨hid, hscopes⟩ := a.checker_pushScope _
      exact ⟨congrArg (Event.opened · parent) hid, hscopes, h.pushScope rfl⟩
  | declare id d =>
      have heq := (h.scope id).insert_eq (d.entry (a.scope id).scope)
      rw [Arena.run, Op.run, Checker.declare, a.scope_checker, ← heq]
      cases hinsert : (a.scope id).insert (d.entry (a.scope id).scope) with
      | error e => exact ⟨rfl, rfl, h⟩
      | ok x =>
          exact ⟨rfl, a.checker_modifyScope id rfl,
            h.modifyScope id ((h.scope id).insert hinsert)⟩
  | setType id name type =>
      exact ⟨rfl, a.checker_modifyScope id ((h.scope id).setType_eq name type),
        h.modifyScope id ((h.scope id).setType name type)⟩
  | allocateTemp id type =>
      have hmodified := a.checker_modifyScope id
        (f := fun x => x.addTemp (Checker.tempName a.tempCount) type)
        (g := fun s => { s with temps := s.temps ++ [(Checker.tempName a.tempCount, type)] }) rfl
      refine ⟨rfl, ?_, h.modifyScope id ((h.scope id).addTemp _ type)⟩
      exact congrArg (fun c => { c with tempCount := a.tempCount + 1 }) hmodified

theorem runAll (ops : List Op) : (Arena.runAll ops a).1 = (Op.runAll ops a.checker).1
    ∧ (Arena.runAll ops a).2.checker = (Op.runAll ops a.checker).2
    ∧ (Arena.runAll ops a).2.Coherent := by
  induction ops generalizing a with
  | nil => exact ⟨rfl, rfl, h⟩
  | cons op ops ih =>
      obtain ⟨hevent, hstate, hcoherent⟩ := h.run op
      obtain ⟨hevents, hrest⟩ := ih hcoherent
      rw [hstate] at hevents hrest
      exact ⟨congrArg₂ List.cons hevent hevents, hrest⟩

end Coherent

/-- A declaration of a name that is taken changes nothing, in the indices neither. -/
theorem run_declare_taken {a : Arena} (h : a.Coherent) {id : ScopeId} {d : Declaration}
    (htaken : d.name ∈ (a.scope id).scope.entries.map Entry.name) :
    a.run (.declare id d) = (.refused ⟨.duplicateDeclaration d.name, d.position⟩, a) := by
  have hindex : (a.scope id).index d.name ≠ none := fun hnone =>
    ((h.scope id).index_eq_none_iff d.name).mp hnone htaken
  obtain ⟨i, hi⟩ := Option.ne_none_iff_exists'.mp hindex
  simp only [run, Scope.Indexed.insert, Declaration.name_entry, Declaration.position_entry, hi]

/-- The answer of a search, if what it looks for is found at a scope just if the search stops there
or at a scope around it. By induction on the index, which goes down with every step outward. -/
theorem searchWithin_eq {α : Type} {a : Arena} (hnested : a.checker.Nested)
    {stop? : ScopeId → Scope.Indexed → Option (Option α)} {answer : ScopeId → Option α}
    (hanswer : ∀ id x, a.scopes[id]? = some x →
      answer id = (stop? id x).getD (x.scope.parent.bind answer))
    {id : ScopeId} (hid : id < a.scopes.length) {steps : Nat} (hsteps : id < steps) :
    a.searchWithin stop? steps id = some (answer id) := by
  induction id using Nat.strongRecOn generalizing steps with
  | ind id ih =>
      obtain ⟨k, rfl⟩ := Nat.exists_eq_succ_of_ne_zero (Nat.ne_zero_of_lt hsteps)
      have hx := List.getElem?_eq_getElem hid
      rw [searchWithin, hanswer id _ hx, hx]
      dsimp only
      cases hstop : stop? id a.scopes[id] with
      | some found => rfl
      | none =>
          cases hparent : a.scopes[id].scope.parent with
          | none => rfl
          | some parent =>
              have hlt : parent < id := by
                refine hnested.parent_lt (lt_length_checker hx) ?_
                rw [parentIn?_checker hx, hparent]
              exact ih parent hlt (Nat.lt_trans hlt hid)
                (Nat.lt_of_lt_of_le hlt (Nat.le_of_lt_succ hsteps))

section

variable {a : Arena} (hnested : a.checker.Nested)

include hnested

theorem findWithin_eq (hcoherent : a.Coherent) {id : ScopeId} (hid : id < a.scopes.length)
    (name : String) {steps : Nat} (hsteps : id < steps) :
    a.findWithin name steps id = some (a.checker.find? id name) := by
  have hanswer (id : ScopeId) (x : Scope.Indexed) (hx : a.scopes[id]? = some x) :
      a.checker.find? id name
        = ((x.get? name).map some).getD (x.scope.parent.bind (a.checker.find? · name)) := by
    rw [hnested.find?_eq (lt_length_checker hx) name, a.scope_checker, scope_eq_of_getElem? hx,
      parentIn?_checker hx, (hcoherent x (List.mem_of_getElem? hx)).get?_eq]
    cases x.scope.get? name <;> rfl
  exact searchWithin_eq hnested hanswer hid hsteps

theorem functionWithin_eq {id : ScopeId} (hid : id < a.scopes.length) {steps : Nat}
    (hsteps : id < steps) :
    a.functionWithin steps id = some (a.checker.enclosingFunction? id) := by
  refine searchWithin_eq hnested (fun id x hx => ?_) hid hsteps
  have hscope := hnested.enclosingFunction?_eq (lt_length_checker hx)
  rw [a.scope_checker, scope_eq_of_getElem? hx, parentIn?_checker hx] at hscope
  rw [hscope]
  cases x.scope.kind <;> rfl

end

/-- The arena holds the scopes of a state, and gives the answers that the state gives. -/
structure Represents (a : Arena) (c : Checker) : Prop where
  checker : a.checker = c
  coherent : a.Coherent
  get : ∀ x ∈ a.scopes, ∀ name, x.get? name = x.scope.get? name
  /-- The loop of a look-up ends after as many steps as the index of its scope counts, and one. -/
  find : ∀ id < a.scopes.length, ∀ name steps, id < steps →
    a.findWithin name steps id = some (c.find? id name)
  enclosing : ∀ id < a.scopes.length, ∀ steps, id < steps →
    a.functionWithin steps id = some (c.enclosingFunction? id)
  refused : ∀ id (d : Declaration), d.name ∈ (c.scope id).entries.map Entry.name →
    a.run (.declare id d) = (.refused ⟨.duplicateDeclaration d.name, d.position⟩, a)

theorem Coherent.represents {a : Arena} (h : a.Coherent) (hnested : a.checker.Nested) :
    a.Represents a.checker where
  checker := rfl
  coherent := h
  get x hx := (h x hx).get?_eq
  find _ hid name _ hsteps := findWithin_eq hnested h hid name hsteps
  enclosing _ hid _ hsteps := functionWithin_eq hnested hid hsteps
  refused _ _ htaken := run_declare_taken h (by rwa [a.scope_checker] at htaken)

end Arena

namespace Session

/-- **Every session leaves nested ordered maps.** After any operations that name open scopes, the
scopes lie in scopes that were opened before them, they hold just what was declared in them with
success, in order and under distinct names, a look-up gives the nearest entry of a name as it was
declared with the type it was given last, and a declaration fails just if the name is taken, with no
effect. With an index in every scope the operations leave the same events and entries, every index
stays coherent, and the loops that use it end with the same answers. -/
theorem runAll_nestedMaps (registry : Registry) (ops : List Op) (hops : Op.inRange ops 1 = true) :
    NestedMaps (Op.runAll ops (.start registry)).1 (Op.runAll ops (.start registry)).2
      ∧ (Arena.runAll ops (.start registry)).1 = (Op.runAll ops (.start registry)).1
      ∧ (Arena.runAll ops (.start registry)).2.Represents
          (Op.runAll ops (.start registry)).2 := by
  obtain ⟨hevents, hstate, hcoherent⟩ := (Arena.coherent_start registry).runAll ops
  have hnested := Op.runAll_invariant Op.nested_run hops (Checker.nested_start registry)
  refine ⟨nestedMaps_runAll hops, hevents, ?_⟩
  have hstart : (Arena.start registry).checker = .start registry := rfl
  rw [hstart] at hstate
  rw [← hstate] at hnested ⊢
  exact hcoherent.represents hnested

/-- A class with a method, in which a variable hides one from outside and is then declared a second
time, and an alias of the class that is retyped twice. -/
def shadowing : List Op :=
  let here := Position.unknown
  [.declare Checker.global (.var "n" (.primitive .int) false here),
    .addClassScope "Ring" "__extc_cls_Ring" Checker.global,
    .setType 1 "cell" .void,
    .declare 1 (.typeName "cell" (.pending "node") false here),
    .addScope "walk" .function 1,
    .declare 2 (.var "n" .object false here),
    .declare 2 (.var "n" (.primitive .int) true here),
    .setType 1 "cell" (.pending "link"),
    .allocateTemp 2 .object,
    .setType 1 "cell" (.pointer .object 1)]

theorem shadowing_nestedMaps :
    Op.inRange shadowing 1 = true
      ∧ (Op.runAll shadowing (.start .empty)).1[6]?
          = some (.refused ⟨.duplicateDeclaration "n", .unknown⟩)
      ∧ (NestedMaps (Op.runAll shadowing (.start .empty)).1
            (Op.runAll shadowing (.start .empty)).2
          ∧ (Arena.runAll shadowing (.start .empty)).1 = (Op.runAll shadowing (.start .empty)).1
          ∧ (Arena.runAll shadowing (.start .empty)).2.Represents
              (Op.runAll shadowing (.start .empty)).2)
      ∧ ((Op.runAll shadowing (.start .empty)).2.find? 2 "n").map Entry.type = some .object
      ∧ ((Op.runAll shadowing (.start .empty)).2.find? 1 "n").map Entry.type
          = some (.primitive .int)
      ∧ ((Op.runAll shadowing (.start .empty)).2.find? 2 "cell").map Entry.type
          = some (.pointer .object 1)
      ∧ ((Arena.runAll shadowing (.start .empty)).2.scope 1).index "cell" = some 0
      ∧ ((Arena.runAll shadowing (.start .empty)).2.scope 2).index "cell" = none :=
  ⟨by decide, by decide +kernel, runAll_nestedMaps .empty shadowing (by decide),
    by decide +kernel, by decide +kernel, by decide +kernel, by decide +kernel,
    by decide +kernel⟩

end Session

end ExtensionCompiler

import ExtensionCompiler.Proofs.Growth

set_option autoImplicit false

/-! # Sessions

A session is any sequence of the operations that the passes use on scopes: open a scope, declare a
name, give a name another type, take a temporary. Each operation leaves an event behind, and what
the scopes hold afterwards can be told from the events alone. `entriesOf` is an ordered map for each
scope: the declarations that succeeded, in order, each with the type it was given last. `Path` is
the way from a scope outward. That the state agrees with them is `NestedMaps`. -/

namespace ExtensionCompiler

namespace Session

/-! ## Operations and events -/

/-- What can be declared in a scope. -/
inductive Declaration where
  | var (name : String) (type : Ty) (isExternal : Bool) (position : Position)
  | array (name : String) (type : Ty) (initial : Option String) (isExternal : Bool)
      (position : Position)
  | typeName (name : String) (type : Ty) (isExternal : Bool) (position : Position)
  | aggregate (name : String) (type : Ty) (isExternal : Bool) (position : Position)
  /-- A function of C or a method, by its kind. -/
  | function (kind : EntryKind) (name : String) (params : List Ty) (result : Ty)
      (isExternal : Bool) (position : Position)
  | classHandle (name : String) (position : Position)

namespace Declaration

def name : Declaration → String
  | .var name _ _ _ | .array name _ _ _ _ | .typeName name _ _ _ | .aggregate name _ _ _ => name
  | .function _ name _ _ _ _ | .classHandle name _ => name

def position : Declaration → Position
  | .var _ _ _ position | .array _ _ _ _ position | .typeName _ _ _ position => position
  | .aggregate _ _ _ position | .function _ _ _ _ _ position | .classHandle _ position => position

/-- The entry that a declaration makes in a scope. -/
def entry (d : Declaration) (scope : Scope) : Entry :=
  match d with
  | .var name type isExternal position => scope.variableEntry name type isExternal position
  | .array name type initial isExternal position =>
    scope.arrayEntry name type initial isExternal position
  | .typeName name type isExternal position => scope.typeEntry name type isExternal position
  | .aggregate name type isExternal position =>
    scope.aggregateEntry name type isExternal position
  | .function kind name params result isExternal position =>
    scope.functionEntry kind name params result isExternal position
  | .classHandle name position => scope.classEntry name position

@[simp] theorem name_entry (d : Declaration) (scope : Scope) : (d.entry scope).name = d.name := by
  cases d <;> rfl

@[simp] theorem position_entry (d : Declaration) (scope : Scope) :
    (d.entry scope).position = d.position := by
  cases d <;> rfl

end Declaration

inductive Op where
  | addScope (name : String) (kind : ScopeKind) (parent : ScopeId)
  | addClassScope (className classCName : String) (parent : ScopeId)
  | declare (scope : ScopeId) (d : Declaration)
  | setType (scope : ScopeId) (name : String) (type : Ty)
  | allocateTemp (scope : ScopeId) (type : Ty)

/-- What came of an operation. -/
inductive Event where
  | opened (id parent : ScopeId)
  | declared (scope : ScopeId) (entry : Entry)
  | refused (error : Error)
  | retyped (scope : ScopeId) (name : String) (type : Ty)
  | temporary (name : String)
deriving DecidableEq

namespace Op

/-- The scope that an operation names. -/
def place : Op → ScopeId
  | .addScope _ _ parent | .addClassScope _ _ parent => parent
  | .declare scope _ | .setType scope _ _ | .allocateTemp scope _ => scope

/-- How many scopes an operation opens. -/
def opened : Op → Nat
  | .addScope _ _ _ | .addClassScope _ _ _ => 1
  | .declare _ _ | .setType _ _ _ | .allocateTemp _ _ => 0

/-- Does an operation. After an error, the state is the one that was there before. -/
def run : Op → Checker → Event × Checker
  | .addScope name kind parent, c =>
    let (id, c) := c.addScope name kind parent
    (.opened id parent, c)
  | .addClassScope className classCName parent, c =>
    let (id, c) := c.addClassScope className classCName parent
    (.opened id parent, c)
  | .declare scope d, c =>
    let entry := d.entry (c.scope scope)
    match c.declare scope entry with
    | .ok c' => (.declared scope entry, c')
    | .error e => (.refused e, c)
  | .setType scope name type, c => (.retyped scope name type, c.setType scope name type)
  | .allocateTemp scope type, c =>
    let (name, c) := c.allocateTemp scope type
    (.temporary name, c)

/-- Does operations in order. -/
def runAll : List Op → Checker → List Event × Checker
  | [], c => ([], c)
  | op :: ops, c =>
    let (event, c) := op.run c
    let (events, c) := runAll ops c
    (event :: events, c)

/-- Whether every operation names a scope that is open by then, where `n` are open at first. -/
def inRange : List Op → Nat → Bool
  | [], _ => true
  | op :: ops, n => decide (op.place < n) && inRange ops (n + op.opened)

end Op

/-! ## What the events say -/

namespace Event

/-- The scope around the scope `id`, if the event has opened it. -/
def parent? (id : ScopeId) : Event → Option ScopeId
  | .opened new parent => if new = id then some parent else none
  | _ => none

/-- The entry that the event has added to a scope. -/
def added? (scope : ScopeId) : Event → Option Entry
  | .declared s entry => if s = scope then some entry else none
  | _ => none

/-- The type that the event has given to a name of a scope. -/
def type? (scope : ScopeId) (name : String) : Event → Option Ty
  | .retyped s n type => if s = scope ∧ n = name then some type else none
  | _ => none

end Event

/-- The scope around a scope. -/
def parentOf (id : ScopeId) (events : List Event) : Option ScopeId :=
  events.findSome? (Event.parent? id)

/-- The type that a name of a scope was given last. -/
def lastType? (scope : ScopeId) (name : String) : List Event → Option Ty
  | [] => none
  | event :: events => (lastType? scope name events).or (event.type? scope name)

/-- An entry of a scope after some events. They change its type at most. -/
def latest (scope : ScopeId) (events : List Event) (e : Entry) : Entry :=
  { e with type := (lastType? scope e.name events).getD e.type }

/-- What was declared in a scope, in order, each entry with the type that it was given last after
its declaration. -/
def entriesOf (scope : ScopeId) : List Event → List Entry
  | [] => []
  | event :: events =>
    match event.added? scope with
    | some e => latest scope events e :: entriesOf scope events
    | none => entriesOf scope events

/-- The way outward from a scope to the outermost one, along scopes with smaller and smaller
indices. -/
inductive Path (events : List Event) : ScopeId → List ScopeId → Prop
  | outermost : Path events Checker.global [Checker.global]
  | inside {id parent : ScopeId} {rest : List ScopeId} :
      parentOf id events = some parent → parent < id → Path events parent rest →
      Path events id (id :: rest)

/-- The state holds the nested maps that the events describe. -/
structure NestedMaps (events : List Event) (c : Checker) : Prop where
  parents : ∀ id (s : Scope), c.scopes[id]? = some s → s.parent = parentOf id events
  parent_lt : ∀ id (s : Scope) parent, c.scopes[id]? = some s → s.parent = some parent → parent < id
  /-- What look-ups go along is the whole way outward, however many steps they may take. -/
  walk : ∀ id < c.scopes.length, Path events id ((c.chain id).map Prod.fst)
    ∧ ∀ steps, id < steps → c.chainWithin steps id = c.chain id
  /-- The way to the function around a place ends at a function or a class, or goes on outward. -/
  enclosing : ∀ id < c.scopes.length,
    c.enclosingFunction? id = match (c.scope id).kind with
      | .function => some id
      | .classBody => none
      | .global | .aggregate => (parentOf id events).bind c.enclosingFunction?
  entries : ∀ id, (c.scope id).entries = entriesOf id events
  distinct : ∀ id, ((c.scope id).entries.map Entry.name).Nodup
  /-- A look-up gives the entry from the first scope on the way outward that has one. -/
  find : ∀ id < c.scopes.length, ∀ path, Path events id path → ∀ name,
    c.find? id name
      = path.findSome? fun s => (entriesOf s events).find? fun e => decide (e.name = name)
  /-- A declaration fails just if the name is taken in its scope, and then nothing changes. -/
  declares : ∀ id < c.scopes.length, ∀ d : Declaration,
    (Op.declare id d).run c
      = if d.name ∈ (entriesOf id events).map Entry.name then
          (.refused ⟨.duplicateDeclaration d.name, d.position⟩, c)
        else
          (.declared id (d.entry (c.scope id)),
            c.modifyScope id fun s => { s with entries := s.entries ++ [d.entry s] })

/-! ## Laws of the description -/

theorem latest_cons (scope : ScopeId) (event : Event) (events : List Event) (e : Entry) :
    latest scope (event :: events) e = latest scope events (latest scope [event] e) := by
  simp only [latest, lastType?, Option.none_or]
  cases lastType? scope e.name events <;> rfl

theorem latest_eq_self {scope : ScopeId} {event : Event} {e : Entry}
    (h : event.type? scope e.name = none) : latest scope [event] e = e := by
  simp [latest, lastType?, h]

theorem entriesOf_singleton (scope : ScopeId) (event : Event) :
    entriesOf scope [event] = (event.added? scope).toList := by
  unfold entriesOf
  cases event.added? scope <;> rfl

theorem entriesOf_cons (scope : ScopeId) (event : Event) (events : List Event) :
    entriesOf scope (event :: events)
      = (entriesOf scope [event]).map (latest scope events) ++ entriesOf scope events := by
  rw [entriesOf_singleton, entriesOf]
  cases event.added? scope <;> rfl

theorem parentOf_cons (id : ScopeId) (event : Event) (events : List Event) :
    parentOf id (event :: events) = (event.parent? id).or (parentOf id events) := by
  rw [parentOf, List.findSome?_cons]
  cases event.parent? id <;> rfl

end Session

/-! ## Scopes after one operation -/

namespace Checker

/-- The scope around a scope. -/
def parentIn? (c : Checker) (id : ScopeId) : Option ScopeId := c.scopes[id]?.bind Scope.parent

theorem scope_modifyScope (c : Checker) {id : ScopeId} (hid : id < c.scopes.length)
    (f : Scope → Scope) (j : ScopeId) :
    (c.modifyScope id f).scope j = if id = j then f (c.scope j) else c.scope j := by
  rw [scope, getElem?_modifyScope]
  split
  · next h => rw [← h, getElem?_eq_scope hid, Option.map_some, Option.getD_some]
  · rfl

theorem parentIn?_modifyScope (c : Checker) (id : ScopeId) {f : Scope → Scope}
    (hf : ∀ s, (f s).parent = s.parent) (j : ScopeId) :
    (c.modifyScope id f).parentIn? j = c.parentIn? j := by
  rw [parentIn?, getElem?_modifyScope]
  split
  · rw [Option.bind_map, parentIn?]
    exact Option.bind_congr fun s _ => hf s
  · rfl

theorem entries_modifyScope (c : Checker) (id : ScopeId) {f : Scope → Scope}
    (hf : ∀ s, (f s).entries = s.entries) (j : ScopeId) :
    ((c.modifyScope id f).scope j).entries = (c.scope j).entries := by
  rw [scope, scope, getElem?_modifyScope]
  split
  · cases c.scopes[j]? with
    | none => rfl
    | some s => exact hf s
  · rfl

/-- Only the one scope matters to a change of it. -/
theorem modifyScope_congr {c : Checker} {id : ScopeId} {f g : Scope → Scope}
    (h : f (c.scope id) = g (c.scope id)) : c.modifyScope id f = c.modifyScope id g := by
  have hscopes : (c.modifyScope id f).scopes = (c.modifyScope id g).scopes := by
    refine List.ext_getElem? fun j => ?_
    rw [getElem?_modifyScope, getElem?_modifyScope]
    split
    · next hj =>
        subst hj
        refine Option.map_congr fun s hs => ?_
        rwa [← scope_eq_of_getElem? hs]
    · rfl
  exact congrArg (fun scopes => { c with scopes }) hscopes

/-- A new scope is as empty as an index that names none is taken to be. -/
theorem entries_pushScope (c : Checker) {new : Scope} (hnew : new.entries = []) (j : ScopeId) :
    ((c.pushScope new).2.scope j).entries = (c.scope j).entries := by
  rw [scope, scope, pushScope]
  rcases Nat.lt_trichotomy j c.scopes.length with hj | rfl | hj
  · rw [List.getElem?_append_left hj]
  · rw [List.getElem?_concat_length, List.getElem?_eq_none (Nat.le_refl _)]
    exact hnew
  · rw [List.getElem?_eq_none (by simpa using Nat.succ_le_of_lt hj),
      List.getElem?_eq_none (Nat.le_of_lt hj)]

theorem parentIn?_pushScope (c : Checker) (new : Scope) (j : ScopeId) :
    (c.pushScope new).2.parentIn? j
      = (c.parentIn? j).or (if c.scopes.length = j then new.parent else none) := by
  rw [parentIn?, parentIn?, pushScope]
  rcases Nat.lt_trichotomy j c.scopes.length with hj | rfl | hj
  · rw [List.getElem?_append_left hj, if_neg (Nat.ne_of_gt hj), Option.or_none]
  · simp
  · rw [List.getElem?_eq_none (by simpa using Nat.succ_le_of_lt hj),
      List.getElem?_eq_none (Nat.le_of_lt hj), if_neg (Nat.ne_of_lt hj)]
    rfl

/-- A declaration fails just if its name is taken in its scope. -/
theorem declare_eq_ite (c : Checker) (id : ScopeId) (entry : Entry) :
    c.declare id entry
      = if entry.name ∈ (c.scope id).entries.map Entry.name then
          .error ⟨.duplicateDeclaration entry.name, entry.position⟩
        else .ok (c.modifyScope id fun s => { s with entries := s.entries ++ [entry] }) := by
  rw [declare, Scope.insert]
  cases hget : (c.scope id).get? entry.name with
  | some old =>
      have htaken : entry.name ∈ (c.scope id).entries.map Entry.name :=
        List.mem_map.mpr ⟨old, Scope.mem_of_get? hget, Scope.name_of_get? hget⟩
      rw [if_pos htaken]
  | none =>
      have hfree : entry.name ∉ (c.scope id).entries.map Entry.name := by
        simpa using Scope.get?_eq_none_iff.mp hget
      rw [if_neg hfree]
      exact congrArg Except.ok (modifyScope_congr rfl)

end Checker

namespace Session

namespace Op

theorem run_declare (c : Checker) (id : ScopeId) (d : Declaration) :
    (declare id d).run c
      = if d.name ∈ (c.scope id).entries.map Entry.name then
          (.refused ⟨.duplicateDeclaration d.name, d.position⟩, c)
        else
          (.declared id (d.entry (c.scope id)),
            c.modifyScope id fun s => { s with entries := s.entries ++ [d.entry s] }) := by
  rw [run, Checker.declare_eq_ite, Declaration.name_entry, Declaration.position_entry]
  by_cases htaken : d.name ∈ (c.scope id).entries.map Entry.name
  · rw [if_pos htaken, if_pos htaken]
  · rw [if_neg htaken, if_neg htaken]
    exact congrArg (Prod.mk _) (Checker.modifyScope_congr rfl)

theorem length_run (op : Op) (c : Checker) :
    (op.run c).2.scopes.length = c.scopes.length + op.opened := by
  cases op with
  | addScope name kind parent => simp [run, Checker.addScope, Checker.pushScope, opened]
  | addClassScope className classCName parent =>
      simp [run, Checker.addClassScope, Checker.pushScope, opened]
  | declare id d =>
      rw [run_declare]
      split
      · rfl
      · exact Checker.length_modifyScope c id _
  | setType id name type | allocateTemp id type => exact Checker.length_modifyScope c id _

variable {ops : List Op} {c : Checker}

theorem inRange_cons {op : Op} (h : inRange (op :: ops) c.scopes.length = true) :
    op.place < c.scopes.length ∧ inRange ops (op.run c).2.scopes.length = true := by
  rw [inRange, Bool.and_eq_true, decide_eq_true_iff] at h
  rwa [op.length_run]

theorem parentIn?_run (op : Op) (c : Checker) (j : ScopeId) :
    (op.run c).2.parentIn? j = (c.parentIn? j).or ((op.run c).1.parent? j) := by
  -- only the two operations that open a scope say something of parents
  have hsilent {id : ScopeId} {f : Scope → Scope} (hf : ∀ s, (f s).parent = s.parent) :
      (c.modifyScope id f).parentIn? j = (c.parentIn? j).or none := by
    rw [c.parentIn?_modifyScope id hf, Option.or_none]
  cases op with
  | addScope name kind parent | addClassScope className classCName parent =>
      exact c.parentIn?_pushScope _ j
  | declare id d =>
      rw [run_declare]
      split
      · exact (Option.or_none).symm
      · exact hsilent (f := fun s => { s with entries := s.entries ++ [d.entry s] }) fun _ => rfl
  | setType id name type => exact hsilent (f := fun s => s.setType name type) fun _ => rfl
  | allocateTemp id type =>
      exact hsilent
        (f := fun s => { s with temps := s.temps ++ [(Checker.tempName c.tempCount, type)] })
        fun _ => rfl

/-- An event that adds and retypes nothing in a scope says that its entries stay. -/
theorem entries_of_silent {j : ScopeId} {event : Event} (hentry : event.added? j = none)
    (htype : ∀ name, event.type? j name = none) (es : List Entry) :
    es.map (latest j [event]) ++ entriesOf j [event] = es := by
  have hlatest : latest j [event] = id := funext fun e => latest_eq_self (htype e.name)
  rw [entriesOf_singleton, hentry, hlatest, List.map_id]
  exact List.append_nil es

theorem entries_of_declared {id : ScopeId} (hid : id < c.scopes.length)
    (make : Scope → Entry) (j : ScopeId) :
    ((c.modifyScope id fun s => { s with entries := s.entries ++ [make s] }).scope j).entries
      = (c.scope j).entries.map (latest j [.declared id (make (c.scope id))])
        ++ entriesOf j [.declared id (make (c.scope id))] := by
  rw [c.scope_modifyScope hid]
  by_cases hj : id = j
  · subst hj
    have hlatest : latest id [.declared id (make (c.scope id))] = fun e => e :=
      funext fun e => latest_eq_self rfl
    rw [if_pos rfl, hlatest, List.map_id', entriesOf_singleton, Event.added?, if_pos rfl]
    rfl
  · rw [if_neg hj, entries_of_silent (by rw [Event.added?, if_neg hj]) fun _ => rfl]

theorem entries_of_retyped {id : ScopeId} (hid : id < c.scopes.length)
    (name : String) (type : Ty) (j : ScopeId) :
    ((c.setType id name type).scope j).entries
      = (c.scope j).entries.map (latest j [.retyped id name type])
        ++ entriesOf j [.retyped id name type] := by
  rw [Checker.setType, c.scope_modifyScope hid]
  by_cases hj : id = j
  · subst hj
    have hnone : Event.added? id (.retyped id name type) = none := rfl
    rw [if_pos rfl, Scope.setType, entriesOf_singleton, hnone, Option.toList_none, List.append_nil]
    refine List.map_congr_left fun e _ => ?_
    by_cases he : e.name = name
    · simp [latest, lastType?, Event.type?, he]
    · rw [if_neg he, latest_eq_self (by simp [Event.type?, Ne.symm he])]
  · rw [if_neg hj, entries_of_silent rfl fun _ => by simp [Event.type?, hj]]

/-- One operation changes the entries of scopes as its event says. -/
theorem entries_run (op : Op) (c : Checker) (hop : op.place < c.scopes.length) (j : ScopeId) :
    ((op.run c).2.scope j).entries
      = (c.scope j).entries.map (latest j [(op.run c).1]) ++ entriesOf j [(op.run c).1] := by
  cases op with
  | addScope _ _ _ | addClassScope _ _ _ =>
      rw [entries_of_silent rfl fun _ => rfl]
      exact c.entries_pushScope rfl j
  | declare id d =>
      rw [run_declare]
      split
      · rw [entries_of_silent rfl fun _ => rfl]
      · exact entries_of_declared hop d.entry j
  | setType id name type => exact entries_of_retyped hop name type j
  | allocateTemp id type =>
      rw [entries_of_silent rfl fun _ => rfl]
      exact c.entries_modifyScope id
        (f := fun s => { s with temps := s.temps ++ [(Checker.tempName c.tempCount, type)] })
        (fun _ => rfl) j

/-! ## Sessions of any length -/

/-- What every operation in range keeps is kept by a session. -/
theorem runAll_invariant {P : Checker → Prop}
    (hstep : ∀ (op : Op) (c : Checker), op.place < c.scopes.length → P c → P (op.run c).2)
    (hops : inRange ops c.scopes.length = true) (hc : P c) : P (runAll ops c).2 := by
  induction ops generalizing c with
  | nil => exact hc
  | cons op ops ih =>
      obtain ⟨hop, hrest⟩ := inRange_cons hops
      exact ih hrest (hstep op c hop hc)

theorem parentIn?_runAll (ops : List Op) (c : Checker) (j : ScopeId) :
    (runAll ops c).2.parentIn? j = (c.parentIn? j).or (parentOf j (runAll ops c).1) := by
  induction ops generalizing c with
  | nil => exact (Option.or_none).symm
  | cons op ops ih =>
      calc (runAll (op :: ops) c).2.parentIn? j
          _ = ((op.run c).2.parentIn? j).or (parentOf j (runAll ops (op.run c).2).1) := ih _
          _ = (c.parentIn? j).or (parentOf j (runAll (op :: ops) c).1) := by
              rw [op.parentIn?_run, Option.or_assoc, ← parentOf_cons]
              rfl

/-- A session changes the entries of scopes as its events say. -/
theorem entries_runAll (hops : inRange ops c.scopes.length = true) (j : ScopeId) :
    ((runAll ops c).2.scope j).entries
      = (c.scope j).entries.map (latest j (runAll ops c).1) ++ entriesOf j (runAll ops c).1 := by
  induction ops generalizing c with
  | nil =>
      have hlatest : latest j [] = id := rfl
      simp [runAll, entriesOf, hlatest]
  | cons op ops ih =>
      obtain ⟨hop, hrest⟩ := inRange_cons hops
      have hlatest (events : List Event) :
          latest j events ∘ latest j [(op.run c).1] = latest j ((op.run c).1 :: events) :=
        funext fun e => (latest_cons j _ events e).symm
      calc ((runAll (op :: ops) c).2.scope j).entries
          _ = ((op.run c).2.scope j).entries.map (latest j (runAll ops (op.run c).2).1)
                ++ entriesOf j (runAll ops (op.run c).2).1 := ih hrest
          _ = (c.scope j).entries.map (latest j (runAll (op :: ops) c).1)
                ++ entriesOf j (runAll (op :: ops) c).1 := by
              rw [op.entries_run c hop, List.map_append, List.map_map, hlatest, List.append_assoc,
                ← entriesOf_cons]
              rfl

end Op

end Session

/-! ## Nested scopes -/

namespace Checker

/-- Each scope but the outermost one lies in a scope that was opened before it. -/
structure Nested (c : Checker) : Prop where
  outermost : c.parentIn? global = none
  inner : ∀ id < c.scopes.length, id ≠ global → ∃ parent < id, c.parentIn? id = some parent

/-- No two entries of a scope have one name. -/
def Distinct (c : Checker) : Prop := ∀ id, ((c.scope id).entries.map Entry.name).Nodup

theorem nested_start (registry : Registry) : (start registry).Nested where
  outermost := rfl
  inner _ hid hne := absurd (Nat.lt_one_iff.mp hid) hne

theorem entries_start (registry : Registry) (id : ScopeId) :
    ((start registry).scope id).entries = [] := by
  rw [scope, start]
  cases id <;> rfl

theorem parentIn?_start (registry : Registry) (id : ScopeId) :
    (start registry).parentIn? id = none := by
  rw [parentIn?, start]
  cases id <;> rfl

theorem distinct_start (registry : Registry) : (start registry).Distinct := fun id => by
  rw [entries_start]
  exact List.nodup_nil

theorem chainWithin_succ {c : Checker} {id : ScopeId} (hid : id < c.scopes.length) (steps : Nat) :
    c.chainWithin (steps + 1) id
      = (id, c.scope id) :: ((c.parentIn? id).map (c.chainWithin steps)).getD [] := by
  rw [chainWithin, parentIn?, getElem?_eq_scope hid, Option.bind_some]
  dsimp only
  cases (c.scope id).parent <;> rfl

namespace Nested

variable {c : Checker} (h : c.Nested)
include h

variable {id : ScopeId}

theorem parent_lt {parent : ScopeId} (hid : id < c.scopes.length)
    (hparent : c.parentIn? id = some parent) : parent < id := by
  have hne : id ≠ global := fun heq => by
    rw [heq, h.outermost] at hparent
    cases hparent
  obtain ⟨p, hp, heq⟩ := h.inner id hid hne
  rw [heq] at hparent
  cases hparent
  exact hp

/-- By induction on the index, which goes down with every step outward: more steps than the index
counts are as good as any other number of them. -/
theorem chainWithin_eq (hid : id < c.scopes.length) {steps steps' : Nat} (hsteps : id < steps)
    (hsteps' : id < steps') : c.chainWithin steps id = c.chainWithin steps' id := by
  induction id using Nat.strongRecOn generalizing steps steps' with
  | ind id ih =>
      obtain ⟨k, rfl⟩ := Nat.exists_eq_succ_of_ne_zero (Nat.ne_zero_of_lt hsteps)
      obtain ⟨k', rfl⟩ := Nat.exists_eq_succ_of_ne_zero (Nat.ne_zero_of_lt hsteps')
      rw [chainWithin_succ hid, chainWithin_succ hid]
      cases hparent : c.parentIn? id with
      | none => rfl
      | some parent =>
          have hlt := h.parent_lt hid hparent
          have hrest : c.chainWithin k parent = c.chainWithin k' parent :=
            ih parent hlt (Nat.lt_trans hlt hid)
              (Nat.lt_of_lt_of_le hlt (Nat.le_of_lt_succ hsteps))
              (Nat.lt_of_lt_of_le hlt (Nat.le_of_lt_succ hsteps'))
          rw [Option.map_some, Option.map_some, hrest]

/-- The way outward from a scope is the scope and the way outward from the one around it. -/
theorem chain_eq (hid : id < c.scopes.length) :
    c.chain id = (id, c.scope id) :: ((c.parentIn? id).map c.chain).getD [] := by
  rw [chain, h.chainWithin_eq hid hid (Nat.lt_succ_of_lt hid), chainWithin_succ hid]
  rfl

theorem find?_eq (hid : id < c.scopes.length) (name : String) :
    c.find? id name
      = ((c.scope id).get? name).or ((c.parentIn? id).bind fun parent => c.find? parent name) := by
  rw [find?, h.chain_eq hid, List.findSome?_cons]
  cases (c.scope id).get? name with
  | some e => rfl
  | none => cases c.parentIn? id <;> rfl

theorem enclosingFunction?_eq (hid : id < c.scopes.length) :
    c.enclosingFunction? id = match (c.scope id).kind with
      | .function => some id
      | .classBody => none
      | .global | .aggregate => (c.parentIn? id).bind c.enclosingFunction? := by
  rw [enclosingFunction?, h.chain_eq hid, List.find?_cons]
  cases hkind : (c.scope id).kind with
  | function | classBody => simp [hkind]
  | global | aggregate => cases c.parentIn? id <;> rfl

end Nested

end Checker

namespace Session

namespace Op

variable {id : ScopeId}

/-- A scope that an operation opens lies in the one it names. -/
theorem parent?_run {op : Op} {c : Checker} (hid : c.scopes.length ≤ id)
    (hnew : id < (op.run c).2.scopes.length) :
    id = c.scopes.length ∧ (op.run c).1.parent? id = some op.place := by
  rw [op.length_run] at hnew
  cases op with
  | addScope _ _ _ | addClassScope _ _ _ =>
      have heq : id = c.scopes.length := Nat.le_antisymm (Nat.le_of_lt_succ hnew) hid
      exact ⟨heq, if_pos heq.symm⟩
  | declare _ _ | setType _ _ _ | allocateTemp _ _ => exact absurd hid (Nat.not_le_of_lt hnew)

/-- An operation opens no scope that was there. -/
theorem parent?_run_of_lt (op : Op) {c : Checker} (hid : id < c.scopes.length) :
    (op.run c).1.parent? id = none := by
  cases op with
  | addScope name kind parent | addClassScope className classCName parent =>
      exact if_neg (Nat.ne_of_gt hid)
  | declare id d => rw [run_declare]; split <;> rfl
  | setType _ _ _ => rfl
  | allocateTemp _ _ => rfl

theorem nested_run (op : Op) (c : Checker) (hop : op.place < c.scopes.length) (hc : c.Nested) :
    (op.run c).2.Nested where
  outermost := by
    have hglobal : Checker.global < c.scopes.length := Nat.lt_of_le_of_lt (Nat.zero_le _) hop
    rw [op.parentIn?_run, hc.outermost, op.parent?_run_of_lt hglobal]
    rfl
  inner id hid hne := by
    rw [op.parentIn?_run]
    rcases Nat.lt_or_ge id c.scopes.length with hold | hnew
    · obtain ⟨parent, hlt, hparent⟩ := hc.inner id hold hne
      exact ⟨parent, hlt, by rw [hparent, Option.some_or]⟩
    · obtain ⟨rfl, hparent⟩ := parent?_run hnew hid
      refine ⟨op.place, hop, ?_⟩
      rw [Checker.parentIn?, List.getElem?_eq_none (Nat.le_refl _), Option.bind_none,
        Option.none_or, hparent]

/-- The name of a new entry is new to its scope. -/
theorem fresh_of_declared {op : Op} {c : Checker} {e : Entry}
    (h : (op.run c).1.added? id = some e) : e.name ∉ (c.scope id).entries.map Entry.name := by
  cases op with
  | declare scope d =>
      rw [run_declare] at h
      split at h
      · cases h
      · next hfree =>
          rw [Event.added?] at h
          split at h
          · next heq =>
              cases h
              rwa [← heq, Declaration.name_entry]
          · cases h
  | addScope _ _ _ => cases h
  | addClassScope _ _ _ => cases h
  | setType _ _ _ => cases h
  | allocateTemp _ _ => cases h

theorem distinct_run (op : Op) (c : Checker) (hop : op.place < c.scopes.length)
    (hc : c.Distinct) : (op.run c).2.Distinct := fun id => by
  have hnames (event : Event) : Entry.name ∘ latest id [event] = Entry.name := rfl
  rw [op.entries_run c hop, List.map_append, List.map_map, hnames, entriesOf_singleton]
  cases hentry : (op.run c).1.added? id with
  | none => simpa using hc id
  | some e =>
      have hfresh := fresh_of_declared hentry
      rw [Option.toList_some, List.map_singleton]
      exact List.nodup_append.mpr ⟨hc id, List.pairwise_singleton _ _, fun a ha b hb hab =>
        hfresh (by rwa [← List.mem_singleton.mp hb, ← hab])⟩

end Op

/-! ## The state and the events -/

section

variable {events : List Event} {c : Checker} (hnested : c.Nested)
  (hparents : ∀ id, c.parentIn? id = parentOf id events)
include hnested hparents

theorem path_chain {id : ScopeId} (hid : id < c.scopes.length) :
    Path events id ((c.chain id).map Prod.fst) := by
  induction id using Nat.strongRecOn with
  | ind id ih =>
      by_cases hglobal : id = Checker.global
      · subst hglobal
        rw [hnested.chain_eq hid, hnested.outermost]
        exact .outermost
      · obtain ⟨parent, hlt, hparent⟩ := hnested.inner id hid hglobal
        rw [hnested.chain_eq hid, hparent, Option.map_some, Option.getD_some, List.map_cons]
        refine .inside ?_ hlt (ih parent hlt (Nat.lt_trans hlt hid))
        rw [← hparents, hparent]

theorem find?_of_path (hentries : ∀ id, (c.scope id).entries = entriesOf id events)
    {id : ScopeId} {path : List ScopeId} (hpath : Path events id path)
    (hid : id < c.scopes.length) (name : String) :
    c.find? id name
      = path.findSome? fun s => (entriesOf s events).find? fun e => decide (e.name = name) := by
  induction hpath with
  | outermost =>
      rw [hnested.find?_eq hid, hnested.outermost, Scope.get?, hentries, Option.bind_none,
        Option.or_none, List.findSome?_singleton]
  | @inside id parent rest hparent hlt _ ih =>
      rw [hnested.find?_eq hid, hparents, hparent, Option.bind_some, ih (Nat.lt_trans hlt hid),
        Scope.get?, hentries, List.findSome?_cons]
      cases (entriesOf id events).find? fun e => decide (e.name = name) <;> rfl

end

theorem nestedMaps_runAll {registry : Registry} {ops : List Op}
    (hops : Op.inRange ops 1 = true) :
    NestedMaps (Op.runAll ops (.start registry)).1 (Op.runAll ops (.start registry)).2 := by
  have hnested := Op.runAll_invariant Op.nested_run hops (Checker.nested_start registry)
  have hdistinct := Op.runAll_invariant Op.distinct_run hops (Checker.distinct_start registry)
  have hparents (id : ScopeId) : (Op.runAll ops (.start registry)).2.parentIn? id
      = parentOf id (Op.runAll ops (.start registry)).1 := by
    rw [Op.parentIn?_runAll, Checker.parentIn?_start, Option.none_or]
  have hentries (id : ScopeId) : ((Op.runAll ops (.start registry)).2.scope id).entries
      = entriesOf id (Op.runAll ops (.start registry)).1 := by
    rw [Op.entries_runAll hops, Checker.entries_start, List.map_nil, List.nil_append]
  exact {
    parents := fun id s hs => by rw [← hparents, Checker.parentIn?, hs, Option.bind_some]
    parent_lt := fun id s parent hs hparent => by
      refine hnested.parent_lt (List.getElem?_eq_some_iff.mp hs).1 ?_
      rw [Checker.parentIn?, hs, Option.bind_some, hparent]
    walk := fun id hid =>
      ⟨path_chain hnested hparents hid, fun steps hsteps => hnested.chainWithin_eq hid hsteps hid⟩
    enclosing := fun id hid => by rw [hnested.enclosingFunction?_eq hid, hparents]
    entries := hentries
    distinct := hdistinct
    find := fun id hid path hpath name => find?_of_path hnested hparents hentries hpath hid name
    declares := fun id _ d => by rw [Op.run_declare, hentries] }

end Session

end ExtensionCompiler

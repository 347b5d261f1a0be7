import ExtensionCompiler.Proofs.Settling

set_option autoImplicit false

/-! # The second pass, visit by visit

The second pass comes to the parts of a unit in the order of analysis. A `Revisit` is a visit with
the state that the second pass comes back with. The proofs follow both passes at once: at a revisit,
the state of the visit says what was known at the time, and the other one what is known now.

The check after the passes sees entries only. Why can it speak for nodes? What an entry was settled
to last, it was settled to together with a node that waits for the same names (`Run.last_settled`).
So at some revisit all these names were settled (`Passes.settling_revisit`). That need not be the
revisit of the node in question, and this is where the halves of `Passes.settled_signature` part:

* a name that is settled at one revisit shows no pending name at any other, and
* in contexts where names wait for themselves only, it was settled from the beginning of the second
  pass on, so that it is settled at every revisit. -/

namespace ExtensionCompiler

/-- What the second pass makes of what a visit has left, coming in the state `c`. -/
def Visit.settle (v : Visit) (c : Checker) : Part × Checker := v.result.part.rescan v.scope c

/-- A visit and the state in which the second pass comes to the same part. -/
structure Revisit where
  visit : Visit
  state : Checker

namespace Visit

/-- The revisits of visits by a pass that begins in the state `c`. -/
def revisits : List Visit → Checker → List Revisit
  | [], _ => []
  | v :: rest, c => ⟨v, c⟩ :: revisits rest (v.settle c).2

/-- The state after the revisits of visits. -/
def settleAll (visits : List Visit) (c : Checker) : Checker :=
  (Placed.settleAll (visits.map Visit.result) c).2

theorem settled_parts (visits : List Visit) (c : Checker) :
    (Placed.settleAll (visits.map Visit.result) c).1
      = (revisits visits c).map fun x => ⟨x.visit.scope, (x.visit.settle x.state).1⟩ := by
  induction visits generalizing c with
  | nil => rfl
  | cons v rest ih =>
      show _ :: (Placed.settleAll (rest.map Visit.result) (v.settle c).2).1 = _
      rw [ih]
      rfl

/-- A definition that was entered knows the scope of the statements inside it. -/
theorem isEntered_result {v : Visit} (hok : v.outcome.error = none) :
    v.result.part.isEntered = true := by
  obtain ⟨scope, c, p⟩ := v
  cases p with
  | function d =>
      show (d.enter scope c).node.scope.isSome = true
      rw [(Function.enter_entered hok).scope_eq]
      rfl
  | method d =>
      obtain ⟨params, c₁, entry, -, -, -, hnode⟩ := Method.enter_ok hok
      show (d.enter scope c).node.scope.isSome = true
      rw [hnode]
      rfl
  | classDef d =>
      show (d.enter scope c).node.scope.isSome = true
      rw [(ClassDef.enter_ok hok).1]
      rfl
  | _ => rfl

end Visit

open Checker (Edits Retyped)

/-- What comes before a revisit and what comes after it, in both passes. -/
theorem Run.at_revisit {c c' : Checker} {visits : List Visit} (h : Run c visits c') (r : Checker)
    {x : Revisit} (hx : x ∈ Visit.revisits visits r) :
    x.visit ∈ visits ∧ x.visit.outcome.error = none ∧ Retyped r x.state
      ∧ ∃ rest, Run x.visit.after rest c'
        ∧ Visit.settleAll rest (x.visit.settle x.state).2 = Visit.settleAll visits r
        ∧ ∀ y ∈ Visit.revisits rest (x.visit.settle x.state).2, y ∈ Visit.revisits visits r := by
  induction h generalizing r with
  | done => cases hx
  | @step v rest c' hok hrest ih =>
      rcases List.mem_cons.mp hx with rfl | hx
      · exact ⟨List.mem_cons_self, hok, .refl r, rest, hrest, rfl,
          fun y hy => List.mem_cons_of_mem _ hy⟩
      · obtain ⟨hmem, hxok, hretyped, after, hafter, hfinal, hsub⟩ := ih (v.settle r).2 hx
        exact ⟨List.mem_cons_of_mem v hmem, hxok,
          (v.result.part.rescan_retyped v.scope r).trans hretyped, after, hafter, hfinal,
          fun y hy => List.mem_cons_of_mem _ (hsub y hy)⟩

/-- What a visit and its revisit keep, of the states that they are made in, holds at all of them and
after the passes. -/
theorem Run.invariant_revisits {I : Checker → Checker → Prop} {c c' : Checker} {visits : List Visit}
    (h : Run c visits c') {r : Checker} (hr : I c r)
    (hstep : ∀ x ∈ Visit.revisits visits r, x.visit.outcome.error = none →
      ∀ rest, Run x.visit.after rest c' → I x.visit.before x.state →
        I x.visit.after (x.visit.settle x.state).2) :
    I c' (Visit.settleAll visits r)
      ∧ ∀ x ∈ Visit.revisits visits r, I x.visit.before x.state := by
  induction h generalizing r with
  | done => exact ⟨hr, List.forall_mem_nil _⟩
  | @step v rest c' hok hrest ih =>
      have hnext := hstep ⟨v, r⟩ List.mem_cons_self hok rest hrest hr
      obtain ⟨hend, hlater⟩ := ih hnext fun x hx => hstep x (List.mem_cons_of_mem _ hx)
      exact ⟨hend, List.forall_mem_cons.mpr ⟨hr, hlater⟩⟩

/-! ## The last word on an entry -/

/-- An entry that was declared before some visits is left alone by their revisits, or what it gets
last is the type of a function that completes it. -/
theorem Run.last_settled {c c' : Checker} {visits : List Visit} (h : Run c visits c') {id : ScopeId}
    {name : String} {entry : Entry} (hentry : c.entryIn? id name = some entry) (r : Checker)
    (hr : (r.typeIn? id name).isSome) :
    (Visit.settleAll visits r).typeIn? id name = r.typeIn? id name
      ∨ entry.kind = .function ∧ ∃ x ∈ Visit.revisits visits r, x.visit.scope = id
          ∧ ∃ type settled, x.visit.result.part.signature? = some ⟨.function, name, type⟩
          ∧ type.pendings = entry.type.pendings
          ∧ (x.visit.settle x.state).1.signature? = some ⟨.function, name, settled⟩
          ∧ (Visit.settleAll visits r).typeIn? id name = some settled := by
  induction h generalizing r with
  | done => exact .inl rfl
  | @step v rest c' hok _ ih =>
      have hentry' := (v.part.analyse_edits v.scope v.before).grows.entryIn? hentry
      have hr' : ((v.settle r).2.typeIn? id name).isSome := by
        rwa [Visit.settle, (v.result.part.rescan_retyped v.scope r).isSome_typeIn?]
      -- the last word is had by a later visit, or else by this one, or by none
      rcases ih hentry' (v.settle r).2 hr' with hkept | ⟨hkind, x, hx, hlast⟩
      · by_cases hkey : (id, name) ∈ v.result.part.keys v.scope
        · obtain ⟨rfl, hkind, type, hs, hpendings⟩ := Visit.completes_of_mem_keys hok hentry hkey
          obtain ⟨settled, hsettled, -, hgiven⟩ :=
            Part.signature?_rescan v.scope r hs (Visit.isEntered_result hok)
          refine .inr ⟨hkind, ⟨v, r⟩, List.mem_cons_self, rfl, type, settled, hs, hpendings,
            hsettled, ?_⟩
          exact hkept.trans (hgiven (.inl rfl) hr)
        · refine .inl (hkept.trans ?_)
          exact Part.typeIn?_rescan_of_not_mem_keys v.result.part v.scope r hkey
      · exact .inr ⟨hkind, x, List.mem_cons_of_mem _ hx, hlast⟩

/-- The check after the passes has found nothing pending in any entry. -/
theorem Checker.noPending_of_unresolved? {c : Checker} (h : c.unresolved? = none) {s : Scope}
    (hs : s ∈ c.scopes) {entry : Entry} (he : entry ∈ s.entries) : entry.type.NoPending := by
  have hmem : (entry.type, entry.position) ∈ c.declared := by
    refine List.mem_append_left _ (List.mem_flatMap.mpr ⟨s, hs, ?_⟩)
    exact List.mem_map.mpr ⟨entry, he, rfl⟩
  have hnone := List.findSome?_eq_none_iff.mp h _ hmem
  exact Option.map_eq_none_iff.mp hnone

theorem Checker.pendings_of_typeIn? {c : Checker} (h : c.unresolved? = none) {id : ScopeId}
    {name : String} {type : Ty} (htype : c.typeIn? id name = some type) : type.pendings = [] := by
  obtain ⟨entry, hentry, rfl⟩ := Option.map_eq_some_iff.mp htype
  obtain ⟨s, hs, hget⟩ := entryIn?_eq_some_iff.mp hentry
  exact Ty.noPending_iff.mp
    (noPending_of_unresolved? h (List.mem_of_getElem? hs) (Scope.mem_of_get? hget))

namespace Passes

variable {unit : List Stmt} {registry : Registry} {checked : Checked} {visits : List Visit}
  {middle : Checker}

variable (h : Passes unit registry checked visits middle)
include h

theorem settleAll_eq : Visit.settleAll visits middle = checked.checker := by
  rw [Visit.settleAll, h.settled]

/-- The parts of a checked unit are what the revisits have made of them. -/
theorem parts_eq :
    Stmt.partsAll checked.unit Checker.global
      = (Visit.revisits visits middle).map fun x =>
          ⟨x.visit.scope, (x.visit.settle x.state).1⟩ := by
  rw [← Visit.settled_parts, h.settled]

/-- Whatever the node of an alias, a prototype or a function waits for is settled at one revisit, if
not at its own, then at that of a function that waits for the same names. -/
theorem settling_revisit {x : Revisit} (hx : x ∈ Visit.revisits visits middle) {kind : EntryKind}
    {name : String} {type : Ty} (hs : x.visit.result.part.signature? = some ⟨kind, name, type⟩) :
    (∀ m ∈ type.pendings, x.state.registry.Settled m)
      ∨ kind = .function ∧ ∃ y ∈ Visit.revisits visits middle, ∃ type',
          y.visit.result.part.signature? = some ⟨.function, name, type'⟩
          ∧ type'.pendings = type.pendings
          ∧ ∀ m ∈ type.pendings, y.state.registry.Settled m := by
  obtain ⟨hmem, hok, hretyped, rest, hrest, hfinal, hsub⟩ := h.run.at_revisit middle hx
  -- a node that waits for nothing is not given to its entry, but there is nothing to settle
  by_cases hne : type.pendings = []
  · refine .inl fun m hm => ?_
    rw [hne] at hm
    cases hm
  · obtain ⟨entry, hentry, hkind, hpendings⟩ :=
      Visit.entry_of_signature? hok (h.inRange x.visit hmem) hs
    -- the entry is there from the visit on, also in the states of the second pass
    have hthere : (x.state.typeIn? x.visit.scope name).isSome := by
      rw [hretyped.isSome_typeIn?, Checker.typeIn?, hrest.grows.entryIn? hentry]
      rfl
    obtain ⟨settled, -, hwaiting, hgiven⟩ :=
      Part.signature?_rescan x.visit.scope x.state hs (Visit.isEntered_result hok)
    have hnow := hgiven (.inr hne) hthere
    have hstill : ((x.visit.settle x.state).2.typeIn? x.visit.scope name).isSome := by
      rw [Visit.settle, hnow]
      rfl
    -- the check has seen what the entry was given last: by the node itself, or by `y`
    rcases hrest.last_settled hentry _ hstill with
      hkept | ⟨hfun, y, hy, -, type', settled', hs', hsame, hsettled', hlast⟩
    · left
      rw [hfinal, h.settleAll_eq, Visit.settle, hnow] at hkept
      have hnil := Checker.pendings_of_typeIn? h.resolved hkept
      rw [Ty.pendings, hwaiting, List.flatMap_eq_nil_iff] at hnil
      exact hnil
    · right
      rw [hfinal, h.settleAll_eq] at hlast
      have hnil := Checker.pendings_of_typeIn? h.resolved hlast
      obtain ⟨-, hyok, -⟩ := h.run.at_revisit middle (hsub y hy)
      obtain ⟨ty, hty, hwaiting', -⟩ :=
        Part.signature?_rescan y.visit.scope y.state hs' (Visit.isEntered_result hyok)
      cases hty.symm.trans hsettled'
      rw [Ty.pendings, hwaiting', List.flatMap_eq_nil_iff] at hnil
      refine ⟨hkind ▸ hfun, y, hsub y hy, type', hs', hsame.trans hpendings, fun m hm => ?_⟩
      refine hnil m ?_
      rw [← Ty.pendings, hsame, hpendings]
      exact hm

end Passes

/-! ## What the passes bind -/

/-- What a visit and its revisit in the state `r` do to the registry. -/
inductive Visit.Binds (v : Visit) (r : Checker) : Prop
  | nothing : v.after.registry = v.before.registry → (v.settle r).2.registry = r.registry →
      Binds v r
  /-- The visit binds a name to a type that waits for nothing. -/
  | settled {name : String} {type : Ty} {position : Position} : type.pendings = [] →
      v.after.registry = v.before.registry.register name type position →
      (v.settle r).2.registry = r.registry → Binds v r
  /-- The visit binds a name to an alias, and the revisit binds it again to what that has settled
  to. -/
  | pendingAlias {name cName : String} {type : Ty} {d : Descriptor} {depth : Nat}
      {position : Position} :
      v.result.part.signature? = some ⟨.type, name, type⟩ →
      type = .aliased name cName (Ty.resolve v.before.registry d depth) →
      v.after.registry = v.before.registry.register name type position →
      (v.settle r).2.registry = r.registry.register name (type.rescan r.registry) position →
      Binds v r

theorem Part.registry_rescan {p : Part} (h : p.binds = false) (scope : ScopeId) (c : Checker) :
    (p.rescan scope c).2.registry = c.registry := by
  have hsettle (name : String) (type : Ty) :
      (c.settleName scope name type).2.registry = c.registry := by
    unfold Checker.settleName
    split <;> rfl
  cases p with
  | var d | array d => exact hsettle d.name d.type
  | typeAlias d => cases h
  | prototype d =>
      show (d.rescan scope c).2.registry = _
      unfold Prototype.rescan
      dsimp only
      split <;> exact Parameter.registry_rescanAll false scope d.params c
  | function d | method d =>
      unfold Part.rescan
      dsimp only
      split
      · exact Parameter.registry_rescanAll true _ d.params c
      · rfl
  | _ => rfl

/-- The name that a part binds in the registry. -/
def Part.typeName? : Part → Option String
  | .aggregate d => some d.name
  | .typeAlias d => if d.isTagAlias then none else some d.name
  | _ => none

namespace Visit

/-- The visit binds `name` to `type`: to a structure, or to an alias that the revisit binds again if
anything in it was pending. -/
structure Introduces (v : Visit) (name : String) (type : Ty) (position : Position) : Prop where
  early : v.after.registry = v.before.registry.register name type position
  form : (∃ kind tag cName scope, type = .aggregate kind tag cName scope)
    ∨ ∃ cName d depth, type = .aliased name cName (Ty.resolve v.before.registry d depth)
  late : ∀ r, (v.settle r).2.registry
    = if type.pending?.isSome then r.registry.register name (type.rescan r.registry) position
      else r.registry
  signed : type.pendings ≠ [] → v.result.part.signature? = some ⟨.type, name, type⟩

theorem introduces {v : Visit} (hok : v.outcome.error = none) {name : String}
    (hname : v.part.typeName? = some name) : ∃ type position, v.Introduces name type position := by
  obtain ⟨scope, c, p⟩ := v
  cases p with
  | aggregate d =>
      cases hname
      obtain ⟨type, c₁, c₂, entry, htype, hc₁, -, hdeclare, heq⟩ := Aggregate.declare_ok hok
      have hearly : (d.declare scope c).checker.registry
          = c.registry.register d.name type d.position := by
        rw [heq]
        show c₂.registry = _
        rw [Checker.registry_of_declare hdeclare, hc₁]
        rfl
      refine ⟨type, d.position, hearly, .inl ⟨_, _, _, _, htype⟩, fun r => ?_, fun hne => ?_⟩
      · rw [htype]
        rfl
      · rw [htype] at hne
        exact absurd rfl hne
  | typeAlias d =>
      change (d.analyse scope c).error = none at hok
      rw [Part.typeName?] at hname
      split at hname
      · cases hname
      · rename_i htag
        rw [Bool.not_eq_true] at htag
        cases hname
        obtain ⟨cName, type, c₁, entry, htype, -, hdeclare, heq⟩ := TypeAlias.analyse_ok hok htag
        have hearly : (d.analyse scope c).checker.registry
            = c.registry.register d.name type d.position := by
          rw [heq]
          exact Checker.registry_of_declare hdeclare
        have htag' : TypeAlias.isTagAlias { d with cName, type } = false := htag
        refine ⟨type, d.position, hearly, .inr ⟨cName, d.descriptor, d.depth, htype⟩,
          fun r => ?_, fun _ => ?_⟩
        · show ((d.analyse scope c).node.rescan scope r).2.registry = _
          rw [heq]
          cases hpend : type.pending? with
          | none => simp [TypeAlias.rescan, Outcome.ok, hpend]
          | some m =>
              simp only [TypeAlias.rescan, Outcome.ok, htag', hpend, Option.isNone_some,
                Bool.or_self, Bool.false_eq_true, if_false, Option.isSome_some, if_true]
              rfl
        · show (Part.typeAlias (d.analyse scope c).node).signature? = _
          rw [heq]
          exact if_neg (by simp [Outcome.ok, htag'])
  | _ => cases hname

/-- A visit that binds no name leaves the registry alone, and so does its revisit. -/
theorem registry_of_typeName?_eq_none {v : Visit} (h : v.part.typeName? = none) (r : Checker) :
    v.after.registry = v.before.registry ∧ (v.settle r).2.registry = r.registry := by
  obtain ⟨scope, c, p⟩ := v
  have hquiet {q : Part} (hq : q.binds = false) (hnode : (q.analyse scope c).node.binds = false) :
      (q.analyse scope c).checker.registry = c.registry
        ∧ ((q.analyse scope c).node.rescan scope r).2.registry = r.registry := by
    have hedits := q.analyse_binds scope c
    rw [hq] at hedits
    exact ⟨hedits.registry_eq, Part.registry_rescan hnode scope r⟩
  cases p with
  | aggregate d => cases h
  | typeAlias d =>
      rw [Part.typeName?] at h
      split at h
      · rename_i htag
        have heq : d.analyse scope c = .ok d c := by
          unfold TypeAlias.analyse
          rw [if_pos htag]
        refine ⟨?_, ?_⟩
        · show (d.analyse scope c).checker.registry = c.registry
          rw [heq]
          rfl
        · show ((d.analyse scope c).node.rescan scope r).2.registry = r.registry
          rw [heq]
          simp [TypeAlias.rescan, htag, Outcome.ok]
      · cases h
  | _ => exact hquiet rfl rfl

end Visit

theorem Visit.binds {v : Visit} (hok : v.outcome.error = none) (r : Checker) : v.Binds r := by
  cases hv : v.part.typeName? with
  | none =>
      obtain ⟨hearly, hlate⟩ := registry_of_typeName?_eq_none hv r
      exact .nothing hearly hlate
  | some name =>
      obtain ⟨type, position, hintro⟩ := introduces hok hv
      have hlate := hintro.late r
      cases hpend : type.pending? with
      | none =>
          rw [hpend] at hlate
          exact .settled (Ty.noPending_iff.mp hpend) hintro.early hlate
      | some m =>
          have hne : type.pendings ≠ [] := by
            intro hnil
            rw [Ty.noPending_iff.mpr hnil] at hpend
            cases hpend
          rw [hpend] at hlate
          rcases hintro.form with ⟨kind, tag, cName, scope, rfl⟩ | ⟨cName, d, depth, htype⟩
          · exact absurd rfl hne
          · exact .pendingAlias (hintro.signed hne) htype hintro.early hlate

/-! ## Both registries along the passes -/

/-- At its revisit, all that an alias waits for is settled. -/
def Revisit.AliasSettles (x : Revisit) : Prop :=
  ∀ name type, x.visit.result.part.signature? = some ⟨.type, name, type⟩ →
    ∀ m ∈ type.pendings, x.state.registry.Settled m

theorem Run.later {c c' : Checker} {visits : List Visit} (h : Run c visits c') (r : Checker)
    (hr : Registry.Later c'.registry r.registry)
    (hsettles : ∀ x ∈ Visit.revisits visits r, x.AliasSettles) :
    ∀ x ∈ Visit.revisits visits r, Registry.Later c'.registry x.state.registry := by
  refine (h.invariant_revisits (I := fun _ r => Registry.Later c'.registry r.registry) hr
    fun x hx hok rest hrest hr => ?_).2
  cases Visit.binds hok x.state with
  | nothing _ hlate | settled _ _ hlate => rwa [hlate]
  | @pendingAlias name cName type d depth position hs htype hearly hlate =>
      -- the first pass has bound the name to an alias, and it is still one at the turn
      have hnames : x.visit.after.registry.Names name := by
        rw [Registry.Names, hearly, Registry.meaning_register, if_pos rfl, htype]
        rfl
      rw [hlate]
      refine hr.register position (hnames.edits hrest.edits) ?_ ?_
      · rw [htype]
        rfl
      · exact Registry.pendings_rescan_eq_nil_iff.mpr (hsettles x hx name type hs)

theorem Run.ahead {c c' : Checker} {visits : List Visit} (h : Run c visits c') (r : Checker)
    {turn : Registry} (hr : Registry.Ahead c.registry r.registry turn)
    (hsettles : ∀ x ∈ Visit.revisits visits r, x.AliasSettles) :
    ∀ x ∈ Visit.revisits visits r,
      Registry.Ahead x.visit.before.registry x.state.registry turn := by
  refine (h.invariant_revisits (I := fun c r => Registry.Ahead c.registry r.registry turn) hr
    fun x hx hok _ _ hr => ?_).2
  cases Visit.binds hok x.state with
  | nothing hearly hlate => rwa [hearly, hlate]
  | settled hnil hearly hlate =>
      rw [hearly, hlate]
      exact hr.register_settled _ _ hnil
  | @pendingAlias name cName type d depth position hs htype hearly hlate =>
      rw [hearly, hlate]
      exact hr.register_alias name cName d depth position position htype
        (hsettles x hx name type hs)

/-! ## What checked nodes wait for -/

namespace Passes

variable {unit : List Stmt} {registry : Registry} {checked : Checked} {visits : List Visit}
  {middle : Checker}

variable (h : Passes unit registry checked visits middle)
include h

theorem aliasSettles {x : Revisit} (hx : x ∈ Visit.revisits visits middle) : x.AliasSettles := by
  intro name type hs
  rcases h.settling_revisit hx hs with hown | ⟨hkind, -⟩
  · exact hown
  · cases hkind

/-- What a revisit makes of a node is a part of the checked unit. -/
theorem mem_parts {x : Revisit} (hx : x ∈ Visit.revisits visits middle) :
    ⟨x.visit.scope, (x.visit.settle x.state).1⟩ ∈ Stmt.partsAll checked.unit Checker.global := by
  rw [h.parts_eq]
  exact List.mem_map_of_mem hx

/-- Every part of a checked unit is what a revisit has made of it. -/
theorem exists_revisit {p : Placed} (hp : p ∈ Stmt.partsAll checked.unit Checker.global) :
    ∃ x ∈ Visit.revisits visits middle, x.visit.outcome.error = none
      ∧ p = ⟨x.visit.scope, (x.visit.settle x.state).1⟩ := by
  rw [h.parts_eq] at hp
  obtain ⟨x, hx, rfl⟩ := List.mem_map.mp hp
  obtain ⟨-, hok, -⟩ := h.run.at_revisit middle hx
  exact ⟨x, hx, hok, rfl⟩

theorem isEntered {p : Placed}
    (hp : p ∈ Stmt.partsAll checked.unit Checker.global) : p.part.isEntered = true := by
  obtain ⟨x, -, hok, rfl⟩ := h.exists_revisit hp
  exact (Part.isEntered_rescan _ _ _).trans (Visit.isEntered_result hok)

/-- **What the nodes of a checked unit wait for.** The type of an alias waits for nothing, and that
of a function shows no pending name. It waits for nothing either if every name of the context that
the unit was checked in waits for itself at most. -/
theorem settled_signature {p : Placed}
    (hp : p ∈ Stmt.partsAll checked.unit Checker.global) {kind : EntryKind} {name : String}
    {type : Ty} (hs : p.part.signature? = some ⟨kind, name, type⟩) :
    type.exposed = [] ∧ (kind ≠ .function → type.pendings = [])
      ∧ (registry.Own → type.pendings = []) := by
  obtain ⟨x, hx, hok, rfl⟩ := h.exists_revisit hp
  have hlater := h.run.later middle (.refl _) fun y hy => h.aliasSettles hy
  -- the type of the node before the second pass, and the names that it waits for
  obtain ⟨before, hbefore, hwaiting⟩ : ∃ before,
      x.visit.result.part.signature? = some ⟨kind, name, before⟩
        ∧ ∀ deep, type.waiting deep = (before.waiting deep).flatMap fun m =>
            (x.state.registry.meaning m).waiting deep := by
    cases hsig : x.visit.result.part.signature? with
    | none =>
        have hnone := Part.signature?_rescan_eq_none hsig x.visit.scope x.state
        cases hnone.symm.trans hs
    | some signature =>
        obtain ⟨settled, hsettled, hwaiting, -⟩ :=
          Part.signature?_rescan x.visit.scope x.state hsig (Visit.isEntered_result hok)
        cases hsettled.symm.trans hs
        exact ⟨_, rfl, hwaiting⟩
  -- the revisit at which these names are settled
  obtain ⟨y, hy, before', hbefore', hsame, hsettled⟩ : ∃ y ∈ Visit.revisits visits middle,
      ∃ before', y.visit.result.part.signature? = some ⟨kind, name, before'⟩
        ∧ before'.pendings = before.pendings
        ∧ ∀ m ∈ before.pendings, y.state.registry.Settled m := by
    rcases h.settling_revisit hx hbefore with hown | ⟨rfl, hother⟩
    · exact ⟨x, hx, before, hbefore, rfl, hown⟩
    · exact hother
  refine ⟨?_, fun hkind => ?_, fun hcontext => ?_⟩
  · rw [Ty.exposed, hwaiting, List.flatMap_eq_nil_iff]
    intro m hm
    exact (hlater x hx).exposed_meaning (hlater y hy)
      (hsettled m (Ty.mem_pendings_of_mem_exposed before m hm))
  · rw [Ty.pendings, hwaiting, List.flatMap_eq_nil_iff]
    exact (h.settling_revisit hx hbefore).resolve_right fun hother => hkind hother.1
  · have hahead := h.run.ahead middle (.start hcontext)
      fun z hz => h.aliasSettles hz
    obtain ⟨-, hyok, -⟩ := h.run.at_revisit middle hy
    rw [Ty.pendings, hwaiting, List.flatMap_eq_nil_iff]
    intro m hm
    -- `m` was pending at the visit of `y` and is settled at its revisit, so it was at the turn
    obtain ⟨key, hkey⟩ := (Visit.declared_of_signature? hyok hbefore').1 m (hsame ▸ hm)
    exact (hlater x hx).settled m ((hahead y hy).settled_of_pending hkey (hsettled m hm))

end Passes

end ExtensionCompiler

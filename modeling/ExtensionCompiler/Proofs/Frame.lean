import ExtensionCompiler.Proofs.Locality
import ExtensionCompiler.Proofs.Mentions
import ExtensionCompiler.Proofs.PassInvariants

set_option autoImplicit false

/-! # What the passes leave alone

Analysis of a statement is local, and it only adds (`Checker.ExtendedIn`): it opens scopes behind
those that are there, puts entries and temporaries behind those of its own scope, and binds names.
It does so whether it succeeds or stops at an error, for then it has made the first of its edits and
not the others. The second pass does less: it changes types, and all that can be listed without them
stays as it was (`Checker.AlikeApartFromTypes`). Both stand together in `Stmt.analyse_local`. -/

namespace ExtensionCompiler

open Checker (Edits EditsIn Retyped)

/-! ## Analysis of a statement as a chain of edits for its scope -/

/-- The first `n` scopes were there before; a definition opens a scope that is none of them, so that
the statements inside it make edits to new scopes only. -/
theorem Stmt.sequences_editsIn (n : Nat) : Sequences (fun _ => True)
    fun scope c _ c' => n ≤ c.scopes.length → EditsIn n scope true c c' where
  done _ _ _ := .refl
  part p scope _ _ hn := (p.analyse_editsIn scope hn).weaken
  next hfirst hrest hn := (hfirst hn).trans (hrest (Nat.le_trans hn (hfirst hn).length_le))
  inside hfirst hrest hn :=
    (hfirst hn).trans ((hrest (Nat.le_trans hn (hfirst hn).length_le)).of_new hn)

/-! ## The names that a registry binds -/

variable {c c' : Checker}

/-- Edits bind names behind those that are bound. -/
theorem Checker.Edits.names_isPrefix {b : Bool} (h : Edits b c c') :
    c.registry.names <+: c'.registry.names := by
  refine h.invariant (P := fun d => c.registry.names <+: d.registry.names)
    (fun hstep hd => ?_) (List.prefix_refl _)
  cases hstep with
  | temp id | pushScope scope _ _ | setReturnType id type => exact hd
  | declare hdeclare _ => rwa [Checker.registry_of_declare hdeclare]
  | register name type position _ _ =>
      rw [Checker.register, Registry.names_register]
      split
      · exact hd
      · exact hd.trans (List.prefix_append _ _)

/-- The revisit of a visit binds no name that the visit has not bound. -/
theorem Visit.names_settle {v : Visit} (hok : v.outcome.error = none) {r : Checker}
    (hnames : v.after.registry.names ⊆ r.registry.names) :
    (v.settle r).2.registry.names = r.registry.names := by
  cases hv : v.part.typeName? with
  | none => rw [(registry_of_typeName?_eq_none hv r).2]
  | some name =>
      obtain ⟨type, position, hintro⟩ := introduces hok hv
      have hmem : name ∈ r.registry.names := by
        apply hnames
        rw [hintro.early, Registry.mem_names_register]
        exact .inl rfl
      rw [hintro.late]
      split
      · rw [Registry.names_register, if_pos hmem]
      · rfl

/-- The second pass over the visits of a run binds no new names, in any state that binds those of
the run. -/
theorem Run.names_settleAll {vs : List Visit} (h : Run c vs c') {r : Checker}
    (hnames : c'.registry.names ⊆ r.registry.names) :
    (Placed.settleAll (vs.map Visit.result) r).2.registry.names = r.registry.names := by
  induction h generalizing r with
  | done c => rfl
  | @step v vs c' hok hrest ih =>
      have hv : (v.settle r).2.registry.names = r.registry.names := by
        refine v.names_settle hok (List.Subset.trans ?_ hnames)
        exact hrest.edits.names_isPrefix.subset
      calc (Placed.settleAll ((v :: vs).map Visit.result) r).2.registry.names
          _ = (Placed.settleAll (vs.map Visit.result) (v.settle r).2).2.registry.names := rfl
          _ = (v.settle r).2.registry.names := ih (hv ▸ hnames)
          _ = r.registry.names := hv

/-! ## What a pass may do to a state -/

/-- The state after analysis in the scope `s`, whether it has succeeded or not. -/
structure Checker.ExtendedIn (s : ScopeId) (c c' : Checker) : Prop where
  /-- Scopes are opened behind those that are there. -/
  length_le : c.scopes.length ≤ c'.scopes.length
  others : ∀ id < c.scopes.length, id ≠ s → c'.scopes[id]? = c.scopes[id]?
  own : (c.scope s).Appends (c'.scope s)
  /-- A bound name stays bound. -/
  names : c.registry.names <+: c'.registry.names

theorem Checker.EditsIn.extendedIn {b : Bool} {s : ScopeId}
    (h : EditsIn c.scopes.length s b c c') (hs : s < c.scopes.length) : c.ExtendedIn s c' where
  length_le := h.length_le
  others id hid hne := by
    have hold := getElem?_eq_scope hid
    rw [h.growsIn.others id hid hne _ hold, hold]
  own := by
    obtain ⟨s', hs', happends⟩ := h.growsIn.own hs _ (getElem?_eq_scope hs)
    rwa [scope_eq_of_getElem? hs']
  names := h.edits.names_isPrefix

/-- All that an entry says apart from its type. -/
def Entry.attributes (e : Entry) : String × String × EntryKind × Option String × Bool × Position :=
  (e.name, e.cName, e.kind, e.initial, e.isExternal, e.position)

/-- The two states have the same scopes, entries, temporaries and bound names, and differ in types
alone. -/
structure Checker.AlikeApartFromTypes (c c' : Checker) : Prop where
  length_eq : c'.scopes.length = c.scopes.length
  entries : ∀ id, (c'.scope id).entries.map Entry.attributes
    = (c.scope id).entries.map Entry.attributes
  temps : ∀ id, (c'.scope id).temps = (c.scope id).temps
  names : c'.registry.names = c.registry.names

theorem Scope.map_attributes_untyped (s : Scope) :
    s.untyped.entries.map Entry.attributes = s.entries.map Entry.attributes := by
  rw [untyped, List.map_map]
  rfl

theorem Checker.Retyped.alike (h : Retyped c c')
    (hnames : c'.registry.names = c.registry.names) : c.AlikeApartFromTypes c' := by
  have hscope (id : ScopeId) : (c'.scope id).untyped = (c.scope id).untyped := by
    have hid := h.getElem? id
    unfold Checker.scope
    cases hs : c.scopes[id]? with
    | none => rw [hs, Option.map_none, Option.map_eq_none_iff] at hid; rw [hid]
    | some s =>
        rw [hs, Option.map_some, Option.map_eq_some_iff] at hid
        obtain ⟨s', hs', heq⟩ := hid
        rw [hs', Option.getD_some, Option.getD_some, heq]
  refine ⟨?_, fun id => ?_, fun id => ?_, hnames⟩
  · simpa using congrArg List.length h
  · rw [← Scope.map_attributes_untyped, hscope, Scope.map_attributes_untyped]
  · exact (congrArg Scope.temps (hscope id) :)

/-- **Analysis is local and only adds, and the second pass changes types alone.** Whether analysis
of a statement in an existing scope succeeds or not, the other scopes are unchanged, its own has got
entries and temporaries behind those it had, new scopes stand behind the old ones, and no name is
unbound. A statement that was analysed with success can be settled in any later state, one that
binds the names of the state that analysis has left; then nothing is added, and entries keep all but
their types. -/
theorem Stmt.analyse_local (stmt : Stmt) (s : ScopeId) (c : Checker) (hs : s < c.scopes.length) :
    c.ExtendedIn s (stmt.analyse s c).checker
      ∧ ((stmt.analyse s c).error = none → ∀ later : Checker,
          (stmt.analyse s c).checker.registry.names ⊆ later.registry.names →
          later.AlikeApartFromTypes ((stmt.analyse s c).node.rescan s later).2) := by
  have hedits := (sequences_editsIn _).analyse stmt (fun _ _ => trivial) s c (Nat.le_refl _)
  refine ⟨hedits.extendedIn hs, fun hok later hnames => ?_⟩
  have htraced := stmt.analyse_traced s c hok
  have hsettle : ((stmt.analyse s c).node.rescan s later).2
      = (Placed.settleAll ((stmt.visits s c).map Visit.result) later).2 := by
    rw [← htraced.results]
    exact congrArg Prod.snd (rescan_eq_settle _ s later)
  rw [hsettle]
  exact (Placed.settleAll_retyped _ later).alike (htraced.run.names_settleAll hnames)

/-- A class with an alias of a pointer to the structure `node`, which comes later, a variable of
that type, and a method that converts its argument. -/
def Stmt.ringClass : Stmt :=
  let here := Position.unknown
  .classDef { name := "Ring", ancestor := none, position := here }
    [.typeAlias { name := "cell", descriptor := .named "node", depth := 1, position := here },
      .var
        { form := .plain, descriptor := .named "cell", depth := 0, name := "head", value := none,
          position := here },
      .method
        { name := "walk", params := [⟨.named "object", 0, some "limit", here, .void, ""⟩],
          position := here }
        [.var
          { form := .plain, descriptor := .named "int", depth := 0, name := "size",
            value := some (.ofName "limit" here), position := here }]]

/-- The state in which a method `push` stands before the class. -/
def Checker.beforeRing : Checker :=
  let here := Position.unknown
  (Stmt.analyseAll
    [.method
      { name := "push", params := [⟨.named "object", 0, some "o", here, .void, ""⟩],
        position := here }
      [.assign
        { target := .ofName "t" here,
          value := .ofBinary (.ofName "o" here) "+" (.ofName "o" here) here, position := here }]]
    Checker.global (Checker.start .empty)).checker

/-- The state in which the structure stands after the class. -/
def Checker.afterRing : Checker :=
  (Stmt.analyse (.aggregate { kind := .struct, name := "node", position := .unknown } [])
    Checker.global (Stmt.ringClass.analyse Checker.global Checker.beforeRing).checker).checker

theorem Stmt.ringClass_local :
    Checker.global < Checker.beforeRing.scopes.length
      ∧ (ringClass.analyse Checker.global Checker.beforeRing).error = none
      ∧ (ringClass.analyse Checker.global Checker.beforeRing).checker.registry.names
          ⊆ Checker.afterRing.registry.names
      ∧ Checker.beforeRing.ExtendedIn Checker.global
          (ringClass.analyse Checker.global Checker.beforeRing).checker
      ∧ Checker.afterRing.AlikeApartFromTypes
          ((ringClass.analyse Checker.global Checker.beforeRing).node.rescan Checker.global
            Checker.afterRing).2 := by
  have hscope : Checker.global < Checker.beforeRing.scopes.length := by decide +kernel
  have hok : (ringClass.analyse Checker.global Checker.beforeRing).error = none := by
    decide +kernel
  have hnames : (ringClass.analyse Checker.global Checker.beforeRing).checker.registry.names
      ⊆ Checker.afterRing.registry.names := by decide +kernel
  obtain ⟨hextended, halike⟩ := Stmt.analyse_local ringClass _ _ hscope
  exact ⟨hscope, hok, hnames, hextended, halike hok _ hnames⟩

end ExtensionCompiler

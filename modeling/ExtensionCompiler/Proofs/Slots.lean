import ExtensionCompiler.Proofs.Meanings
import ExtensionCompiler.Proofs.Written

set_option autoImplicit false

/-! # The types of variables and parameters

The entry of a variable or of a parameter is made on the first visit, with what its descriptor
resolves to then, and changed on the second if anything in that type was pending. In between and
afterwards nothing else changes it (`Passes.typeIn?_declared`).

With what is known of the registry, the entries of a checked unit have the types that their
descriptors resolve to in the end, wherever in the unit the types are defined
(`Stmt.slots_resolved_of_check`). -/

namespace ExtensionCompiler

/-! ## Declarations of variables -/

open Checker (Edits)

/-- A visit that declares a variable, which its revisit settles. -/
structure Visit.DeclaresVar (v : Visit) (id : ScopeId) (name : String) (type : Ty) : Prop where
  new : v.before.entryIn? id name = none
  entry : ∃ entry, v.after.entryIn? id name = some entry ∧ entry.kind ≠ .function
    ∧ entry.type = type
  settle : ∀ r : Checker, (r.typeIn? id name).isSome → (v.settle r).2.typeIn? id name
    = if type.pending?.isSome then some (type.rescan r.registry) else r.typeIn? id name

theorem Checker.typeIn?_settleName {c : Checker} {scope : ScopeId} {name : String}
    (h : (c.typeIn? scope name).isSome) (type : Ty) :
    (c.settleName scope name type).2.typeIn? scope name
      = if type.pending?.isSome then some (type.rescan c.registry) else c.typeIn? scope name := by
  unfold settleName
  split
  · exact typeIn?_setType_self h _
  · rfl

namespace Parameter

theorem names_cons (p : Parameter) (rest : List Parameter) :
    names (p :: rest) = p.name.toList ++ names rest := by
  unfold names
  rw [List.filterMap_cons]
  cases p.name with
  | none => rfl
  | some name => rfl

/-- What analysis makes of a parameter of a definition: it is resolved, and declared as a variable
if it has a name. -/
structure Declared (p : Parameter) (scope : ScopeId) (c c' : Checker) : Prop where
  type_eq : p.type = Ty.resolve c.registry p.descriptor p.depth
  new : ∀ name ∈ p.name, c.entryIn? scope name = none
  entry : ∀ name ∈ p.name, ∃ entry, c'.entryIn? scope name = some entry ∧ entry.kind ≠ .function
    ∧ entry.type = p.type

theorem declared_of_analyse {scope : ScopeId} {p p' : Parameter} {c c' : Checker}
    (h : analyse true scope p c = .ok p' c') (hscope : scope < c.scopes.length) :
    p'.Declared scope c c' := by
  unfold analyse at h
  dsimp only at h
  split at h
  · rename_i name hname
    obtain ⟨c₂, hdeclare, hok⟩ := Outcome.ofDeclare_ok (congrArg Outcome.error h)
    rw [hok] at h
    cases h
    refine ⟨rfl, fun n hn => ?_, fun n hn => ?_⟩
    · cases hname.symm.trans hn
      exact (Checker.declare_eq_ok hdeclare).1
    · cases hname.symm.trans hn
      exact ⟨_, Checker.entryIn?_of_declare hdeclare hscope,
        Scope.variableEntry_kind_ne _ _ _ _ _, rfl⟩
  · rename_i hnone
    cases h
    exact ⟨rfl, fun n hn => absurd hn (hnone n rfl), fun n hn => absurd hn (hnone n rfl)⟩

/-- What is declared between two states is declared between an earlier and a later one, if the name
is not there in the earlier. -/
theorem Declared.widen {p : Parameter} {scope : ScopeId} {c c₁ c₂ c' : Checker}
    (h : p.Declared scope c₁ c₂) (hbefore : Edits false c c₁) (hafter : c₂.Grows c') :
    p.Declared scope c c' where
  type_eq := by rw [h.type_eq, hbefore.registry_eq]
  new := by
    intro name hname
    refine Option.eq_none_iff_forall_ne_some.mpr fun old hold => ?_
    have hnone := h.new name hname
    rw [hbefore.grows.entryIn? hold] at hnone
    cases hnone
  entry := by
    intro name hname
    obtain ⟨entry, hentry, hrest⟩ := h.entry name hname
    exact ⟨entry, hafter.entryIn? hentry, hrest⟩

/-- The parameters of a definition have distinct names: a second one of a name is refused. -/
theorem declared_of_analyseAll {scope : ScopeId} {params params' : List Parameter}
    {c c' : Checker} (h : analyseAll true scope params c = .ok params' c')
    (hscope : scope < c.scopes.length) :
    (names params').Nodup ∧ ∀ p ∈ params', p.Declared scope c c' := by
  induction params generalizing params' c c' with
  | nil =>
      cases h
      exact ⟨List.nodup_nil, fun p hp => nomatch hp⟩
  | cons q rest ih =>
      obtain ⟨first, c₁, others, hfirst, hothers, rfl, hedits, hafter⟩ := analyseAll_cons_ok h
      have hdeclared := declared_of_analyse hfirst hscope
      obtain ⟨hdistinct, hlater⟩ :=
        ih hothers (Nat.lt_of_lt_of_le hscope hedits.grows.length_le)
      refine ⟨?_, fun p hp => ?_⟩
      · rw [names_cons]
        refine List.nodup_append.mpr ⟨?_, hdistinct, fun name hname other hother heq => ?_⟩
        · cases first.name with
          | none => exact List.nodup_nil
          | some name => exact List.pairwise_singleton _ name
        · subst heq
          obtain ⟨p, hp, hpname⟩ := List.mem_filterMap.mp hother
          obtain ⟨entry, hentry, -⟩ := hdeclared.entry name (Option.mem_toList.mp hname)
          rw [(hlater p hp).new name hpname] at hentry
          cases hentry
      · rcases List.mem_cons.mp hp with rfl | hp
        · exact hdeclared.widen .refl hafter.grows
        · exact (hlater p hp).widen hedits (.refl _)

/-- The second pass settles a named parameter, and the others of its definition leave it alone. -/
theorem typeIn?_rescanAll_self {scope : ScopeId} {params : List Parameter}
    (hdistinct : (names params).Nodup) {p : Parameter} (hp : p ∈ params) {name : String}
    (hname : p.name = some name) {c : Checker} (hthere : (c.typeIn? scope name).isSome) :
    (rescanAll true scope params c).2.typeIn? scope name
      = if p.type.pending?.isSome then some (p.type.rescan c.registry)
        else c.typeIn? scope name := by
  induction params generalizing c with
  | nil => cases hp
  | cons q rest ih =>
      show (rescanAll true scope rest (q.rescan true scope c).2).2.typeIn? scope name = _
      rw [names_cons] at hdistinct
      obtain ⟨-, hrest, hapart⟩ := List.nodup_append.mp hdistinct
      have hne {n : String} (hq : q.name = some n) : n ∉ names rest :=
        fun hmem => hapart n (Option.mem_toList.mpr hq) n hmem rfl
      rcases List.mem_cons.mp hp with rfl | hp
      · have hkey : (scope, name) ∉ (names rest).map fun n => (scope, n) := by
          intro hmem
          obtain ⟨n, hn, heq⟩ := List.mem_map.mp hmem
          cases heq
          exact hne hname hn
        rw [typeIn?_rescanAll true scope rest _ hkey]
        unfold rescan
        split
        · dsimp only
          rw [hname]
          exact Checker.typeIn?_setType_self hthere _
        · rfl
      · have hkey : ∀ n ∈ q.name, (scope, name) ≠ (scope, n) := by
          intro n hn heq
          cases heq
          exact hne hn (List.mem_filterMap.mpr ⟨p, hp, hname⟩)
        have hkept : (q.rescan true scope c).2.typeIn? scope name = c.typeIn? scope name :=
          typeIn?_rescan true scope q c hkey
        rw [ih hrest hp (by rwa [hkept]), hkept, registry_rescan]

end Parameter

namespace Visit

/-- The parameters of a definition whose body has the scope `inner`. -/
theorem declaresVar_of_param {v : Visit} {inner : ScopeId} {params params' : List Parameter}
    {c₀ c₁ : Checker} (hinner : inner = v.before.scopes.length) (hlen : inner < c₀.scopes.length)
    (hanalyse : Parameter.analyseAll true inner params c₀ = .ok params' c₁)
    (hafter : c₁.Grows v.after)
    (hsettle : ∀ (r : Checker) (name : String), (v.settle r).2.typeIn? inner name
      = (Parameter.rescanAll true inner params' r).2.typeIn? inner name)
    {p : Parameter} (hp : p ∈ params') {name : String} (hname : p.name = some name) :
    v.DeclaresVar inner name (Ty.resolve c₀.registry p.descriptor p.depth) := by
  obtain ⟨hdistinct, hdeclared⟩ := Parameter.declared_of_analyseAll hanalyse hlen
  obtain ⟨entry, hentry, hkind, hetype⟩ := (hdeclared p hp).entry name hname
  rw [← (hdeclared p hp).type_eq]
  refine ⟨?_, ⟨entry, hafter.entryIn? hentry, hkind, hetype⟩, fun r hthere => ?_⟩
  · -- the scope was not open before
    rw [Checker.entryIn?, hinner, List.getElem?_eq_none (Nat.le_refl _)]
    rfl
  · rw [hsettle]
    exact Parameter.typeIn?_rescanAll_self hdistinct hp hname hthere

/-- A variable that a visit declares last. -/
theorem declaresVar_of_declare {v : Visit} (hscope : v.scope < v.before.scopes.length)
    {c₁ : Checker} {entry : Entry} (hedits : Edits true v.before c₁)
    (hdeclare : c₁.declare v.scope entry = .ok v.after) (hkind : entry.kind ≠ .function)
    (hsettle : ∀ r, (v.settle r).2 = (r.settleName v.scope entry.name entry.type).2) :
    v.DeclaresVar v.scope entry.name entry.type := by
  have hlt := Nat.lt_of_lt_of_le hscope hedits.grows.length_le
  refine ⟨hedits.entryIn?_eq_none hdeclare,
    ⟨entry, Checker.entryIn?_of_declare hdeclare hlt, hkind, rfl⟩, fun r hthere => ?_⟩
  rw [hsettle]
  exact Checker.typeIn?_settleName hthere entry.type

theorem declares_var {scope : ScopeId} {c : Checker} {d : Variable}
    (hok : (d.analyse scope c).error = none) (hscope : scope < c.scopes.length) :
    (Visit.mk scope c (.var d)).DeclaresVar scope d.name
      (Ty.resolve c.registry d.descriptor d.depth) := by
  obtain ⟨type, value, c₁, c₂, entry, htype, -, -, -, heq⟩ := Variable.analyse_ok hok
  obtain ⟨c₁, entry, hedits, hdeclare, hkind, hname, hentry⟩ := Variable.declared_of_analyse hok
  have hdeclares := declaresVar_of_declare (v := ⟨scope, c, .var d⟩) hscope hedits hdeclare hkind
    fun r => by rw [hname, hentry]; rfl
  rw [hname, hentry, heq] at hdeclares
  rw [← htype]
  exact hdeclares

theorem declares_array {scope : ScopeId} {c : Checker} {d : ArrayVariable}
    (hok : (d.analyse scope c).error = none) (hscope : scope < c.scopes.length) :
    ∃ size, ArrayVariable.size? (d.analyse scope c).node.dimension = some size
      ∧ (Visit.mk scope c (.array d)).DeclaresVar scope d.name
        (.array (Ty.resolve c.registry d.descriptor 0) size) := by
  obtain ⟨size, -, -, -, hsize, hnode, htype, -⟩ := ArrayVariable.declare_of_analyse hok
  obtain ⟨c₁, entry, hedits, hdeclare, hkind, hname, hentry⟩ :=
    ArrayVariable.declared_of_analyse hok
  have hdeclares := declaresVar_of_declare (v := ⟨scope, c, .array d⟩) hscope hedits hdeclare hkind
    fun r => by rw [hname, hentry]; rfl
  rw [hname, hentry, hnode, htype] at hdeclares
  exact ⟨size, hsize, hdeclares⟩

theorem declares_functionParam {scope : ScopeId} {c : Checker} {d : Function}
    (hok : (d.enter scope c).error = none) (hscope : scope < c.scopes.length) {p : Parameter}
    (hp : p ∈ (d.enter scope c).node.params) {name : String} (hname : p.name = some name) :
    (Visit.mk scope c (.function d)).DeclaresVar c.scopes.length name
      (Ty.resolve c.registry p.descriptor p.depth) := by
  have hentered := Function.enter_entered hok
  obtain ⟨c₁, hparams, hgrows⟩ := Function.analyseAll_of_enter hok
  refine declaresVar_of_param (v := ⟨scope, c, .function d⟩) rfl ?_ hparams hgrows
    (fun r n => ?_) hp hname
  · exact Checker.length_lt_of_edits_addScope .refl
  · have hne : (c.scopes.length, n) ≠ (scope, (d.enter scope c).node.name) := by
      intro heq
      exact Nat.ne_of_gt hscope (congrArg Prod.fst heq)
    show ((Part.function (d.enter scope c).node).rescan scope r).2.typeIn? _ _ = _
    unfold Part.rescan
    dsimp only
    rw [hentered.scope_eq]
    show (((Parameter.rescanAll true _ _ r).2.setReturnType _ _).setType scope _ _).typeIn? _ _ = _
    rw [Checker.typeIn?_setType_ne hne, Checker.typeIn?_setReturnType]

theorem declares_methodParam {scope : ScopeId} {c : Checker} {d : Method}
    (hok : (d.enter scope c).error = none) {p : Parameter}
    (hp : p ∈ (d.enter scope c).node.params) {name : String} (hname : p.name = some name) :
    (Visit.mk scope c (.method d)).DeclaresVar c.scopes.length name
      (Ty.resolve c.registry p.descriptor p.depth) := by
  obtain ⟨params, c₁, entry, hparams, hentry, hdeclare, hnode⟩ := Method.enter_ok hok
  have hedits : Edits true c₁ (d.enter scope c).checker := by
    refine .single (.declare hdeclare ?_)
    rw [hentry]
    exact Scope.linked_functionEntry _ _ _ _ _ _ _
  rw [hnode] at hp
  refine declaresVar_of_param (v := ⟨scope, c, .method d⟩) rfl ?_ hparams hedits.grows
    (fun r n => ?_) hp hname
  · exact Checker.length_lt_of_edits_addScope (.single (.setReturnType _ _ _))
  · show ((Part.method (d.enter scope c).node).rescan scope r).2.typeIn? _ _ = _
    rw [hnode]
    rfl

/-- Every slot of a part is declared on the visit with the type that is written. -/
theorem declares_slot {v : Visit} (hok : v.outcome.error = none)
    (hscope : v.scope < v.before.scopes.length) {s : Slot} (hs : s ∈ v.result.slots) :
    ∃ type, s.written.type? v.before.registry = some type
      ∧ v.DeclaresVar s.scope s.written.name type := by
  obtain ⟨scope, c, p⟩ := v
  obtain ⟨id, w⟩ := s
  obtain ⟨hhome, hw⟩ := Placed.mem_slots.mp hs
  have hwritten : (p.analyse scope c).node.written = p.written := p.written_analyse scope c
  cases p with
  | var d =>
      cases hhome
      cases List.mem_singleton.mp (hwritten ▸ hw)
      exact ⟨_, rfl, declares_var hok hscope⟩
  | array d =>
      cases hhome
      obtain ⟨size, hsize, hdeclares⟩ := declares_array hok hscope
      cases List.mem_singleton.mp (hwritten ▸ hw)
      -- the dimension is the same number before and after its analysis
      have hdimension : (d.analyse scope c).node.dimension.outline = d.dimension.outline := by
        injection hwritten with hhead _
        exact Option.some.inj (congrArg Written.dimension hhead)
      refine ⟨_, ?_, hdeclares⟩
      show (ArrayVariable.size? d.dimension.outline).map _ = _
      rw [← hdimension, Expr.size?_outline, hsize]
      rfl
  | function d =>
      obtain ⟨p, hp, name, hname, rfl⟩ := Parameter.mem_written.mp hw
      cases (Function.enter_entered hok).scope_eq.symm.trans hhome
      exact ⟨_, rfl, declares_functionParam hok hscope hp hname⟩
  | method d =>
      obtain ⟨p, hp, name, hname, rfl⟩ := Parameter.mem_written.mp hw
      obtain ⟨params, c₁, entry, -, -, -, hnode⟩ := Method.enter_ok hok
      cases (congrArg Method.scope hnode).symm.trans hhome
      exact ⟨_, rfl, declares_methodParam hok hp hname⟩
  | _ => exact absurd hw List.not_mem_nil

/-- The names that a revisit may settle have all been declared by the visit. -/
theorem isSome_of_mem_keys {v : Visit} (hok : v.outcome.error = none)
    (hscope : v.scope < v.before.scopes.length) {key : ScopeId × String}
    (hkey : key ∈ v.result.part.keys v.scope) : (v.after.entryIn? key.1 key.2).isSome := by
  have hslot {s : Slot} (hs : s ∈ v.result.slots) (heq : key = (s.scope, s.written.name)) :
      (v.after.entryIn? key.1 key.2).isSome := by
    obtain ⟨type, -, hdeclares⟩ := declares_slot hok hscope hs
    obtain ⟨entry, hentry, -⟩ := hdeclares.entry
    rw [heq, hentry]
    rfl
  have hsigned {kind : EntryKind} {name : String} {type : Ty}
      (hs : v.result.part.signature? = some ⟨kind, name, type⟩) (heq : key = (v.scope, name)) :
      (v.after.entryIn? key.1 key.2).isSome := by
    obtain ⟨entry, hentry, -⟩ := entry_of_signature? hok hscope hs
    rw [heq, hentry]
    rfl
  have hparam {home : Option ScopeId} {params : List Parameter}
      (hhome : v.result.part.home? v.scope = home)
      (hwritten : v.result.part.written = params.filterMap Parameter.written?)
      (hkey : key ∈ Part.paramKeys home params) : (v.after.entryIn? key.1 key.2).isSome := by
    cases home with
    | none => cases hkey
    | some home =>
        obtain ⟨name, hname, rfl⟩ := List.mem_map.mp hkey
        obtain ⟨p, hp, hpname⟩ := List.mem_filterMap.mp hname
        refine hslot (s := ⟨home, ⟨name, p.descriptor, p.depth, none⟩⟩) ?_ rfl
        refine Placed.mem_slots.mpr ⟨hhome, ?_⟩
        rw [hwritten]
        exact Parameter.mem_written.mpr ⟨p, hp, name, hpname, rfl⟩
  obtain ⟨scope, c, p⟩ := v
  cases p with
  | var d | array d => exact hslot (List.mem_singleton_self _) (List.mem_singleton.mp hkey)
  | forward d =>
      obtain ⟨cName, type, c₁, entry, -, hentry, hdeclare, heq⟩ := Forward.analyse_ok hok
      change key ∈ [(scope, (d.analyse scope c).node.tag)] at hkey
      change ((d.analyse scope c).checker.entryIn? key.1 key.2).isSome
      have hname : (d.analyse scope c).node.tag = entry.name := by
        rw [heq, hentry]
        rfl
      rw [List.mem_singleton.mp hkey, hname, heq]
      show (c₁.entryIn? scope entry.name).isSome
      rw [Checker.entryIn?_of_declare hdeclare hscope]
      rfl
  | typeAlias d =>
      change key ∈ (Part.typeAlias (d.analyse scope c).node).keys scope at hkey
      rw [Part.keys] at hkey
      split at hkey
      · cases hkey
      · rename_i htag
        exact hsigned (if_neg htag) (List.mem_singleton.mp hkey)
  | prototype d =>
      obtain ⟨params, c₁, c₂, entry, -, rfl, -, heq⟩ := Prototype.analyse_ok hok
      change key ∈ [(scope, (d.analyse scope c).node.name)] at hkey
      obtain ⟨type, hs⟩ : ∃ type, (Part.prototype (d.analyse scope c).node).signature?
          = some ⟨.function, (d.analyse scope c).node.name, type⟩ := by
        rw [heq]
        exact ⟨_, rfl⟩
      exact hsigned hs (List.mem_singleton.mp hkey)
  | function d =>
      rcases List.mem_cons.mp hkey with hown | hkey
      · exact hsigned rfl hown
      · exact hparam rfl rfl hkey
  | method d => exact hparam rfl rfl hkey
  | _ => exact absurd hkey List.not_mem_nil

end Visit

/-! ## Entries through both passes -/

theorem Visit.map_visit_revisits (visits : List Visit) (r : Checker) :
    (revisits visits r).map Revisit.visit = visits := by
  induction visits generalizing r with
  | nil => rfl
  | cons v rest ih => exact congrArg (v :: ·) (ih (v.settle r).2)

/-- Revisits of parts that come before its visit leave a variable alone. -/
theorem Run.typeIn?_state {c c' : Checker} {visits : List Visit} (h : Run c visits c')
    (hscopes : ∀ v ∈ visits, v.scope < v.before.scopes.length) (r : Checker) {x : Revisit}
    (hx : x ∈ Visit.revisits visits r) {id : ScopeId} {name : String}
    (hnew : x.visit.before.entryIn? id name = none) :
    x.state.typeIn? id name = r.typeIn? id name := by
  induction h generalizing r with
  | done => cases hx
  | @step v rest c' hok hrest ih =>
      rcases List.mem_cons.mp hx with rfl | hx
      · rfl
      · have hkey : (id, name) ∉ v.result.part.keys v.scope := by
          intro hkey
          -- a name that `v` has declared would be there when `x` comes to be visited
          have hthere := Visit.isSome_of_mem_keys hok (hscopes v List.mem_cons_self) hkey
          obtain ⟨entry, hentry⟩ := Option.isSome_iff_exists.mp hthere
          obtain ⟨hmem, -⟩ := hrest.at_revisit _ hx
          obtain ⟨before, after, rfl⟩ := List.append_of_mem hmem
          obtain ⟨hbetween, -, -⟩ := hrest.split
          rw [hbetween.grows.entryIn? hentry] at hnew
          cases hnew
        rw [ih (fun u hu => hscopes u (List.mem_cons_of_mem v hu)) (v.settle r).2 hx]
        exact Part.typeIn?_rescan_of_not_mem_keys v.result.part v.scope r hkey

/-- Revisits of parts that come after its visit leave a variable alone. -/
theorem Run.typeIn?_settleAll {c c' : Checker} {visits : List Visit} (h : Run c visits c')
    {id : ScopeId} {name : String} {entry : Entry} (hentry : c.entryIn? id name = some entry)
    (hkind : entry.kind ≠ .function) (r : Checker) :
    (Visit.settleAll visits r).typeIn? id name = r.typeIn? id name := by
  induction h generalizing r with
  | done => rfl
  | @step v rest c' hok _ ih =>
      have hentry' := (v.part.analyse_edits v.scope v.before).grows.entryIn? hentry
      have hkey : (id, name) ∉ v.result.part.keys v.scope :=
        fun hkey => hkind (Visit.completes_of_mem_keys hok hentry hkey).2.1
      exact (ih hentry' (v.settle r).2).trans
        (Part.typeIn?_rescan_of_not_mem_keys v.result.part v.scope r hkey)

namespace Passes

variable {unit : List Stmt} {registry : Registry} {checked : Checked} {visits : List Visit}
  {middle : Checker}

variable (h : Passes unit registry checked visits middle)
include h

/-- A checked unit has slots for all that is written in the parts that were visited. -/
theorem written_slotsAll :
    (Stmt.slotsAll checked.unit).map Slot.written = visits.flatMap fun v => v.part.written := by
  have hwritten (x : Revisit) : (x.visit.settle x.state).1.written = x.visit.part.written := by
    rw [Visit.settle, Part.written_rescan]
    exact x.visit.part.written_analyse x.visit.scope x.visit.before
  calc (Stmt.slotsAll checked.unit).map Slot.written
      _ = (Stmt.partsAll checked.unit Checker.global).flatMap fun p => p.slots.map Slot.written :=
        List.map_flatMap
      _ = (Stmt.partsAll checked.unit Checker.global).flatMap fun p => p.part.written := by
        rw [List.flatMap_def,
          List.map_congr_left fun p hp => Placed.written_slots (h.isEntered hp), List.flatMap_def]
      _ = (Visit.revisits visits middle).flatMap fun x => x.visit.part.written := by
        rw [h.parts_eq, List.flatMap_map, List.flatMap_def,
          List.map_congr_left fun x _ => hwritten x, List.flatMap_def]
      _ = ((Visit.revisits visits middle).map Revisit.visit).flatMap fun v => v.part.written := by
        rw [List.flatMap_map]
      _ = visits.flatMap fun v => v.part.written := by rw [Visit.map_visit_revisits]

/-- The last type of a variable is the first, or what its revisit has made of it. -/
theorem typeIn?_declared {x : Revisit} (hx : x ∈ Visit.revisits visits middle) {id : ScopeId}
    {name : String} {type : Ty} (hdeclares : x.visit.DeclaresVar id name type) :
    checked.checker.typeIn? id name
      = some (if type.pending?.isSome then type.rescan x.state.registry else type) := by
  obtain ⟨-, -, -, rest, hrest, hfinal, -⟩ := h.run.at_revisit middle hx
  obtain ⟨entry, hentry, hkind, htype⟩ := hdeclares.entry
  have hbegin : x.state.typeIn? id name = some type := by
    rw [h.run.typeIn?_state h.inRange middle hx hdeclares.new, Checker.typeIn?,
      hrest.grows.entryIn? hentry, Option.map_some, htype]
  have hnow := hdeclares.settle x.state (by rw [hbegin]; rfl)
  rw [← h.settleAll_eq, ← hfinal, hrest.typeIn?_settleAll hentry hkind, hnow, hbegin]
  split <;> rfl

/-- A slot ends up with the type that is written. -/
theorem typeIn?_slot (hblank : registry.Blank)
    (hdistinct : (Visit.typeNames visits).Nodup) {x : Revisit}
    (hx : x ∈ Visit.revisits visits middle) {s : Slot} (hs : s ∈ x.visit.result.slots) :
    ∃ type, s.written.type? checked.checker.registry = some type
      ∧ checked.checker.typeIn? s.scope s.written.name = some type := by
  obtain ⟨hmem, hok, -⟩ := h.run.at_revisit middle hx
  obtain ⟨type, htype, hdeclares⟩ := Visit.declares_slot hok (h.inRange x.visit hmem) hs
  have hfinal := h.typeIn?_declared hx hdeclares
  have hnil := Checker.pendings_of_typeIn? h.resolved hfinal
  rw [hfinal]
  unfold Written.type? at htype ⊢
  split at htype
  · cases htype
    rw [h.settled_resolve hblank hdistinct hx _ _ rfl rfl hnil]
    exact ⟨_, rfl, rfl⟩
  · rename_i dimension hdimension
    obtain ⟨size, hsize, rfl⟩ := Option.map_eq_some_iff.mp htype
    -- an array waits for what its elements wait for
    have harray (base : Ty) (r : Registry) :
        (if (Ty.array base size).pending?.isSome then (Ty.array base size).rescan r
          else .array base size)
          = .array (if base.pending?.isSome then base.rescan r else base) size := by
      rw [Ty.pending?, Ty.rescan]
      split <;> rfl
    rw [harray] at hnil ⊢
    rw [h.settled_resolve hblank hdistinct hx _ _ rfl rfl hnil, hsize]
    exact ⟨_, rfl, rfl⟩

end Passes

/-- **Variables and parameters end up with the types that are written**, wherever the types are
defined. The context of the unit knows nothing but what the unit announces, and every name of a type
is defined by one structure or alias at most. Then, if the check accepts the unit, each variable,
each array and each named parameter of a function or method has a slot, and the entry of the slot
has the type that its descriptor resolves to in the last state. -/
theorem Stmt.slots_resolved_of_check (unit : List Stmt) (checked : Checked)
    (hdistinct : (Stmt.typeNames unit).Nodup)
    (h : check unit (Stmt.announceAll unit .empty) = .ok checked) :
    (Stmt.slotsAll checked.unit).map Slot.written = Stmt.writtenAll unit
      ∧ ∀ s ∈ Stmt.slotsAll checked.unit,
          ∃ type, s.written.type? checked.checker.registry = some type
            ∧ checked.checker.typeIn? s.scope s.written.name = some type := by
  have hpasses := passes_of_check h
  have hheads := Stmt.map_part_visitsAll unit Checker.global
    (Checker.start (Stmt.announceAll unit .empty))
  generalize Stmt.visitsAll unit Checker.global _ = visits at hpasses hheads
  have hnames : (Visit.typeNames visits).Nodup := by
    rw [Stmt.typeNames, ← hheads, List.filterMap_map] at hdistinct
    exact hdistinct
  refine ⟨?_, fun s hs => ?_⟩
  · rw [hpasses.written_slotsAll, Stmt.writtenAll, ← hheads, List.flatMap_map]
  · obtain ⟨p, hp, hps⟩ := List.mem_flatMap.mp hs
    obtain ⟨x, hx, -, rfl⟩ := hpasses.exists_revisit hp
    have hslots : s ∈ x.visit.result.slots := by
      rw [← Placed.slots_rescan x.visit.result x.state]
      exact hps
    exact hpasses.typeIn?_slot (Registry.blank_announceAll unit) hnames hx hslots

/-- Everything stands before the structure `node` that it is about: the alias `link` of a pointer to
it, an array of links, and a function and a method with parameters and a variable. -/
def Stmt.lateNodeUnit : List Stmt :=
  let here := Position.unknown
  let variableOf (type name : String) (depth : Nat) : Stmt :=
    .var
      { form := .plain, descriptor := .named type, depth, name, value := none, position := here }
  let param (type name : String) (depth : Nat) : Parameter :=
    { descriptor := .named type, depth, name := some name, position := here }
  [.typeAlias { name := "link", descriptor := .named "node", depth := 1, position := here },
    .array
      { descriptor := .named "link", name := "table",
        dimension := .ofLiteral (.int 4) here, elements := none, position := here },
    .function
      { descriptor := .named "void", depth := 0, name := "push",
        params := [param "link" "head" 0, param "struct node" "next" 2], position := here }
      [variableOf "node" "last" 1],
    .classDef { name := "List", ancestor := none, position := here }
      [.method { name := "size", params := [param "int" "limit" 0], position := here } []],
    .aggregate { kind := .struct, name := "node", position := here }
      [variableOf "link" "next" 0, variableOf "object" "value" 0]]

theorem Stmt.lateNodeUnit_slots :
    (Stmt.typeNames Stmt.lateNodeUnit).Nodup
      ∧ ∃ checked,
        check Stmt.lateNodeUnit (Stmt.announceAll Stmt.lateNodeUnit .empty) = .ok checked
        ∧ (Stmt.slotsAll checked.unit).map (fun s => s.written.name)
          = ["table", "head", "next", "last", "limit", "next", "value"]
        ∧ ∀ s ∈ Stmt.slotsAll checked.unit,
            ∃ type, s.written.type? checked.checker.registry = some type
              ∧ checked.checker.typeIn? s.scope s.written.name = some type := by
  have hdistinct : (Stmt.typeNames Stmt.lateNodeUnit).Nodup := by decide +kernel
  have hrun :
      (check Stmt.lateNodeUnit (Stmt.announceAll Stmt.lateNodeUnit .empty)).isOk = true := by
    decide +kernel
  refine ⟨hdistinct, ?_⟩
  cases h : check Stmt.lateNodeUnit (Stmt.announceAll Stmt.lateNodeUnit .empty) with
  | error e => rw [h] at hrun; cases hrun
  | ok checked =>
      obtain ⟨hwritten, hslots⟩ := Stmt.slots_resolved_of_check _ checked hdistinct h
      refine ⟨checked, rfl, ?_, hslots⟩
      have hnames := congrArg (List.map Written.name) hwritten
      rw [List.map_map] at hnames
      exact hnames

end ExtensionCompiler

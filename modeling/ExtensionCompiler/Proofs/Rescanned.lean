import ExtensionCompiler.Proofs.Mentions
import ExtensionCompiler.Proofs.Origins

set_option autoImplicit false

/-! # Types on their way through both passes

`Part.rescanned` lists the types of a node that the second pass looks at. On the first pass, each of
them is what a descriptor of the part resolves to, alone, in an array or under an alias
(`Visit.resolves_of_mem_rescanned`). On the second, a node keeps a type or has it rescanned
(`Part.stemsFrom_rescan`), and what the entries of the scopes are given is made of the same types
(`Part.gives_rescan`). -/

namespace ExtensionCompiler

/-! ## Mentions of a part -/

/-- The names that the types of parameters ask a registry for. -/
def Parameter.mentions (params : List Parameter) : List String :=
  params.flatMap fun p => p.descriptor.mentions

/-- The names of types that a part mentions. Announcements and aliases of a tag mention their own
name. -/
def Part.mentions : Part → List String
  | .var d => d.descriptor.mentions
  | .array d => d.descriptor.mentions
  | .forward d => [d.name]
  | .typeAlias d => if d.isTagAlias then [d.name] else d.descriptor.mentions
  | .prototype d => Parameter.mentions d.params ++ d.descriptor.mentions
  | .function d => Parameter.mentions d.params ++ d.descriptor.mentions
  | .method d => Parameter.mentions d.params
  | _ => []

variable {declare : Bool} {scope : ScopeId} {params params' : List Parameter} {c c' : Checker}

/-- Parameters are declared as they come, but nothing is registered. -/
theorem Parameter.registry_of_analyseAll
    (h : analyseAll declare scope params c = .ok params' c') : c'.registry = c.registry := by
  have hedits := analyseAll_edits (b := false) declare scope params c
  rw [h] at hedits
  exact hedits.registry_eq

/-- The types of analysed parameters are what their descriptors resolve to. -/
theorem Parameter.resolved_of_analyseAll (h : analyseAll declare scope params c = .ok params' c') :
    ∀ ty ∈ types params', ∃ p ∈ params, ty = Ty.resolve c.registry p.descriptor p.depth := by
  intro ty hty
  rw [types_of_analyseAll h] at hty
  obtain ⟨p, hp, rfl⟩ := List.mem_map.mp hty
  exact ⟨p, hp, rfl⟩

/-! ## The first pass -/

/-- The C name of the type that a part introduces or announces. -/
def Part.typeCName? : Part → Option String
  | .aggregate d =>
    match d.type with
    | some (.aggregate _ _ cName _) => some cName
    | _ => none
  | .forward d => some d.cName
  | .typeAlias d => if d.isTagAlias then none else some d.cName
  | _ => none

/-- The types that a visit makes of descriptors which mention no more than its part does. -/
inductive Visit.Resolves (v : Visit) : Ty → Prop
  /-- An announcement has no type yet, and looks its name up later. -/
  | announced {name : String} : name ∈ v.part.mentions → Resolves v (.pending name)
  | written {d : Descriptor} {depth : Nat} : (∀ name ∈ d.mentions, name ∈ v.part.mentions) →
      Resolves v (Ty.resolve v.before.registry d depth)
  | array {d : Descriptor} {size : Nat} : (∀ name ∈ d.mentions, name ∈ v.part.mentions) →
      Resolves v (.array (Ty.resolve v.before.registry d 0) size)
  | aliased {name cName : String} {d : Descriptor} {depth : Nat} :
      (∀ name ∈ d.mentions, name ∈ v.part.mentions) → v.result.part.typeCName? = some cName →
      Resolves v (.aliased name cName (Ty.resolve v.before.registry d depth))

/-- The types in the heading of a function. -/
theorem Visit.resolves_of_heading {v : Visit} {result : Descriptor} {depth : Nat}
    (h : Parameter.analyseAll declare scope params c = .ok params' c')
    (hregistry : c.registry = v.before.registry)
    (hmentions : v.part.mentions = Parameter.mentions params ++ result.mentions) :
    ∀ ty ∈ Parameter.types params' ++ [Ty.resolve c'.registry result depth], v.Resolves ty := by
  intro ty hty
  rcases List.mem_append.mp hty with hparam | hresult
  · obtain ⟨p, hp, rfl⟩ := Parameter.resolved_of_analyseAll h ty hparam
    rw [hregistry]
    refine .written fun name hname => ?_
    rw [hmentions]
    exact List.mem_append_left _ (List.mem_flatMap.mpr ⟨p, hp, hname⟩)
  · rw [List.mem_singleton.mp hresult, Parameter.registry_of_analyseAll h, hregistry]
    refine .written fun name hname => ?_
    rw [hmentions]
    exact List.mem_append_right _ hname

theorem Visit.resolves_of_typeAlias {d : TypeAlias} (hok : (d.analyse scope c).error = none)
    {ty : Ty} (hty : ty ∈ (Part.typeAlias (d.analyse scope c).node).rescanned) :
    (Visit.mk scope c (.typeAlias d)).Resolves ty := by
  cases htag : d.isTagAlias with
  | true =>
      have hnode : (d.analyse scope c).node = d := by
        unfold TypeAlias.analyse
        rw [if_pos htag]
        rfl
      rw [hnode, Part.rescanned, if_pos htag] at hty
      cases hty
  | false =>
      obtain ⟨cName, type, c₁, entry, htype, -, -, heq⟩ := TypeAlias.analyse_ok hok htag
      have hresult : (Visit.mk scope c (.typeAlias d)).result.part
          = .typeAlias { d with cName, type } := by
        show Part.typeAlias (d.analyse scope c).node = _
        rw [heq]
        rfl
      have htag' : ¬ TypeAlias.isTagAlias { d with cName, type } = true := by
        show ¬ d.isTagAlias = true
        rw [htag]
        exact Bool.false_ne_true
      rw [heq] at hty
      change ty ∈ (Part.typeAlias { d with cName, type }).rescanned at hty
      rw [Part.rescanned, if_neg htag', List.mem_singleton] at hty
      rw [hty, htype]
      refine .aliased (fun name hname => ?_) ?_
      · show name ∈ if d.isTagAlias then [d.name] else d.descriptor.mentions
        rwa [htag]
      · rw [hresult]
        exact if_neg htag'

/-- Both ways to enter a function analyse its heading. -/
theorem Function.Entered.heading {d node : Function} {after : Checker}
    (h : d.Entered scope c node after) :
    ∃ c₁, Parameter.analyseAll true c.scopes.length d.params
        (c.addScope d.name .function scope).2 = .ok node.params c₁
      ∧ node.returnType = Ty.resolve c₁.registry d.descriptor d.depth := by
  cases h with
  | completes hparams hresult _ | declares hparams hresult _ _ => exact ⟨_, hparams, hresult⟩

/-- **Whatever a node has to be rescanned for was resolved when its part was visited.** -/
theorem Visit.resolves_of_mem_rescanned {v : Visit} (hok : v.outcome.error = none) {ty : Ty}
    (hty : ty ∈ v.result.part.rescanned) : v.Resolves ty := by
  obtain ⟨scope, c, p⟩ := v
  cases p with
  | var d =>
      obtain ⟨type, value, c₁, c₂, entry, htype, -, -, -, heq⟩ := Variable.analyse_ok hok
      change ty ∈ [(d.analyse scope c).node.type] at hty
      rw [heq, List.mem_singleton] at hty
      rw [hty]
      change Resolves _ type
      rw [htype]
      exact .written fun _ h => h
  | array d =>
      obtain ⟨base, size, dimension, elements, initial, assigns, c₁, c₂, c₃, entry, hbase, -, -, -,
        -, -, heq⟩ := ArrayVariable.analyse_ok hok
      change ty ∈ [(d.analyse scope c).node.type] at hty
      rw [heq, List.mem_singleton] at hty
      rw [hty]
      change Resolves _ (.array base size)
      rw [hbase]
      exact .array fun _ h => h
  | forward d =>
      obtain ⟨cName, type, c₁, entry, -, -, -, heq⟩ := Forward.analyse_ok hok
      change ty ∈ [Ty.pending (d.analyse scope c).node.name] at hty
      rw [heq, List.mem_singleton] at hty
      rw [hty]
      exact .announced (List.mem_singleton_self _)
  | typeAlias d => exact resolves_of_typeAlias hok hty
  | prototype d =>
      obtain ⟨params, c₁, c₂, entry, hparams, hentry, -, heq⟩ := Prototype.analyse_ok hok
      change ty ∈ (Part.prototype (d.analyse scope c).node).rescanned at hty
      rw [heq, hentry] at hty
      exact Visit.resolves_of_heading (v := ⟨scope, c, .prototype d⟩) hparams rfl rfl ty hty
  | function d =>
      obtain ⟨c₁, hparams, hresult⟩ := (Function.enter_entered hok).heading
      change ty ∈ Parameter.types (d.enter scope c).node.params
        ++ [(d.enter scope c).node.returnType] at hty
      rw [hresult] at hty
      exact Visit.resolves_of_heading (v := ⟨scope, c, .function d⟩) hparams rfl rfl ty hty
  | method d =>
      obtain ⟨params, c₁, entry, hparams, -, -, hnode⟩ := Method.enter_ok hok
      change ty ∈ Parameter.types (d.enter scope c).node.params at hty
      rw [hnode] at hty
      obtain ⟨p, hp, rfl⟩ := Parameter.resolved_of_analyseAll hparams ty hty
      exact .written fun name hname => List.mem_flatMap.mpr ⟨p, hp, hname⟩
  | _ => exact absurd hty List.not_mem_nil

/-- The signature of a node is made of what the second pass rescans. -/
theorem Part.signature?_form {p : Part} {kind : EntryKind} {name : String} {type : Ty}
    (hs : p.signature? = some ⟨kind, name, type⟩) :
    type ∈ p.rescanned
      ∨ ∃ fname cName params result, type = .function fname cName params result
        ∧ ∀ ty ∈ params ++ [result], ty ∈ p.rescanned := by
  cases p with
  | typeAlias d =>
      rw [signature?] at hs
      split at hs
      · cases hs
      · rename_i htag
        cases hs
        rw [rescanned, if_neg htag]
        exact .inl (List.mem_singleton_self _)
  | prototype d =>
      rw [signature?] at hs
      split at hs
      · rename_i htype
        cases hs
        rw [rescanned, htype]
        exact .inr ⟨_, _, _, _, rfl, fun ty hty => hty⟩
      · cases hs
  | function d =>
      cases hs
      exact .inr ⟨_, _, _, _, rfl, fun ty hty => hty⟩
  | _ => cases hs

/-! ## The second pass -/

variable {P : Ty → Prop}

namespace Checker

/-- Every name keeps its type, or gets one that `P` holds of. -/
def Gives (P : Ty → Prop) (c c' : Checker) : Prop :=
  ∀ id name, c'.typeIn? id name = c.typeIn? id name ∨ ∃ ty, c'.typeIn? id name = some ty ∧ P ty

namespace Gives

variable {c c' c'' : Checker}

theorem refl (c : Checker) : c.Gives P c := fun _ _ => .inl rfl

theorem trans (h : c.Gives P c') (h' : c'.Gives P c'') : c.Gives P c'' := by
  intro id name
  rcases h' id name with hkept | hnew
  · rw [hkept]
    exact h id name
  · exact .inr hnew

/-- A type that `P` holds of stays one. -/
theorem holds (h : c.Gives P c') {id : ScopeId} {name : String} {ty : Ty}
    (hty : c.typeIn? id name = some ty) (hP : P ty) :
    ∃ ty', c'.typeIn? id name = some ty' ∧ P ty' := by
  rcases h id name with hkept | hnew
  · exact ⟨ty, hkept.trans hty, hP⟩
  · exact hnew

end Gives

theorem gives_setType (c : Checker) (id : ScopeId) (name : String) {type : Ty} (h : P type) :
    c.Gives P (c.setType id name type) := by
  intro j n
  by_cases hkey : (j, n) = (id, name)
  · cases hkey
    cases hthere : c.typeIn? id name with
    | none =>
        left
        have hsame := (c.retyped_setType id name type).isSome_typeIn? id name
        rw [hthere] at hsame
        exact Option.isNone_iff_eq_none.mp (by simpa using hsame)
    | some old =>
        right
        exact ⟨type, typeIn?_setType_self (by rw [hthere]; rfl) type, h⟩
  · exact .inl (typeIn?_setType_ne hkey type)

theorem gives_settleName (c : Checker) (scope : ScopeId) (name : String) {type : Ty}
    (h : P (type.settle c.registry)) : c.Gives P (c.settleName scope name type).2 := by
  unfold settleName
  split
  · rename_i hpending
    rw [Ty.settle, if_pos hpending] at h
    exact c.gives_setType scope name h
  · exact .refl c

end Checker

namespace Parameter

theorem types_rescanAll (declared : Bool) (scope : ScopeId) (params : List Parameter)
    (c : Checker) :
    types (rescanAll declared scope params c).1 = (types params).map (Ty.settle c.registry) := by
  induction params generalizing c with
  | nil => rfl
  | cons p rest ih =>
      show (p.rescan declared scope c).1.type
        :: types (rescanAll declared scope rest (p.rescan declared scope c).2).1 = _
      rw [ih, type_rescan, registry_rescan]
      rfl

theorem gives_rescanAll (declared : Bool) (scope : ScopeId) {params : List Parameter} {c : Checker}
    (h : ∀ ty ∈ types params, P (ty.settle c.registry)) :
    c.Gives P (rescanAll declared scope params c).2 := by
  induction params generalizing c with
  | nil => exact .refl c
  | cons p rest ih =>
      have hfirst : c.Gives P (p.rescan declared scope c).2 := by
        have hp := h p.type List.mem_cons_self
        unfold rescan
        split
        · rename_i hpending
          rw [Ty.settle, if_pos hpending] at hp
          dsimp only
          split
          · exact c.gives_setType scope _ hp
          · exact .refl c
        · exact .refl c
      refine hfirst.trans (ih fun ty hty => ?_)
      rw [registry_rescan]
      exact h ty (List.mem_cons_of_mem _ hty)

/-- The heading of a function after its parameters and its result have been rescanned. -/
theorem holds_heading {declared : Bool} {scope : ScopeId} {params : List Parameter} {result : Ty}
    {c : Checker} {fname cName : Option String}
    (hheading : ∀ types result, (∀ ty ∈ types, P ty) → P result →
      P (.function fname cName types result))
    (h : ∀ ty ∈ types params ++ [result], P (ty.rescan c.registry) ∧ P (ty.settle c.registry)) :
    P (.function fname cName (types (rescanAll declared scope params c).1)
      (result.rescan (rescanAll declared scope params c).2.registry)) := by
  rw [types_rescanAll, registry_rescanAll]
  refine hheading _ _ (fun ty hty => ?_) ?_
  · obtain ⟨old, hold, rfl⟩ := List.mem_map.mp hty
    exact (h old (List.mem_append_left _ hold)).2
  · exact (h result (List.mem_append_right _ (List.mem_singleton_self _))).1

end Parameter

namespace Part

/-- **What the entries get from settling a part.** If `P` holds of the rescanned types of the part,
of headings made of them, and of the type that is announced, then it holds of all types that the
scopes are given. -/
theorem gives_rescan (p : Part) (scope : ScopeId) (c : Checker)
    (hheading : ∀ fname cName types result, (∀ ty ∈ types, P ty) → P result →
      P (.function fname cName types result))
    (hforward : ∀ d, p = .forward d →
      P (.aliased d.tag d.cName (c.registry.meaning d.name)))
    (h : ∀ ty ∈ p.rescanned, P (ty.rescan c.registry) ∧ P (ty.settle c.registry)) :
    c.Gives P (p.rescan scope c).2 := by
  cases p with
  | var d | array d =>
      exact c.gives_settleName scope d.name (h d.type (List.mem_singleton_self _)).2
  | forward d => exact c.gives_setType scope d.tag (hforward d rfl)
  | typeAlias d =>
      show c.Gives P (d.rescan scope c).2
      unfold TypeAlias.rescan
      split
      · exact .refl c
      · rename_i hcond
        simp only [Bool.or_eq_true, not_or, Bool.not_eq_true] at hcond
        have hty : d.type ∈ (Part.typeAlias d).rescanned := by
          rw [rescanned, if_neg (by simp [hcond.1])]
          exact List.mem_singleton_self _
        -- the registry of the new state is not looked at
        exact (c.register d.name (d.type.rescan c.registry) d.position).gives_setType scope d.name
          (h d.type hty).1
  | prototype d =>
      have hparams : c.Gives P (Parameter.rescanAll false scope d.params c).2 :=
        Parameter.gives_rescanAll false scope fun ty hty => (h ty (List.mem_append_left _ hty)).2
      show c.Gives P (d.rescan scope c).2
      unfold Prototype.rescan
      dsimp only
      split
      · rename_i htype
        refine hparams.trans (Checker.gives_setType _ scope d.name ?_)
        rw [rescanned, htype] at h
        exact Parameter.holds_heading (hheading _ _) h
      · exact hparams
  | function d =>
      unfold Part.rescan
      dsimp only
      cases hd : d.scope with
      | none => exact .refl c
      | some inner =>
          have hparams : c.Gives P (Parameter.rescanAll true inner d.params c).2 :=
            Parameter.gives_rescanAll true inner fun ty hty => (h ty (List.mem_append_left _ hty)).2
          refine hparams.trans (Checker.Gives.trans ?_
            (Checker.gives_setType _ scope d.name (Parameter.holds_heading (hheading _ _) h)))
          exact fun id name => .inl (Checker.typeIn?_setReturnType _ _ _ _ _)
  | method d =>
      unfold Part.rescan
      dsimp only
      cases hd : d.scope with
      | none => exact .refl c
      | some inner => exact Parameter.gives_rescanAll true inner fun ty hty => (h ty hty).2
  | _ => exact .refl c

end Part

/-! ## What the nodes get -/

/-- The type is one of the old ones, or what one of them is rescanned to. -/
def Ty.StemsFrom (registry : Registry) (olds : List Ty) (ty : Ty) : Prop :=
  ∃ old ∈ olds, ty = old ∨ ty = old.rescan registry

namespace Ty

variable {registry : Registry} {olds : List Ty}

theorem stemsFrom_self {ty : Ty} (h : ty ∈ olds) : ty.StemsFrom registry olds :=
  ⟨ty, h, .inl rfl⟩

theorem stemsFrom_settle {old : Ty} (h : old ∈ olds) :
    (old.settle registry).StemsFrom registry olds := by
  unfold settle
  split
  · exact ⟨old, h, .inr rfl⟩
  · exact stemsFrom_self h

end Ty

theorem Checker.stemsFrom_settleName {c : Checker} {scope : ScopeId} {name : String} {type ty : Ty}
    (h : ty ∈ [(c.settleName scope name type).1]) : ty.StemsFrom c.registry [type] := by
  have hname : (c.settleName scope name type).1 = type.settle c.registry := by
    unfold settleName Ty.settle
    split <;> rfl
  rw [List.mem_singleton.mp h, hname]
  exact Ty.stemsFrom_settle (List.mem_singleton_self _)

namespace Parameter

variable {declared : Bool} {scope : ScopeId} {params : List Parameter} {c : Checker}

theorem stemsFrom_rescanAll {ty : Ty} (h : ty ∈ types (rescanAll declared scope params c).1) :
    ty.StemsFrom c.registry (types params) := by
  rw [types_rescanAll] at h
  obtain ⟨old, hold, rfl⟩ := List.mem_map.mp h
  exact Ty.stemsFrom_settle hold

/-- The types of a heading: the parameters are settled, and the result may be anything that stems
from the old one. -/
theorem stemsFrom_heading {result result' : Ty} (hresult : result'.StemsFrom c.registry [result])
    {ty : Ty} (h : ty ∈ types (rescanAll declared scope params c).1 ++ [result']) :
    ty.StemsFrom c.registry (types params ++ [result]) := by
  rcases List.mem_append.mp h with hparam | hlast
  · obtain ⟨old, hold, heq⟩ := stemsFrom_rescanAll hparam
    exact ⟨old, List.mem_append_left _ hold, heq⟩
  · obtain ⟨old, hold, heq⟩ := hresult
    rw [List.mem_singleton.mp hlast]
    exact ⟨old, List.mem_append_right _ hold, heq⟩

/-- The registry does not change while parameters are rescanned. -/
theorem stemsFrom_result (result : Ty) :
    (result.rescan (rescanAll declared scope params c).2.registry).StemsFrom c.registry
      [result] := by
  rw [registry_rescanAll]
  exact ⟨result, List.mem_singleton_self _, .inr rfl⟩

end Parameter

namespace Part

/-- Settling a part keeps a type of its node, or rescans it. -/
theorem stemsFrom_rescan {p : Part} {scope : ScopeId} {c : Checker} {ty : Ty}
    (hty : ty ∈ (p.rescan scope c).1.rescanned) : ty.StemsFrom c.registry p.rescanned := by
  cases p with
  | var d | array d => exact Checker.stemsFrom_settleName hty
  | forward d => exact Ty.stemsFrom_self hty
  | typeAlias d =>
      change ty ∈ (Part.typeAlias (d.rescan scope c).1).rescanned at hty
      unfold TypeAlias.rescan at hty
      split at hty
      · exact Ty.stemsFrom_self hty
      · rename_i hcond
        simp only [Bool.or_eq_true, not_or, Bool.not_eq_true] at hcond
        have htag : ¬ d.isTagAlias = true := by simp [hcond.1]
        have htag' : ¬ TypeAlias.isTagAlias { d with type := d.type.rescan c.registry } = true :=
          htag
        rw [rescanned, if_neg htag', List.mem_singleton] at hty
        refine ⟨d.type, ?_, .inr hty⟩
        rw [rescanned, if_neg htag]
        exact List.mem_singleton_self _
  | prototype d =>
      change ty ∈ (Part.prototype (d.rescan scope c).1).rescanned at hty
      unfold Prototype.rescan at hty
      dsimp only at hty
      split at hty
      · rename_i htype
        rw [rescanned, htype]
        exact Parameter.stemsFrom_heading (Parameter.stemsFrom_result _) hty
      · rcases List.mem_append.mp hty with hparam | hresult
        · obtain ⟨old, hold, heq⟩ := Parameter.stemsFrom_rescanAll hparam
          exact ⟨old, List.mem_append_left _ hold, heq⟩
        · exact Ty.stemsFrom_self (List.mem_append_right _ hresult)
  | function d =>
      unfold Part.rescan at hty
      dsimp only at hty
      cases hd : d.scope with
      | none =>
          rw [hd] at hty
          exact Ty.stemsFrom_self hty
      | some inner =>
          rw [hd] at hty
          exact Parameter.stemsFrom_heading (Parameter.stemsFrom_result _) hty
  | method d =>
      unfold Part.rescan at hty
      dsimp only at hty
      cases hd : d.scope with
      | none =>
          rw [hd] at hty
          exact Ty.stemsFrom_self hty
      | some inner =>
          rw [hd] at hty
          exact Parameter.stemsFrom_rescanAll hty
  | _ => exact absurd hty List.not_mem_nil

end Part

end ExtensionCompiler

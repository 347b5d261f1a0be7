import ExtensionCompiler.Proofs.NormalTypes
import ExtensionCompiler.Proofs.Rendering

set_option autoImplicit false

/-! # The normal form of a unit

Every type that a unit, its expressions and the state of its check hold is in normal form, after
analysis, whether it has succeeded or has stopped at an error, and after the second pass
(`Stmt.normal_of_passes`). What is asked of the context is that its registered types are in normal
form, and of unit and context together that their pointers leave room in a machine word: the levels
that are written come over those of a registered type, a second time at the second look, and an
address has one level more. Without that room the levels of an address start again at zero
(`Stmt.deepUnit_wraps`).

Where an element of an address is taken, by an element reference or by a dereference, one level is
taken off a pointer; `Expr.lowered?` is the type that this is done to. In normal form there is a
level to take off. -/

namespace ExtensionCompiler

/-! ## The types of a part -/

/-- The depths that parameters ask for. -/
def Parameter.depths (params : List Parameter) : List Nat :=
  params.flatMap fun p => p.descriptor.depths p.depth

namespace Part

/-- The types that a part holds outside its expressions. -/
def ownTypes : Part → List Ty
  | .var d => [d.type]
  | .array d => [d.type]
  | .ret d => [d.returnType]
  | .aggregate d => d.type.toList
  | .forward d => [d.type]
  | .typeAlias d => [d.type]
  | .prototype d => d.type.toList ++ Parameter.types d.params
  | .function d => d.returnType :: Parameter.types d.params
  | .method d => Parameter.types d.params
  | _ => []

/-- The types that a part holds, with those of its expressions. -/
def types (p : Part) : List Ty := p.ownTypes ++ Expr.typesAll p.exprs

/-- The depths that are written in a part. -/
def depths : Part → List Nat
  | .var d => d.descriptor.depths d.depth
  | .array d => d.descriptor.depths 0
  | .typeAlias d => d.descriptor.depths d.depth
  | .prototype d => d.descriptor.depths d.depth ++ Parameter.depths d.params
  | .function d => d.descriptor.depths d.depth ++ Parameter.depths d.params
  | .method d => Parameter.depths d.params
  | _ => []

theorem depths_outline (p : Part) : p.outline.depths = p.depths := by
  cases p with
  | prototype d | function d | method d =>
      simp [outline, depths, Parameter.depths, Parameter.outline, List.flatMap_map]
  | _ => rfl

/-- The types of a part are within `l`, and those of the values in it within `values`. -/
def Within (l values : Levels) : Part → Prop
  | .var d => d.type.Within l ∧ ∀ e ∈ d.value, e.Within values
  | .array d => d.type.Within l ∧ d.dimension.Within values
      ∧ ∀ e ∈ d.elements.getD [], e.Within values
  | .assign d => d.target.Within values ∧ d.value.Within values
  | .ret d => d.returnType.Within l ∧ ∀ e ∈ d.value, e.Within values
  | .print d => ∀ e ∈ d.values, e.Within values
  | .evaluation d => d.value.Within values
  | .aggregate d => ∀ ty ∈ d.type, ty.Within l
  | .forward d => d.type.Within l
  | .typeAlias d => d.type.Within l
  | .prototype d => (∀ ty ∈ d.type, ty.Within l) ∧ ∀ p ∈ d.params, p.type.Within l
  | .condition e => e.Within values
  | .count d => d.left.Within values ∧ d.right.Within values
  | .function d => d.returnType.Within l ∧ ∀ p ∈ d.params, p.type.Within l
  | .method d => ∀ p ∈ d.params, p.type.Within l
  | .classDef _ => True

/-- Whether the part is an alias that is a pointer itself. -/
def aliasesPointer : Part → Bool
  | .typeAlias d => d.type.isBarePointer
  | _ => false

/-- The part is within the bound, and what is written in it leads to types within the bound. -/
structure Bounded (l : Levels) (p : Part) : Prop where
  within : p.Within l l
  depths : l.Admits p.depths
  own : p.aliasesPointer = false

variable {l values : Levels} {p : Part}

theorem Within.ownTypes (h : p.Within l values) : ∀ ty ∈ p.ownTypes, ty.Within l := by
  cases p with
  | var d | array d | ret d => exact List.forall_mem_singleton.mpr h.1
  | forward d | typeAlias d => exact List.forall_mem_singleton.mpr h
  | aggregate d => exact fun ty hty => h ty (Option.mem_toList.mp hty)
  | prototype d =>
      exact List.forall_mem_append.mpr ⟨fun ty hty => h.1 ty (Option.mem_toList.mp hty),
        List.forall_mem_map.mpr h.2⟩
  | function d => exact List.forall_mem_cons.mpr ⟨h.1, List.forall_mem_map.mpr h.2⟩
  | method d => exact List.forall_mem_map.mpr h
  | _ => exact List.forall_mem_nil _

theorem Within.exprs (h : p.Within l values) : ∀ e ∈ p.exprs, e.Within values := by
  cases p with
  | var d | ret d => exact fun e he => h.2 e (Option.mem_toList.mp he)
  | array d => exact List.forall_mem_cons.mpr h.2
  | assign d | count d =>
      exact List.forall_mem_cons.mpr ⟨h.1, List.forall_mem_singleton.mpr h.2⟩
  | print d => exact h
  | evaluation d | condition e => exact List.forall_mem_singleton.mpr h
  | _ => exact List.forall_mem_nil _

theorem Within.settled (h : p.Within l values) : p.Within l.settled values := by
  cases p with
  | var d | array d | ret d => exact ⟨h.1.settled, h.2⟩
  | forward d | typeAlias d => exact Ty.Within.settled h
  | aggregate d => exact fun ty hty => (h ty hty).settled
  | prototype d =>
      exact ⟨fun ty hty => (h.1 ty hty).settled, fun p hp => (h.2 p hp).settled⟩
  | function d => exact ⟨h.1.settled, fun p hp => (h.2 p hp).settled⟩
  | method d => exact fun p hp => (h p hp).settled
  | _ => exact h

end Part

variable {l : Levels}

/-! ## Analysis of a part -/

theorem Scope.within_functionEntry (s : Scope) (kind : EntryKind) (name : String)
    {params : List Parameter} {result : Ty} (isExternal : Bool) (position : Position)
    (hparams : ∀ p ∈ params, p.type.Within l) (hresult : result.Within l) :
    (s.functionEntry kind name (Parameter.types params) result isExternal position).type.Within l :=
  Ty.hasDepths_function.mpr ⟨List.forall_mem_map.mpr hparams, hresult⟩

section Analysis

variable {scope : ScopeId} {c : Checker}

theorem Parameter.analyse_within (declare : Bool) (scope : ScopeId) (p : Parameter)
    (hroom : l.Admits (p.descriptor.depths p.depth)) (hc : c.Within l) :
    (p.analyse declare scope c).Within l fun p => p.type.Within l := by
  have htype := hc.registry.resolve p.descriptor p.depth hroom
  unfold analyse
  dsimp only
  split
  · exact Outcome.within_ofDeclare hc htype htype htype
  · exact ⟨htype, hc⟩

theorem Parameter.analyseAll_within (declare : Bool) (scope : ScopeId) {params : List Parameter}
    (hroom : l.Admits (depths params)) (hparams : ∀ p ∈ params, p.type.Within l)
    (hc : c.Within l) :
    (analyseAll declare scope params c).Within l fun params => ∀ p ∈ params, p.type.Within l := by
  induction params generalizing c with
  | nil => exact ⟨hparams, hc⟩
  | cons p rest ih =>
      obtain ⟨hp, hothers⟩ := List.forall_mem_append.mp hroom
      obtain ⟨-, hrest⟩ := List.forall_mem_cons.mp hparams
      exact (p.analyse_within declare scope hp hc).andThen
        (fun p hp => List.forall_mem_cons.mpr ⟨hp, hrest⟩) fun p c hp hc =>
          (ih hothers hrest hc).map fun rest hrest => List.forall_mem_cons.mpr ⟨hp, hrest⟩

theorem Variable.analyse_within {d : Variable} (h : (Part.var d).Bounded l) (hc : c.Within l) :
    (d.analyse scope c).Within l fun d => (Part.var d).Within l l := by
  have htype := hc.registry.resolve d.descriptor d.depth h.depths
  unfold analyse
  dsimp only
  refine (Expr.analyseOptionInto_within htype scope d.position h.within.2 hc).andThen
    (fun value hvalue => ⟨htype, hvalue⟩) fun value c hvalue hc => ?_
  exact Outcome.within_ofDeclare hc htype ⟨htype, hvalue⟩ ⟨htype, hvalue⟩

theorem ArrayVariable.declare_within {d : ArrayVariable} (h : (Part.array d).Within l l)
    (initial : Option String) (scope : ScopeId) (hc : c.Within l) :
    (d.declare initial scope c).Within l fun d => (Part.array d).Within l l :=
  Outcome.within_ofDeclare hc h.1 h h

theorem ArrayVariable.analyse_within {d : ArrayVariable} (h : (Part.array d).Bounded l)
    (hc : c.Within l) : (d.analyse scope c).Within l fun d => (Part.array d).Within l l := by
  obtain ⟨hold, hdimension, helements⟩ := h.within
  unfold analyse
  refine (Expr.analyse_within d.dimension none scope c hdimension hc).andThen
    (fun dimension hdimension => ⟨hold, hdimension, helements⟩)
    fun dimension c hdimension hc => ?_
  dsimp only
  split
  · exact ⟨⟨hold, hdimension, helements⟩, hc⟩
  · rename_i size _
    have hbase := hc.registry.resolve d.descriptor 0 h.depths
    have htype : (Ty.array (Ty.resolve c.registry d.descriptor 0) size).Within l :=
      Ty.hasDepths_array.mpr hbase
    split
    · refine declare_within ?_ none scope hc
      exact ⟨htype, hdimension, helements⟩
    · rename_i elements hsome
      have hmembers : ∀ e ∈ elements, e.Within l := by
        simpa [hsome] using helements
      refine (Expr.analyseAllInto_within hbase scope d.position hmembers hc).andThen
        (fun elements helements => ⟨htype, hdimension, helements⟩)
        fun elements c helements hc => ?_
      -- too many elements, constant ones, or others: the declaration holds them in any case
      split
      · exact ⟨⟨htype, hdimension, helements⟩, hc⟩
      · split
        · refine declare_within ?_ _ scope hc
          exact ⟨htype, hdimension, helements⟩
        · refine declare_within ?_ none scope hc
          exact ⟨htype, hdimension, helements⟩

theorem Assignment.declareTarget_within {d : Assignment} {c' : Checker} (hc : c.Within l)
    (h : d.declareTarget scope c = .ok c') : c'.Within l := by
  unfold declareTarget at h
  split at h
  · cases h
    exact hc
  · split at h
    · cases h
      exact hc
    · have hobject : Ty.object.Within l := Ty.hasDepths_object
      exact hc.declare hobject h

theorem Assignment.analyse_within {d : Assignment} (h : (Part.assign d).Bounded l)
    (hc : c.Within l) : (d.analyse scope c).Within l fun d => (Part.assign d).Within l l := by
  obtain ⟨htarget, hvalue⟩ := h.within
  unfold analyse
  split
  · exact ⟨h.within, hc⟩
  · rename_i c' hdeclare
    refine (Expr.analyse_within d.target none scope c' htarget
      (declareTarget_within hc hdeclare)).andThen
      (fun target htarget => ⟨htarget, hvalue⟩) fun target c htarget hc => ?_
    dsimp only
    split
    · rename_i hassignable
      have htype := htarget.type_of_isAssignable hassignable
      exact (Expr.analyseInto_within htype scope d.position hvalue hc).map
        fun value hvalue => ⟨htarget, hvalue⟩
    · exact ⟨⟨htarget, hvalue⟩, hc⟩

theorem Return.within_expected (hc : c.Within l) (function : ScopeId) :
    (expected c function).Within l := by
  unfold expected
  split
  · rename_i type hreturn
    exact Ty.HasDepths.concrete ((Scope.within_iff.mp (hc.scope function)).2.1 type hreturn)
  · exact Ty.hasDepths_primitive .void

theorem Return.analyse_within {d : Return} (h : (Part.ret d).Bounded l) (hc : c.Within l) :
    (d.analyse scope c).Within l fun d => (Part.ret d).Within l l := by
  have hvalues := h.within.2
  unfold analyse
  split
  · exact ⟨h.within, hc⟩
  · rename_i function _
    have htype := within_expected hc function
    have hnode (value : Expr) (hvalue : value.Within l) : Part.Within l l
        (.ret { d with returnType := expected c function, value := some value }) := by
      refine ⟨htype, fun e he => ?_⟩
      rw [← Option.mem_some.mp he]
      exact hvalue
    dsimp only
    split
    · rename_i value hsome
      have hvalue := hvalues value hsome
      split
      · exact (Expr.analyse_within value none scope c hvalue hc).andThen hnode
          fun value c hvalue hc => ⟨hnode value hvalue, hc⟩
      · exact (Expr.analyseInto_within htype scope d.position hvalue hc).map hnode
    · have hnone : (Part.ret { d with returnType := expected c function }).Within l l :=
        ⟨htype, hvalues⟩
      split
      · exact ⟨hnone, hc⟩
      · exact ⟨hnone, hc⟩

theorem Print.analyseValues_within (position : Position) (scope : ScopeId) {values : List Expr}
    (hvalues : ∀ e ∈ values, e.Within l) (hc : c.Within l) :
    (analyseValues position scope values c).Within l fun values => ∀ e ∈ values, e.Within l := by
  induction values generalizing c with
  | nil => exact ⟨hvalues, hc⟩
  | cons value rest ih =>
      obtain ⟨hvalue, hrest⟩ := List.forall_mem_cons.mp hvalues
      refine (Expr.analyse_within value none scope c hvalue hc).andThen
        (fun value hvalue => List.forall_mem_cons.mpr ⟨hvalue, hrest⟩)
        fun value c hvalue hc => ?_
      split
      · exact (ih hrest hc).map fun rest hrest => List.forall_mem_cons.mpr ⟨hvalue, hrest⟩
      · exact ⟨List.forall_mem_cons.mpr ⟨hvalue, hrest⟩, hc⟩

theorem Aggregate.declare_within (d : Aggregate) (hc : c.Within l) :
    (d.declare scope c).Within l (Ty.Within l) := by
  have htype : ∀ cName, (Ty.aggregate d.kind d.name cName c.scopes.length).Within l :=
    fun _ => Ty.hasDepths_aggregate _ _ _ _
  have hopened := hc.addScope d.name .aggregate scope
  exact Outcome.within_ofDeclare (hopened.register d.name ⟨Nat.zero_le _, htype _⟩ d.position)
    (htype _) (htype _) (htype _)

theorem Forward.within_aliasType (d : Forward) {registry : Registry} (h : registry.Within l) :
    (d.aliasType registry).Within l := Ty.hasDepths_aliased.mpr (h.meaning d.name).2

theorem Forward.analyse_within (d : Forward) (hc : c.Within l) :
    (d.analyse scope c).Within l fun d => (Part.forward d).Within l l := by
  have htype : ∀ cName, (({ d with cName } : Forward).aliasType c.registry).Within l :=
    fun _ => within_aliasType _ hc.registry
  exact Outcome.within_ofDeclare hc (htype _) (htype _) (htype _)

theorem TypeAlias.analyse_within {d : TypeAlias} (h : (Part.typeAlias d).Bounded l)
    (hc : c.Within l) : (d.analyse scope c).Within l fun d => (Part.typeAlias d).Within l l := by
  have htype : ∀ cName, (Ty.aliased d.name cName
      (Ty.resolve c.registry d.descriptor d.depth)).Within l :=
    fun _ => Ty.hasDepths_aliased.mpr (hc.registry.resolve d.descriptor d.depth h.depths)
  unfold analyse
  split
  · exact ⟨h.within, hc⟩
  · exact Outcome.within_ofDeclare (hc.register d.name ⟨Nat.zero_le _, htype _⟩ d.position)
      (htype _) (htype _) (htype _)

/-- The alias is a type of its own, whatever it stands for. -/
theorem TypeAlias.isBarePointer_analyse {d : TypeAlias} (h : d.type.isBarePointer = false) :
    (d.analyse scope c).node.type.isBarePointer = false := by
  unfold analyse Outcome.ofDeclare
  split
  · exact h
  · dsimp only
    split <;> rfl

theorem Prototype.analyse_within {d : Prototype} (h : (Part.prototype d).Bounded l)
    (hc : c.Within l) : (d.analyse scope c).Within l fun d => (Part.prototype d).Within l l := by
  obtain ⟨htype, hparams⟩ := h.within
  obtain ⟨hresult, hroom⟩ := List.forall_mem_append.mp h.depths
  unfold analyse
  refine (Parameter.analyseAll_within false scope hroom hparams hc).andThen
    (fun params hparams => ⟨htype, hparams⟩) fun params c hparams hc => ?_
  have hentry := (c.scope scope).within_functionEntry .function d.name d.isExternal d.position
    hparams (hc.registry.resolve d.descriptor d.depth hresult)
  refine Outcome.within_ofDeclare hc hentry ⟨htype, hparams⟩ ⟨fun ty hty => ?_, hparams⟩
  rw [← Option.mem_some.mp hty]
  exact hentry

theorem CountLoop.analyse_within {d : CountLoop} (h : (Part.count d).Bounded l)
    (hc : c.Within l) : (d.analyse scope c).Within l fun d => (Part.count d).Within l l := by
  obtain ⟨hleft, hright⟩ := h.within
  unfold analyse
  split
  · split
    · exact ⟨h.within, hc⟩
    · rename_i counter hlookup
      have hcounter := hc.find (Checker.lookup_eq_ok hlookup)
      split
      · refine (Expr.analyseInto_within hcounter scope d.position hleft hc).andThen
          (fun left hleft => ⟨hleft, hright⟩) fun left c hleft hc => ?_
        exact (Expr.analyseInto_within hcounter scope d.position hright hc).map
          fun right hright => ⟨hleft, hright⟩
      · exact ⟨h.within, hc⟩
  · exact ⟨h.within, hc⟩

theorem Function.enter_within {d : Function} (h : (Part.function d).Bounded l)
    (hc : c.Within l) : (d.enter scope c).Within l fun d => (Part.function d).Within l l := by
  obtain ⟨hold, hparams⟩ := h.within
  obtain ⟨hresult, hroom⟩ := List.forall_mem_append.mp h.depths
  rw [enter_eq]
  refine (Parameter.analyseAll_within true c.scopes.length hroom hparams
    (hc.addScope d.name .function scope)).andThen
    (fun params hparams => ⟨hold, hparams⟩) fun params c hparams hc => ?_
  have hreturn := hc.registry.resolve d.descriptor d.depth hresult
  unfold finish
  dsimp only
  split
  · exact ⟨⟨hreturn, hparams⟩, hc.setReturnType _ hreturn⟩
  · exact Outcome.within_ofDeclare (hc.setReturnType _ hreturn)
      (Scope.within_functionEntry _ .function d.name false d.position hparams hreturn)
      ⟨hreturn, hparams⟩ ⟨hreturn, hparams⟩

theorem Method.enter_within {d : Method} (h : (Part.method d).Bounded l) (hc : c.Within l) :
    (d.enter scope c).Within l fun d => (Part.method d).Within l l := by
  have hopened := (hc.addScope d.name .function scope).setReturnType c.scopes.length
    Ty.hasDepths_object
  rw [enter_eq]
  refine (Parameter.analyseAll_within true c.scopes.length h.depths h.within hopened).andThen
    (fun params hparams => hparams) fun params c hparams hc => ?_
  unfold finish
  dsimp only
  split
  · exact ⟨hparams, hc⟩
  · exact Outcome.within_ofDeclare hc
      (Scope.within_functionEntry _ .method d.name false d.position hparams Ty.hasDepths_object)
      hparams hparams

theorem ClassDef.enter_within (d : ClassDef) (hc : c.Within l) :
    (d.enter scope c).Within l fun d => (Part.classDef d).Within l l := by
  refine ⟨trivial, ?_⟩
  unfold enter
  split
  · exact hc
  · dsimp only
    split
    · exact hc
    · rename_i c' hdeclare
      have hobject : Ty.object.Within l := Ty.hasDepths_object
      exact (hc.declare hobject hdeclare).addClassScope _ _ _

theorem Part.within_analyse {p : Part} (h : p.Bounded l) (hc : c.Within l) :
    (p.analyse scope c).Within l (Part.Within l l) := by
  cases p with
  | var d | array d | assign d | ret d | typeAlias d | prototype d | count d =>
      exact (d.analyse_within h hc).map fun _ hd => hd
  | print d =>
      have hleft := Print.analyseValues_within d.position scope h.within hc
      exact ⟨hleft.node, hleft.checker⟩
  | evaluation d =>
      have hleft := Expr.analyse_within d.value none scope c h.within hc
      exact ⟨hleft.node, hleft.checker⟩
  | aggregate d =>
      have hleft : (d.declare scope c).Within l (Ty.Within l) := d.declare_within hc
      refine ⟨fun ty hty => ?_, hleft.checker⟩
      rw [← Option.mem_some.mp hty]
      exact hleft.node
  | forward d => exact (d.analyse_within hc).map fun _ hd => hd
  | condition e => exact (Expr.analyseCondition_within h.within scope hc).map fun _ he => he
  | function d | method d => exact (d.enter_within h hc).map fun _ hd => hd
  | classDef d => exact (d.enter_within hc).map fun _ hd => hd

/-- **Analysis of a part keeps to the bound**, also where it stops at an error. -/
theorem Part.analyse_bounded : Part.AnalysisKeeps (Part.Bounded l) (Checker.Within l) := by
  intro p scope c h hc
  obtain ⟨hnode, hchecker⟩ : (p.analyse scope c).Within l (Part.Within l l) :=
    Part.within_analyse h hc
  refine ⟨⟨hnode, ?_, ?_⟩, hchecker⟩
  · rw [← depths_outline, outline_analyse, depths_outline]
    exact h.depths
  · cases p with
    | typeAlias d => exact d.isBarePointer_analyse h.own
    | _ => rfl

end Analysis

/-! ## The second pass at a part -/

section Rescan

variable {scope : ScopeId} {c : Checker}

theorem Checker.Within.settleName (hc : c.Within l.settled) (scope : ScopeId) (name : String)
    {type : Ty} (htype : type.Within l) :
    (c.settleName scope name type).1.Within l.settled
      ∧ (c.settleName scope name type).2.Within l.settled := by
  unfold Checker.settleName
  split
  · have hsettled := hc.registry.rescan type htype
    exact ⟨hsettled, hc.setType scope name hsettled⟩
  · exact ⟨htype.settled, hc⟩

theorem Parameter.rescan_within (declared : Bool) (scope : ScopeId) {p : Parameter}
    (hp : p.type.Within l) (hc : c.Within l.settled) :
    (p.rescan declared scope c).1.type.Within l.settled
      ∧ (p.rescan declared scope c).2.Within l.settled := by
  unfold rescan
  split
  · have hsettled := hc.registry.rescan p.type hp
    dsimp only
    split
    · exact ⟨hsettled, hc.setType scope _ hsettled⟩
    · exact ⟨hsettled, hc⟩
  · exact ⟨hp.settled, hc⟩

theorem Parameter.rescanAll_within (declared : Bool) (scope : ScopeId) {params : List Parameter}
    (hparams : ∀ p ∈ params, p.type.Within l) (hc : c.Within l.settled) :
    (∀ p ∈ (rescanAll declared scope params c).1, p.type.Within l.settled)
      ∧ (rescanAll declared scope params c).2.Within l.settled := by
  induction params generalizing c with
  | nil => exact ⟨List.forall_mem_nil _, hc⟩
  | cons p rest ih =>
      obtain ⟨hp, hrest⟩ := List.forall_mem_cons.mp hparams
      obtain ⟨hp', hc'⟩ := rescan_within declared scope hp hc
      obtain ⟨hrest', hc''⟩ := ih hrest hc'
      exact ⟨List.forall_mem_cons.mpr ⟨hp', hrest'⟩, hc''⟩

theorem TypeAlias.rescan_within {d : TypeAlias} (h : (Part.typeAlias d).Bounded l)
    (hc : c.Within l.settled) :
    (d.rescan scope c).1.type.Within l.settled ∧ (d.rescan scope c).2.Within l.settled := by
  have htype : d.type.Within l := h.within
  unfold rescan
  split
  · exact ⟨htype.settled, hc⟩
  · have hsettled := hc.registry.rescan d.type htype
    have hlevels := hc.registry.levels_rescan h.own
    exact ⟨hsettled,
      (hc.register d.name ⟨hlevels, hsettled⟩ d.position).setType scope d.name hsettled⟩

theorem Prototype.rescan_within {d : Prototype} (h : (Part.prototype d).Within l l)
    (hc : c.Within l.settled) :
    (Part.prototype (d.rescan scope c).1).Within l.settled l
      ∧ (d.rescan scope c).2.Within l.settled := by
  obtain ⟨htype, hparams⟩ := h
  obtain ⟨hparams', hc'⟩ := Parameter.rescanAll_within false scope hparams hc
  unfold rescan
  dsimp only
  split
  · rename_i name cName old result hsome
    have hresult := (Ty.hasDepths_function.mp (htype _ hsome)).2
    have hnew : (Ty.function name cName
        (Parameter.types (Parameter.rescanAll false scope d.params c).1)
        (result.rescan (Parameter.rescanAll false scope d.params c).2.registry)).Within l.settled :=
      Ty.hasDepths_function.mpr
        ⟨List.forall_mem_map.mpr hparams', hc'.registry.rescan result hresult⟩
    refine ⟨⟨fun ty hty => ?_, hparams'⟩, hc'.setType scope d.name hnew⟩
    rw [← Option.mem_some.mp hty]
    exact hnew
  · exact ⟨⟨fun ty hty => (htype ty hty).settled, hparams'⟩, hc'⟩

theorem Function.rescan_within {d : Function} (h : (Part.function d).Within l l) (inner : ScopeId)
    (hc : c.Within l.settled) :
    (Part.function (d.rescan inner scope c).1).Within l.settled l
      ∧ (d.rescan inner scope c).2.Within l.settled := by
  obtain ⟨hreturn, hparams⟩ := h
  obtain ⟨hparams', hc'⟩ := Parameter.rescanAll_within true inner hparams hc
  have hreturn' := hc'.registry.rescan d.returnType hreturn
  refine ⟨⟨hreturn', hparams'⟩, ?_⟩
  exact (hc'.setReturnType inner hreturn').setType scope d.name
    (Ty.hasDepths_function.mpr ⟨List.forall_mem_map.mpr hparams', hreturn'⟩)

/-- **At every part, the second pass needs as much room more as a registered type can take.** -/
theorem Part.rescan_within :
    Part.RescanTakes (Part.Bounded l) (Part.Within l.settled l) (Checker.Within l.settled) where
  kept p h := h.within.settled
  settled p scope c h hc := by
    cases p with
    | var d | array d =>
        obtain ⟨htype, hrest⟩ := h.within
        obtain ⟨htype', hc'⟩ := hc.settleName scope d.name htype
        exact ⟨⟨htype', hrest⟩, hc'⟩
    | forward d =>
        have htype := d.within_aliasType hc.registry
        exact ⟨htype, hc.setType scope d.tag htype⟩
    | typeAlias d => exact d.rescan_within h hc
    | prototype d => exact d.rescan_within h.within hc
    | function d =>
        unfold rescan
        dsimp only
        split
        · rename_i inner _
          exact d.rescan_within h.within inner hc
        · exact ⟨h.within.settled, hc⟩
    | method d =>
        unfold rescan
        dsimp only
        split
        · rename_i inner _
          obtain ⟨hparams, hc'⟩ := Parameter.rescanAll_within true inner h.within hc
          exact ⟨hparams, hc'⟩
        · exact ⟨h.within.settled, hc⟩
    | _ => exact ⟨h.within.settled, hc⟩

end Rescan

/-! ## Units as they are written -/

namespace Expr

mutual

theorem within_outline : (e : Expr) → e.outline.Within l
  | literal info value => Info.within_of_type value.within_naturalType (by simp)
  | name info written _ _ => Info.within_new info.position
  | element info written _ index => ⟨Info.within_new info.position, within_outline index⟩
  | unary info operator operand _ => ⟨Info.within_new info.position, within_outline operand⟩
  | binary info left operator right _ =>
      ⟨Info.within_new info.position, within_outline left, within_outline right⟩
  | call info written _ args => ⟨Info.within_new info.position, within_outlineAll args⟩

theorem within_outlineAll : (es : List Expr) → AllWithin l (outlineAll es)
  | [] => trivial
  | e :: rest => ⟨within_outline e, within_outlineAll rest⟩

end

end Expr

/-- What a part holds before analysis is within any bound. -/
theorem Part.within_outline (p : Part) : p.outline.Within l l := by
  have hvoid : Ty.void.Within l := Ty.hasDepths_primitive .void
  have hpending : ∀ name, (Ty.pending name).Within l := fun _ => Ty.hasDepths_pending _
  have hnone : ∀ ty ∈ (none : Option Ty), ty.Within l :=
    fun ty hty => absurd hty (Option.not_mem_none ty)
  have hvalue : ∀ value : Option Expr, ∀ e ∈ value.map Expr.outline, e.Within l := by
    intro value e he
    obtain ⟨old, -, rfl⟩ := Option.mem_map.mp he
    exact old.within_outline
  have hparams : ∀ params : List Parameter,
      ∀ p ∈ params.map Parameter.outline, p.type.Within l := by
    intro params p hp
    obtain ⟨old, -, rfl⟩ := List.mem_map.mp hp
    exact hvoid
  cases p with
  | var d | ret d => exact ⟨hvoid, hvalue d.value⟩
  | array d =>
      refine ⟨hvoid, d.dimension.within_outline, ?_⟩
      cases d.elements with
      | none => exact List.forall_mem_nil _
      | some elements => exact Expr.allWithin_iff.mp (Expr.within_outlineAll elements)
  | assign d => exact ⟨d.target.within_outline, d.value.within_outline⟩
  | print d => exact Expr.allWithin_iff.mp (Expr.within_outlineAll d.values)
  | evaluation d => exact d.value.within_outline
  | aggregate d => exact hnone
  | forward d | typeAlias d => exact hpending d.name
  | prototype d => exact ⟨hnone, hparams d.params⟩
  | condition e => exact e.within_outline
  | count d => exact ⟨d.left.within_outline, d.right.within_outline⟩
  | function d => exact ⟨hvoid, hparams d.params⟩
  | method d => exact hparams d.params
  | classDef d => exact trivial

/-- The deepest of some pointers. -/
def deepest (depths : List Nat) : Nat := depths.foldr max 0

theorem le_deepest {depth : Nat} {depths : List Nat} (h : depth ∈ depths) :
    depth ≤ deepest depths := by
  induction depths with
  | nil => cases h
  | cons first rest ih =>
      rcases List.mem_cons.mp h with rfl | hrest
      · exact Nat.le_max_left _ _
      · exact Nat.le_trans (ih hrest) (Nat.le_max_right _ _)

/-- The depth of the deepest pointer in a registered type. -/
def Registry.depth (registry : Registry) : Nat :=
  deepest ((registry.bindings.flatMap fun b => b.type.pointers).map Prod.snd)

theorem Registry.Normal.within {registry : Registry} (h : registry.Normal)
    (hregistered : registry.depth ≤ l.registered) (hheld : registry.depth ≤ l.held) :
    registry.Within l := by
  intro b hb
  have hdeepest : ∀ p ∈ b.type.pointers, p.2 ≤ registry.depth := fun p hp =>
    le_deepest (List.mem_map_of_mem (List.mem_flatMap.mpr ⟨b, hb, hp⟩))
  refine ⟨?_, fun p hp => ⟨⟨(h b hb p hp).1, (hdeepest p hp).trans hheld⟩, (h b hb p hp).2⟩⟩
  cases htype : b.type with
  | pointer base depth =>
      have hdepth := hdeepest (base, depth) (by rw [htype]; exact List.mem_cons_self)
      exact hdepth.trans hregistered
  | _ => exact Nat.zero_le _

namespace Stmt

/-- The depth of the deepest pointer that is written in a unit. -/
def depth (unit : List Stmt) : Nat := deepest ((headsAll unit).flatMap Part.depths)

/-- The bound on the levels in a run over a unit. A text and the name of a function are pointers
too. -/
def levels (unit : List Stmt) (registry : Registry) : Levels where
  registered := registry.depth
  held := max 1 (depth unit + registry.depth)
  held_pos := Nat.lt_of_lt_of_le Nat.one_pos (Nat.le_max_left _ _)

section

variable {unit : List Stmt} {registry : Registry}

/-- A unit that was not analysed yet is within its bound. -/
theorem bounded_of_outline (h : (headsAll unit).map Part.outline = headsAll unit) :
    ∀ p ∈ headsAll unit, p.Bounded (levels unit registry) := by
  intro p hp
  have hdepths : (levels unit registry).Admits p.depths := fun k hk =>
    (Nat.add_le_add_right (le_deepest (List.mem_flatMap.mpr ⟨p, hp, hk⟩)) _).trans
      (Nat.le_max_right _ _)
  rw [← h] at hp
  obtain ⟨old, -, rfl⟩ := List.mem_map.mp hp
  exact ⟨old.within_outline, hdepths, by cases old <;> rfl⟩

theorem within_levels (h : registry.Normal) :
    (Checker.start registry).Within (levels unit registry) := by
  refine Checker.within_start (h.within (Nat.le_refl _) ?_)
  exact (Nat.le_add_left _ _).trans (Nat.le_max_right _ _)

end

end Stmt

/-! ## Levels that are taken off -/

namespace Expr

mutual

theorem within_inner : (e : Expr) → e.Within l → ∀ n ∈ e.inner, n.Within l
  | literal _ _, _ | name _ _ _ _, _ => List.forall_mem_nil _
  | element _ _ _ e, he | unary _ _ e _, he =>
      List.forall_mem_cons.mpr ⟨he.2, within_inner e he.2⟩
  | binary _ left _ right _, ⟨_, hleft, hright⟩ => by
      rw [inner, List.forall_mem_append]
      exact ⟨List.forall_mem_cons.mpr ⟨hleft, within_inner left hleft⟩,
        List.forall_mem_cons.mpr ⟨hright, within_inner right hright⟩⟩
  | call _ _ _ args, he => within_innerAll args he.2

theorem within_innerAll : (es : List Expr) → AllWithin l es → ∀ n ∈ innerAll es, n.Within l
  | [], _ => List.forall_mem_nil _
  | e :: rest, hes => by
      rw [innerAll, List.forall_mem_append]
      exact ⟨List.forall_mem_cons.mpr ⟨hes.1, within_inner e hes.1⟩, within_innerAll rest hes.2⟩

end

end Expr

theorem Part.within_reading (p : Part) (scope : ScopeId) {c : Checker} (hc : c.Within l) :
    (p.reading scope c).Within l := by
  unfold reading
  split
  · split
    · rename_i hdeclare
      exact Assignment.declareTarget_within hc hdeclare
    · exact hc
  · exact hc

/-! ## Units -/

/-- The type is in normal form, and a machine word can count the levels of its pointers. -/
def Ty.Counted (ty : Ty) : Prop := ty.HasDepths fun depth => 0 < depth ∧ depth < wordSize

theorem Ty.Within.counted {ty : Ty} (h : ty.Within l) (hroom : l.held < wordSize) : ty.Counted :=
  h.mono fun _ hdepth => ⟨hdepth.1, Nat.lt_of_le_of_lt hdepth.2 hroom⟩

theorem Part.Within.counted {values : Levels} {p : Part} (h : p.Within l values)
    (hroom : l.held < Ty.wordSize) (hvalues : values.held + 1 < Ty.wordSize) :
    ∀ ty ∈ p.types, ty.Counted := by
  refine List.forall_mem_append.mpr ⟨fun ty hty => (h.ownTypes ty hty).counted hroom, ?_⟩
  exact fun ty hty =>
    (Expr.reached_typesAll _ (Expr.allWithin_iff.mpr h.exprs) ty hty).hasDepths hvalues

namespace Stmt

/-- The types that the statements and the expressions of a unit hold. -/
def typesAll (unit : List Stmt) : List Ty := (headsAll unit).flatMap Part.types

/-- What analysis of a unit leaves, whether it has succeeded or not. -/
def analysed (unit : List Stmt) (registry : Registry) : List Stmt × Checker :=
  let o := analyseAll unit Checker.global (Checker.start registry)
  (o.node, o.checker)

/-- What the second pass makes of what analysis has left. -/
def settled (unit : List Stmt) (registry : Registry) : List Stmt × Checker :=
  rescanAll (analysed unit registry).1 Checker.global (analysed unit registry).2

end Stmt

end ExtensionCompiler

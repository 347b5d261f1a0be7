import ExtensionCompiler.Proofs.Walk

set_option autoImplicit false

/-! # What the passes keep

Analysis and the second pass fill statements in, and change nothing that the source says. The
outline of a statement is what it was before: without types, C names, scopes and conversions, as
the constructors of the source give it. Both passes keep the outline of every part of a statement,
also where analysis fails (`Part.outline_analyse`, `Part.outline_rescan`). -/

namespace ExtensionCompiler

namespace Outcome

variable {α β γ : Type}

/-- What a view shows of the node after both parts, and of what is left if the first one fails, it
shows of the node after the sequence. -/
theorem view_andThen (view : β → γ) {shown : γ} {o : Outcome α} {stopped : α → β}
    {next : α → Checker → Outcome β} (hstop : view (stopped o.node) = shown)
    (hnext : view (next o.node o.checker).node = shown) :
    view (o.andThen stopped next).node = shown := by
  unfold andThen
  split
  · exact hstop
  · exact hnext

theorem view_ofDeclare (view : β → γ) {shown : γ} {declared : Except Error Checker} {c : Checker}
    {node done : β} (hnode : view node = shown) (hdone : view done = shown) :
    view (ofDeclare declared c node done).node = shown := by
  cases declared with
  | ok c' => exact hdone
  | error e => exact hnode

end Outcome

/-! ## Expressions -/

namespace Expr

mutual

/-- The expression as it was before analysis. -/
def outline : Expr → Expr
  | literal info value => ofLiteral value info.position
  | name info written _ _ => ofName written info.position
  | element info written _ index => ofElement written index.outline info.position
  | unary info operator operand _ => ofUnary operator operand.outline info.position
  | binary info left operator right _ => ofBinary left.outline operator right.outline info.position
  | call info written _ args => ofCall written (outlineAll args) info.position

def outlineAll : List Expr → List Expr
  | [] => []
  | e :: rest => e.outline :: outlineAll rest

end

mutual

/-- An outline is what it is the outline of. -/
theorem outline_outline : (e : Expr) → e.outline.outline = e.outline
  | .literal _ _ => rfl
  | .name _ _ _ _ => rfl
  | .element info written _ index =>
      congrArg (ofElement written · info.position) (outline_outline index)
  | .unary info operator operand _ =>
      congrArg (ofUnary operator · info.position) (outline_outline operand)
  | .binary info left operator right _ =>
      congrArg₂ (ofBinary · operator · info.position) (outline_outline left)
        (outline_outline right)
  | .call info written _ args =>
      congrArg (ofCall written · info.position) (outlineAll_outlineAll args)

theorem outlineAll_outlineAll : (es : List Expr) → outlineAll (outlineAll es) = outlineAll es
  | [] => rfl
  | e :: rest => congrArg₂ List.cons (outline_outline e) (outlineAll_outlineAll rest)

end

theorem outline_withConversion (e : Expr) (conversion : Option Conversion) :
    (e.withConversion conversion).outline = e.outline := by
  cases e <;> rfl

theorem outline_fit (e : Expr) (slot : Ty) (position : Position) (c : Checker) :
    (e.fit slot position c).node.outline = e.outline := by
  obtain ⟨-, hnode | ⟨conversion, hnode, -⟩⟩ := e.fit_eq slot position c
  · rw [hnode]
  · rw [hnode, outline_withConversion]

theorem outline_fitIndex (index : Expr) (position : Position) (c : Checker) :
    (index.fitIndex position c).node.outline = index.outline := by
  obtain ⟨-, hnode | hnode⟩ := index.fitIndex_eq position c
  · rw [hnode]
  · rw [hnode, outline_fit]

theorem outline_finishUnary (info : Info) (operator : String) (operand : Expr)
    (temp : Option String) (scope : ScopeId) (c : Checker) :
    (finishUnary info operator operand temp scope c).node.outline
      = ofUnary operator operand.outline info.position := by
  unfold finishUnary
  split
  · rfl
  · split <;> rfl

theorem outline_finishBinary (info : Info) (left : Expr) (operator : String) (right : Expr)
    (temp : Option String) (scope : ScopeId) (c : Checker) :
    (finishBinary info left operator right temp scope c).node.outline
      = ofBinary left.outline operator right.outline info.position := by
  unfold finishBinary
  split
  · -- both sides are fitted to objects, which touches their conversions
    unfold finishHostBinary
    have hleft := left.outline_fit .object info.position c
    have hright (c : Checker) := right.outline_fit .object info.position c
    refine Outcome.view_andThen outline ?_
      (Outcome.view_andThen outline ?_ ?_)
    · rw [outline, hleft]
    · rw [outline, hleft, hright]
    · split <;> simp only [Outcome.ok, outline, hleft, hright]
  · split <;> rfl

mutual

/-- **Analysis keeps the outline of an expression**, also when it fails. -/
theorem outline_analyse : (e : Expr) → (slot : Option Ty) → (scope : ScopeId) → (c : Checker) →
    (e.analyse slot scope c).node.outline = e.outline
  | .literal info value, slot, scope, c => rfl
  | .name info written cName assignable, slot, scope, c => by
      rw [analyse]
      unfold analyseName
      split
      · rfl
      · split <;> rfl
  | .element info written cName index, slot, scope, c => by
      rw [analyse]
      split
      · rfl
      · split
        · rfl
        · have hindex := index.outline_analyse (some (.primitive .long)) scope c
          refine congrArg (ofElement written · info.position) ?_
          refine Outcome.view_andThen outline hindex ?_
          exact (outline_fitIndex _ info.position _).trans hindex
  | .unary info operator operand temp, slot, scope, c => by
      have hoperand := operand.outline_analyse none scope c
      rw [analyse]
      refine Outcome.view_andThen outline ?_ ?_
      · rw [outline, hoperand]
        rfl
      · rw [outline_finishUnary, hoperand]
        rfl
  | .binary info left operator right temp, slot, scope, c => by
      have hleft := left.outline_analyse none scope c
      have hright (c : Checker) := right.outline_analyse none scope c
      rw [analyse]
      refine Outcome.view_andThen outline ?_
        (Outcome.view_andThen outline ?_ ?_)
      · rw [outline, hleft]
        rfl
      · rw [outline, hleft, hright]
        rfl
      · rw [outline_finishBinary, hleft, hright]
        rfl
  | .call info written cName args, slot, scope, c => by
      rw [analyse]
      split
      · rfl
      · split
        · rfl
        · split
          · rfl
          · have hargs := fun params => outlineAll_analyseArgs args params info.position scope c
            refine Outcome.view_andThen outline ?_ ?_
            · rw [outline, hargs]
              rfl
            · rw [Outcome.ok, outline, hargs]
              rfl

theorem outlineAll_analyseArgs : (args : List Expr) → (params : List Ty) → (position : Position) →
    (scope : ScopeId) → (c : Checker) →
    outlineAll (analyseArgs args params position scope c).node = outlineAll args
  | [], params, position, scope, c | arg :: args, [], position, scope, c => by
      rw [analyseArgs]
      · rfl
      · simp
  | arg :: args, param :: params, position, scope, c => by
      have harg : ((arg.analyse (some param) scope c).andThen id
          fun arg c => arg.fit param position c).node.outline = arg.outline := by
        have hanalyse := arg.outline_analyse (some param) scope c
        refine Outcome.view_andThen outline hanalyse ?_
        exact (outline_fit _ param position _).trans hanalyse
      rw [analyseArgs]
      refine Outcome.view_andThen outlineAll ?_ ?_
      · rw [outlineAll, harg]
        rfl
      · rw [Outcome.map, outlineAll, harg, outlineAll_analyseArgs]
        rfl

end

theorem outline_analyseInto (e : Expr) (slot : Ty) (scope : ScopeId) (position : Position)
    (c : Checker) : (e.analyseInto slot scope position c).node.outline = e.outline := by
  have hanalyse := e.outline_analyse (some slot) scope c
  refine Outcome.view_andThen outline hanalyse ?_
  exact (outline_fit _ slot position _).trans hanalyse

theorem outline_analyseOptionInto (slot : Ty) (scope : ScopeId) (position : Position)
    (value : Option Expr) (c : Checker) :
    (analyseOptionInto slot scope position value c).node.map outline = value.map outline := by
  cases value with
  | none => rfl
  | some value => exact congrArg some (value.outline_analyseInto slot scope position c)

theorem outlineAll_analyseAllInto (slot : Ty) (scope : ScopeId) (position : Position)
    (values : List Expr) (c : Checker) :
    outlineAll (analyseAllInto slot scope position values c).node = outlineAll values := by
  induction values generalizing c with
  | nil => rfl
  | cons e rest ih =>
      have he := e.outline_analyseInto slot scope position c
      refine Outcome.view_andThen outlineAll ?_ ?_
      · rw [outlineAll, he]
        rfl
      · rw [Outcome.map, outlineAll, he, ih]
        rfl

theorem outline_analyseCondition (e : Expr) (scope : ScopeId) (c : Checker) :
    (e.analyseCondition scope c).node.outline = e.outline := by
  have hanalyse := e.outline_analyse none scope c
  refine Outcome.view_andThen outline hanalyse ?_
  split <;> exact hanalyse

end Expr

/-! ## Parts of statements -/

def Parameter.outline (p : Parameter) : Parameter := { p with type := .void, cName := "" }

namespace Parameter

theorem outline_analyseAll (declare : Bool) (scope : ScopeId) (params : List Parameter)
    (c : Checker) :
    (analyseAll declare scope params c).node.map outline = params.map outline := by
  induction params generalizing c with
  | nil => rfl
  | cons p rest ih =>
      have hp : (p.analyse declare scope c).node.outline = p.outline := by
        unfold analyse
        dsimp only
        split
        · exact Outcome.view_ofDeclare outline rfl rfl
        · rfl
      refine Outcome.view_andThen (List.map outline) ?_ ?_
      · rw [List.map_cons, List.map_cons, hp]
      · rw [Outcome.map, List.map_cons, List.map_cons, hp, ih]

theorem outline_rescanAll (declared : Bool) (scope : ScopeId) (params : List Parameter)
    (c : Checker) : (rescanAll declared scope params c).1.map outline = params.map outline := by
  induction params generalizing c with
  | nil => rfl
  | cons p rest ih =>
      have hp : (p.rescan declared scope c).1.outline = p.outline := by
        unfold rescan
        split
        · dsimp only
          split <;> rfl
        · rfl
      show (p.rescan declared scope c).1.outline
        :: (rescanAll declared scope rest (p.rescan declared scope c).2).1.map outline = _
      rw [hp, ih, List.map_cons]

end Parameter

namespace Part

/-- The part as it was before analysis. -/
def outline : Part → Part
  | .var d => .var { d with value := d.value.map Expr.outline, type := .void, cName := d.name }
  | .array d =>
    .array
      { d with
        dimension := d.dimension.outline
        elements := d.elements.map Expr.outlineAll
        type := .void
        cName := d.name
        assignsElements := false }
  | .assign d => .assign { d with target := d.target.outline, value := d.value.outline }
  | .ret d => .ret { d with value := d.value.map Expr.outline, returnType := .void }
  | .print d => .print { d with values := Expr.outlineAll d.values }
  | .evaluation d => .evaluation { d with value := d.value.outline }
  | .aggregate d => .aggregate { d with type := none, scope := none, memberScope := none }
  | .forward d => .forward { d with type := .pending d.name, cName := d.name }
  | .typeAlias d => .typeAlias { d with type := .pending d.name, cName := d.name }
  | .prototype d =>
    .prototype { d with params := d.params.map Parameter.outline, type := none, cName := d.name }
  | .condition e => .condition e.outline
  | .count d =>
    .count { d with left := d.left.outline, right := d.right.outline, counterCName := d.counter }
  | .function d =>
    .function
      { d with
        params := d.params.map Parameter.outline
        returnType := .void
        scope := none
        cName := d.name }
  | .method d =>
    .method
      { d with
        params := d.params.map Parameter.outline
        scope := none
        cName := d.name
        classCName := rootClassCName }
  | .classDef d =>
    .classDef { d with scope := none, cName := d.name, ancestorCName := rootClassCName }

/-! ### Analysis -/

section Analysis

variable (scope : ScopeId) (c : Checker)

theorem outline_var (d : Variable) :
    (Part.var (d.analyse scope c).node).outline = (Part.var d).outline := by
  have hvalue := Expr.outline_analyseOptionInto (Ty.resolve c.registry d.descriptor d.depth) scope
    d.position d.value c
  refine Outcome.view_andThen (fun d => outline (.var d)) ?_
    (Outcome.view_ofDeclare (fun d => outline (.var d)) ?_ ?_)
  all_goals simp only [outline, hvalue]

theorem outline_array (d : ArrayVariable) :
    (Part.array (d.analyse scope c).node).outline = (Part.array d).outline := by
  have hdimension := d.dimension.outline_analyse none scope c
  have hdeclare (d : ArrayVariable) (initial : Option String) (c : Checker) :
      (Part.array (d.declare initial scope c).node).outline = (Part.array d).outline :=
    Outcome.view_ofDeclare (fun d => outline (.array d)) rfl rfl
  refine Outcome.view_andThen (fun d => outline (.array d)) ?_ ?_
  · simp only [outline, hdimension]
  · dsimp only
    split
    · simp only [Outcome.fail, outline, hdimension]
    · split
      · rename_i helements
        rw [hdeclare]
        simp only [outline, hdimension, helements]
      · rename_i elements helements
        have hvalues (slot : Ty) (c : Checker) :=
          Expr.outlineAll_analyseAllInto slot scope d.position elements c
        refine Outcome.view_andThen (fun d => outline (.array d)) ?_ ?_
        · simp only [outline, hdimension, helements, hvalues, Option.map_some]
        · split
          · simp only [Outcome.fail, outline, hdimension, helements, hvalues, Option.map_some]
          · split <;>
            · rw [hdeclare]
              simp only [outline, hdimension, helements, hvalues, Option.map_some]

theorem outline_assign (d : Assignment) :
    (Part.assign (d.analyse scope c).node).outline = (Part.assign d).outline := by
  unfold Assignment.analyse
  split
  · rfl
  · rename_i c' _
    have htarget := d.target.outline_analyse none scope c'
    have hvalue (slot : Ty) (c : Checker) := d.value.outline_analyseInto slot scope d.position c
    refine Outcome.view_andThen (fun d => outline (.assign d)) ?_ ?_
    · simp only [outline, htarget]
    · dsimp only
      split
      · simp only [Outcome.map, outline, htarget, hvalue]
      · simp only [Outcome.fail, outline, htarget]

theorem outline_ret (d : Return) :
    (Part.ret (d.analyse scope c).node).outline = (Part.ret d).outline := by
  unfold Return.analyse
  split
  · rfl
  · dsimp only
    split
    · rename_i value hd
      have hanalyse := value.outline_analyse none scope c
      have hvalue (slot : Ty) := value.outline_analyseInto slot scope d.position c
      split
      · refine Outcome.view_andThen (fun d => outline (.ret d)) ?_ ?_
        · simp only [outline, Option.map_some, hanalyse, hd]
        · simp only [Outcome.fail, outline, Option.map_some, hanalyse, hd]
      · simp only [Outcome.map, outline, Option.map_some, hvalue, hd]
    · split <;> rfl

theorem outline_print (d : Print) :
    (Part.print (d.analyse scope c).node).outline = (Part.print d).outline := by
  have hvalues (values : List Expr) (c : Checker) : Expr.outlineAll
      (Print.analyseValues d.position scope values c).node = Expr.outlineAll values := by
    induction values generalizing c with
    | nil => rfl
    | cons value rest ih =>
        have hvalue := value.outline_analyse none scope c
        refine Outcome.view_andThen Expr.outlineAll ?_ ?_
        · simp only [Expr.outlineAll, hvalue]
        · split
          · simp only [Outcome.map, Expr.outlineAll, hvalue, ih]
          · simp only [Outcome.fail, Expr.outlineAll, hvalue]
  simp only [Print.analyse, Outcome.map, outline, hvalues]

theorem outline_typeAlias (d : TypeAlias) :
    (Part.typeAlias (d.analyse scope c).node).outline = (Part.typeAlias d).outline := by
  unfold TypeAlias.analyse
  split
  · rfl
  · exact Outcome.view_ofDeclare (fun d => outline (.typeAlias d)) rfl rfl

theorem outline_prototype (d : Prototype) :
    (Part.prototype (d.analyse scope c).node).outline = (Part.prototype d).outline := by
  have hparams := Parameter.outline_analyseAll false scope d.params c
  refine Outcome.view_andThen (fun d => outline (.prototype d)) ?_
    (Outcome.view_ofDeclare (fun d => outline (.prototype d)) ?_ ?_)
  all_goals simp only [outline, hparams]

theorem outline_count (d : CountLoop) :
    (Part.count (d.analyse scope c).node).outline = (Part.count d).outline := by
  unfold CountLoop.analyse
  split
  · split
    · rfl
    · split
      · rename_i counter _ _
        have hleft := d.left.outline_analyseInto counter.type scope d.position c
        have hright (c : Checker) := d.right.outline_analyseInto counter.type scope d.position c
        refine Outcome.view_andThen (fun d => outline (.count d)) ?_ ?_
        · simp only [outline, hleft]
        · simp only [Outcome.map, outline, hleft, hright]
      · rfl
  · rfl

theorem outline_function (d : Function) :
    (Part.function (d.enter scope c).node).outline = (Part.function d).outline := by
  have hparams := Parameter.outline_analyseAll true c.scopes.length d.params
    (c.addScope d.name .function scope).2
  rw [Function.enter_eq]
  refine Outcome.view_andThen (fun d => outline (.function d)) ?_ ?_
  · simp only [outline, hparams]
  · unfold Function.finish
    dsimp only
    split
    · simp only [Outcome.ok, outline, hparams]
    · refine Outcome.view_ofDeclare (fun d => outline (.function d)) ?_ ?_
      all_goals simp only [outline, hparams]

theorem outline_method (d : Method) :
    (Part.method (d.enter scope c).node).outline = (Part.method d).outline := by
  have hparams := Parameter.outline_analyseAll true c.scopes.length d.params
    ((c.addScope d.name .function scope).2.setReturnType c.scopes.length (some .object))
  rw [Method.enter_eq]
  refine Outcome.view_andThen (fun d => outline (.method d)) ?_ ?_
  · simp only [outline, hparams]
  · unfold Method.finish
    dsimp only
    split
    · simp only [Outcome.fail, outline, hparams]
    · refine Outcome.view_ofDeclare (fun d => outline (.method d)) ?_ ?_
      all_goals simp only [outline, hparams]

theorem outline_classDef (d : ClassDef) :
    (Part.classDef (d.enter scope c).node).outline = (Part.classDef d).outline := by
  unfold ClassDef.enter
  split
  · rfl
  · dsimp only
    split <;> rfl

/-- **Analysis keeps the outline of a part**, also when it fails. -/
theorem outline_analyse (p : Part) : (p.analyse scope c).node.outline = p.outline := by
  cases p with
  | var d => exact outline_var scope c d
  | array d => exact outline_array scope c d
  | assign d => exact outline_assign scope c d
  | ret d => exact outline_ret scope c d
  | print d => exact outline_print scope c d
  | evaluation d =>
      exact congrArg (fun value => Part.evaluation { d with value })
        (d.value.outline_analyse none scope c)
  | aggregate d => rfl
  | forward d => exact Outcome.view_ofDeclare (fun d => outline (.forward d)) rfl rfl
  | typeAlias d => exact outline_typeAlias scope c d
  | prototype d => exact outline_prototype scope c d
  | condition e => exact congrArg Part.condition (e.outline_analyseCondition scope c)
  | count d => exact outline_count scope c d
  | function d => exact outline_function scope c d
  | method d => exact outline_method scope c d
  | classDef d => exact outline_classDef scope c d

/-- **The second pass keeps the outline of a part.** -/
theorem outline_rescan (p : Part) : (p.rescan scope c).1.outline = p.outline := by
  cases p with
  | typeAlias d =>
      show (Part.typeAlias (d.rescan scope c).1).outline = _
      unfold TypeAlias.rescan
      split <;> rfl
  | prototype d =>
      have hparams := Parameter.outline_rescanAll false scope d.params c
      show (Part.prototype (d.rescan scope c).1).outline = _
      unfold Prototype.rescan
      dsimp only
      split <;> simp only [outline, hparams]
  | function d =>
      unfold rescan
      dsimp only
      split
      · rename_i inner _
        have hparams := Parameter.outline_rescanAll true inner d.params c
        show (Part.function (d.rescan inner scope c).1).outline = _
        simp only [Function.rescan, outline, hparams]
      · rfl
  | method d =>
      unfold rescan
      dsimp only
      split
      · rename_i inner _
        have hparams := Parameter.outline_rescanAll true inner d.params c
        show (Part.method (d.rescan inner c).1).outline = _
        simp only [Method.rescan, outline, hparams]
      · rfl
  | _ => rfl

end Analysis

end Part

end ExtensionCompiler

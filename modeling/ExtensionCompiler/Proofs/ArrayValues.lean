import ExtensionCompiler.Proofs.Actions
import ExtensionCompiler.Proofs.Headings
import ExtensionCompiler.Proofs.Initializers
import ExtensionCompiler.Proofs.Locals
import ExtensionCompiler.Proofs.Loops
import ExtensionCompiler.Proofs.Origins

set_option autoImplicit false

/-! # The values that arrays start with

An array can be declared with values for its first elements. If all of them are literals, they stand
in the declaration at the top of the function, which is executed once. Otherwise each is assigned
where the array is declared in the source.

The two ways agree as long as nothing else has been assigned to the elements
(`Stmt.arrays_of_compile`). They do not when control passes the declaration for the second time, as
the first way does not give the elements their values again (`Stmt.refillUnit_keeps_old`). -/

namespace ExtensionCompiler

open C (World Process OpenLoop readInitial)

/-! ## Arrays in a world -/

namespace C

/-- Whether a line assigns to an element of the array, or declares it. -/
def Code.writesTo (array : String) : Code → Bool
  | .assign (.index base _) _ => base == array
  | .declaration d => d.name == array
  | _ => false

/-- What can be seen of an array in the states of a world, and of the values that go into it. -/
structure ArrayView (σ V : Type) where
  /-- What an element holds. -/
  cell : σ → Nat → V
  /-- What a term is worth in a state. -/
  value : Term → σ → V
  /-- What the text of a literal is worth. -/
  literal : String → V

/-- The world treats the array as C does: an assignment to an element stores a value there, a
declaration stores those of the literals that it lists, and nothing else reaches the array. So it is
a world in which no line writes through a pointer into the array, and no function that is called
with the array changes it. -/
structure ArrayView.Shows {σ V : Type} (view : ArrayView σ V) (w : World σ) (array : String) :
    Prop where
  literal : ∀ (value : Literal) s, view.value value.term s = view.literal value.term.render
  assign : ∀ (index : Nat) value s s',
    w.line (.assign (.index array (.int index)) value) s = some s' →
      view.cell s' index = view.value value s ∧ ∀ i, i ≠ index → view.cell s' i = view.cell s i
  declare : ∀ (d : Declaration) s s', d.name = array → w.line (.declaration d) s = some s' →
    ∀ text ∈ d.initial, ∀ texts ∈ readInitial text, ∀ i t, texts[i]? = some t →
      view.cell s' i = view.literal t
  line : ∀ (line : Code) s s', line.writesTo array = false → w.line line s = some s' →
    view.cell s' = view.cell s
  test : ∀ condition s r, w.test condition s = some r → view.cell r.2 = view.cell s
  advance : ∀ counter down s s', w.advance counter down s = some s' → view.cell s' = view.cell s

namespace ArrayView.Shows

variable {σ V : Type} {view : ArrayView σ V} {w : World σ} {array : String}

theorem lines_keep (h : view.Shows w array) {code : List Code}
    (hcode : ∀ line ∈ code, line.writesTo array = false) {s s' : σ}
    (hs : w.lines code s = some s') : view.cell s' = view.cell s := by
  induction code generalizing s with
  | nil =>
      cases hs
      rfl
  | cons line rest ih =>
      obtain ⟨hline, hrest⟩ := List.forall_mem_cons.mp hcode
      obtain ⟨s₁, hfirst, hlater⟩ := Option.bind_eq_some_iff.mp hs
      exact (ih hrest hlater).trans (h.line line s s₁ hline hfirst)

/-- A run that writes nothing to the array keeps what it holds. -/
theorem reachesBy_keeps (h : view.Shows w array) {p q : Process σ}
    (hrun : w.ReachesBy (fun line => line.writesTo array = false) p q) :
    view.cell q.state = view.cell p.state :=
  hrun.keeps h.line (fun _ _ => rfl) h.test h.advance

/-- After the declarations the array holds what its own one lists. -/
theorem cell_of_declarations (h : view.Shows w array) {locals : List Declaration}
    (hnodup : (locals.map Declaration.name).Nodup) {l : Declaration} (hl : l ∈ locals)
    (hname : l.name = array) {text : String} (htext : l.initial = some text)
    {texts : List String} (hread : readInitial text = some texts) {s s' : σ}
    (hs : w.lines (locals.map .declaration) s = some s') {i : Nat} {t : String}
    (ht : texts[i]? = some t) : view.cell s' i = view.literal t := by
  induction locals generalizing s with
  | nil => cases hl
  | cons d rest ih =>
      obtain ⟨s₁, hfirst, hlater⟩ := Option.bind_eq_some_iff.mp hs
      obtain ⟨hfresh, hrest⟩ := List.nodup_cons.mp hnodup
      rcases List.mem_cons.mp hl with rfl | hl
      · -- the declarations after it are of other variables
        have hkeep : view.cell s' = view.cell s₁ := by
          refine h.lines_keep ?_ hlater
          intro line hline
          obtain ⟨d, hd, rfl⟩ := List.mem_map.mp hline
          rw [Code.writesTo, beq_eq_false_iff_ne]
          intro heq
          apply hfresh
          rw [hname, ← heq]
          exact List.mem_map_of_mem hd
        rw [hkeep]
        exact h.declare l s s₁ hname hfirst text htext texts hread i t ht
      · exact ih hrest hl hlater

end ArrayView.Shows

end C

/-! ## Elements that are assigned in place -/

theorem Step.writesTo (array : String) (step : Step) : step.code.writesTo array = false := by
  cases step <;> rfl

theorem Step.writesTo_of_mem {array : String} {steps : List Step} :
    ∀ line ∈ steps.map Step.code, line.writesTo array = false := by
  intro line hline
  obtain ⟨step, -, rfl⟩ := List.mem_map.mp hline
  exact step.writesTo array

namespace ArrayVariable

variable {σ V : Type} {view : C.ArrayView σ V} {w : World σ} {array : String}

variable {elements : List Expr}

/-- By induction on the elements: those before the ones that are assigned are kept, and each one
holds in the end what its expression was worth when it was assigned. -/
theorem cell_of_elementCode (h : view.Shows w array) {index : Nat}
    {s s' : σ} (hs : w.lines (elementCode array index elements) s = some s') :
    (∀ i, i < index → view.cell s' i = view.cell s i)
      ∧ ∀ i e, elements[i]? = some e →
        ∃ s₁, w.lines (elementCode array index (elements.take i) ++ e.evaluate) s = some s₁
          ∧ view.cell s' (index + i) = view.value e.term s₁ := by
  induction elements generalizing index s with
  | nil =>
      cases hs
      exact ⟨fun _ _ => rfl, fun i e he => absurd he (by simp)⟩
  | cons e rest ih =>
      have hcode : elementCode array index (e :: rest)
          = e.evaluate ++ (.assign (.index array (.int index)) e.term
            :: (e.dispose ++ elementCode array (index + 1) rest)) := by
        simp [elementCode, Expr.assignTo]
      rw [hcode, C.World.lines_append] at hs
      obtain ⟨s₁, hevaluate, hs⟩ := Option.bind_eq_some_iff.mp hs
      obtain ⟨s₂, hassign, hs⟩ := Option.bind_eq_some_iff.mp hs
      rw [C.World.lines_append] at hs
      obtain ⟨s₃, hdispose, hs⟩ := Option.bind_eq_some_iff.mp hs
      have hbefore := h.lines_keep Step.writesTo_of_mem hevaluate
      have hafter := h.lines_keep Step.writesTo_of_mem hdispose
      obtain ⟨hstored, hothers⟩ := h.assign index e.term s₁ s₂ hassign
      obtain ⟨hkept, hrest⟩ := ih hs
      constructor
      · intro i hi
        rw [hkept i (by omega), hafter, hothers i (by omega), hbefore]
      · intro i e' he'
        cases i with
        | zero =>
            cases he'
            refine ⟨s₁, hevaluate, ?_⟩
            rw [Nat.add_zero, hkept index (by omega), hafter, hstored]
        | succ i =>
            obtain ⟨s₄, hlater, hvalue⟩ := hrest i e' he'
            refine ⟨s₄, ?_, ?_⟩
            · have htake : elementCode array index (e :: rest.take i) ++ e'.evaluate
                  = e.evaluate ++ (.assign (.index array (.int index)) e.term
                    :: (e.dispose ++ (elementCode array (index + 1) (rest.take i)
                      ++ e'.evaluate))) := by
                simp [elementCode, Expr.assignTo]
              rw [List.take_succ_cons, htake, C.World.lines_append, hevaluate, Option.bind_some,
                C.World.lines, hassign, Option.bind_some, C.World.lines_append, hdispose,
                Option.bind_some, hlater]
            · rw [← hvalue]
              congr 1
              omega

theorem elementCode_assigns (array : String) (index : Nat) (elements : List Expr) :
    ∀ line ∈ elementCode array index elements, ∃ target value, line = .assign target value := by
  induction elements generalizing index with
  | nil => exact List.forall_mem_nil _
  | cons e rest ih =>
      intro line hline
      rw [elementCode, Expr.assignTo, List.mem_append, List.mem_append, List.mem_append,
        List.mem_singleton] at hline
      rcases hline with ((hevaluate | rfl) | hdispose) | hrest
      · exact Expr.exists_assign_of_mem (List.mem_append_left e.dispose hevaluate)
      · exact ⟨_, _, rfl⟩
      · exact Expr.exists_assign_of_mem (List.mem_append_right e.evaluate hdispose)
      · exact ih (index + 1) line hrest

/-- Wherever the array is declared, control comes to what follows with every element holding what
its expression was worth at its turn, unless an assignment on the way cannot be executed. -/
def FillsInPlace (d : ArrayVariable) (elements : List Expr) : Prop :=
  ∀ (σ V : Type) (view : C.ArrayView σ V) (w : World σ), view.Shows w d.cName →
    ∀ after loops s,
      w.Follows ⟨d.code ++ after, loops, s⟩
        ((w.lines (elementCode d.cName 0 elements) s).map (⟨after, loops, ·⟩))
      ∧ ∀ s', w.lines (elementCode d.cName 0 elements) s = some s' →
        ∀ i e, elements[i]? = some e →
          ∃ s₁, w.lines (elementCode d.cName 0 (elements.take i) ++ e.evaluate) s = some s₁
            ∧ view.cell s' i = view.value e.term s₁

theorem fillsInPlace {d : ArrayVariable} (helements : d.elements = some elements)
    (hassigns : d.assignsElements = true) : d.FillsInPlace elements := by
  intro σ V view w hshows after loops s
  have hcode : d.code = .location d.position :: elementCode d.cName 0 elements := by
    rw [code, helements, hassigns]
  constructor
  · rw [hcode]
    refine (C.World.Reaches.head (w.step?_location _ loops s d.position) (.refl _)).follows ?_
    exact C.World.follows_lines _ after (elementCode_assigns d.cName 0 elements) loops s
  · intro s' hs i e he
    obtain ⟨-, hcells⟩ := cell_of_elementCode hshows hs
    simpa using hcells i e he

/-! ## Elements that stand in the declaration -/

/-- From the declarations of the function on, every element holds what its expression is worth, as
long as no line has written to the array. -/
def StartsWith (d : ArrayVariable) (elements : List Expr) (locals : List C.Declaration)
    (rest : List C.Code) : Prop :=
  ∀ (σ V : Type) (view : C.ArrayView σ V) (w : World σ), view.Shows w d.cName →
    ∀ s s₁, w.lines (locals.map .declaration) s = some s₁ →
      w.Reaches ⟨locals.map .declaration ++ rest, [], s⟩ ⟨rest, [], s₁⟩
      ∧ ∀ p, w.ReachesBy (fun line => line.writesTo d.cName = false) ⟨rest, [], s₁⟩ p →
        ∀ i e, elements[i]? = some e → view.cell p.state i = view.value e.term p.state

theorem startsWith {d : ArrayVariable}
    (hconstant : elements.all isConstant = true) {locals : List C.Declaration}
    (hnodup : (locals.map C.Declaration.name).Nodup) {l : C.Declaration} (hl : l ∈ locals)
    (hname : l.name = d.cName) (hinitial : l.initial = some (initialText elements))
    (rest : List C.Code) : d.StartsWith elements locals rest := by
  intro σ V view w hshows s s₁ hs
  refine ⟨C.World.reaches_declarations hs rest [], ?_⟩
  intro p hrun i e he
  obtain ⟨value, hvalue⟩ :=
    term_of_isConstant (List.all_eq_true.mp hconstant e (List.mem_of_getElem? he))
  have hcell := hshows.cell_of_declarations hnodup hl hname hinitial
    (readInitial_initialText hconstant) hs
    (show (elements.map fun e => e.term.render)[i]? = some e.term.render by
      rw [List.getElem?_map, he]
      rfl)
  rw [hshows.reachesBy_keeps hrun, hcell, hvalue, hshows.literal]

end ArrayVariable

/-! ## Functions in C -/

/-- The function in C that a definition makes. -/
structure Routine where
  /-- Where the variables of the body are declared. -/
  scope : ScopeId
  heading : C.Heading
  /-- The names that the heading declares. -/
  skip : List String
  /-- What stands before the code of the body, and after it. -/
  before : List C.Code
  body : List Stmt
  after : List C.Code

namespace Routine

def locals (r : Routine) (c : Checker) : List C.Declaration :=
  (c.scope r.scope).declarations r.skip ""

/-- The code after the declarations. -/
def rest (r : Routine) (c : Checker) : List C.Code := r.before ++ Stmt.codeAll r.body c ++ r.after

end Routine

namespace Stmt

def routine? : Stmt → Option Routine
  | .function d body => d.scope.map fun inner =>
      ⟨inner, d.heading (Parameter.named d.params), Parameter.names d.params, [], body, []⟩
  | .method d body => d.scope.map fun inner =>
      ⟨inner, d.heading, [], Method.arityCode d.params.length :: Method.argumentCode 0 d.params,
        body, [.give (some .nil)]⟩
  | _ => none

variable {stmt : Stmt} {r : Routine}

theorem routine?_eq_some (h : stmt.routine? = some r) :
    (∃ d, stmt = .function d r.body ∧ d.scope = some r.scope
        ∧ r.skip = Parameter.names d.params ∧ r.before = [] ∧ r.after = [])
      ∨ ∃ d, stmt = .method d r.body ∧ d.scope = some r.scope ∧ r.skip = []
        ∧ r.before = Method.arityCode d.params.length :: Method.argumentCode 0 d.params
        ∧ r.after = [.give (some .nil)] := by
  cases stmt with
  | function d body =>
      obtain ⟨inner, hinner, rfl⟩ := Option.map_eq_some_iff.mp h
      exact .inl ⟨d, rfl, hinner, rfl, rfl, rfl⟩
  | method d body =>
      obtain ⟨inner, hinner, rfl⟩ := Option.map_eq_some_iff.mp h
      exact .inr ⟨d, rfl, hinner, rfl, rfl, rfl⟩
  | _ => cases h

theorem isDefinition_of_routine? (h : stmt.routine? = some r) : stmt.isDefinition = true := by
  rcases routine?_eq_some h with ⟨d, rfl, -⟩ | ⟨d, rfl, -⟩ <;> rfl

theorem mem_code_of_routine? (h : stmt.routine? = some r) (c : Checker) :
    .function r.heading ((r.locals c).map .declaration ++ r.rest c) ∈ stmt.code c := by
  cases stmt with
  | function d body =>
      obtain ⟨inner, hinner, rfl⟩ := Option.map_eq_some_iff.mp h
      rw [code, Function.code, hinner]
      simp [Routine.locals, Routine.rest]
  | method d body =>
      obtain ⟨inner, hinner, rfl⟩ := Option.map_eq_some_iff.mp h
      rw [code, Method.code, hinner]
      simp [Routine.locals, Routine.rest]
  | _ => cases h

end Stmt

/-- What takes the arguments over does not write to an array. -/
theorem Method.writesTo_argumentCode (array : String) (params : List Parameter) (index : Nat) :
    ∀ line ∈ C.Code.actionsAll (argumentCode index params), line.writesTo array = false := by
  induction params generalizing index with
  | nil => exact List.forall_mem_nil _
  | cons p rest ih =>
      refine List.forall_mem_append.mpr ⟨?_, ih (index + 1)⟩
      exact List.forall_mem_singleton.mpr rfl

/-- If no line of the body writes to the array, no line of the function does after the
declarations. -/
theorem Stmt.writesTo_rest {stmt : Stmt} {r : Routine} (h : stmt.routine? = some r) {c : Checker}
    {array : String}
    (hbody : ∀ line ∈ C.Code.actionsAll (codeAll r.body c), line.writesTo array = false) :
    ∀ line ∈ C.Code.actionsAll (r.rest c), line.writesTo array = false := by
  rw [Routine.rest, C.Code.actionsAll_append, C.Code.actionsAll_append]
  refine List.forall_mem_append.mpr ⟨List.forall_mem_append.mpr ⟨?_, hbody⟩, ?_⟩
  · rcases routine?_eq_some h with ⟨d, -, -, -, hbefore, -⟩ | ⟨d, -, -, -, hbefore, -⟩
    · rw [hbefore]
      exact List.forall_mem_nil _
    · rw [hbefore]
      refine List.forall_mem_append.mpr ⟨?_, Method.writesTo_argumentCode array d.params 0⟩
      exact List.forall_mem_singleton.mpr rfl
  · rcases routine?_eq_some h with ⟨d, -, -, -, -, hafter⟩ | ⟨d, -, -, -, -, hafter⟩
    · rw [hafter]
      exact List.forall_mem_nil _
    · rw [hafter]
      exact List.forall_mem_singleton.mpr rfl

/-! ## Arrays of a checked unit -/

theorem Parameter.names_of_outline {params params' : List Parameter}
    (h : params.map outline = params'.map outline) : names params = names params' := by
  have hname (list : List Parameter) : names (list.map outline) = names list :=
    List.filterMap_map
  rw [← hname params, h, hname]

namespace Passes

variable {unit : List Stmt} {registry : Registry} {checked : Checked} {visits : List Visit}
  {middle : Checker}

variable (h : Passes unit registry checked visits middle)
include h

/-- A parameter of a function is no array. -/
theorem not_array_of_param {scope inner : ScopeId}
    {d : Function} (hp : ⟨scope, .function d⟩ ∈ Stmt.partsAll checked.unit Checker.global)
    (hinner : d.scope = some inner) {name : String} (hname : name ∈ Parameter.names d.params) :
    ∃ e, checked.checker.entryIn? inner name = some e ∧ e.kind ≠ .array := by
  obtain ⟨⟨⟨vscope, before, part⟩, state⟩, hx, hok, heq⟩ := h.exists_revisit hp
  have hpart := congrArg Placed.part heq
  have hshape : (Part.function d).outline = part.outline :=
    (congrArg Part.outline hpart).trans Visit.outline_settle
  cases part with
  | function source =>
      generalize hnode : (source.enter vscope before).node = node at hpart
      have hscope : node.scope = some before.scopes.length :=
        hnode ▸ (Function.enter_entered hok).scope_eq
      have hrescan : ((Part.function node).rescan vscope state).1
          = .function (node.rescan before.scopes.length vscope state).1 := by
        rw [Part.rescan, hscope]
        rfl
      obtain rfl : d = (node.rescan before.scopes.length vscope state).1 :=
        Part.function.inj ((show Part.function d = ((Part.function _).rescan vscope state).1 from
          hpart).trans (hnode ▸ hrescan))
      obtain rfl : before.scopes.length = inner := Option.some.inj (hscope.symm.trans hinner)
      have hnames : Parameter.names (Parameter.rescanAll true before.scopes.length node.params
          state).1 = Parameter.names node.params :=
        Parameter.names_of_outline (Parameter.outline_rescanAll _ _ _ _)
      -- the entry of the parameter, as it was declared
      obtain ⟨p, hmem, hpname⟩ := List.mem_filterMap.mp
        (show name ∈ Parameter.names node.params from hnames ▸ hname)
      obtain ⟨c₁, hparams, hgrows⟩ := Function.analyseAll_of_enter hok
      have hbound := (Parameter.bound_of_analyseAll hparams
        (Checker.length_lt_of_edits_addScope .refl) p (hnode ▸ hmem)).grows hgrows
      obtain ⟨e, he, -, hkind, -⟩ := hbound name hpname
      obtain ⟨type, hfinal⟩ := h.entryIn?_of_visit hx he
      exact ⟨_, hfinal, hkind⟩
  | _ => cases hshape

/-- An array with elements: what it holds fits into it, and its entry has the elements if they are
all constant. -/
theorem array_of_elements {scope : ScopeId}
    {d : ArrayVariable} (hp : ⟨scope, .array d⟩ ∈ Stmt.partsAll checked.unit Checker.global)
    {elements : List Expr} (helements : d.elements = some elements) :
    (∃ base size, d.type = .array base size ∧ elements.length ≤ size)
      ∧ d.assignsElements = !elements.all ArrayVariable.isConstant
      ∧ ∃ e ∈ (checked.checker.scope scope).entries, e.kind = .array ∧ e.cName = d.cName
        ∧ e.isExternal = d.isExternal
        ∧ e.initial = if elements.all ArrayVariable.isConstant
          then some (ArrayVariable.initialText elements) else none := by
  obtain ⟨⟨⟨vscope, before, part⟩, state⟩, hx, hok, heq⟩ := h.exists_revisit hp
  obtain ⟨hmem, -⟩ := h.run.at_revisit middle hx
  obtain rfl : scope = vscope := congrArg Placed.scope heq
  have hpart := congrArg Placed.part heq
  have hshape : (Part.array d).outline = part.outline :=
    (congrArg Part.outline hpart).trans Visit.outline_settle
  cases part with
  | array source =>
      obtain ⟨base, size, dimension, listed, initial, assigns, c₁, c₂, c₃, entry, -, hdimension, -,
        hlisted, hentry, hdeclare, hnode⟩ := ArrayVariable.analyse_ok hok
      obtain rfl : d = (((source.analyse scope before).node).rescan scope state).1 :=
        Part.array.inj hpart
      have hlength : before.scopes.length ≤ (source.analyse scope before).checker.scopes.length :=
        ((Part.array source).analyse_edits scope before).grows.length_le
      rw [hnode] at hlength helements ⊢
      rcases hlisted with ⟨-, rfl, -⟩ | ⟨_, after, -, rfl, -, hsize, rfl, rfl⟩
      · cases helements
      · obtain rfl : after = elements := Option.some.inj helements
        have hfound : (Visit.mk scope before (.array source)).after.entryIn? scope source.name
            = some entry := by
          have hscope : scope < c₂.scopes.length := by
            rw [← Checker.length_of_declare hdeclare]
            exact Nat.lt_of_lt_of_le (h.inRange _ hmem) hlength
          have hdeclared := Checker.entryIn?_of_declare hdeclare hscope
          show (source.analyse scope before).checker.entryIn? _ _ = _
          rw [hnode]
          exact hentry ▸ hdeclared
        obtain ⟨type, hfinal⟩ := h.entryIn?_of_visit hx hfound
        obtain ⟨s, hs, hget⟩ := Checker.entryIn?_eq_some_iff.mp hfinal
        refine ⟨?_, rfl, { entry with type }, ?_, ?_, rfl, ?_, ?_⟩
        · unfold ArrayVariable.rescan Checker.settleName
          dsimp only
          split
          · exact ⟨_, size, rfl, hsize⟩
          · exact ⟨_, size, rfl, hsize⟩
        · rw [Checker.scope_eq_of_getElem? hs]
          exact Scope.mem_of_get? hget
        · rw [hentry]
          rfl
        · rw [hentry]
          rfl
        · rw [hentry]
          rfl
  | _ => cases hshape

end Passes

namespace Stmt

/-- The parts of the body of a function or method are parts of the unit. -/
theorem parts_of_routine? {stmt : Stmt} {r : Routine} (h : stmt.routine? = some r)
    (scope : ScopeId) : ∀ p ∈ partsAll r.body r.scope, p ∈ stmt.parts scope := by
  intro p hp
  rcases routine?_eq_some h with ⟨d, rfl, hinner, -⟩ | ⟨d, rfl, hinner, -⟩
  · rw [parts_function, hinner]
    exact List.mem_cons_of_mem _ hp
  · rw [parts_method, hinner]
    exact List.mem_cons_of_mem _ hp

/-- The heading of a function declares no array of its body. -/
theorem name_notMem_skip {unit : List Stmt} {registry : Registry} {checked : Checked}
    {visits : List Visit} {middle : Checker} (h : Passes unit registry checked visits middle)
    {n : Node} (hn : n ∈ nodesAll [] checked.unit) {r : Routine} (hr : n.stmt.routine? = some r)
    {e : Entry} (he : e ∈ (checked.checker.scope r.scope).entries) (hkind : e.kind = .array) :
    e.name ∉ r.skip := by
  rcases routine?_eq_some hr with ⟨d, hstmt, hinner, hskip, -⟩ | ⟨d, -, -, hskip, -⟩
  · rw [hskip]
    intro hname
    obtain ⟨scope, hplaced⟩ :=
      exists_placed checked.unit h.isComplete n hn (p := .function d) (by rw [hstmt]; rfl)
    obtain ⟨other, hother, hne⟩ := h.not_array_of_param hplaced hinner hname
    -- the names of a scope are distinct
    obtain ⟨s, hs, hget⟩ := Checker.entryIn?_eq_some_iff.mp hother
    rw [Checker.scope_eq_of_getElem? hs] at he
    have hsame := h.tidy.entryIn?_of_mem hs he
    rw [hother, Option.some.injEq] at hsame
    exact hne (hsame ▸ hkind)
  · rw [hskip]
    exact List.not_mem_nil

/-- **What arrays of functions hold.** Let an array be declared in the body of a function or method,
with values for its first elements. There is room for them. If they are not all constant, they are
stored each time control passes the declaration. If they are, nothing happens there: the
declaration at the top of the function stores them, and the array holds them until some line writes
to it. If no line of the body does, it always holds them, as in the first case. -/
theorem arrays_of_compile (unit : List Stmt) (registry : Registry) (options : Options)
    (compiled : Compiled) (h : compile unit registry options = .ok compiled) :
    ∃ checked, check unit registry = .ok checked
      ∧ compiled.code = generate checked.unit checked.checker options
      ∧ ∀ n ∈ nodesAll [] checked.unit, ∀ r, n.stmt.routine? = some r →
        ∃ locals rest, locals = r.locals checked.checker ∧ rest = r.rest checked.checker
          ∧ .function r.heading (locals.map .declaration ++ rest) ∈ n.stmt.code checked.checker
          ∧ (n.isWithin Enclosure.loadsInside = true →
              .function r.heading (locals.map .declaration ++ rest)
                ∈ file checked.unit checked.checker options.target)
          ∧ ∀ d elements, ⟨r.scope, .array d⟩ ∈ partsAll r.body r.scope →
            d.elements = some elements →
            (∃ base size, d.type = .array base size ∧ elements.length ≤ size)
            ∧ (elements.all ArrayVariable.isConstant = false → d.FillsInPlace elements)
            ∧ (elements.all ArrayVariable.isConstant = true →
                d.code = [] ∧ (d.isExternal = false → d.StartsWith elements locals rest))
            ∧ ((∀ line ∈ C.Code.actionsAll (codeAll r.body checked.checker),
                  line.writesTo d.cName = false) →
                ∀ (σ : Type) (w : World σ) s p, w.Reaches ⟨rest, [], s⟩ p →
                  w.ReachesBy (fun line => line.writesTo d.cName = false) ⟨rest, [], s⟩ p) := by
  obtain ⟨checked, hcheck, hcode, -⟩ := compile_ok h
  have hpasses := passes_of_check hcheck
  generalize visitsAll unit Checker.global _ = visits at hpasses
  generalize (analyseAll unit Checker.global _).checker = middle at hpasses
  refine ⟨checked, hcheck, hcode, ?_⟩
  intro n hn r hr
  have hline := mem_code_of_routine? hr checked.checker
  refine ⟨_, _, rfl, rfl, hline, ?_, ?_⟩
  · intro hwithin
    exact mem_file_of_code hn hwithin (isDefinition_of_routine? hr) hline options.target
  intro d elements hmem helements
  obtain ⟨scope, hparts⟩ := exists_parts checked.unit hpasses.isComplete n hn
  have hplaced := hparts _ (parts_of_routine? hr scope _ hmem)
  obtain ⟨hfits, hassigns, e, he, hkind, hcName, hexternal, hinitial⟩ :=
    hpasses.array_of_elements hplaced helements
  refine ⟨hfits, ?_, ?_, ?_⟩
  · intro hconstant
    rw [hconstant] at hassigns
    exact ArrayVariable.fillsInPlace helements hassigns
  · intro hconstant
    rw [hconstant] at hassigns hinitial
    refine ⟨by rw [ArrayVariable.code, helements, hassigns]; rfl, ?_⟩
    intro hown
    have hlocal : e.isLocal r.skip = true := by
      have hskip := name_notMem_skip hpasses hn hr he hkind
      simp [Entry.isLocal, hkind, EntryKind.isStorage, hexternal, hown, hskip]
    refine ArrayVariable.startsWith hconstant (hpasses.isApart_declarations _ _ _).nodup
      (List.mem_append_left _ (List.mem_map_of_mem (List.mem_filter.mpr ⟨he, hlocal⟩))) hcName
      hinitial _
  · intro hbody σ w s p hreaches
    refine C.World.reachesBy_of_reaches ?_ ?_ hreaches
    · intro line hactions
      cases line with
      | assign target value | declaration d => exact hactions _ (List.mem_singleton_self _)
      | _ => rfl
    · intro line hmem
      rw [C.actionsLeft, List.flatMap_nil, List.append_nil] at hmem
      exact writesTo_rest hr hbody line hmem

end Stmt

/-- The state is what the elements of one array hold, as texts. -/
def C.World.ofCells (array : String) : World (Nat → String) where
  line
    | .assign (.index base (.int index)) value, cells =>
      some fun i => if base = array ∧ index = i then value.render else cells i
    | .declaration d, cells =>
      some fun i => if d.name = array then
        ((d.initial.bind readInitial).getD []).getD i (cells i) else cells i
    | _, cells => some cells
  test _ cells := some (true, cells)
  advance _ _ cells := some cells

def C.ArrayView.ofCells : ArrayView (Nat → String) String where
  cell cells := cells
  value term _ := term.render
  literal text := text

theorem C.ArrayView.ofCells_shows (array : String) :
    ArrayView.ofCells.Shows (World.ofCells array) array where
  literal _ _ := rfl
  assign index value s s' hs := by
    cases hs
    refine ⟨if_pos ⟨rfl, rfl⟩, ?_⟩
    intro i hi
    refine if_neg fun heq => hi ?_
    exact (Int.ofNat.inj heq.2).symm
  declare d s s' hname hs text htext texts htexts i t ht := by
    cases hs
    show (if d.name = array then ((d.initial.bind readInitial).getD []).getD i (s i) else s i) = t
    rw [if_pos hname, htext, Option.bind_some, htexts, Option.getD_some,
      List.getD_eq_getElem?_getD, ht, Option.getD_some]
  line line s s' hline hs := by
    simp only [World.ofCells] at hs
    split at hs
    next base index value =>
      cases hs
      have hne : base ≠ array := by simpa [Code.writesTo] using hline
      funext i
      exact if_neg fun heq => hne heq.1
    next d =>
      cases hs
      have hne : d.name ≠ array := by simpa [Code.writesTo] using hline
      funext i
      exact if_neg hne
    next =>
      cases hs
      rfl
  test condition s r hs := by
    cases hs
    rfl
  advance counter down s s' hs := by
    cases hs
    rfl

theorem C.World.exists_lines_ofCells (array : String) (code : List C.Code) (cells : Nat → String) :
    ∃ cells', (World.ofCells array).lines code cells = some cells' := by
  induction code generalizing cells with
  | nil => exact ⟨cells, rfl⟩
  | cons line rest ih =>
      obtain ⟨cells₁, hline⟩ : ∃ cells₁, (World.ofCells array).line line cells = some cells₁ := by
        simp only [World.ofCells]
        split <;> exact ⟨_, rfl⟩
      rw [C.World.lines, hline, Option.bind_some]
      exact ih cells₁

theorem C.ArrayView.ofCells_eq {elements : List Expr} {cells : Nat → String}
    (h : ∀ i e, elements[i]? = some e → cells i = e.term.render) {texts : List String}
    (htexts : elements.map (fun e => e.term.render) = texts) {i : Nat} {t : String}
    (ht : texts[i]? = some t) : cells i = t := by
  rw [← htexts, List.getElem?_map] at ht
  obtain ⟨e, he, rfl⟩ := Option.map_eq_some_iff.mp ht
  exact h i e he

namespace Stmt

/-- A loop without end that declares two arrays, one of constants, and prints an element. -/
def tablesUnit : List Stmt :=
  let here := Position.unknown
  let int (value : Int) := Expr.ofLiteral (.int value) here
  let array (name : String) (elements : List Expr) : Stmt :=
    .array
      { descriptor := .named "int", name, dimension := int 3, elements := some elements,
        position := here }
  [.function
    { descriptor := .named "void", depth := 0, name := "f",
      params := [{ descriptor := .named "int", depth := 0, name := some "x", position := here }],
      position := here }
    [.loop (int 1)
      [array "a" [int 1, int (-2)], array "b" [.ofName "x" here, int 7],
        .print ⟨[.ofElement "a" (int 0) here], here⟩]
      here]]

/-- Wherever control comes to, the first array holds its constants. The second one holds its values
each time control has passed its declaration. -/
theorem tablesUnit_filled :
    ∃ checked, check tablesUnit .empty = .ok checked
      ∧ ∃ n ∈ nodesAll [] checked.unit, ∃ r, n.stmt.routine? = some r
      ∧ (∀ s s₁ p, (World.ofCells "__extc_arr_a").lines
            ((r.locals checked.checker).map .declaration) s = some s₁ →
          (World.ofCells "__extc_arr_a").Reaches ⟨r.rest checked.checker, [], s₁⟩ p →
          p.state 0 = "1" ∧ p.state 1 = "-2")
      ∧ ∃ d, ⟨r.scope, .array d⟩ ∈ partsAll r.body r.scope ∧ d.cName = "__extc_arr_b"
        ∧ ∀ after loops s, ∃ s', s' 0 = "__extc_v_x" ∧ s' 1 = "7"
          ∧ (World.ofCells "__extc_arr_b").Reaches ⟨d.code ++ after, loops, s⟩
            ⟨after, loops, s'⟩ := by
  have hrun : ∃ checked, check tablesUnit .empty = .ok checked
      ∧ ∃ n ∈ nodesAll [] checked.unit, ∃ r, n.stmt.routine? = some r
      ∧ ∃ a b es fs, ⟨r.scope, .array a⟩ ∈ partsAll r.body r.scope
        ∧ ⟨r.scope, .array b⟩ ∈ partsAll r.body r.scope
        ∧ a.elements = some es ∧ b.elements = some fs ∧ a.isExternal = false
        ∧ a.cName = "__extc_arr_a" ∧ b.cName = "__extc_arr_b"
        ∧ es.all ArrayVariable.isConstant = true ∧ fs.all ArrayVariable.isConstant = false
        ∧ es.map (fun e => e.term.render) = ["1", "-2"]
        ∧ fs.map (fun e => e.term.render) = ["__extc_v_x", "7"]
        ∧ ((C.Code.actionsAll (codeAll r.body checked.checker)).all
            fun line => !line.writesTo "__extc_arr_a") = true :=
    ⟨_, rfl, _, List.mem_cons_self, _, rfl, _, _, _, _,
      List.mem_cons_of_mem _ List.mem_cons_self,
      List.mem_cons_of_mem _ (List.mem_cons_of_mem _ List.mem_cons_self), rfl, rfl, rfl, rfl, rfl,
      rfl, rfl, rfl, rfl, rfl⟩
  obtain ⟨checked, hcheck, n, hn, r, hr, a, b, es, fs, ha, hb, hes, hfs, hown, hacName, hbcName,
    hconstant, hvaries, hatexts, hbtexts, hclean⟩ := hrun
  obtain ⟨compiled, hcompile⟩ := exists_compile_ok hcheck {}
  obtain ⟨checked', hcheck', -, hroutines⟩ :=
    arrays_of_compile tablesUnit .empty _ compiled hcompile
  obtain rfl : checked = checked' := Except.ok.inj (hcheck.symm.trans hcheck')
  obtain ⟨locals, rest, rfl, rfl, -, -, harrays⟩ := hroutines n hn r hr
  refine ⟨checked, hcheck, n, hn, r, hr, ?_, b, hb, hbcName, ?_⟩
  · intro s s₁ p hs hreaches
    obtain ⟨-, -, hstarts, hsafe⟩ := harrays a es ha hes
    have hshows := C.ArrayView.ofCells_shows a.cName
    rw [← hacName] at hs hreaches hclean
    obtain ⟨-, hcells⟩ := (hstarts hconstant).2 hown _ _ _ _ hshows s s₁ hs
    have hquiet : ∀ line ∈ C.Code.actionsAll (codeAll r.body checked.checker),
        line.writesTo a.cName = false := by
      intro line hline
      simpa using List.all_eq_true.mp hclean line hline
    have hholds := hcells p (hsafe hquiet _ _ s₁ p hreaches)
    exact ⟨C.ArrayView.ofCells_eq hholds hatexts rfl, C.ArrayView.ofCells_eq hholds hatexts rfl⟩
  · intro after loops s
    obtain ⟨-, hfills, -, -⟩ := harrays b fs hb hfs
    rw [← hbcName]
    obtain ⟨hfollows, hcells⟩ :=
      hfills hvaries _ _ _ _ (C.ArrayView.ofCells_shows b.cName) after loops s
    obtain ⟨s', hs'⟩ := C.World.exists_lines_ofCells b.cName
      (ArrayVariable.elementCode b.cName 0 fs) s
    have hholds : ∀ i e, fs[i]? = some e → s' i = e.term.render := by
      intro i e he
      obtain ⟨_, -, hcell⟩ := hcells s' hs' i e he
      exact hcell
    rw [hs'] at hfollows
    exact ⟨s', C.ArrayView.ofCells_eq hholds hbtexts rfl, C.ArrayView.ofCells_eq hholds hbtexts rfl,
      hfollows⟩

/-- A loop without end that declares an array of constants, and assigns to its first element. -/
def refillUnit : List Stmt :=
  let here := Position.unknown
  let int (value : Int) := Expr.ofLiteral (.int value) here
  [.function
    { descriptor := .named "void", depth := 0, name := "f", params := [], position := here }
    [.loop (int 1)
      [.array
        { descriptor := .named "int", name := "a", dimension := int 2,
          elements := some [int 1, int 2], position := here },
        .assign { target := .ofElement "a" (int 0) here, value := int 9, position := here }]
      here]]

/-- The unit compiles. When control comes to the array for the first time its first element holds
the value that is listed, and when it has passed the array for the second time it does not. -/
theorem refillUnit_keeps_old :
    ∃ checked, check refillUnit .empty = .ok checked
      ∧ ∃ n ∈ nodesAll [] checked.unit, ∃ r condition d later position,
        n.stmt.routine? = some r
        ∧ r.body = [.loop condition (.array d :: later) position]
        ∧ d.elements.map (·.map fun e => e.term.render) = some ["1", "2"]
        ∧ ∃ after loops s₁ s₂, after = codeAll later checked.checker
          ∧ (World.ofCells d.cName).Reaches
            ⟨(r.locals checked.checker).map .declaration ++ r.rest checked.checker, [], fun _ => ""⟩
            ⟨d.code ++ after, loops, s₁⟩
          ∧ (World.ofCells d.cName).Reaches ⟨d.code ++ after, loops, s₁⟩ ⟨after, loops, s₁⟩
          ∧ (World.ofCells d.cName).Reaches ⟨after, loops, s₁⟩ ⟨d.code ++ after, loops, s₂⟩
          ∧ (World.ofCells d.cName).Reaches ⟨d.code ++ after, loops, s₂⟩ ⟨after, loops, s₂⟩
          ∧ s₁ 0 = "1" ∧ s₂ 0 = "9" :=
  ⟨_, rfl, _, List.mem_cons_self, _, _, _, _, _, rfl, rfl, rfl, _, _, _, _, rfl, ⟨3, rfl⟩, .refl _,
    ⟨3, rfl⟩, .refl _, rfl, rfl⟩

end Stmt

end ExtensionCompiler

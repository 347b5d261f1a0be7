import ExtensionCompiler.Proofs.Walk

set_option autoImplicit false

/-! # Values at the places they are used

A `Site` is a value and the type of the slot that it goes to: an initial value and the declared
type, an element and the base type of its array, a value and the target it is assigned to, what is
returned and what the function returns, a bound and the counter of its loop, an argument and its
parameter, an operand and `object` if the operation is one on objects. `Visit.sites` lists the sites
that analysis of a part has passed, at any depth inside its expressions. The slots are read off the
declarations and the state that analysis met, not off what analysis has noted.

In statements whose analysis succeeds every site is well typed
(`Stmt.sites_wellTyped_of_analyseAll`). -/

namespace ExtensionCompiler

/-! ## Sites -/

/-- A value, and the type of the slot that it goes to if there is one. -/
structure Site where
  slot : Option Ty
  value : Expr

/-- There is a slot, and the value fits it. -/
def Site.WellTyped (site : Site) : Prop := ∃ slot, site.slot = some slot ∧ site.value.Fits slot

namespace Expr

mutual

/-- The sites inside an expression, in which names stand for the entries that `find` gives. -/
def sites (find : String → Option Entry) : Expr → List Site
  | literal _ _ => []
  | name _ _ _ _ => []
  | element _ _ _ index => index.sites find
  | unary _ _ operand _ => operand.sites find
  | binary info left _ right _ =>
    (if info.type.isObject then [⟨some .object, left⟩, ⟨some .object, right⟩] else [])
      ++ (left.sites find ++ right.sites find)
  -- the parameters come from the entry: the node of a call does not keep them
  | call _ written _ args =>
    argSites find (((find written).bind Entry.callee?).elim [] fun callee => callee.1) args

/-- The sites of arguments for parameters, and those inside the arguments. An argument without a
parameter has no slot. -/
def argSites (find : String → Option Entry) : List Ty → List Expr → List Site
  | _, [] => []
  | params, arg :: args =>
    ⟨params.head?, arg⟩ :: (arg.sites find ++ argSites find params.tail args)

end

end Expr

namespace Part

/-- The expressions of a part. -/
def exprs : Part → List Expr
  | .var d => d.value.toList
  | .array d => d.dimension :: d.elements.getD []
  | .assign d => [d.target, d.value]
  | .ret d => d.value.toList
  | .print d => d.values
  | .evaluation d => [d.value]
  | .condition e => [e]
  | .count d => [d.left, d.right]
  | _ => []

/-- The state that the names of a part are looked up in. An assignment may declare its target before
anything else. -/
def reading (p : Part) (scope : ScopeId) (c : Checker) : Checker :=
  match p with
  | .assign d =>
    match d.declareTarget scope c with
    | .ok c => c
    | .error _ => c
  | _ => c

/-- The sites of a part outside its expressions, in the scope and the state of its look-ups. -/
def slots (scope : ScopeId) (c : Checker) : Part → List Site
  | .var d => d.value.toList.map fun e => ⟨some (Ty.resolve c.registry d.descriptor d.depth), e⟩
  | .array d => (d.elements.getD []).map fun e => ⟨some (Ty.resolve c.registry d.descriptor 0), e⟩
  | .assign d => [⟨some d.target.type, d.value⟩]
  -- not `d.returnType`, which analysis has written itself
  | .ret d =>
    d.value.toList.map fun e => ⟨(c.enclosingFunction? scope).map (Return.expected c), e⟩
  | .count d =>
    let counter := (c.find? scope d.counter).map Entry.type
    [⟨counter, d.left⟩, ⟨counter, d.right⟩]
  | _ => []

end Part

/-- The state that the names of a visited part are looked up in. -/
def Visit.reading (v : Visit) : Checker := v.part.reading v.scope v.before

/-- The sites of an analysed part. -/
def Visit.sites (v : Visit) : List Site :=
  v.result.part.slots v.scope v.reading
    ++ v.result.part.exprs.flatMap (Expr.sites (v.reading.find? v.scope))

/-! ## Results of operations on native values -/

namespace Ty

/-- A type that is no function behind its aliases is concrete once they are looked through. -/
theorem concrete_eq_unaliased : (ty : Ty) → (∀ n c ps r, ty.unaliased ≠ function n c ps r) →
    ty.concrete = ty.unaliased
  | aliased name cName target, h => by
      rw [concrete, unaliased]
      exact concrete_eq_unaliased target h
  | function n c ps r, h => absurd rfl (h n c ps r)
  | primitive _, _ => rfl
  | pointer _ _, _ => rfl
  | array _ _, _ => rfl
  | aggregate _ _ _ _, _ => rfl
  | object, _ => rfl
  | pending _, _ => rfl

theorem concrete_of_isNumeric {ty : Ty} (h : ty.isNumeric = true) :
    ∃ kind, ty.concrete = primitive kind := by
  unfold isNumeric at h
  split at h
  · rename_i kind hty
    refine ⟨kind, ?_⟩
    rw [concrete_eq_unaliased ty (by simp [hty]), hty]
  · cases h

theorem isNumeric_of_isInteger {ty : Ty} (h : ty.isInteger = true) : ty.isNumeric = true := by
  unfold isInteger at h
  unfold isNumeric
  split at h
  · rename_i kind _
    rw [Primitive.isInteger] at h
    rw [Primitive.isNumeric]
    cases hrank : kind.rank? with
    | none => rw [hrank] at h; cases h
    | some rank => rfl
  · cases h

theorem isObject_concrete_of_isAddress {ty : Ty} (h : ty.isAddress = true) :
    ty.concrete.isObject = false := by
  unfold isAddress at h
  split at h
  · rename_i base depth hty
    rw [concrete_eq_unaliased ty (by simp [hty]), hty]
    rfl
  · rename_i base size hty
    rw [concrete_eq_unaliased ty (by simp [hty]), hty]
    rfl
  · cases h

end Ty

/-- No operation on native values gives an object. -/
theorem Operator.isObject_of_nativeResult? {operator : String} {left right type : Ty}
    (h : nativeResult? operator left right = some type) : type.isObject = false := by
  have hwider : ∀ {a b : Ty}, a.isNumeric = true → b.isNumeric = true →
      (a.concrete.wider b.concrete).isObject = false := by
    intro a b ha hb
    obtain ⟨k, hk⟩ := Ty.concrete_of_isNumeric ha
    obtain ⟨l, hl⟩ := Ty.concrete_of_isNumeric hb
    rw [hk, hl]
    rfl
  -- one case for each family of operators, in the order of the definition
  unfold nativeResult? at h
  split at h
  · split at h
    · cases h
      rfl
    · cases h
  · split at h
    · split at h
      · cases h
        rfl
      · cases h
    · split at h
      · split at h
        · rename_i hint
          rw [Bool.and_eq_true] at hint
          cases h
          exact hwider (Ty.isNumeric_of_isInteger hint.1) (Ty.isNumeric_of_isInteger hint.2)
        · cases h
      · split at h
        · split at h
          · rename_i hnum
            rw [Bool.and_eq_true] at hnum
            cases h
            exact hwider hnum.1 hnum.2
          · split at h
            · rename_i hoffset
              simp only [Bool.and_eq_true] at hoffset
              cases h
              exact Ty.isObject_concrete_of_isAddress hoffset.1.2
            · cases h
        · cases h

/-! ## Typed expressions have well typed sites -/

namespace Expr

mutual

theorem sites_wellTyped {find : String → Option Entry} :
    (e : Expr) → Typed find e → ∀ site ∈ e.sites find, site.WellTyped
  | .literal _ _, _, site, hsite | .name _ _ _ _, _, site, hsite => nomatch hsite
  | .element _ _ _ index, h, site, hsite => by
      cases h with
      | element _ _ hindex _ => exact sites_wellTyped index hindex site hsite
  | .unary _ _ operand _, h, site, hsite => by
      cases h with
      | hostUnary hop _ _ | unary hop _ _ => exact sites_wellTyped operand hop site hsite
  | .binary info left _ right _, h, site, hsite => by
      rw [sites, List.mem_append, List.mem_append] at hsite
      cases h with
      | hostBinary hl hfl hr hfr htype _ =>
          rcases hsite with hhere | hleft | hright
          · rw [htype] at hhere
            simp only [show Ty.object.isObject = true from rfl, if_true, List.mem_cons,
              List.not_mem_nil, or_false] at hhere
            rcases hhere with rfl | rfl
            · exact ⟨.object, rfl, hfl⟩
            · exact ⟨.object, rfl, hfr⟩
          · exact sites_wellTyped left hl site hleft
          · exact sites_wellTyped right hr site hright
      | binary hl _ hr _ hres =>
          rcases hsite with hhere | hleft | hright
          · -- an operation on native values is no site, because its result is no object
            rw [Operator.isObject_of_nativeResult? hres] at hhere
            cases hhere
          · exact sites_wellTyped left hl site hleft
          · exact sites_wellTyped right hr site hright
  | .call _ written _ args, h, site, hsite => by
      cases h with
      | call hfind hcallee hargs =>
          rw [sites, hfind, Option.bind_some, hcallee] at hsite
          exact argSites_wellTyped args _ hargs site hsite

theorem argSites_wellTyped {find : String → Option Entry} :
    (args : List Expr) → (params : List Ty) → TypedArgs find params args →
    ∀ site ∈ argSites find params args, site.WellTyped
  | [], _, _, site, hsite => nomatch hsite
  | arg :: args, params, h, site, hsite => by
      cases h with
      | @cons param params _ _ harg hfits hargs =>
          rw [argSites, List.mem_cons, List.mem_append] at hsite
          rcases hsite with rfl | hinside | hrest
          · exact ⟨param, rfl, hfits⟩
          · exact sites_wellTyped arg harg site hinside
          · exact argSites_wellTyped args params hargs site hrest

end

/-! ## Analysis of several values -/

variable {scope : ScopeId} {c c' : Checker} {slot : Ty} {position : Position}

theorem analyse_ok {e e' : Expr} {slot : Option Ty} (h : e.analyse slot scope c = .ok e' c') :
    Typed (c.find? scope) e' ∧ c'.find? scope = c.find? scope := by
  have htyped := analyse_typed e slot scope c (by rw [h]; rfl)
  have htemps := analyse_takesTemps e slot scope c
  rw [h] at htyped htemps
  exact ⟨htyped, htemps.find?_eq scope⟩

theorem analyseInto_ok {e e' : Expr} (h : e.analyseInto slot scope position c = .ok e' c') :
    Typed (c.find? scope) e' ∧ e'.Fits slot ∧ c'.find? scope = c.find? scope := by
  have herror : (e.analyseInto slot scope position c).error = none := by rw [h]; rfl
  obtain ⟨htyped, hfits⟩ := analyseInto_typed herror
  have htemps := analyseInto_takesTemps e slot scope position c
  rw [h] at htyped hfits htemps
  exact ⟨htyped, hfits, htemps.find?_eq scope⟩

theorem analyseOptionInto_ok {value value' : Option Expr}
    (h : analyseOptionInto slot scope position value c = .ok value' c') :
    ∀ e ∈ value'.toList, Typed (c.find? scope) e ∧ e.Fits slot := by
  cases value with
  | none =>
      cases h
      exact List.forall_mem_nil _
  | some e =>
      have herror : (e.analyseInto slot scope position c).error = none := by
        have := congrArg Outcome.error h
        exact this
      rw [analyseOptionInto, Outcome.eq_ok herror] at h
      cases h
      intro e' he'
      rw [Option.toList_some, List.mem_singleton] at he'
      rw [he']
      exact analyseInto_typed herror

theorem analyseAllInto_ok {values values' : List Expr}
    (h : analyseAllInto slot scope position values c = .ok values' c') :
    ∀ e ∈ values', Typed (c.find? scope) e ∧ e.Fits slot := by
  induction values generalizing c values' with
  | nil =>
      cases h
      exact List.forall_mem_nil _
  | cons e rest ih =>
      have herror : (analyseAllInto slot scope position (e :: rest) c).error = none := by
        rw [h]
        rfl
      rw [analyseAllInto] at h herror
      obtain ⟨first, c₁, hfirst, heq, hrest⟩ := Outcome.andThen_inv herror
      -- the values after the first are analysed in `c₁`, which finds the same names
      obtain ⟨htyped, hfits, hfind⟩ := analyseInto_ok hfirst
      have hothers := Outcome.eq_ok (o := analyseAllInto slot scope position rest c₁) hrest
      rw [heq, hothers] at h
      cases h
      exact List.forall_mem_cons.mpr ⟨⟨htyped, hfits⟩, hfind ▸ ih hothers⟩

end Expr

theorem Print.analyseValues_typed {position : Position} {scope : ScopeId} {values : List Expr}
    {c : Checker} (h : (analyseValues position scope values c).error = none) :
    ∀ e ∈ (analyseValues position scope values c).node, e.Typed (c.find? scope) := by
  induction values generalizing c with
  | nil => exact List.forall_mem_nil _
  | cons value rest ih =>
      rw [analyseValues] at h ⊢
      obtain ⟨first, c₁, hfirst, heq, hrest⟩ := Outcome.andThen_inv h
      obtain ⟨htyped, hfind⟩ := Expr.analyse_ok hfirst
      rw [heq]
      by_cases hprint : isPrintable first.type = true
      · rw [if_pos hprint] at hrest ⊢
        exact List.forall_mem_cons.mpr ⟨htyped, hfind ▸ ih hrest⟩
      · rw [if_neg hprint] at hrest
        cases hrest

/-! ## Analysis of a part -/

namespace Part

/-- What analysis of a part is asked for: typed expressions, and values that fit their slots. -/
def Typed (p : Part) (scope : ScopeId) (c : Checker) : Prop :=
  (∀ e ∈ p.exprs, e.Typed (c.find? scope)) ∧ ∀ site ∈ p.slots scope c, site.WellTyped

/-- A part with no expressions. -/
theorem typed_of_exprs_eq_nil {p : Part} {scope : ScopeId} {c : Checker} (h : p.exprs = [])
    (hs : p.slots scope c = []) : p.Typed scope c := by
  refine ⟨fun e he => ?_, fun site hsite => ?_⟩
  · rw [h] at he
    cases he
  · rw [hs] at hsite
    cases hsite

/-- **Soundness of the analysis of a part.** -/
theorem analyse_typed (p : Part) (scope : ScopeId) (c : Checker)
    (h : (p.analyse scope c).error = none) :
    (p.analyse scope c).node.Typed scope (p.reading scope c) := by
  cases p with
  | var d =>
      obtain ⟨type, value, c₁, c₂, entry, rfl, hvalue, -, -, hok⟩ := Variable.analyse_ok h
      have htyped := Expr.analyseOptionInto_ok hvalue
      rw [analyse, hok]
      refine ⟨fun e he => (htyped e he).1, fun site hsite => ?_⟩
      obtain ⟨e, he, rfl⟩ := List.mem_map.mp hsite
      exact ⟨_, rfl, (htyped e he).2⟩
  | array d =>
      obtain ⟨base, size, dimension, elements, initial, assigns, c₁, c₂, c₃, entry, rfl, hdim,
        -, helems, -, -, hok⟩ := ArrayVariable.analyse_ok h
      obtain ⟨hdimTyped, hfind⟩ := Expr.analyse_ok hdim
      -- no elements, or elements that were analysed after the dimension
      have htyped : ∀ e ∈ elements.getD [], e.Typed (c.find? scope)
          ∧ e.Fits (Ty.resolve c.registry d.descriptor 0) := by
        rcases helems with ⟨-, rfl, -⟩ | ⟨before, after, -, rfl, hafter, -⟩
        · exact List.forall_mem_nil _
        · intro e he
          have := Expr.analyseAllInto_ok hafter e he
          rwa [hfind] at this
      rw [analyse, hok]
      refine ⟨List.forall_mem_cons.mpr ⟨hdimTyped, fun e he => (htyped e he).1⟩,
        fun site hsite => ?_⟩
      obtain ⟨e, he, rfl⟩ := List.mem_map.mp hsite
      exact ⟨_, rfl, (htyped e he).2⟩
  | assign d =>
      obtain ⟨target, value, c₁, c₂, c₃, hdeclare, htarget, -, hvalue, hok⟩ :=
        Assignment.analyse_ok h
      obtain ⟨htargetTyped, hfind⟩ := Expr.analyse_ok htarget
      obtain ⟨hvalueTyped, hfits, -⟩ := Expr.analyseInto_ok hvalue
      rw [hfind] at hvalueTyped
      -- `c₁` has the target declared, and is the state of all look-ups of the assignment
      rw [analyse, hok, reading, hdeclare]
      exact ⟨List.forall_mem_cons.mpr ⟨htargetTyped, List.forall_mem_singleton.mpr hvalueTyped⟩,
        List.forall_mem_singleton.mpr ⟨_, rfl, hfits⟩⟩
  | ret d =>
      obtain ⟨function, value, c₁, hfun, hvalue, hok⟩ := Return.analyse_ok h
      have htyped := Expr.analyseOptionInto_ok hvalue
      rw [analyse, hok]
      refine ⟨fun e he => (htyped e he).1, fun site hsite => ?_⟩
      obtain ⟨e, he, rfl⟩ := List.mem_map.mp hsite
      refine ⟨Return.expected c function, ?_, (htyped e he).2⟩
      show (c.enclosingFunction? scope).map (Return.expected c) = _
      rw [hfun, Option.map_some]
  | print d => exact ⟨Print.analyseValues_typed h, List.forall_mem_nil _⟩
  | evaluation d =>
      exact ⟨List.forall_mem_singleton.mpr (d.value.analyse_typed none scope c h),
        List.forall_mem_nil _⟩
  | condition e =>
      have hcondition : (e.analyseCondition scope c).error = none := h
      obtain ⟨value, c₁, hvalue, heq, hrest⟩ := Outcome.andThen_inv hcondition
      change e.analyseCondition scope c = _ at heq
      obtain ⟨htyped, -⟩ := Expr.analyse_ok hvalue
      refine ⟨List.forall_mem_singleton.mpr ?_, List.forall_mem_nil _⟩
      show Expr.Typed _ (e.analyseCondition scope c).node
      rw [heq]
      by_cases hcond : (value.type.isObject || value.type.isScalar) = true
      · rw [if_pos hcond]
        exact htyped
      · rw [if_neg hcond] at hrest
        cases hrest
  | count d =>
      obtain ⟨counter, left, right, c₁, c₂, hcounter, hleft, hright, hok⟩ := CountLoop.analyse_ok h
      obtain ⟨hltyped, hlfits, hfind⟩ := Expr.analyseInto_ok hleft
      obtain ⟨hrtyped, hrfits, -⟩ := Expr.analyseInto_ok hright
      rw [hfind] at hrtyped
      rw [analyse, hok]
      have hslot : (c.find? scope d.counter).map Entry.type = some counter.type := by
        rw [hcounter, Option.map_some]
      exact ⟨List.forall_mem_cons.mpr ⟨hltyped, List.forall_mem_singleton.mpr hrtyped⟩,
        List.forall_mem_cons.mpr ⟨⟨_, hslot, hlfits⟩,
          List.forall_mem_singleton.mpr ⟨_, hslot, hrfits⟩⟩⟩
  | _ => exact typed_of_exprs_eq_nil rfl rfl

end Part

theorem Visit.sites_wellTyped {v : Visit} (h : v.outcome.error = none) :
    ∀ site ∈ v.sites, site.WellTyped := by
  obtain ⟨hexprs, hslots⟩ := v.part.analyse_typed v.scope v.before h
  intro site hsite
  rcases List.mem_append.mp hsite with hslot | hinside
  · exact hslots site hslot
  · obtain ⟨e, he, hmem⟩ := List.mem_flatMap.mp hinside
    exact e.sites_wellTyped (hexprs e he) site hmem

/-- **In statements that analysis accepts, every value fits the slot it goes to.** The visits cover
the analysed statements: their results are the parts of the tree, in order. -/
theorem Stmt.sites_wellTyped_of_analyseAll (stmts : List Stmt) (scope : ScopeId) (c : Checker)
    (h : (Stmt.analyseAll stmts scope c).error = none) :
    Stmt.partsAll (Stmt.analyseAll stmts scope c).node scope
        = (Stmt.visitsAll stmts scope c).map Visit.result
      ∧ ∀ v ∈ Stmt.visitsAll stmts scope c, ∀ site ∈ v.sites, site.WellTyped := by
  have htraced := Stmt.analyseAll_traced stmts scope c h
  refine ⟨htraced.results, fun v hv => ?_⟩
  exact Visit.sites_wellTyped (htraced.run.outcome_ok v hv)

/-- A function, and a method that converts, loops and calls: `int` and `object` values meet at every
kind of slot. -/
def Stmt.mixedUnit : List Stmt :=
  let here := Position.unknown
  let n := Expr.ofName "n" here
  let o := Expr.ofName "o" here
  let int (value : Int) := Expr.ofLiteral (.int value) here
  [.function
      { descriptor := .named "int", depth := 0, name := "twice",
        params := [⟨.named "int", 0, some "a", here, .void, ""⟩], position := here }
      [.ret { value := some (.ofBinary (.ofName "a" here) "*" (int 2) here), position := here }],
    .method
      { name := "sum", params := [⟨.named "object", 0, some "o", here, .void, ""⟩],
        position := here }
      [.var
        { form := .plain, descriptor := .named "int", depth := 0, name := "n", value := some o,
          position := here },
        .array
          { descriptor := .named "long", name := "xs", dimension := int 2,
            elements := some [int 1, n], position := here },
        .count
          { left := int 0, leftOperator := "<=", counter := "n", rightOperator := "<",
            right := .ofCall "twice" [o] here, position := here }
          [.assign
            { target := .ofName "t" here, value := .ofBinary o "+" n here, position := here }],
        .ret { value := some n, position := here }]]

/-- Eleven values of the unit go to slots, and four are converted on the way. -/
theorem Stmt.mixedUnit_sites_wellTyped :
    (Stmt.analyseAll Stmt.mixedUnit Checker.global (Checker.start .empty)).error = none
      ∧ (((Stmt.visitsAll Stmt.mixedUnit Checker.global (Checker.start .empty)).flatMap
          Visit.sites).map fun site => site.value.conversion?.isSome)
        = [false, true, false, false, false, false, true, false, false, true, true]
      ∧ ∀ v ∈ Stmt.visitsAll Stmt.mixedUnit Checker.global (Checker.start .empty),
          ∀ site ∈ v.sites, site.WellTyped :=
  ⟨by decide +kernel, by decide +kernel,
    (Stmt.sites_wellTyped_of_analyseAll _ _ _ (by decide +kernel)).2⟩

end ExtensionCompiler

import ExtensionCompiler.Proofs.Headings
import ExtensionCompiler.Proofs.Locals
import ExtensionCompiler.Proofs.Origins
import ExtensionCompiler.Proofs.Stores
import ExtensionCompiler.Proofs.Worlds

set_option autoImplicit false

/-! # How a method takes its arguments

The host calls a method with the number of its arguments and an array of them. The C function of the
method declares its local variables, raises an error if the number is wrong, and assigns each
argument to a parameter, unboxed as the type of the parameter asks.

`Method.Binds` says that it does so for all parameters. It holds just if every parameter has a name
and nothing in the body of the method assigns from the array as well
(`Stmt.prologues_of_compile`). A parameter without a name has no variable, and the assignment to it
has no target (`Stmt.namelessUnit_unbound`). -/

namespace ExtensionCompiler

open C.Code (Avoids stores storesAll)

/-! ## Unboxing -/

namespace Method

/-- The value is the argument with a number, unboxed for a slot of the type. An object needs no
unboxing. -/
def Unboxes (number : Nat) (type : Ty) (value : C.Term) : Prop :=
  if type.isObject then value = .index "argv" (.int number)
  else ∃ function, type.unboxFunction? = some function
    ∧ value = .call function [.index "argv" (.int number)]

theorem unboxes_argument {type : Ty} (h : Conversion.between .object type ≠ .impossible)
    (number : Nat) : Unboxes number type (argument number type) := by
  unfold Unboxes argument
  by_cases hobject : type.isObject = true
  · have hbetween : Conversion.between .object type = .direct := by
      rw [Conversion.between, hobject]
      rfl
    rw [if_pos hobject, hbetween]
  · have hbetween : Conversion.between .object type
        = type.unboxFunction?.elim .impossible fun function => .through (.unbox function type) := by
      rw [Conversion.between, Bool.eq_false_of_not_eq_true hobject]
      cases type.unboxFunction? <;> rfl
    rw [hbetween] at h ⊢
    rw [if_neg hobject]
    cases hunbox : type.unboxFunction? with
    | none =>
        rw [hunbox] at h
        exact absurd rfl h
    | some function => exact ⟨function, rfl, rfl⟩

/-! ## The assignments to parameters -/

theorem elements_argument (number : Nat) (type : Ty) :
    (argument number type).elements = [("argv", .int number)] := by
  unfold argument
  split <;> rfl

theorem takes_argument (number other : Nat) (type : Ty) :
    (argument number type).takes "argv" other = decide (number = other) := by
  simp [C.Term.takes, elements_argument, C.Term.isInt]

/-- Just one of the assignments to parameters is from the argument with a given number. -/
theorem filter_argumentCode (params : List Parameter) (first number : Nat) :
    (storesAll (argumentCode first params)).filter (fun s => s.value.takes "argv" number)
      = if number < first then []
        else (params[number - first]?.map fun p =>
          (⟨.ident p.cName, argument number p.type⟩ : C.Store)).toList := by
  induction params generalizing first with
  | nil => simp [argumentCode, storesAll]
  | cons p rest ih =>
      have hstores : storesAll (argumentCode first (p :: rest))
          = ⟨.ident p.cName, argument first p.type⟩ :: storesAll (argumentCode (first + 1) rest) :=
        rfl
      rw [hstores, List.filter_cons, takes_argument, ih]
      rcases Nat.lt_trichotomy number first with hlt | rfl | hgt
      · rw [if_neg (by simp; omega), if_pos (by omega), if_pos hlt]
      · simp
      · have hsub : number - first = number - (first + 1) + 1 := by omega
        rw [if_neg (by simp; omega), if_neg (by omega), if_neg (by omega), hsub,
          List.getElem?_cons_succ]

end Method

/-! ## The variables of parameters -/

namespace Parameter

/-- A parameter that has no name keeps the C name that it had. -/
theorem cName_of_analyseAll (scope : ScopeId) {params : List Parameter}
    (h : ∀ p ∈ params, p.cName = "") (c : Checker) :
    ∀ p ∈ (analyseAll true scope params c).node, p.name = none → p.cName = "" := by
  induction params generalizing c with
  | nil => exact List.forall_mem_nil _
  | cons q rest ih =>
      obtain ⟨hq, hrest⟩ := List.forall_mem_cons.mp h
      have hfirst : (q.analyse true scope c).node.name = none →
          (q.analyse true scope c).node.cName = "" := by
        unfold analyse
        dsimp only
        cases hname : q.name with
        | none => exact fun _ => hq
        | some name =>
            dsimp only
            unfold Outcome.ofDeclare
            split <;> exact fun hnone => absurd hnone (Option.some_ne_none name)
      rw [analyseAll, Outcome.andThen]
      split
      · exact List.forall_mem_cons.mpr ⟨hfirst, fun p hp _ => hrest p hp⟩
      · exact List.forall_mem_cons.mpr ⟨hfirst, ih hrest _⟩

/-- Parameters in which nothing is pending are left alone by the second pass. -/
theorem rescanAll_eq_self {params : List Parameter} (h : ∀ p ∈ params, p.type.pending? = none)
    (declared : Bool) (scope : ScopeId) (c : Checker) :
    rescanAll declared scope params c = (params, c) := by
  induction params with
  | nil => rfl
  | cons p rest ih =>
      obtain ⟨hp, hrest⟩ := List.forall_mem_cons.mp h
      have hrescan : p.rescan declared scope c = (p, c) := by
        rw [rescan, hp]
        rfl
      rw [rescanAll, hrescan]
      dsimp only
      rw [ih hrest]

end Parameter

/-! ## The check of the number -/

open C (World)

namespace C.World

variable {σ : Type}

/-- What the check of the number of arguments asks of a world: the number, which `argc` gives, can
be compared, the declaration of another variable leaves it as it is, and control does not come back
from an error that is raised. -/
structure Counts (w : World σ) (argc : σ → Int) : Prop where
  test : ∀ n s, w.test (.plain (.ident "argc") "!=" (.int n)) s = some (decide (argc s ≠ n), s)
  declare : ∀ (d : Declaration) s, d.name ≠ "argc" →
    ∃ s', w.line (.declaration d) s = some s' ∧ argc s' = argc s
  raise : ∀ args s, w.line (.eval (.call "rb_raise" args)) s = none

/-- Declarations leave the number of arguments as it is. -/
theorem Counts.lines_declarations {w : World σ} {argc : σ → Int} (h : w.Counts argc)
    {locals : List Declaration} (hnames : ∀ d ∈ locals, d.name ≠ "argc") (s : σ) :
    ∃ s', w.lines (locals.map .declaration) s = some s' ∧ argc s' = argc s := by
  induction locals generalizing s with
  | nil => exact ⟨s, rfl, rfl⟩
  | cons d others ih =>
      obtain ⟨hd, hothers⟩ := List.forall_mem_cons.mp hnames
      obtain ⟨s₁, hline, hkept⟩ := h.declare d s hd
      obtain ⟨s₂, hlines, hkept₂⟩ := ih hothers s₁
      refine ⟨s₂, ?_, hkept₂.trans hkept⟩
      rw [List.map_cons, lines, hline]
      exact hlines

end C.World

namespace Method

/-- The line that raises the error for a wrong number of arguments. -/
def arityError (count : Nat) : C.Code :=
  .eval (.call "rb_raise" [.ident "rb_eArgError",
    .verbatim ("wrong number of arguments (given %d, expected " ++ Nat.repr count ++ ")"),
    .ident "argc"])

/-- Whatever number of arguments the lines are run with, they come to `rest` if it is the right one,
and otherwise to an error, after which they never come to their end. -/
def ChecksCount (count : Nat) (lines rest : List C.Code) : Prop :=
  ∀ {σ : Type} {w : World σ} {argc : σ → Int}, w.Counts argc → ∀ s, ∃ s', argc s' = argc s
    ∧ (argc s = count → w.Reaches ⟨lines, [], s⟩ ⟨rest, [], s'⟩)
    ∧ (argc s ≠ count → w.Reaches ⟨lines, [], s⟩ ⟨arityError count :: rest, [], s'⟩
      ∧ ∀ t, ¬ w.Ends ⟨lines, [], s⟩ t)

theorem checksCount {locals : List C.Declaration} (hnames : ∀ d ∈ locals, d.name ≠ "argc")
    (count : Nat) (rest : List C.Code) :
    ChecksCount count (locals.map .declaration ++ arityCode count :: rest) rest := by
  intro σ w argc hcounts s
  obtain ⟨s', hlines, hkept⟩ := hcounts.lines_declarations hnames s
  have hreaches := C.World.reaches_declarations hlines (arityCode count :: rest) []
  have hbranch : w.step? ⟨arityCode count :: rest, [], s'⟩
      = some ⟨(if argc s' ≠ count then [arityError count] else []) ++ rest, [], s'⟩ := by
    rw [arityCode, C.World.step?_branch, hcounts.test]
    simp only [Option.map_some, decide_eq_true_eq]
    rfl
  refine ⟨s', hkept, ?_, ?_⟩
  · intro heq
    rw [if_neg (by rw [hkept]; exact not_not_intro heq)] at hbranch
    exact hreaches.trans (.head hbranch (.refl _))
  · intro hne
    rw [if_pos (by rwa [hkept])] at hbranch
    have herror := hreaches.trans (.head hbranch (.refl _))
    refine ⟨herror, ?_⟩
    have hstuck := C.World.follows_step? (w := w) (p := ⟨arityError count :: rest, [], s'⟩)
      (.inl (List.cons_ne_nil _ _))
    rw [arityError, C.World.step?_eval, hcounts.raise] at hstuck
    exact fun t hends => hstuck t (hends.of_reaches herror)

/-! ## Binding -/

/-- The lines take every argument over: the one with a number is assigned once, unboxed as the type
of the parameter asks, to a local variable of that type, and each to another one. -/
structure Binds (d : Method) (locals : List C.Declaration) (lines : List C.Code) : Prop where
  assigned : ∀ number p, d.params[number]? = some p → ∃ value, Unboxes number p.type value
    ∧ (storesAll lines).filter (fun s => s.value.takes "argv" number) = [⟨.ident p.cName, value⟩]
  declared : ∀ p ∈ d.params, ∃ l ∈ locals, l.name = p.cName ∧ l.type = p.type
  distinct : (d.params.map Parameter.cName).Nodup

theorem storesAll_declarations (locals : List C.Declaration) :
    storesAll (locals.map .declaration) = [] := by
  induction locals with
  | nil => rfl
  | cons _ _ ih => exact ih

/-- The assignments of the function of a method are those to parameters and those of its body. -/
theorem storesAll_lines (locals : List C.Declaration) (params : List Parameter)
    (body : List C.Code) :
    storesAll (locals.map .declaration ++ arityCode params.length ::
        (argumentCode 0 params ++ body ++ [.give (some .nil)]))
      = storesAll (argumentCode 0 params) ++ storesAll body := by
  have harity (rest : List C.Code) : storesAll (arityCode params.length :: rest) = storesAll rest :=
    rfl
  have hgive : storesAll [.give (some .nil)] = [] := rfl
  rw [C.Code.storesAll_append, storesAll_declarations, List.nil_append, harity,
    C.Code.storesAll_append, C.Code.storesAll_append, hgive, List.append_nil]

/-- The assignments from an argument are the one to its parameter and those of the body. -/
theorem filter_lines (locals : List C.Declaration) (params : List Parameter) (body : List C.Code)
    (number : Nat) :
    (storesAll (locals.map .declaration ++ arityCode params.length ::
        (argumentCode 0 params ++ body ++ [.give (some .nil)]))).filter
        (fun s => s.value.takes "argv" number)
      = (params[number]?.map fun p =>
          (⟨.ident p.cName, argument number p.type⟩ : C.Store)).toList
        ++ (storesAll body).filter (fun s => s.value.takes "argv" number) := by
  rw [storesAll_lines, List.filter_append, filter_argumentCode]
  rfl

/-- What analysis has made of the parameters of a method: an object can be converted to each, their
names are distinct, and the scope of the body has a variable for each that has a name. -/
structure Declares (d : Method) (inner : ScopeId) (c : Checker) : Prop where
  between : ∀ p ∈ d.params, Conversion.between .object p.type ≠ .impossible
  nodup : (Parameter.names d.params).Nodup
  cName : ∀ p ∈ d.params, ∀ name ∈ p.name, ∃ kind : EntryKind, kind.isType = false
    ∧ p.cName = kind.lead ++ name
  declared : ∀ p ∈ d.params, p.name.isSome = true → ∃ l ∈ (c.scope inner).declarations [] "",
    l.name = p.cName ∧ l.type = p.type

namespace Declares

variable {d : Method} {inner : ScopeId} {c : Checker}

/-- Parameters that have names have different names in C. -/
theorem nodup_cName (h : d.Declares inner c) (hnamed : ∀ p ∈ d.params, p.name.isSome = true) :
    (d.params.map Parameter.cName).Nodup := by
  refine List.pairwise_map.mpr ((List.pairwise_filterMap.mp h.nodup).imp_of_mem ?_)
  intro p q hp hq hne heq
  obtain ⟨name, hname⟩ := Option.isSome_iff_exists.mp (hnamed p hp)
  obtain ⟨name', hname'⟩ := Option.isSome_iff_exists.mp (hnamed q hq)
  obtain ⟨kind, hkind, hp'⟩ := h.cName p hp name hname
  obtain ⟨kind', hkind', hq'⟩ := h.cName q hq name' hname'
  rw [hp', hq'] at heq
  exact hne name hname name' hname' ((EntryKind.lead_append_inj hkind hkind').mp heq).1

/-- The arguments are taken over if all parameters have names and the body takes none. -/
theorem binds (h : d.Declares inner c) (hnamed : ∀ p ∈ d.params, p.name.isSome = true)
    {body : List C.Code}
    (hbody : ∀ number < d.params.length, ∀ s ∈ storesAll body,
      s.value.takes "argv" number = false) :
    d.Binds ((c.scope inner).declarations [] "")
      (((c.scope inner).declarations [] "").map .declaration ++ arityCode d.params.length ::
        (argumentCode 0 d.params ++ body ++ [.give (some .nil)])) where
  assigned := by
    intro number p hp
    have hbelow : number < d.params.length := (List.getElem?_eq_some_iff.mp hp).1
    have hnone : (storesAll body).filter (fun s => s.value.takes "argv" number) = [] := by
      rw [List.filter_eq_nil_iff]
      intro s hs
      rw [hbody number hbelow s hs]
      exact Bool.noConfusion
    refine ⟨argument number p.type, unboxes_argument (h.between p (List.mem_of_getElem? hp)) _, ?_⟩
    rw [filter_lines, hp, hnone]
    rfl
  declared := fun p hp => h.declared p hp (hnamed p hp)
  distinct := h.nodup_cName hnamed

end Declares

/-- If the arguments are taken over once, nothing in the body assigns from them. -/
theorem Binds.untouched {d : Method} {locals : List C.Declaration} {body : List C.Code}
    (h : d.Binds locals (locals.map .declaration ++ arityCode d.params.length ::
        (argumentCode 0 d.params ++ body ++ [.give (some .nil)]))) :
    ∀ number < d.params.length, ∀ s ∈ storesAll body, s.value.takes "argv" number = false := by
  intro number hbelow s hs
  obtain ⟨value, -, hstores⟩ := h.assigned number _ (List.getElem?_eq_getElem hbelow)
  rw [filter_lines, List.getElem?_eq_getElem hbelow] at hstores
  have hnone := (List.cons.inj hstores).2
  have hs' := List.filter_eq_nil_iff.mp hnone s hs
  simpa using hs'

/-- No type of a parameter shows a pending name. -/
theorem pending?_params {d : Method} {scope : ScopeId} {c : Checker}
    (h : (d.enter scope c).error = none) :
    ∀ p ∈ (d.enter scope c).node.params, p.type.pending? = none := by
  intro p hp
  rw [← Ty.head?_pendings, Conversion.pendings_of_between (between_params h p hp)]
  rfl

end Method

namespace Passes

variable {unit : List Stmt} {registry : Registry} {checked : Checked} {visits : List Visit}
  {middle : Checker}

variable {scope : ScopeId}

variable (h : Passes unit registry checked visits middle)
include h

/-- A method of a checked unit is as analysis has left it. -/
theorem exists_enter {d : Method}
    (hp : ⟨scope, .method d⟩ ∈ Stmt.partsAll checked.unit Checker.global) :
    ∃ x ∈ Visit.revisits visits middle, ∃ source, x.visit.part = .method source
      ∧ (source.enter x.visit.scope x.visit.before).error = none
      ∧ d = (source.enter x.visit.scope x.visit.before).node := by
  obtain ⟨⟨⟨vscope, before, part⟩, state⟩, hx, hok, heq⟩ := h.exists_revisit hp
  have hpart := congrArg Placed.part heq
  -- neither pass makes a method of anything else
  have hshape : (Part.method d).outline = part.outline :=
    (congrArg Part.outline hpart).trans Visit.outline_settle
  cases part with
  | method source =>
      refine ⟨_, hx, source, rfl, hok, ?_⟩
      obtain ⟨params, c₁, entry, -, -, -, hnode⟩ := Method.enter_ok hok
      have hpending := Method.pending?_params hok
      have hsettle : (Part.method (source.enter vscope before).node).rescan vscope state
          = (.method (source.enter vscope before).node, state) := by
        rw [hnode] at hpending ⊢
        rw [Part.rescan]
        dsimp only
        rw [Method.rescan, Parameter.rescanAll_eq_self hpending]
        rfl
      exact Part.method.inj (hpart.trans (congrArg Prod.fst hsettle))
  | _ => cases hshape

/-- The parameters of a method of a checked unit are declared. -/
theorem declares_method
    {d : Method} (hp : ⟨scope, .method d⟩ ∈ Stmt.partsAll checked.unit Checker.global) :
    ∃ inner, d.scope = some inner ∧ d.Declares inner checked.checker := by
  obtain ⟨x, hx, source, hpart, hok, rfl⟩ := h.exists_enter hp
  obtain ⟨⟨vscope, before, part⟩, state⟩ := x
  cases hpart
  have hbetween := Method.between_params hok
  have hpending := Method.pending?_params hok
  have hdeclares (p : Parameter) (hp : p ∈ (source.enter vscope before).node.params)
      {name : String} (hname : p.name = some name) :=
    h.typeIn?_declared hx (Visit.declares_methodParam hok hp hname)
  obtain ⟨params, c₁, entry, hparams, hentry, hdeclare, hnode⟩ := Method.enter_ok hok
  have hopen : before.scopes.length
      < ((before.addScope source.name .function vscope).2.setReturnType
        before.scopes.length (some .object)).scopes.length :=
    Checker.length_lt_of_edits_addScope (.single (.setReturnType _ _ _))
  obtain ⟨hnodup, hdeclared⟩ := Parameter.declared_of_analyseAll hparams hopen
  have hgrows : c₁.Grows (source.enter vscope before).checker :=
    Checker.Edits.grows (b := true) (.single (.declare hdeclare
      (hentry ▸ Scope.linked_functionEntry _ _ _ _ _ _ _)))
  rw [hnode] at hbetween hpending hdeclares ⊢
  -- the variable of a parameter, in the end
  have hvariable : ∀ p ∈ params, ∀ name ∈ p.name, ∃ e ∈
      (checked.checker.scope before.scopes.length).entries, e.isLocal [] = true
        ∧ e.name = name ∧ e.cName = p.cName ∧ e.type = p.type := by
    intro p hp name hname
    obtain ⟨e, he, hlocal, -, hcName⟩ :=
      ((Parameter.bound_of_analyseAll hparams hopen p hp).grows hgrows) name hname
    obtain ⟨type, hfinal⟩ := h.entryIn?_of_visit hx (show (Visit.mk vscope before
      (.method source)).after.entryIn? _ _ = _ from he)
    obtain ⟨s, hs, hget⟩ := Checker.entryIn?_eq_some_iff.mp hfinal
    have htype := hdeclares p hp hname
    have hresolved : p.type = Ty.resolve before.registry p.descriptor p.depth :=
      (hdeclared p hp).type_eq
    rw [Checker.typeIn?, hfinal, Option.map_some, ← hresolved, if_neg (by simp [hpending p hp])]
      at htype
    rw [Checker.scope_eq_of_getElem? hs]
    refine ⟨_, Scope.mem_of_get? hget, hlocal, Scope.name_of_get? hget, hcName, ?_⟩
    exact Option.some.inj htype
  refine ⟨before.scopes.length, rfl, hbetween, hnodup, ?_, ?_⟩
  · intro p hp name hname
    obtain ⟨e, he, hlocal, rfl, hcName, -⟩ := hvariable p hp name hname
    obtain ⟨hkind, hlead⟩ :=
      (h.tidy.linked _ (Checker.mem_scope he) e he).cName_of_isLocal hlocal
    exact ⟨e.kind, hkind, hcName ▸ hlead⟩
  · intro p hp hnamed
    obtain ⟨name, hname⟩ := Option.isSome_iff_exists.mp hnamed
    obtain ⟨e, he, hlocal, -, hcName, htype⟩ := hvariable p hp name hname
    refine ⟨_, List.mem_append_left _ (List.mem_map_of_mem (List.mem_filter.mpr ⟨he, hlocal⟩)),
      hcName, htype⟩

/-- In a unit as it is written, a parameter of a method that has no name has none in C either. -/
theorem cName_method (hheads : visits.map Visit.part = Stmt.headsAll unit)
    (hwritten : (Stmt.headsAll unit).map Part.outline = Stmt.headsAll unit) {d : Method}
    (hp : ⟨scope, .method d⟩ ∈ Stmt.partsAll checked.unit Checker.global) :
    ∀ p ∈ d.params, p.name = none → p.cName = "" := by
  obtain ⟨x, hx, source, hpart, hok, rfl⟩ := h.exists_enter hp
  have hsource : .method source ∈ (Stmt.headsAll unit).map Part.outline := by
    rw [hwritten, ← hheads, ← hpart]
    exact List.mem_map_of_mem (h.run.at_revisit middle hx).1
  have hblank : ∀ p ∈ source.params, p.cName = "" := by
    obtain ⟨old, -, hold⟩ := List.mem_map.mp hsource
    cases old with
    | method d =>
        cases hold
        intro p hp
        obtain ⟨q, -, rfl⟩ := List.mem_map.mp hp
        rfl
    | _ => cases hold
  obtain ⟨params, c₁, entry, hparams, -, -, hnode⟩ := Method.enter_ok hok
  have hkept := Parameter.cName_of_analyseAll x.visit.before.scopes.length hblank
    ((x.visit.before.addScope source.name .function x.visit.scope).2.setReturnType
      x.visit.before.scopes.length (some .object))
  rw [hparams] at hkept
  rw [hnode]
  exact hkept

end Passes

namespace Stmt

/-- The line of the function of a method. -/
theorem mem_code_of_method {stmt : Stmt} {d : Method} {body : List Stmt} {inner : ScopeId}
    (h : stmt = .method d body) (hinner : d.scope = some inner) (c : Checker) :
    .function d.heading (((c.scope inner).declarations [] "").map .declaration
        ++ Method.arityCode d.params.length ::
          (Method.argumentCode 0 d.params ++ codeAll body c ++ [.give (some .nil)]))
      ∈ stmt.code c := by
  rw [h, code, Method.code, hinner]
  simp

/-- **How the methods of a compiled unit take their arguments.** The function of a method declares
its local variables and checks the number of arguments, so that none but the right one leads on.
The variables are named apart from what the host passes. If all parameters have names and the body
has no assignment from an argument, then every argument is assigned once, unboxed, to the variable
of its parameter. Without a name there is no such variable. The body has no such assignment if it
never speaks of elements of a variable whose name in C is that of the array of arguments. -/
theorem prologues_of_compile (unit : List Stmt) (registry : Registry) (options : Options)
    (compiled : Compiled) (h : compile unit registry options = .ok compiled) :
    ∃ checked, check unit registry = .ok checked
      ∧ compiled.code = generate checked.unit checked.checker options
      ∧ ∀ n ∈ nodesAll [] checked.unit, ∀ d body, n.stmt = .method d body →
        ∃ inner locals rest lines, d.scope = some inner
          ∧ locals = (checked.checker.scope inner).declarations [] ""
          ∧ rest = Method.argumentCode 0 d.params ++ codeAll body checked.checker
            ++ [.give (some .nil)]
          ∧ lines = locals.map .declaration ++ Method.arityCode d.params.length :: rest
          ∧ .function d.heading lines ∈ n.stmt.code checked.checker
          ∧ (n.isWithin Enclosure.loadsInside = true →
              .function d.heading lines ∈ file checked.unit checked.checker options.target)
          ∧ Method.ChecksCount d.params.length lines rest
          ∧ (∀ l ∈ locals, l.name ≠ "argc" ∧ l.name ≠ "argv")
          ∧ ((∀ p ∈ d.params, p.name.isSome = true) →
              (∀ number < d.params.length, ∀ s ∈ storesAll (codeAll body checked.checker),
                s.value.takes "argv" number = false) → d.Binds locals lines)
          ∧ ((headsAll unit).map Part.outline = headsAll unit → d.Binds locals lines →
              (∀ p ∈ d.params, p.name.isSome = true)
              ∧ ∀ number < d.params.length, ∀ s ∈ storesAll (codeAll body checked.checker),
                s.value.takes "argv" number = false)
          ∧ ((∀ p ∈ headsAll body, "argv" ∉ p.bases) → ∀ number,
              ∀ s ∈ storesAll (codeAll body checked.checker),
                s.value.takes "argv" number = false) := by
  obtain ⟨checked, hcheck, hcode, -⟩ := compile_ok h
  have hpasses := passes_of_check hcheck
  have hheads := map_part_visitsAll unit Checker.global (Checker.start registry)
  generalize visitsAll unit Checker.global _ = visits at hpasses hheads
  generalize (analyseAll unit Checker.global _).checker = middle at hpasses
  refine ⟨checked, hcheck, hcode, ?_⟩
  intro n hn d body hstmt
  obtain ⟨scope, hplaced⟩ :=
    exists_placed checked.unit hpasses.isComplete n hn (p := .method d) (by rw [hstmt]; rfl)
  obtain ⟨inner, hinner, hdeclares⟩ := hpasses.declares_method hplaced
  have hapart := hpasses.isApart_declarations inner [] ""
  have hnames (l : C.Declaration) (hl : l ∈ (checked.checker.scope inner).declarations [] "")
      {name : String} (hname : name.toList.head? ≠ some '_') : l.name ≠ name := by
    rintro rfl
    exact hapart.notMem hname (List.mem_map_of_mem hl)
  have hline := mem_code_of_method hstmt hinner checked.checker
  refine ⟨inner, _, _, _, hinner, rfl, rfl, rfl, hline, ?_, ?_, ?_, ?_, ?_, ?_⟩
  · exact fun hwithin => mem_file_of_code hn hwithin (hstmt ▸ rfl) hline options.target
  · exact Method.checksCount (fun l hl => hnames l hl (by decide)) d.params.length _
  · exact fun l hl => ⟨hnames l hl (by decide), hnames l hl (by decide)⟩
  · exact fun hnamed hbody => hdeclares.binds hnamed hbody
  · intro hwritten hbinds
    refine ⟨?_, hbinds.untouched⟩
    intro p hp
    cases hname : p.name with
    | some name => rfl
    | none =>
        obtain ⟨l, hl, hlname, -⟩ := hbinds.declared p hp
        rw [hpasses.cName_method hheads hwritten hplaced p hp hname] at hlname
        exact absurd hlname (hnames l hl (by decide))
  · intro hbases number s hs
    exact C.Term.takes_eq_false (avoids_codeAll checked.checker body hbases s hs) number

/-- A method and its body. -/
def method? : Stmt → Option (Method × List Stmt)
  | .method d body => some (d, body)
  | _ => none

theorem method?_eq_some {stmt : Stmt} {d : Method} {body : List Stmt}
    (h : stmt.method? = some (d, body)) : stmt = .method d body := by
  unfold method? at h
  split at h
  · cases h
    rfl
  · cases h

/-- A class with a method that takes a number, an object and a text. -/
def mixerUnit : List Stmt :=
  let here := Position.unknown
  let param (type name : String) (depth : Nat) : Parameter :=
    { descriptor := .named type, depth, name := some name, position := here }
  [.classDef { name := "Mixer", ancestor := none, position := here }
    [.method
      { name := "blend", params := [param "int" "count" 0, param "object" "owner" 0,
          param "char" "label" 1], position := here }
      [.var
        { form := .plain, descriptor := .named "int", depth := 0, name := "total",
          value := some (.ofName "count" here), position := here }]]]

/-- The state is the number of arguments, and an error is the end. -/
def argumentCounter : World Int where
  line
    | .eval (.call "rb_raise" _), _ => none
    | _, argc => some argc
  test
    | .plain (.ident "argc") "!=" (.int n), argc => some (decide (argc ≠ n), argc)
    | _, argc => some (true, argc)
  advance _ _ argc := some argc

theorem counts_argumentCounter : argumentCounter.Counts id where
  test _ _ := rfl
  declare _ argc _ := ⟨argc, rfl, rfl⟩
  raise _ _ := rfl

/-- All three arguments of the method are taken over, and a call with two is refused. -/
theorem mixerUnit_bound :
    ∃ checked, check mixerUnit .empty = .ok checked
      ∧ ∃ n ∈ nodesAll [] checked.unit, ∃ d body, n.stmt = .method d body
      ∧ ∃ locals lines rest, .function d.heading lines ∈ file checked.unit checked.checker "mixer"
        ∧ d.Binds locals lines
        ∧ d.params.map (fun p => (p.cName, p.type))
          = [("__extc_v_count", .primitive .int), ("__extc_v_owner", .object),
            ("__extc_ptr_label", .pointer (.primitive .char) 1)]
        ∧ argumentCounter.Reaches ⟨lines, [], 3⟩ ⟨rest, [], 3⟩
        ∧ ∀ t, ¬ argumentCounter.Ends ⟨lines, [], 2⟩ t := by
  have hrun : ∃ checked, check mixerUnit .empty = .ok checked
      ∧ ∃ n ∈ nodesAll [] checked.unit, n.isWithin Enclosure.loadsInside = true
        ∧ ∃ m ∈ n.stmt.method?,
          m.1.params.map (fun p => (p.cName, p.type))
            = [("__extc_v_count", .primitive .int), ("__extc_v_owner", .object),
              ("__extc_ptr_label", .pointer (.primitive .char) 1)]
          ∧ (m.1.params.all fun p => p.name.isSome) = true
          ∧ ((headsAll m.2).all fun p => "argv" ∉ p.bases) = true :=
    exists_ok_of_decide (by decide +kernel)
  obtain ⟨checked, hcheck, n, hn, hwithin, ⟨d, body⟩, hmethod, hparams, hnamed, hbases⟩ := hrun
  obtain ⟨compiled, hcompile⟩ := exists_compile_ok hcheck { target := "mixer" }
  obtain ⟨checked', hcheck', -, hprologues⟩ :=
    prologues_of_compile mixerUnit .empty _ compiled hcompile
  obtain rfl : checked = checked' := Except.ok.inj (hcheck.symm.trans hcheck')
  have hstmt := method?_eq_some hmethod
  obtain ⟨inner, locals, rest, lines, -, -, -, -, -, hfile, hcount, -, hbinds, -, hquiet⟩ :=
    hprologues n hn d body hstmt
  have hlength : d.params.length = 3 := by
    simpa using congrArg List.length hparams
  rw [hlength] at hcount
  have hquiet' := hquiet fun p hp => of_decide_eq_true (List.all_eq_true.mp hbases p hp)
  refine ⟨checked, hcheck, n, hn, d, body, hstmt, locals, lines, rest, hfile hwithin,
    hbinds (List.all_eq_true.mp hnamed) (fun number _ => hquiet' number), hparams, ?_, ?_⟩
  · obtain ⟨argc, hargc, hreaches, -⟩ := hcount counts_argumentCounter 3
    obtain rfl : argc = 3 := hargc
    exact hreaches rfl
  · obtain ⟨_, -, -, hrefused⟩ := hcount counts_argumentCounter 2
    exact (hrefused (by decide)).2

/-- A method with one parameter, which has no name. -/
def namelessUnit : List Stmt :=
  let here := Position.unknown
  let nameless : Parameter :=
    { descriptor := .named "int", depth := 0, name := none, position := here }
  [.method { name := "ignore", params := [nameless], position := here } []]

/-- The unit compiles. The method has no local variable, and assigns its argument to nothing. -/
theorem namelessUnit_unbound :
    ∃ checked, check namelessUnit .empty = .ok checked
      ∧ ∃ n ∈ nodesAll [] checked.unit, ∃ d body inner lines, n.stmt = .method d body
        ∧ d.scope = some inner
        ∧ .function d.heading lines ∈ n.stmt.code checked.checker
        ∧ (storesAll lines).map (fun s => (s.target.render, s.value.render))
          = [("", "NUM2INT(argv[0])")]
        ∧ (checked.checker.scope inner).declarations [] "" = []
        ∧ ¬ d.Binds ((checked.checker.scope inner).declarations [] "") lines := by
  have hrun : ∃ checked, check namelessUnit .empty = .ok checked
      ∧ ∃ n ∈ nodesAll [] checked.unit, ∃ m ∈ n.stmt.method?, ∃ inner ∈ m.1.scope,
        m.1.params.isEmpty = false ∧ m.2.isEmpty = true
        ∧ (storesAll (Method.argumentCode 0 m.1.params)).map
            (fun s => (s.target.render, s.value.render)) = [("", "NUM2INT(argv[0])")]
        ∧ ((checked.checker.scope inner).declarations [] "").isEmpty = true :=
    exists_ok_of_decide (by decide +kernel)
  obtain ⟨checked, hcheck, n, hn, ⟨d, body⟩, hmethod, inner, hinner, hparams, hbody, hstores,
    hlocals⟩ := hrun
  obtain rfl : body = [] := List.isEmpty_iff.mp hbody
  have hnone := List.isEmpty_iff.mp hlocals
  have hstmt := method?_eq_some hmethod
  refine ⟨checked, hcheck, n, hn, d, [], inner, _, hstmt, hinner,
    mem_code_of_method hstmt hinner checked.checker, ?_, hnone, ?_⟩
  · rw [Method.storesAll_lines, codeAll, storesAll, List.append_nil]
    exact hstores
  · intro hbinds
    obtain ⟨p, hp⟩ := List.exists_mem_of_ne_nil _ (List.isEmpty_eq_false_iff.mp hparams)
    obtain ⟨l, hl, -⟩ := hbinds.declared p hp
    rw [hnone] at hl
    cases hl

end Stmt

end ExtensionCompiler

import ExtensionCompiler.Proofs.Emitted

set_option autoImplicit false

/-! # Registrations with the host

The host learns of methods and classes by calls that the generator makes up, with names that no
value of a program can be. `C.Code.registrationsAll` finds these calls in a file, at any depth.
Where a statement stands, neither it nor the statements inside it register anything
(`Stmt.code_quiet`). -/

namespace ExtensionCompiler

/-- Whether a line is of a kind that stands at the top of a file, and has no statements inside. -/
def C.Code.isTop : C.Code → Bool
  | .blank | .header _ | .typedefTag _ _ | .typedef _ _ | .aggregate _ _ | .declaration _
  | .external _ | .prototype _ => true
  | _ => false

theorem C.Code.isTop_of_mem_declarations {list : List C.Declaration} {line : C.Code}
    (h : line ∈ list.map .declaration) : line.isTop = true := by
  obtain ⟨d, -, rfl⟩ := List.mem_map.mp h
  rfl

/-! ## Registrations -/

namespace C

/-- Whether the term is a text of the generator's own. -/
def Term.isVerbatim : Term → Bool
  | .verbatim _ => true
  | _ => false

/-- Whether the term can be a value of a program: it is no text of the generator's own, and no
function is called with one. -/
def Term.isValue : Term → Bool
  | .verbatim _ => false
  | .call _ args => !args.any isVerbatim
  | _ => true

/-- Whether the term is a call of a function with a text of the generator's own. -/
def Term.registers (function : String) : Term → Bool
  | .call called args => decide (called = function) && args.any isVerbatim
  | _ => false

theorem Term.registers_of_isValue {value : Term} (h : value.isValue = true) (function : String) :
    value.registers function = false := by
  cases value with
  | call called args =>
      rw [isValue, Bool.not_eq_true'] at h
      rw [registers, h, Bool.and_false]
  | _ => rfl

theorem Term.registers_of_ne {called function : String} (h : called ≠ function)
    (args : List Term) : (Term.call called args).registers function = false := by
  rw [registers, decide_eq_false h, Bool.false_and]

namespace Code

/-- Whether the line registers a method or a class with the host. The name under which it does so is
a text of the generator's own. -/
def isRegistration : Code → Bool
  | .eval value => value.registers "rb_define_method"
  | .assign _ value => value.registers "rb_define_class"
  | _ => false

mutual

/-- The registrations in a tree, in order. -/
def registrations : Code → List Code
  | .function _ body => registrationsAll body
  | .entryPoint _ body => registrationsAll body
  | .block body => registrationsAll body
  | .branch _ body rest => registrationsAll body ++ registrationsRest rest
  | .loop _ body => registrationsAll body
  | .count _ body => registrationsAll body
  | code => if code.isRegistration then [code] else []

def registrationsRest : Rest → List Code
  | .nothing => []
  | .block body => registrationsAll body
  | .branch _ body rest => registrationsAll body ++ registrationsRest rest

def registrationsAll : List Code → List Code
  | [] => []
  | code :: rest => code.registrations ++ registrationsAll rest

end

theorem registrationsAll_append (xs ys : List Code) :
    registrationsAll (xs ++ ys) = registrationsAll xs ++ registrationsAll ys := by
  induction xs with
  | nil => rfl
  | cons x xs ih => rw [List.cons_append, registrationsAll, registrationsAll, ih, List.append_assoc]

/-- The code registers nothing. -/
def Quiet (code : List Code) : Prop := registrationsAll code = []

namespace Quiet

theorem nil : Quiet [] := rfl

theorem cons {x : Code} {xs : List Code} (hx : x.registrations = []) (hxs : Quiet xs) :
    Quiet (x :: xs) := by
  rw [Quiet, registrationsAll, hx, hxs]
  rfl

theorem append {xs ys : List Code} (hxs : Quiet xs) (hys : Quiet ys) : Quiet (xs ++ ys) := by
  rw [Quiet, registrationsAll_append, hxs, hys]
  rfl

theorem single {x : Code} (hx : x.registrations = []) : Quiet [x] := cons hx nil

end Quiet

theorem quiet_iff {code : List Code} : Quiet code ↔ ∀ line ∈ code, line.registrations = [] := by
  induction code with
  | nil => simp [Quiet.nil]
  | cons line rest ih =>
      rw [List.forall_mem_cons, ← ih, Quiet, Quiet, registrationsAll, List.append_eq_nil_iff]

theorem registrations_branch {condition : Term} {body : List Code} {rest : Rest}
    (hbody : Quiet body) (hrest : registrationsRest rest = []) :
    (Code.branch condition body rest).registrations = [] := by
  rw [registrations, hbody, hrest]
  rfl

theorem registrations_of_isTop {code : Code} (h : code.isTop = true) :
    code.registrations = [] := by
  cases code with
  | _ => first | rfl | cases h

theorem Quiet.declarations (list : List Declaration) : Quiet (list.map .declaration) :=
  quiet_iff.mpr fun _ hline => registrations_of_isTop (isTop_of_mem_declarations hline)

theorem registrations_eval {value : Term} (h : value.registers "rb_define_method" = false) :
    (Code.eval value).registrations = [] :=
  if_neg (by rw [isRegistration, h]; exact Bool.false_ne_true)

theorem registrations_assign {target value : Term} (h : value.registers "rb_define_class" = false) :
    (Code.assign target value).registrations = [] :=
  if_neg (by rw [isRegistration, h]; exact Bool.false_ne_true)

end Code

end C

open C.Code (Quiet)

/-! ## Code that registers nothing -/

theorem Info.isVerbatim_convert (info : Info) {value : C.Term} (h : value.isVerbatim = false) :
    (info.convert value).isVerbatim = false := by
  unfold convert
  split
  · rfl
  · exact h

theorem Info.isValue_convert (info : Info) {value : C.Term} (h : value.isVerbatim = false)
    (hvalue : value.isValue = true) : (info.convert value).isValue = true := by
  unfold convert
  split
  · simp [C.Term.isValue, h]
  · exact hvalue

namespace Expr

theorem isValue_unaryTerm (type : Ty) (operator : String) (operand : C.Term)
    (temp : Option String) :
    (unaryTerm type operator operand temp).isVerbatim = false
      ∧ (unaryTerm type operator operand temp).isValue = true := by
  unfold unaryTerm
  split
  · exact ⟨rfl, rfl⟩
  · split <;> exact ⟨rfl, rfl⟩

theorem isValue_binaryTerm (type : Ty) (left : C.Term) (operator : String) (right : C.Term)
    (temp : Option String) :
    (binaryTerm type left operator right temp).isVerbatim = false
      ∧ (binaryTerm type left operator right temp).isValue = true := by
  unfold binaryTerm
  split
  · exact ⟨rfl, rfl⟩
  · split <;> exact ⟨rfl, rfl⟩

theorem isVerbatim_term (e : Expr) : e.term.isVerbatim = false := by
  cases e with
  | literal info value => exact info.isVerbatim_convert (by cases value <;> rfl)
  | name info _ cName _ | element info _ cName index | call info _ cName args =>
      exact info.isVerbatim_convert rfl
  | unary info operator operand temp => exact info.isVerbatim_convert (isValue_unaryTerm ..).1
  | binary info left operator right temp => exact info.isVerbatim_convert (isValue_binaryTerm ..).1

theorem any_isVerbatim_terms (es : List Expr) : (terms es).any C.Term.isVerbatim = false := by
  induction es with
  | nil => rfl
  | cons e rest ih => rw [terms, List.any_cons, e.isVerbatim_term, ih, Bool.or_self]

/-- The value of an expression is one of a program, whatever functions it calls. -/
theorem isValue_term (e : Expr) : e.term.isValue = true := by
  cases e with
  | literal info value =>
      exact info.isValue_convert (by cases value <;> rfl) (by cases value <;> rfl)
  | name info _ cName _ | element info _ cName index => exact info.isValue_convert rfl rfl
  | unary info operator operand temp =>
      obtain ⟨hverbatim, hvalue⟩ := isValue_unaryTerm info.type operator operand.term temp
      exact info.isValue_convert hverbatim hvalue
  | binary info left operator right temp =>
      obtain ⟨hverbatim, hvalue⟩ := isValue_binaryTerm info.type left.term operator right.term temp
      exact info.isValue_convert hverbatim hvalue
  | call info _ cName args =>
      refine info.isValue_convert rfl ?_
      rw [C.Term.isValue, any_isVerbatim_terms]
      rfl

theorem registers_term (e : Expr) (function : String) : e.term.registers function = false :=
  C.Term.registers_of_isValue e.isValue_term function

end Expr

theorem Step.code_quiet (steps : List Step) : Quiet (steps.map Step.code) := by
  refine C.Code.quiet_iff.mpr fun line hline => ?_
  obtain ⟨step, -, rfl⟩ := List.mem_map.mp hline
  cases step with
  | dispatch temp receiver method args =>
      exact C.Code.registrations_assign (C.Term.registers_of_ne (by decide) _)
  | release temp => rfl

namespace Expr

theorem evaluate_quiet (e : Expr) : Quiet e.evaluate := Step.code_quiet e.evaluation

theorem dispose_quiet (e : Expr) : Quiet e.dispose := Step.code_quiet e.disposal

end Expr

variable {body : List C.Code}

theorem Expr.loopCode_quiet (condition : Expr) (h : Quiet body) :
    (condition.loopCode body).registrations = [] := by
  unfold loopCode
  split
  · have hleave : (C.Code.branch (.refuted condition.condition) (condition.dispose ++ [.leave])
        .nothing).registrations = [] :=
      C.Code.registrations_branch (condition.dispose_quiet.append (.single rfl)) rfl
    exact ((condition.evaluate_quiet.append (.single hleave)).append
      condition.dispose_quiet).append h
  · exact h

theorem Function.code_quiet (d : Function) (c : Checker) (h : Quiet body) :
    Quiet (d.code body c) := by
  unfold code
  split
  · exact .nil
  · exact .cons rfl (.single ((Quiet.declarations _).append h))

theorem Method.code_quiet (d : Method) (c : Checker) (h : Quiet body) : Quiet (d.code body c) := by
  have hargument (index : Nat) (type : Ty) :
      (argument index type).registers "rb_define_class" = false := by
    refine C.Term.registers_of_isValue ?_ _
    unfold argument
    split <;> rfl
  have harguments (index : Nat) (params : List Parameter) : Quiet (argumentCode index params) := by
    induction params generalizing index with
    | nil => exact .nil
    | cons p rest ih => exact .cons (C.Code.registrations_assign (hargument index p.type)) (ih _)
  have harity (count : Nat) : (arityCode count).registrations = [] := by
    refine C.Code.registrations_branch (.single ?_) rfl
    exact C.Code.registrations_eval (C.Term.registers_of_ne (by decide) _)
  unfold code
  split
  · exact .nil
  · refine .cons rfl (.single (Quiet.append (.append (.append (.append ?_ ?_) ?_) h) ?_))
    · exact .declarations _
    · exact .single (harity d.params.length)
    · exact harguments 0 d.params
    · exact .single rfl

open C.Code (quiet_iff registrations_branch) in
/-- The calls that register something are not among those that values are made of. -/
theorem Stmt.writes_quiet (c : Checker) :
    Writes c (fun _ => True) fun line => line.registrations = [] where
  values :=
    { location := fun _ => rfl
      give := fun _ => rfl
      evaluate := fun e _ => quiet_iff.mp e.evaluate_quiet
      dispose := fun e => quiet_iff.mp e.dispose_quiet
      assign := fun e _ _ => C.Code.registrations_assign (e.registers_term _)
      eval := fun e => C.Code.registrations_eval (e.registers_term _)
      print := fun _ => C.Code.registrations_eval (C.Term.registers_of_ne (by decide) _) }
  block _ hbody := quiet_iff.mpr hbody
  branch _ _ hbody := registrations_branch (quiet_iff.mpr hbody) rfl
  branch_block _ _ _ hbody hother :=
    registrations_branch (quiet_iff.mpr hbody) (quiet_iff.mpr hother)
  branch_branch _ _ _ _ _ hbody hother := registrations_branch (quiet_iff.mpr hbody) hother
  loop e _ _ hbody := e.loopCode_quiet (quiet_iff.mpr hbody)
  count _ _ _ hbody := quiet_iff.mpr hbody
  function d _ _ hbody := quiet_iff.mp (d.code_quiet c (quiet_iff.mpr hbody))
  method d _ _ hbody := quiet_iff.mp (d.code_quiet c (quiet_iff.mpr hbody))

/-- Where a statement stands it registers nothing, nor do the statements inside it. -/
theorem Stmt.code_quiet (c : Checker) (stmt : Stmt) : Quiet (stmt.code c) :=
  C.Code.quiet_iff.mpr ((writes_quiet c).code stmt fun _ _ => trivial)

theorem Stmt.definitionCode_quiet (c : Checker) (stmts : List Stmt) :
    Quiet (definitionCode stmts c) :=
  C.Code.quiet_iff.mpr ((writes_quiet c).definitionCode stmts fun _ _ => trivial)

end ExtensionCompiler

import ExtensionCompiler.Proofs.PassInvariants
import ExtensionCompiler.Proofs.Rendering
import ExtensionCompiler.Proofs.SecondLook

set_option autoImplicit false

/-! # What errors are blamed on

An error has the position of a statement, an expression or a parameter (`Construct`), and this is
one that its cause is about: a name that is declared twice is blamed on a declaration of that name,
one that is not found on a construct that looks it up, a wrong number of arguments on a call with so
many. `Error.IsBlamedOn` says so for the constructs of a statement.

Every error of an analysis is blamed on a construct of the first statement that fails. An error of
the check after both passes names a placeholder in the type of an entry or of a registered name, and
has the position of that (`check_errors_blamed`). -/

namespace ExtensionCompiler

/-! ## Outcomes -/

namespace Outcome

variable {α β : Type} {P Q : Error → Prop}

/-- If there was an error, it has `P`. -/
def FailsWith (P : Error → Prop) (o : Outcome α) : Prop := ∀ e, o.error = some e → P e

variable {node done : α} {c : Checker}

theorem failsWith_ok : (ok node c).FailsWith P := by
  intro e h
  cases h

theorem failsWith_fail {e : Error} (he : P e) : (fail e node c).FailsWith P := by
  intro e' h
  cases h
  exact he

theorem failsWith_ofDeclare {declared : Except Error Checker}
    (h : ∀ e, declared = .error e → P e) : (ofDeclare declared c node done).FailsWith P := by
  cases declared with
  | ok c' => exact failsWith_ok
  | error e => exact failsWith_fail (h e rfl)

namespace FailsWith

variable {o : Outcome α}

theorem mono (h : o.FailsWith P) (hPQ : ∀ e, P e → Q e) : o.FailsWith Q :=
  fun e he => hPQ e (h e he)

theorem map (h : o.FailsWith P) (f : α → β) : (o.map f).FailsWith P := h

/-- A sequence fails as its first part does, or as its second. -/
theorem andThen {stopped : α → β} {next : α → Checker → Outcome β} (h : o.FailsWith P)
    (hnext : (next o.node o.checker).FailsWith P) : (o.andThen stopped next).FailsWith P := by
  cases ho : o.error with
  | none =>
      rw [andThen_of_ok ho]
      exact hnext
  | some e =>
      rw [Outcome.andThen, ho]
      exact failsWith_fail (h e ho)

end FailsWith

end Outcome

open Outcome (failsWith_ok failsWith_fail failsWith_ofDeclare)

/-- The only error of a declaration has the name and the position of its entry. -/
theorem Checker.declare_eq_error {c : Checker} {id : ScopeId} {entry : Entry} {e : Error}
    (h : c.declare id entry = .error e) :
    e = ⟨.duplicateDeclaration entry.name, entry.position⟩ := by
  unfold declare Scope.insert at h
  cases hget : (c.scope id).get? entry.name with
  | none => rw [hget] at h; cases h
  | some old =>
      rw [hget] at h
      cases h
      rfl

/-- The only error of a look-up has the name and the position that it was given. -/
theorem Checker.lookup_eq_error {c : Checker} {id : ScopeId} {name : String} {position : Position}
    {e : Error} (h : c.lookup id name position = .error e) :
    e = ⟨.unknownIdentifier name, position⟩ := by
  unfold lookup at h
  cases hfind : c.find? id name with
  | some entry => rw [hfind] at h; cases h
  | none =>
      rw [hfind] at h
      cases h
      rfl

/-! ## Constructs -/

namespace Part

/-- The position of a statement. A condition has that of its expression only. -/
def position? : Part → Option Position
  | .var d => some d.position
  | .array d => some d.position
  | .assign d => some d.position
  | .ret d => some d.position
  | .print d => some d.position
  | .evaluation d => some d.position
  | .aggregate d => some d.position
  | .forward d => some d.position
  | .typeAlias d => some d.position
  | .prototype d => some d.position
  | .condition _ => none
  | .count d => some d.position
  | .function d => some d.position
  | .method d => some d.position
  | .classDef d => some d.position

/-- The name that a statement declares where it stands. -/
def declares? : Part → Option String
  | .var d => some d.name
  | .array d => some d.name
  | .assign d => d.target.asName?
  | .aggregate d => some d.name
  | .forward d => some d.tag
  | .typeAlias d => some d.name
  | .prototype d => some d.name
  | .function d => some d.name
  | .method d => some d.name
  | .classDef d => some d.name
  | _ => none

/-- Whether the statement itself asks something of the types of its values or names. -/
def checksTypes : Part → Bool
  | .var _ | .array _ | .assign _ | .ret _ | .print _ | .count _ | .classDef _ => true
  | _ => false

def params : Part → List Parameter
  | .prototype d => d.params
  | .function d => d.params
  | .method d => d.params
  | _ => []

end Part

/-- Something in a unit that an error can be blamed on. -/
inductive Construct where
  /-- A statement, without the statements inside it. -/
  | stmt (part : Part)
  | expr (e : Expr)
  | param (p : Parameter)

namespace Construct

def position? : Construct → Option Position
  | .stmt part => part.position?
  | .expr e => some e.position
  | .param p => some p.position

def declares? : Construct → Option String
  | .stmt part => part.declares?
  | .expr _ => none
  | .param p => p.name

/-- The name that the construct itself looks up. -/
def looksUp? : Construct → Option String
  | .stmt (.count d) => some d.counter
  | .stmt (.classDef d) => d.ancestor
  | .expr (.name _ written _ _) => some written
  | .expr (.element _ written _ _) => some written
  | .expr (.call _ written _ _) => some written
  | _ => none

def checksTypes : Construct → Bool
  | .stmt part => part.checksTypes
  | .expr _ => true
  | .param _ => true

/-- The cause is about the construct. -/
def AnswersFor (k : Construct) : Cause → Prop
  | .duplicateDeclaration name => k.declares? = some name
  | .unknownIdentifier name => k.looksUp? = some name
  | .typeMismatch _ _ => k.checksTypes = true
  | .unresolvedReference _ => False
  | .invalidLoopOperators left right =>
    ∃ d, k = .stmt (.count d) ∧ d.leftOperator = left ∧ d.rightOperator = right
  | .returnOutsideFunction => ∃ d, k = .stmt (.ret d)
  | .unexpectedArguments expected received =>
    ∃ info written cName args, k = .expr (.call info written cName args)
      ∧ args.length = received ∧ expected < received
  | .missingArguments expected received =>
    ∃ info written cName args, k = .expr (.call info written cName args)
      ∧ args.length = received ∧ received < expected
  | .nonConstantDimension name => ∃ d, k = .stmt (.array d) ∧ d.name = name
  | .notCallable name => ∃ info cName args, k = .expr (.call info name cName args)
  | .notAssignable => ∃ d, k = .stmt (.assign d)

end Construct

def Expr.constructs (e : Expr) : List Construct := e.subtrees.map .expr

/-- A statement, its expressions at any depth, and its parameters. -/
def Part.constructs (p : Part) : List Construct :=
  .stmt p :: (p.exprs.flatMap Expr.constructs ++ p.params.map .param)

/-- The constructs of a statement and of all statements inside it. -/
def Stmt.constructs (stmt : Stmt) : List Construct := stmt.heads.flatMap Part.constructs

namespace Error

/-- The error has the position of one of the constructs, and a cause that is about it. -/
def IsBlamedOn (constructs : List Construct) (e : Error) : Prop :=
  ∃ k ∈ constructs, k.position? = some e.position ∧ k.AnswersFor e.cause

theorem IsBlamedOn.mono {ks ls : List Construct} {e : Error} (h : e.IsBlamedOn ks)
    (hsub : ∀ k ∈ ks, k ∈ ls) : e.IsBlamedOn ls := by
  obtain ⟨k, hk, hposition, hcause⟩ := h
  exact ⟨k, hsub k hk, hposition, hcause⟩

/-- Two types do not match, at a position. -/
def IsMismatchAt (position : Position) (e : Error) : Prop :=
  ∃ expected received, e = mismatch expected received position

theorem isMismatchAt (expected received : String) (position : Position) :
    (mismatch expected received position).IsMismatchAt position :=
  ⟨expected, received, rfl⟩

end Error

/-! ## Expressions -/

namespace Expr

theorem isBlamedOn_self {e : Expr} {cause : Cause} (h : (Construct.expr e).AnswersFor cause) :
    Error.IsBlamedOn e.constructs ⟨cause, e.position⟩ :=
  ⟨.expr e, List.mem_cons_self, rfl, h⟩

theorem isBlamedOn_of_mismatch {e : Expr} {err : Error} (h : err.IsMismatchAt e.position) :
    err.IsBlamedOn e.constructs := by
  obtain ⟨expected, received, rfl⟩ := h
  exact isBlamedOn_self rfl

theorem fit_failsWith (e : Expr) (slot : Ty) (position : Position) (c : Checker) :
    (e.fit slot position c).FailsWith (Error.IsMismatchAt position) := by
  have hcheck (v : Expr) :
      (fit.check slot position c v).FailsWith (Error.IsMismatchAt position) := by
    unfold fit.check
    split
    · exact failsWith_ok
    · exact failsWith_fail (Error.isMismatchAt _ _ position)
  unfold fit
  split
  · exact failsWith_fail (Error.isMismatchAt _ _ position)
  · exact hcheck _
  · exact hcheck _

theorem fitIndex_failsWith (index : Expr) (position : Position) (c : Checker) :
    (index.fitIndex position c).FailsWith (Error.IsMismatchAt position) := by
  have hinteger (fitted : Expr) (c' : Checker) :
      Outcome.FailsWith (Error.IsMismatchAt position) (if fitted.type.isInteger then .ok fitted c'
        else .fail (mismatch "integer" fitted.type.describe position) fitted c') := by
    split
    · exact failsWith_ok
    · exact failsWith_fail (Error.isMismatchAt _ _ position)
  unfold fitIndex
  refine Outcome.FailsWith.andThen ?_ (hinteger _ _)
  split
  · exact index.fit_failsWith _ position c
  · exact failsWith_ok

theorem finishUnary_failsWith (info : Info) (operator : String) (operand : Expr)
    (temp : Option String) (scope : ScopeId) (c : Checker) :
    (finishUnary info operator operand temp scope c).FailsWith
      (Error.IsMismatchAt info.position) := by
  unfold finishUnary
  split
  · exact failsWith_ok
  · split
    · exact failsWith_ok
    · exact failsWith_fail (Error.isMismatchAt _ _ info.position)

theorem finishBinary_failsWith (info : Info) (left : Expr) (operator : String) (right : Expr)
    (temp : Option String) (scope : ScopeId) (c : Checker) :
    (finishBinary info left operator right temp scope c).FailsWith
      (Error.IsMismatchAt info.position) := by
  unfold finishBinary
  split
  · unfold finishHostBinary
    refine (left.fit_failsWith .object info.position c).andThen ?_
    refine (right.fit_failsWith .object info.position _).andThen ?_
    split
    · exact failsWith_ok
    · exact failsWith_ok
  · split
    · exact failsWith_ok
    · exact failsWith_fail (Error.isMismatchAt _ _ info.position)

/-- A wrong number of arguments is a matter of the call. -/
theorem answersFor_of_arityCause? {info : Info} {written cName : String} {args : List Expr}
    {expected : Nat} {cause : Cause} (h : arityCause? expected args.length = some cause) :
    (Construct.expr (call info written cName args)).AnswersFor cause := by
  unfold arityCause? at h
  split at h
  · rename_i hlt
    cases h
    exact ⟨info, written, cName, args, rfl, rfl, hlt⟩
  · split at h
    · rename_i hlt
      cases h
      exact ⟨info, written, cName, args, rfl, rfl, hlt⟩
    · cases h

mutual

/-- **An error in an expression is blamed on one of its nodes.** -/
theorem analyse_failsWith : (e : Expr) → (slot : Option Ty) → (scope : ScopeId) → (c : Checker) →
    (e.analyse slot scope c).FailsWith (Error.IsBlamedOn e.constructs)
  | .literal info value, slot, scope, c => failsWith_ok
  | .name info written cName assignable, slot, scope, c => by
      rw [analyse, analyseName]
      split
      · rename_i err hlookup
        rw [Checker.lookup_eq_error hlookup]
        exact failsWith_fail (isBlamedOn_self rfl)
      · split
        · exact failsWith_fail (isBlamedOn_self rfl)
        · exact failsWith_ok
  | .element info written cName index, slot, scope, c => by
      rw [analyse]
      split
      · rename_i err hlookup
        rw [Checker.lookup_eq_error hlookup]
        exact failsWith_fail (isBlamedOn_self rfl)
      · split
        · exact failsWith_fail (isBlamedOn_self rfl)
        · refine Outcome.FailsWith.map (Outcome.FailsWith.andThen ?_ ?_) _
          · exact (index.analyse_failsWith _ scope c).mono
              fun err herr => herr.mono fun k hk => List.mem_cons_of_mem _ hk
          · exact (fitIndex_failsWith _ info.position _).mono
              fun err herr => isBlamedOn_of_mismatch herr
  | .unary info operator operand temp, slot, scope, c => by
      rw [analyse]
      refine Outcome.FailsWith.andThen ?_ ?_
      · exact (operand.analyse_failsWith none scope c).mono
          fun err herr => herr.mono fun k hk => List.mem_cons_of_mem _ hk
      · exact (finishUnary_failsWith info operator _ temp scope _).mono
          fun err herr => isBlamedOn_of_mismatch herr
  | .binary info left operator right temp, slot, scope, c => by
      have hinner : ∀ k, k ∈ left.constructs ∨ k ∈ right.constructs →
          k ∈ (binary info left operator right temp).constructs := by
        intro k hk
        refine List.mem_cons_of_mem _ ?_
        show k ∈ (left.subtrees ++ right.subtrees).map Construct.expr
        rw [List.map_append]
        exact List.mem_append.mpr hk
      rw [analyse]
      refine Outcome.FailsWith.andThen ?_ (Outcome.FailsWith.andThen ?_ ?_)
      · exact (left.analyse_failsWith none scope c).mono
          fun err herr => herr.mono fun k hk => hinner k (.inl hk)
      · exact (right.analyse_failsWith none scope _).mono
          fun err herr => herr.mono fun k hk => hinner k (.inr hk)
      · exact (finishBinary_failsWith info _ operator _ temp scope _).mono
          fun err herr => isBlamedOn_of_mismatch herr
  | .call info written cName args, slot, scope, c => by
      rw [analyse]
      split
      · rename_i err hlookup
        rw [Checker.lookup_eq_error hlookup]
        exact failsWith_fail (isBlamedOn_self rfl)
      · split
        · exact failsWith_fail (isBlamedOn_self ⟨info, cName, args, rfl⟩)
        · split
          · rename_i cause harity
            exact failsWith_fail (isBlamedOn_self (answersFor_of_arityCause? harity))
          · refine Outcome.FailsWith.andThen ?_ failsWith_ok
            refine (analyseArgs_failsWith args _ info.position scope c).mono fun err herr => ?_
            rcases herr with hinside | hmismatch
            · exact hinside.mono fun k hk => List.mem_cons_of_mem _ hk
            · exact isBlamedOn_of_mismatch hmismatch

/-- An argument that does not fit is blamed on the position of the call. -/
theorem analyseArgs_failsWith : (args : List Expr) → (params : List Ty) → (position : Position) →
    (scope : ScopeId) → (c : Checker) →
    (analyseArgs args params position scope c).FailsWith
      fun e => e.IsBlamedOn ((innerAll args).map .expr) ∨ e.IsMismatchAt position
  | [], params, position, scope, c | arg :: args, [], position, scope, c => by
      rw [analyseArgs]
      · exact failsWith_ok
      · simp
  | arg :: args, param :: params, position, scope, c => by
      have hinner : ∀ k, k ∈ arg.constructs ∨ k ∈ (innerAll args).map Construct.expr →
          k ∈ (innerAll (arg :: args)).map Construct.expr := by
        intro k hk
        show k ∈ (arg.subtrees ++ innerAll args).map Construct.expr
        rw [List.map_append]
        exact List.mem_append.mpr hk
      rw [analyseArgs]
      refine Outcome.FailsWith.andThen (Outcome.FailsWith.andThen ?_ ?_) ?_
      · exact (arg.analyse_failsWith _ scope c).mono
          fun err herr => .inl (herr.mono fun k hk => hinner k (.inl hk))
      · exact (fit_failsWith _ param position _).mono fun err herr => .inr herr
      · refine Outcome.FailsWith.map ?_ _
        exact (analyseArgs_failsWith args params position scope _).mono
          fun err herr => herr.imp (fun h => h.mono fun k hk => hinner k (.inr hk)) id

end

theorem position_outline (e : Expr) : e.outline.position = e.position := by
  cases e <;> rfl

/-- Analysis leaves an expression where it is. -/
theorem position_analyse (e : Expr) (slot : Option Ty) (scope : ScopeId) (c : Checker) :
    (e.analyse slot scope c).node.position = e.position := by
  rw [← position_outline, outline_analyse, position_outline]

/-- A condition of a wrong type is blamed on its expression, as it belongs to no one statement. -/
theorem analyseCondition_failsWith (e : Expr) (scope : ScopeId) (c : Checker) :
    (e.analyseCondition scope c).FailsWith (Error.IsBlamedOn e.constructs) := by
  unfold analyseCondition
  refine (e.analyse_failsWith none scope c).andThen ?_
  rw [e.position_analyse none scope c]
  split
  · exact failsWith_ok
  · exact failsWith_fail (isBlamedOn_self rfl)

end Expr

/-! ## Parameters -/

namespace Parameter

theorem analyse_failsWith (declare : Bool) (scope : ScopeId) (p : Parameter) (c : Checker) :
    (p.analyse declare scope c).FailsWith (Error.IsBlamedOn [.param p]) := by
  unfold analyse
  dsimp only
  split
  · rename_i name hname
    refine failsWith_ofDeclare fun e he => ?_
    rw [Checker.declare_eq_error he]
    exact ⟨.param p, List.mem_singleton_self _, rfl, hname⟩
  · exact failsWith_ok

theorem analyseAll_failsWith (declare : Bool) (scope : ScopeId) (params : List Parameter)
    (c : Checker) :
    (analyseAll declare scope params c).FailsWith (Error.IsBlamedOn (params.map .param)) := by
  induction params generalizing c with
  | nil => exact failsWith_ok
  | cons p rest ih =>
      rw [analyseAll]
      refine Outcome.FailsWith.andThen ?_ (Outcome.FailsWith.map ?_ _)
      · refine (p.analyse_failsWith declare scope c).mono fun e he => he.mono fun k hk => ?_
        rw [List.mem_singleton.mp hk]
        exact List.mem_cons_self
      · exact (ih _).mono fun e he => he.mono fun k hk => List.mem_cons_of_mem _ hk

/-- Parameters stay where they are. -/
theorem exists_of_mem_analyseAll {declare : Bool} {scope : ScopeId} {params : List Parameter}
    {c : Checker} {q : Parameter} (h : q ∈ (analyseAll declare scope params c).node) :
    ∃ p ∈ params, p.position = q.position := by
  have houtline : q.outline ∈ params.map outline := by
    rw [← outline_analyseAll declare scope params c]
    exact List.mem_map_of_mem h
  obtain ⟨p, hp, heq⟩ := List.mem_map.mp houtline
  have hposition : p.outline.position = q.outline.position := congrArg Parameter.position heq
  exact ⟨p, hp, hposition⟩

end Parameter

/-! ## Statements without those inside them -/

namespace Part

variable {p : Part} {scope : ScopeId} {c : Checker} {position : Position}

variable {e : Error} {value : Expr}

theorem isBlamedOn_own (hposition : p.position? = some e.position)
    (hcause : (Construct.stmt p).AnswersFor e.cause) : e.IsBlamedOn p.constructs :=
  ⟨.stmt p, List.mem_cons_self, hposition, hcause⟩

theorem isBlamedOn_of_expr (hvalue : value ∈ p.exprs)
    (h : e.IsBlamedOn value.constructs) : e.IsBlamedOn p.constructs := by
  refine h.mono fun k hk => List.mem_cons_of_mem _ (List.mem_append_left _ ?_)
  exact List.mem_flatMap.mpr ⟨value, hvalue, hk⟩

theorem isBlamedOn_of_params (h : e.IsBlamedOn (p.params.map .param)) : e.IsBlamedOn p.constructs :=
  h.mono fun _ hk => List.mem_cons_of_mem _ (List.mem_append_right _ hk)

/-- A value of the statement is blamed where it stands, or does not fit where the statement is. -/
theorem isBlamedOn_of_value (hvalue : value ∈ p.exprs) (hposition : p.position? = some position)
    (hchecks : p.checksTypes = true) (h : e.IsBlamedOn value.constructs ∨ e.IsMismatchAt position) :
    e.IsBlamedOn p.constructs := by
  rcases h with hinside | ⟨expected, received, rfl⟩
  · exact isBlamedOn_of_expr hvalue hinside
  · exact isBlamedOn_own hposition hchecks

theorem declare_failsWith {α : Type} {entry : Entry} {node done : α}
    (hposition : p.position? = some entry.position) (hname : p.declares? = some entry.name) :
    (Outcome.ofDeclare (c.declare scope entry) c node done).FailsWith
      (Error.IsBlamedOn p.constructs) := by
  refine failsWith_ofDeclare fun e he => ?_
  rw [Checker.declare_eq_error he]
  exact isBlamedOn_own hposition hname

theorem analyseValue_failsWith (hvalue : value ∈ p.exprs) {slot : Option Ty} :
    (value.analyse slot scope c).FailsWith (Error.IsBlamedOn p.constructs) :=
  (value.analyse_failsWith slot scope c).mono fun _ => isBlamedOn_of_expr hvalue

theorem analyseInto_failsWith (hvalue : value ∈ p.exprs)
    (hposition : p.position? = some position) (hchecks : p.checksTypes = true) {slot : Ty} :
    (value.analyseInto slot scope position c).FailsWith (Error.IsBlamedOn p.constructs) := by
  unfold Expr.analyseInto
  refine (analyseValue_failsWith hvalue).andThen ?_
  exact (Expr.fit_failsWith _ slot position _).mono
    fun e he => isBlamedOn_of_value hvalue hposition hchecks (.inr he)

theorem analyseAllInto_failsWith {values : List Expr} (hvalues : ∀ value ∈ values, value ∈ p.exprs)
    (hposition : p.position? = some position) (hchecks : p.checksTypes = true) {slot : Ty} :
    (Expr.analyseAllInto slot scope position values c).FailsWith
      (Error.IsBlamedOn p.constructs) := by
  induction values generalizing c with
  | nil => exact failsWith_ok
  | cons value rest ih =>
      obtain ⟨hvalue, hrest⟩ := List.forall_mem_cons.mp hvalues
      rw [Expr.analyseAllInto]
      exact (analyseInto_failsWith hvalue hposition hchecks).andThen ((ih hrest).map _)

theorem printValues_failsWith {values : List Expr} (hvalues : ∀ value ∈ values, value ∈ p.exprs)
    (hposition : p.position? = some position) (hchecks : p.checksTypes = true) :
    (Print.analyseValues position scope values c).FailsWith (Error.IsBlamedOn p.constructs) := by
  induction values generalizing c with
  | nil => exact failsWith_ok
  | cons value rest ih =>
      obtain ⟨hvalue, hrest⟩ := List.forall_mem_cons.mp hvalues
      rw [Print.analyseValues]
      refine (analyseValue_failsWith hvalue).andThen ?_
      split
      · exact (ih hrest).map _
      · exact failsWith_fail (isBlamedOn_own hposition hchecks)

end Part

open ExtensionCompiler.Part (isBlamedOn_own declare_failsWith analyseValue_failsWith
  analyseInto_failsWith)

section Kinds

variable (scope : ScopeId) (c : Checker)

theorem Variable.analyse_failsWith (d : Variable) :
    (d.analyse scope c).FailsWith (Error.IsBlamedOn (Part.var d).constructs) := by
  unfold analyse
  refine Outcome.FailsWith.andThen ?_ (declare_failsWith rfl rfl)
  cases hvalue : d.value with
  | none => exact failsWith_ok
  | some value =>
      have hmem : value ∈ (Part.var d).exprs := by simp [Part.exprs, hvalue]
      exact (analyseInto_failsWith hmem rfl rfl).map some

theorem ArrayVariable.analyse_failsWith (d : ArrayVariable) :
    (d.analyse scope c).FailsWith (Error.IsBlamedOn (Part.array d).constructs) := by
  unfold analyse
  refine Outcome.FailsWith.andThen (analyseValue_failsWith List.mem_cons_self) ?_
  dsimp only
  split
  · exact failsWith_fail (isBlamedOn_own rfl ⟨d, rfl, rfl⟩)
  · split
    · exact declare_failsWith rfl rfl
    · rename_i elements helements
      have hmem : ∀ e ∈ elements, e ∈ (Part.array d).exprs := by
        intro e he
        simp [Part.exprs, helements, he]
      refine Outcome.FailsWith.andThen (Part.analyseAllInto_failsWith hmem rfl rfl) ?_
      split
      · exact failsWith_fail (isBlamedOn_own rfl rfl)
      · split
        · exact declare_failsWith rfl rfl
        · exact declare_failsWith rfl rfl

theorem Assignment.isBlamedOn_of_declareTarget {d : Assignment} {e : Error}
    (h : d.declareTarget scope c = .error e) : e.IsBlamedOn (Part.assign d).constructs := by
  unfold declareTarget at h
  split at h
  · cases h
  · rename_i name hname
    split at h
    · cases h
    · rw [Checker.declare_eq_error h]
      exact isBlamedOn_own rfl hname

theorem Assignment.analyse_failsWith (d : Assignment) :
    (d.analyse scope c).FailsWith (Error.IsBlamedOn (Part.assign d).constructs) := by
  unfold analyse
  split
  · rename_i e he
    exact failsWith_fail (isBlamedOn_of_declareTarget scope c he)
  · refine Outcome.FailsWith.andThen (analyseValue_failsWith List.mem_cons_self) ?_
    dsimp only
    split
    · have hmem : d.value ∈ (Part.assign d).exprs := by simp [Part.exprs]
      exact (analyseInto_failsWith hmem rfl rfl).map _
    · exact failsWith_fail (isBlamedOn_own rfl ⟨d, rfl⟩)

theorem Return.analyse_failsWith (d : Return) :
    (d.analyse scope c).FailsWith (Error.IsBlamedOn (Part.ret d).constructs) := by
  unfold analyse
  split
  · exact failsWith_fail (isBlamedOn_own rfl ⟨d, rfl⟩)
  · dsimp only
    split
    · rename_i value hvalue
      have hmem : value ∈ (Part.ret d).exprs := by simp [Part.exprs, hvalue]
      split
      · exact (analyseValue_failsWith hmem).andThen (failsWith_fail (isBlamedOn_own rfl rfl))
      · exact (analyseInto_failsWith hmem rfl rfl).map _
    · split
      · exact failsWith_ok
      · exact failsWith_fail (isBlamedOn_own rfl rfl)

theorem Aggregate.declare_failsWith (d : Aggregate) :
    (d.declare scope c).FailsWith (Error.IsBlamedOn (Part.aggregate d).constructs) := by
  unfold declare
  exact Part.declare_failsWith rfl rfl

theorem Forward.analyse_failsWith (d : Forward) :
    (d.analyse scope c).FailsWith (Error.IsBlamedOn (Part.forward d).constructs) := by
  unfold analyse
  exact declare_failsWith rfl rfl

theorem TypeAlias.analyse_failsWith (d : TypeAlias) :
    (d.analyse scope c).FailsWith (Error.IsBlamedOn (Part.typeAlias d).constructs) := by
  unfold analyse
  split
  · exact failsWith_ok
  · exact declare_failsWith rfl rfl

theorem Prototype.analyse_failsWith (d : Prototype) :
    (d.analyse scope c).FailsWith (Error.IsBlamedOn (Part.prototype d).constructs) := by
  unfold analyse
  refine Outcome.FailsWith.andThen ?_ (declare_failsWith rfl rfl)
  exact (Parameter.analyseAll_failsWith false scope d.params c).mono
    fun e he => Part.isBlamedOn_of_params he

theorem CountLoop.analyse_failsWith (d : CountLoop) :
    (d.analyse scope c).FailsWith (Error.IsBlamedOn (Part.count d).constructs) := by
  have hright : d.right ∈ (Part.count d).exprs := by simp [Part.exprs]
  unfold analyse
  split
  · split
    · rename_i e he
      rw [Checker.lookup_eq_error he]
      exact failsWith_fail (isBlamedOn_own rfl rfl)
    · split
      · exact (analyseInto_failsWith List.mem_cons_self rfl rfl).andThen
          ((analyseInto_failsWith hright rfl rfl).map _)
      · exact failsWith_fail (isBlamedOn_own rfl rfl)
  · exact failsWith_fail (isBlamedOn_own rfl ⟨d, rfl, rfl, rfl⟩)

theorem Function.enter_failsWith (d : Function) :
    (d.enter scope c).FailsWith (Error.IsBlamedOn (Part.function d).constructs) := by
  rw [enter_eq]
  refine Outcome.FailsWith.andThen ?_ ?_
  · exact (Parameter.analyseAll_failsWith true _ d.params _).mono
      fun e he => Part.isBlamedOn_of_params he
  · unfold finish
    dsimp only
    split
    · exact failsWith_ok
    · exact declare_failsWith rfl rfl

theorem Method.enter_failsWith (d : Method) :
    (d.enter scope c).FailsWith (Error.IsBlamedOn (Part.method d).constructs) := by
  rw [enter_eq]
  refine Outcome.FailsWith.andThen ?_ ?_
  · exact (Parameter.analyseAll_failsWith true _ d.params _).mono
      fun e he => Part.isBlamedOn_of_params he
  · unfold finish
    dsimp only
    split
    · rename_i q hq
      obtain ⟨p, hp, hposition⟩ :=
        Parameter.exists_of_mem_analyseAll (List.mem_of_find?_eq_some hq)
      refine failsWith_fail (Part.isBlamedOn_of_params ?_)
      exact ⟨.param p, List.mem_map_of_mem hp, congrArg some hposition, rfl⟩
    · exact declare_failsWith rfl rfl

theorem ClassDef.isBlamedOn_of_ancestorName {d : ClassDef} {e : Error}
    (h : d.ancestorName scope c = .error e) : e.IsBlamedOn (Part.classDef d).constructs := by
  unfold ancestorName at h
  split at h
  · cases h
  · rename_i name hancestor
    split at h
    · cases h
    · split at h
      · rename_i e' he'
        cases h
        rw [Checker.lookup_eq_error he']
        exact isBlamedOn_own rfl hancestor
      · split at h
        · cases h
        · cases h
          exact isBlamedOn_own rfl rfl

theorem ClassDef.enter_failsWith (d : ClassDef) :
    (d.enter scope c).FailsWith (Error.IsBlamedOn (Part.classDef d).constructs) := by
  unfold enter
  split
  · rename_i e he
    exact failsWith_fail (isBlamedOn_of_ancestorName scope c he)
  · dsimp only
    split
    · rename_i e he
      rw [Checker.declare_eq_error he]
      exact failsWith_fail (isBlamedOn_own rfl rfl)
    · exact failsWith_ok

/-- **An error in a statement is blamed on it, or on an expression or a parameter of it.** -/
theorem Part.analyse_failsWith (p : Part) :
    (p.analyse scope c).FailsWith (Error.IsBlamedOn p.constructs) := by
  cases p with
  | var d | array d | assign d | ret d | forward d | typeAlias d =>
      exact d.analyse_failsWith scope c
  | print d => exact printValues_failsWith (fun _ hvalue => hvalue) rfl rfl
  | evaluation d => exact analyseValue_failsWith (List.mem_singleton_self d.value)
  | aggregate d => exact d.declare_failsWith scope c
  | prototype d | count d => exact d.analyse_failsWith scope c
  | condition e =>
      exact (e.analyseCondition_failsWith scope c).mono
        fun err herr => isBlamedOn_of_expr (List.mem_singleton_self e) herr
  | function d | method d | classDef d => exact d.enter_failsWith scope c

end Kinds

/-! ## Statements -/

namespace Stmt

/-- A statement fails as its own part does, or as one of a statement inside it. -/
theorem analyse_isBlamedOn (stmt : Stmt) (scope : ScopeId) (c : Checker) :
    (stmt.analyse scope c).FailsWith (Error.IsBlamedOn stmt.constructs) := by
  have hsequences : Sequences (· ∈ stmt.heads) fun _ _ error _ =>
      ∀ e, error = some e → e.IsBlamedOn stmt.constructs :=
    { done := fun _ _ _ he => absurd he (Option.some_ne_none _).symm
      part := fun p scope c hp => (p.analyse_failsWith scope c).mono
        fun _ he => he.mono fun _ hk => List.mem_flatMap.mpr ⟨p, hp, hk⟩
      next := fun _ hrest => hrest
      inside := fun _ hrest => hrest }
  exact hsequences.analyse stmt (fun _ hp => hp) scope c

/-- Of the statements, `stmt` is the first that fails, and it fails with `e`. -/
def FirstFailure (stmts : List Stmt) (scope : ScopeId) (c : Checker) (stmt : Stmt) (e : Error) :
    Prop :=
  ∃ before after, stmts = before ++ stmt :: after
    ∧ (analyseAll before scope c).error = none
    ∧ (stmt.analyse scope (analyseAll before scope c).checker).error = some e

theorem FirstFailure.isBlamedOn {stmts : List Stmt} {scope : ScopeId} {c : Checker} {stmt : Stmt}
    {e : Error} (h : FirstFailure stmts scope c stmt e) : e.IsBlamedOn stmt.constructs := by
  obtain ⟨before, after, -, -, hfails⟩ := h
  exact stmt.analyse_isBlamedOn scope _ e hfails

theorem exists_firstFailure {stmts : List Stmt} {scope : ScopeId} {c : Checker} {e : Error}
    (h : (analyseAll stmts scope c).error = some e) :
    ∃ stmt, FirstFailure stmts scope c stmt e := by
  induction stmts generalizing c with
  | nil => cases h
  | cons stmt rest ih =>
      rw [analyseAll] at h
      cases hstmt : (stmt.analyse scope c).error with
      | some e' =>
          rw [Outcome.andThen, hstmt] at h
          cases h
          exact ⟨stmt, [], rest, rfl, rfl, hstmt⟩
      | none =>
          rw [Outcome.andThen_of_ok hstmt] at h
          obtain ⟨failing, before, after, rfl, hbefore, hfailing⟩ := ih h
          refine ⟨failing, stmt :: before, after, rfl, ?_⟩
          rw [analyseAll, Outcome.andThen_of_ok hstmt]
          exact ⟨hbefore, hfailing⟩

end Stmt

/-! ## The check after both passes -/

/-- A name is pending in the type of an entry, or of a registered name, that has the position. -/
def Checker.AwaitsAt (c : Checker) (name : String) (position : Position) : Prop :=
  (∃ s ∈ c.scopes, ∃ entry ∈ s.entries, entry.type.Awaits name ∧ entry.position = position)
    ∨ ∃ b ∈ c.registry.bindings, b.type.Awaits name ∧ b.position = position

theorem Checker.awaitsAt_of_mem_declared {c : Checker} {d : Ty × Position} (hd : d ∈ c.declared)
    {name : String} (h : d.1.Awaits name) : c.AwaitsAt name d.2 := by
  rcases List.mem_append.mp hd with hentry | hbinding
  · obtain ⟨s, hs, hentry⟩ := List.mem_flatMap.mp hentry
    obtain ⟨entry, hmem, rfl⟩ := List.mem_map.mp hentry
    exact .inl ⟨s, hs, entry, hmem, h, rfl⟩
  · obtain ⟨b, hb, rfl⟩ := List.mem_map.mp hbinding
    exact .inr ⟨b, hb, h, rfl⟩

/-- The check blames a name on a place where it is pending. -/
theorem Checker.awaitsAt_of_unresolved? {c : Checker} {e : Error} (h : c.unresolved? = some e) :
    ∃ name, e.cause = .unresolvedReference name ∧ c.AwaitsAt name e.position := by
  obtain ⟨d, hd, hpending⟩ := List.exists_of_findSome?_eq_some h
  obtain ⟨name, hname, rfl⟩ := Option.map_eq_some_iff.mp hpending
  exact ⟨name, rfl, awaitsAt_of_mem_declared hd (Ty.awaits_of_pending? hname)⟩

/-- **Errors point into what has caused them.** If analysis fails, the unit is refused with its
error, which is blamed on a construct of the first statement that fails. If analysis succeeds, the
unit can be refused only for a name that is still pending after the second pass, with the position
of an entry or of a registered name whose type waits for it. -/
theorem check_errors_blamed (unit : List Stmt) (registry : Registry) :
    (∀ e, (Stmt.analyseAll unit Checker.global (Checker.start registry)).error = some e →
      check unit registry = .error e
        ∧ ∃ stmt, Stmt.FirstFailure unit Checker.global (Checker.start registry) stmt e
          ∧ e.IsBlamedOn stmt.constructs)
    ∧ ∀ e, (Stmt.analyseAll unit Checker.global (Checker.start registry)).error = none →
      check unit registry = .error e →
      ∃ name, e.cause = .unresolvedReference name
        ∧ (Stmt.rescanAll (Stmt.analyseAll unit Checker.global (Checker.start registry)).node
            Checker.global
            (Stmt.analyseAll unit Checker.global (Checker.start registry)).checker).2.AwaitsAt
          name e.position := by
  refine ⟨fun e he => ⟨?_, ?_⟩, fun e hok he => ?_⟩
  · rw [check, he]
  · obtain ⟨stmt, hfirst⟩ := Stmt.exists_firstFailure he
    exact ⟨stmt, hfirst, hfirst.isBlamedOn⟩
  · rw [check, hok] at he
    dsimp only at he
    split at he
    · rename_i e' hunresolved
      cases he
      exact Checker.awaitsAt_of_unresolved? hunresolved
    · cases he

/-- A call without arguments, as an argument of a call in a loop in a function. -/
def Stmt.nestedCallUnit : List Stmt :=
  let line (n : Nat) : Position := ⟨"unit", n⟩
  [.var
      { form := .plain, descriptor := .named "long", depth := 0, name := "n", value := none,
        position := line 1 },
    .function
      { descriptor := .named "long", depth := 0, name := "f", position := line 2,
        params :=
          [{ descriptor := .named "long", depth := 0, name := some "x", position := line 3 }] }
      [.loop (.ofName "n" (line 4))
        [.evaluation
          { value := .ofCall "f" [.ofCall "f" [] (line 6)] (line 5), position := line 5 }]
        (line 4)]]

/-- A pointer to a type that nothing defines. -/
def Stmt.danglingUnit : List Stmt :=
  let line (n : Nat) : Position := ⟨"unit", n⟩
  [.var
      { form := .pointer, descriptor := .named "node", depth := 1, name := "first", value := none,
        position := line 2 }]

theorem check_nestedCallUnit_danglingUnit :
    ((Stmt.analyseAll Stmt.nestedCallUnit Checker.global (Checker.start .empty)).error
        = some ⟨.missingArguments 1 0, ⟨"unit", 6⟩⟩
      ∧ ∃ stmt, Stmt.FirstFailure Stmt.nestedCallUnit Checker.global (Checker.start .empty) stmt
          ⟨.missingArguments 1 0, ⟨"unit", 6⟩⟩
        ∧ Error.IsBlamedOn stmt.constructs ⟨.missingArguments 1 0, ⟨"unit", 6⟩⟩)
    ∧ (Stmt.analyseAll Stmt.danglingUnit Checker.global (Checker.start .empty)).error = none
      ∧ check Stmt.danglingUnit .empty = .error ⟨.unresolvedReference "node", ⟨"unit", 2⟩⟩
      ∧ ∃ name, Cause.unresolvedReference "node" = .unresolvedReference name
        ∧ (Stmt.rescanAll
            (Stmt.analyseAll Stmt.danglingUnit Checker.global (Checker.start .empty)).node
            Checker.global
            (Stmt.analyseAll Stmt.danglingUnit Checker.global
              (Checker.start .empty)).checker).2.AwaitsAt name ⟨"unit", 2⟩ := by
  have hfails : (Stmt.analyseAll Stmt.nestedCallUnit Checker.global (Checker.start .empty)).error
      = some ⟨.missingArguments 1 0, ⟨"unit", 6⟩⟩ := by decide +kernel
  have hok : (Stmt.analyseAll Stmt.danglingUnit Checker.global (Checker.start .empty)).error
      = none := by decide +kernel
  have hcheck : check Stmt.danglingUnit .empty
      = .error ⟨.unresolvedReference "node", ⟨"unit", 2⟩⟩ := by rfl
  exact ⟨⟨hfails, ((check_errors_blamed _ _).1 _ hfails).2⟩, hok, hcheck,
    (check_errors_blamed _ _).2 _ hok hcheck⟩

end ExtensionCompiler

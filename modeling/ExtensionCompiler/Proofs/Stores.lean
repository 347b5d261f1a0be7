import ExtensionCompiler.Proofs.Emitted

set_option autoImplicit false

/-! # What code assigns

`C.Code.storesAll` lists the assignments in the code of a function, at any depth. The value that is
assigned may take elements of arrays, and `C.Term.elements` lists these.

An element in the code of statements comes from an element in the source: if no expression takes an
element of what is written as `base`, then no assignment does (`Stmt.avoids_codeAll`). -/

namespace ExtensionCompiler

namespace C

/-! ## Elements in terms -/

namespace Term

mutual

/-- The elements in a term, by what they are elements of and their position. -/
def elements : Term → List (String × Term)
  | index base position => (base, position) :: position.elements
  | unary _ operand => operand.elements
  | binary left _ right => left.elements ++ right.elements
  | plain left _ right => left.elements ++ right.elements
  | refuted condition => condition.elements
  | call _ args => elementsAll args
  | choice condition first second => condition.elements ++ first.elements ++ second.elements
  | ident _ => []
  | int _ => []
  | float _ => []
  | char _ => []
  | text _ => []
  | verbatim _ => []

def elementsAll : List Term → List (String × Term)
  | [] => []
  | term :: rest => term.elements ++ elementsAll rest

end

/-- What elements are taken of. -/
def bases (term : Term) : List String := term.elements.map Prod.fst

def basesAll (terms : List Term) : List String := (elementsAll terms).map Prod.fst

@[simp] theorem basesAll_nil : basesAll [] = [] := rfl

@[simp] theorem basesAll_cons (term : Term) (rest : List Term) :
    basesAll (term :: rest) = term.bases ++ basesAll rest := List.map_append

@[simp] theorem bases_ident (name : String) : (ident name).bases = [] := rfl

@[simp] theorem bases_verbatim (value : String) : (verbatim value).bases = [] := rfl

@[simp] theorem bases_int (value : Int) : (int value).bases = [] := rfl

@[simp] theorem bases_index (base : String) (position : Term) :
    (index base position).bases = base :: position.bases := rfl

@[simp] theorem bases_unary (operator : String) (operand : Term) :
    (unary operator operand).bases = operand.bases := rfl

@[simp] theorem bases_binary (left : Term) (operator : String) (right : Term) :
    (binary left operator right).bases = left.bases ++ right.bases := List.map_append

@[simp] theorem bases_plain (left : Term) (operator : String) (right : Term) :
    (plain left operator right).bases = left.bases ++ right.bases := List.map_append

@[simp] theorem bases_call (function : String) (args : List Term) :
    (call function args).bases = basesAll args := rfl

@[simp] theorem bases_choice (condition first second : Term) :
    (choice condition first second).bases = condition.bases ++ first.bases ++ second.bases := by
  simp [bases, elements]

@[simp] theorem bases_dispatch (receiver : Term) (method : String) (args : List Term) :
    (dispatch receiver method args).bases = receiver.bases ++ basesAll args := by
  simp [dispatch, methodName]

/-- Whether the term is a number. -/
def isInt (value : Int) : Term → Bool
  | int n => decide (n = value)
  | _ => false

/-- Whether the element with a number is taken somewhere in the term. -/
def takes (base : String) (number : Int) (term : Term) : Bool :=
  term.elements.any fun e => decide (e.1 = base) && e.2.isInt number

theorem takes_eq_false {base : String} {term : Term} (h : base ∉ term.bases) (number : Int) :
    term.takes base number = false := by
  rw [takes, List.any_eq_false]
  intro e he heq
  rw [Bool.and_eq_true, decide_eq_true_eq] at heq
  exact h (List.mem_map.mpr ⟨e, he, heq.1⟩)

end Term

/-! ## Assignments in code -/

/-- An assignment. -/
structure Store where
  target : Term
  value : Term

namespace Code

mutual

/-- The assignments in code, that of a counter among them. A function that is defined inside has
assignments of its own. -/
def stores : Code → List Store
  | .assign target value => [⟨target, value⟩]
  | .block body => storesAll body
  | .branch _ body rest => storesAll body ++ storesRest rest
  | .loop _ body => storesAll body
  | .count range body => ⟨.ident range.counter, range.start⟩ :: storesAll body
  | _ => []

def storesRest : Rest → List Store
  | .nothing => []
  | .block body => storesAll body
  | .branch _ body rest => storesAll body ++ storesRest rest

def storesAll : List Code → List Store
  | [] => []
  | code :: rest => code.stores ++ storesAll rest

end

theorem storesAll_append (xs ys : List Code) :
    storesAll (xs ++ ys) = storesAll xs ++ storesAll ys := by
  induction xs with
  | nil => rfl
  | cons code rest ih => rw [List.cons_append, storesAll, storesAll, ih, List.append_assoc]

/-- No assignment among the given ones takes an element of `base`. -/
def Avoids (base : String) (stores : List Store) : Prop := ∀ s ∈ stores, base ∉ s.value.bases

variable {base : String}

theorem avoids_nil : Avoids base [] := by simp [Avoids]

theorem avoids_append {xs ys : List Store} :
    Avoids base (xs ++ ys) ↔ Avoids base xs ∧ Avoids base ys := List.forall_mem_append

theorem avoids_cons {s : Store} {rest : List Store} :
    Avoids base (s :: rest) ↔ base ∉ s.value.bases ∧ Avoids base rest := List.forall_mem_cons

theorem avoids_storesAll_iff {code : List Code} :
    Avoids base (storesAll code) ↔ ∀ line ∈ code, Avoids base line.stores := by
  induction code with
  | nil => simp [storesAll, avoids_nil]
  | cons line rest ih => rw [List.forall_mem_cons, ← ih, storesAll, avoids_append]

theorem avoids_storesAll_append {xs ys : List Code} :
    Avoids base (storesAll (xs ++ ys))
      ↔ Avoids base (storesAll xs) ∧ Avoids base (storesAll ys) := by
  rw [storesAll_append, avoids_append]

theorem avoids_storesAll_cons {code : Code} {rest : List Code} :
    Avoids base (storesAll (code :: rest))
      ↔ Avoids base code.stores ∧ Avoids base (storesAll rest) :=
  avoids_append

end Code

end C

/-! ## Expressions -/

/-- What elements are taken of in a step. -/
def Step.bases : Step → List String
  | dispatch _ receiver _ args => receiver.bases ++ C.Term.basesAll args
  | release _ => []

theorem Step.avoids_map_code {base : String} {steps : List Step}
    (h : ∀ step ∈ steps, base ∉ step.bases) :
    C.Code.Avoids base (C.Code.storesAll (steps.map Step.code)) := by
  induction steps with
  | nil => exact C.Code.avoids_nil
  | cons step rest ih =>
      obtain ⟨hstep, hrest⟩ := List.forall_mem_cons.mp h
      refine C.Code.avoids_storesAll_cons.mpr ⟨?_, ih hrest⟩
      cases step with
      | dispatch temp receiver method args =>
          refine C.Code.avoids_cons.mpr ⟨?_, C.Code.avoids_nil⟩
          simpa [bases] using hstep
      | release temp => exact C.Code.avoids_cons.mpr ⟨by simp [C.Term.nil], C.Code.avoids_nil⟩

@[simp] theorem Info.bases_convert (info : Info) (value : C.Term) :
    (info.convert value).bases = value.bases := by
  unfold convert
  cases info.conversion with
  | none => rfl
  | some conversion => simp

theorem Literal.bases_term (value : Literal) : value.term.bases = [] := by
  cases value <;> rfl

namespace Expr

mutual

/-- What elements are taken of in an expression, as it is written in C. -/
def bases : Expr → List String
  | literal _ _ => []
  | name _ _ _ _ => []
  | element _ _ cName index => cName :: index.bases
  | unary _ _ operand _ => operand.bases
  | binary _ left _ right _ => left.bases ++ right.bases
  | call _ _ _ args => basesAll args

def basesAll : List Expr → List String
  | [] => []
  | e :: rest => e.bases ++ basesAll rest

end

variable {base : String}

mutual

/-- A value takes elements of nothing else than its expression does. -/
theorem notMem_bases_term : (e : Expr) → base ∉ e.bases → base ∉ e.term.bases
  | literal info value, _ => by simp [term, Literal.bases_term]
  | name info _ cName _, _ => by simp [term]
  | element info _ cName index, h => by
      rw [bases, List.mem_cons, not_or] at h
      simpa [term, h.1] using notMem_bases_term index h.2
  | unary info operator operand temp, h => by
      have hoperand := notMem_bases_term operand h
      rw [term, Info.bases_convert]
      unfold unaryTerm
      split
      · simp
      · split
        · simpa [C.Term.truth, C.Term.yes, C.Term.no] using hoperand
        · exact hoperand
  | binary info left operator right temp, h => by
      rw [bases, List.mem_append, not_or] at h
      have hleft := notMem_bases_term left h.1
      have hright := notMem_bases_term right h.2
      rw [term, Info.bases_convert]
      unfold binaryTerm
      split
      · simp
      · split
        · simpa [C.Term.truth, C.Term.yes, C.Term.no] using ⟨hleft, hright⟩
        · simpa using ⟨hleft, hright⟩
  | call info _ cName args, h => by
      rw [term, Info.bases_convert, C.Term.bases_call]
      exact notMem_bases_terms args h

theorem notMem_bases_terms : (args : List Expr) → base ∉ basesAll args →
    base ∉ C.Term.basesAll (terms args)
  | [], _ => by simp [terms]
  | e :: rest, h => by
      rw [basesAll, List.mem_append, not_or] at h
      simpa [terms] using ⟨notMem_bases_term e h.1, notMem_bases_terms rest h.2⟩

end

mutual

/-- The steps after a value drop temporaries. -/
theorem bases_disposal : (e : Expr) → ∀ step ∈ e.disposal, step.bases = []
  | literal _ _ | name _ _ _ _ => by simp [disposal]
  | element _ _ _ index => bases_disposal index
  | unary _ _ _ (some temp) | binary _ _ _ _ (some temp) => by simp [disposal, Step.bases]
  | unary _ _ operand none => bases_disposal operand
  | binary _ left _ right none =>
      List.forall_mem_append.mpr ⟨bases_disposal left, bases_disposal right⟩
  | call _ _ _ args => bases_disposalAll args

theorem bases_disposalAll : (args : List Expr) → ∀ step ∈ disposalAll args, step.bases = []
  | [] => by simp [disposalAll]
  | e :: rest => List.forall_mem_append.mpr ⟨bases_disposal e, bases_disposalAll rest⟩

end

theorem notMem_bases_disposal (e : Expr) : ∀ step ∈ e.disposal, base ∉ step.bases := by
  intro step hstep
  simp [bases_disposal e step hstep]

mutual

theorem notMem_bases_evaluation : (e : Expr) → base ∉ e.bases →
    ∀ step ∈ e.evaluation, base ∉ step.bases
  | literal _ _, _ | name _ _ _ _, _ => by simp [evaluation]
  | element _ _ cName index, h => by
      rw [bases, List.mem_cons, not_or] at h
      exact notMem_bases_evaluation index h.2
  | unary _ operator operand temp, h => by
      refine List.forall_mem_append.mpr ⟨notMem_bases_evaluation operand h, ?_⟩
      split
      · refine List.forall_mem_cons.mpr ⟨?_, operand.notMem_bases_disposal⟩
        simpa [Step.bases] using notMem_bases_term operand h
      · simp
  | binary _ left operator right temp, h => by
      rw [bases, List.mem_append, not_or] at h
      refine List.forall_mem_append.mpr ⟨List.forall_mem_append.mpr
        ⟨notMem_bases_evaluation left h.1, notMem_bases_evaluation right h.2⟩, ?_⟩
      split
      · refine List.forall_mem_cons.mpr ⟨?_, List.forall_mem_append.mpr
          ⟨left.notMem_bases_disposal, right.notMem_bases_disposal⟩⟩
        simpa [Step.bases] using ⟨notMem_bases_term left h.1, notMem_bases_term right h.2⟩
      · simp
  | call _ _ _ args, h => notMem_bases_evaluationAll args h

theorem notMem_bases_evaluationAll : (args : List Expr) → base ∉ basesAll args →
    ∀ step ∈ evaluationAll args, base ∉ step.bases
  | [], _ => by simp [evaluationAll]
  | e :: rest, h => by
      rw [basesAll, List.mem_append, not_or] at h
      exact List.forall_mem_append.mpr
        ⟨notMem_bases_evaluation e h.1, notMem_bases_evaluationAll rest h.2⟩

end

open C.Code (Avoids storesAll)

theorem avoids_evaluate {e : Expr} (h : base ∉ e.bases) : Avoids base (storesAll e.evaluate) :=
  Step.avoids_map_code (notMem_bases_evaluation e h)

theorem avoids_dispose (e : Expr) : Avoids base (storesAll e.dispose) :=
  Step.avoids_map_code e.notMem_bases_disposal

end Expr

/-! ## Statements -/

/-- What elements are taken of in the expressions of a part. -/
def Part.bases (p : Part) : List String := p.exprs.flatMap Expr.bases

theorem Part.notMem_bases {base : String} {p : Part} :
    base ∉ p.bases ↔ ∀ e ∈ p.exprs, base ∉ e.bases := by
  simp [bases]

open C.Code (Avoids stores storesAll storesRest avoids_nil avoids_cons avoids_append
  avoids_storesAll_append avoids_storesAll_cons)

variable {base : String}

theorem CountLoop.notMem_bases_startTerm {d : CountLoop} (h : base ∉ (Part.count d).bases) :
    base ∉ d.startTerm.bases := by
  have hleft := Part.notMem_bases.mp h d.left (by simp [Part.exprs])
  unfold startTerm
  split <;> simpa using Expr.notMem_bases_term d.left hleft

theorem Expr.avoids_loopCode {condition : Expr} {body : List C.Code}
    (h : base ∉ condition.bases) (hbody : Avoids base (storesAll body)) :
    Avoids base (condition.loopCode body).stores := by
  unfold loopCode
  split
  · simp only [stores, avoids_storesAll_append, avoids_storesAll_cons, storesRest]
    exact ⟨⟨⟨avoids_evaluate h, avoids_append.mpr ⟨avoids_storesAll_append.mpr
      ⟨condition.avoids_dispose, avoids_nil⟩, avoids_nil⟩, avoids_nil⟩,
      condition.avoids_dispose⟩, hbody⟩
  · exact hbody

open C.Code (avoids_storesAll_iff) in
theorem Stmt.writes_avoids (c : Checker) :
    Writes c (base ∉ ·.bases) fun line => Avoids base line.stores where
  values :=
    { location := fun _ => avoids_nil
      give := fun _ => avoids_nil
      evaluate := fun e ⟨p, hp, he⟩ =>
        avoids_storesAll_iff.mp (Expr.avoids_evaluate (Part.notMem_bases.mp hp e he))
      dispose := fun e => avoids_storesAll_iff.mp e.avoids_dispose
      assign := fun e ⟨p, hp, he⟩ target => avoids_cons.mpr
        ⟨e.notMem_bases_term (Part.notMem_bases.mp hp e he), avoids_nil⟩
      eval := fun _ => avoids_nil
      print := fun _ => avoids_nil }
  block _ hbody := avoids_storesAll_iff.mpr hbody
  branch _ _ hbody := avoids_append.mpr ⟨avoids_storesAll_iff.mpr hbody, avoids_nil⟩
  branch_block _ _ _ hbody hother := avoids_append.mpr
    ⟨avoids_storesAll_iff.mpr hbody, avoids_storesAll_iff.mpr hother⟩
  branch_branch _ _ _ _ _ hbody hother :=
    avoids_append.mpr ⟨avoids_storesAll_iff.mpr hbody, hother⟩
  loop e _ he hbody := Expr.avoids_loopCode
    (Part.notMem_bases.mp he e (List.mem_singleton_self e)) (avoids_storesAll_iff.mpr hbody)
  count _ _ hd hbody := avoids_cons.mpr
    ⟨CountLoop.notMem_bases_startTerm hd, avoids_storesAll_iff.mpr hbody⟩
  function d _ _ _ := by
    unfold Function.code
    split <;> simp [stores, avoids_nil]
  method d _ _ _ := by
    unfold Method.code
    split <;> simp [stores, avoids_nil]

/-- **An element in the code of statements comes from an element in the source.** If no expression
takes an element of what is written as `base`, then no assignment in the code does. -/
theorem Stmt.avoids_codeAll (c : Checker) (stmts : List Stmt)
    (h : ∀ p ∈ headsAll stmts, base ∉ p.bases) : Avoids base (storesAll (codeAll stmts c)) :=
  C.Code.avoids_storesAll_iff.mpr ((writes_avoids c).codeAll stmts h)

end ExtensionCompiler

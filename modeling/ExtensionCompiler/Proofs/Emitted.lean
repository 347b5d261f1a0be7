import ExtensionCompiler.Proofs.UseSites
import ExtensionCompiler.Proofs.Written

set_option autoImplicit false

/-! # What the code of statements is made of

Where a statement stands, its code is put together from the steps around its values, the lines that
use them, and the code of the statements inside it. `Stmt.Writes` has a clause for each way in which
this is done. A property of lines that satisfies them is one of every line of the code
(`Stmt.Writes.codeAll`), so that what is said of all code is proved without going through the
statements again. -/

namespace ExtensionCompiler

/-! ## Statements without others inside -/

/-- The lines around and with values have `Q`, if `E` holds of their expressions. -/
structure Expr.Writes (E : Expr → Prop) (Q : C.Code → Prop) : Prop where
  location : ∀ position, Q (.location position)
  give : ∀ value, Q (.give value)
  evaluate : ∀ e, E e → ∀ line ∈ e.evaluate, Q line
  dispose : ∀ e : Expr, ∀ line ∈ e.dispose, Q line
  assign : ∀ e, E e → ∀ target, Q (.assign target e.term)
  eval : ∀ e : Expr, Q (.eval e.term)
  print : ∀ e, Q (.eval (.call "printf" [.verbatim e.type.format, Print.printed e]))

namespace Expr.Writes

variable {E : Expr → Prop} {Q : C.Code → Prop}

theorem assignTo (h : Expr.Writes E Q) {value : Expr} (hvalue : E value) (target : C.Term) :
    ∀ line ∈ value.assignTo target, Q line := by
  simp only [Expr.assignTo, List.forall_mem_append, List.forall_mem_singleton]
  exact ⟨⟨h.evaluate value hvalue, h.assign value hvalue target⟩, h.dispose value⟩

theorem var (h : Expr.Writes E Q) {d : Variable} (hd : ∀ e ∈ (Part.var d).exprs, E e) :
    ∀ line ∈ d.code, Q line := by
  rw [Part.exprs] at hd
  unfold Variable.code
  cases hvalue : d.value with
  | none => exact List.forall_mem_nil _
  | some value =>
      rw [hvalue] at hd
      exact List.forall_mem_cons.mpr
        ⟨h.location d.position, h.assignTo (hd value List.mem_cons_self) _⟩

theorem elements (h : Expr.Writes E Q) {elements : List Expr} (helements : ∀ e ∈ elements, E e)
    (cName : String) (index : Nat) :
    ∀ line ∈ ArrayVariable.elementCode cName index elements, Q line := by
  induction elements generalizing index with
  | nil => exact List.forall_mem_nil _
  | cons e rest ih =>
      obtain ⟨he, hrest⟩ := List.forall_mem_cons.mp helements
      exact List.forall_mem_append.mpr ⟨h.assignTo he _, ih hrest (index + 1)⟩

theorem array (h : Expr.Writes E Q) {d : ArrayVariable}
    (hd : ∀ e ∈ (Part.array d).exprs, E e) : ∀ line ∈ d.code, Q line := by
  unfold ArrayVariable.code
  split
  · rename_i elements _ helements _
    rw [Part.exprs, helements] at hd
    exact List.forall_mem_cons.mpr
      ⟨h.location d.position, h.elements (List.forall_mem_cons.mp hd).2 d.cName 0⟩
  · exact List.forall_mem_nil _

theorem assignment (h : Expr.Writes E Q) {d : Assignment}
    (hd : ∀ e ∈ (Part.assign d).exprs, E e) : ∀ line ∈ d.code, Q line := by
  have htarget := hd d.target (by simp [Part.exprs])
  have hvalue := hd d.value (by simp [Part.exprs])
  refine List.forall_mem_cons.mpr ⟨h.location d.position, ?_⟩
  simp only [List.forall_mem_append, List.forall_mem_singleton]
  exact ⟨⟨⟨⟨h.evaluate _ hvalue, h.evaluate _ htarget⟩, h.assign d.value hvalue _⟩,
    h.dispose d.value⟩, h.dispose d.target⟩

theorem ret (h : Expr.Writes E Q) {d : Return} (hd : ∀ e ∈ (Part.ret d).exprs, E e) :
    ∀ line ∈ d.code, Q line := by
  rw [Part.exprs] at hd
  refine List.forall_mem_cons.mpr ⟨h.location d.position, ?_⟩
  cases hvalue : d.value with
  | none =>
      dsimp only
      split <;> exact List.forall_mem_singleton.mpr (h.give _)
  | some value =>
      rw [hvalue] at hd
      exact List.forall_mem_append.mpr ⟨h.evaluate value (hd value List.mem_cons_self),
        List.forall_mem_singleton.mpr (h.give _)⟩

theorem printed (h : Expr.Writes E Q) {d : Print} (hd : ∀ e ∈ (Part.print d).exprs, E e) :
    ∀ line ∈ d.code, Q line := by
  refine List.forall_mem_cons.mpr ⟨h.location d.position, ?_⟩
  have hvalues (value : Expr) (hvalue : value ∈ d.values) :
      ∀ line ∈ Print.valueCode value, Q line := by
    simp only [Print.valueCode, List.forall_mem_append, List.forall_mem_singleton]
    exact ⟨⟨h.evaluate value (hd value hvalue), h.print value⟩, h.dispose value⟩
  intro line hline
  obtain ⟨value, hvalue, hmem⟩ := List.mem_flatMap.mp hline
  exact hvalues value hvalue line hmem

theorem evaluation (h : Expr.Writes E Q) {d : Evaluation}
    (hd : ∀ e ∈ (Part.evaluation d).exprs, E e) : ∀ line ∈ d.code, Q line := by
  refine List.forall_mem_cons.mpr ⟨h.location d.position, ?_⟩
  simp only [List.forall_mem_append, List.forall_mem_singleton]
  exact ⟨⟨h.evaluate d.value (hd d.value List.mem_cons_self), h.eval d.value⟩, h.dispose d.value⟩

theorem count (h : Expr.Writes E Q) {d : CountLoop} (hd : ∀ e ∈ (Part.count d).exprs, E e)
    {body : List C.Code} (hbody : Q (.count d.range body)) : ∀ line ∈ d.code body, Q line := by
  have hleft := hd d.left (by simp [Part.exprs])
  have hright := hd d.right (by simp [Part.exprs])
  refine List.forall_mem_cons.mpr ⟨h.location d.position, ?_⟩
  simp only [List.forall_mem_append, List.forall_mem_singleton]
  exact ⟨⟨⟨⟨h.evaluate _ hleft, h.evaluate _ hright⟩, hbody⟩, h.dispose d.left⟩,
    h.dispose d.right⟩

end Expr.Writes

/-! ## All statements -/

/-- The code of statements is put together from lines with `Q` to lines with `Q`, if `Ok` holds of
the parts of the statements. What follows a branch counts as part of it. -/
structure Stmt.Writes (c : Checker) (Ok : Part → Prop) (Q : C.Code → Prop) : Prop where
  values : Expr.Writes (fun e => ∃ p, Ok p ∧ e ∈ p.exprs) Q
  block : ∀ body, (∀ line ∈ body, Q line) → Q (.block body)
  branch : ∀ condition body, (∀ line ∈ body, Q line) → Q (.branch condition body .nothing)
  branch_block : ∀ condition body other, (∀ line ∈ body, Q line) → (∀ line ∈ other, Q line) →
    Q (.branch condition body (.block other))
  branch_branch : ∀ condition body next other rest, (∀ line ∈ body, Q line) →
    Q (.branch next other rest) → Q (.branch condition body (.branch next other rest))
  loop : ∀ e body, Ok (.condition e) → (∀ line ∈ body, Q line) → Q (e.loopCode body)
  count : ∀ d body, Ok (.count d) → (∀ line ∈ body, Q line) → Q (.count d.range body)
  function : ∀ d body, Ok (.function d) → (∀ line ∈ body, Q line) → ∀ line ∈ d.code body c, Q line
  method : ∀ d body, Ok (.method d) → (∀ line ∈ body, Q line) → ∀ line ∈ d.code body c, Q line

namespace Stmt.Writes

variable {c : Checker} {Ok : Part → Prop} {Q : C.Code → Prop}

/-- The expressions of a part that comes first. -/
theorem exprs {p : Part} {rest : List Part} (hp : ∀ q ∈ p :: rest, Ok q) :
    ∀ e ∈ p.exprs, ∃ q, Ok q ∧ e ∈ q.exprs :=
  fun _ he => ⟨p, hp p List.mem_cons_self, he⟩

theorem condition {e : Expr} (he : Ok (.condition e)) : ∃ p, Ok p ∧ e ∈ p.exprs :=
  ⟨.condition e, he, List.mem_singleton_self e⟩

mutual

theorem code (h : Writes c Ok Q) : (stmt : Stmt) → (∀ p ∈ stmt.heads, Ok p) →
    ∀ line ∈ stmt.code c, Q line
  | .var _, hp => h.values.var (exprs hp)
  | .array _, hp => h.values.array (exprs hp)
  | .assign _, hp => h.values.assignment (exprs hp)
  | .ret _, hp => h.values.ret (exprs hp)
  | .print _, hp => h.values.printed (exprs hp)
  | .evaluation _, hp => h.values.evaluation (exprs hp)
  | .conditional chain position, hp =>
      List.forall_mem_cons.mpr ⟨h.values.location position, chainCode h chain hp⟩
  | .count d body, hp => by
      obtain ⟨hd, hbody⟩ := List.forall_mem_cons.mp hp
      exact h.values.count (exprs hp) (h.count d _ hd (codeAll h body hbody))
  | .loop condition body position, hp => by
      obtain ⟨hd, hbody⟩ := List.forall_mem_cons.mp hp
      exact List.forall_mem_cons.mpr ⟨h.values.location position,
        List.forall_mem_singleton.mpr (h.loop condition _ hd (codeAll h body hbody))⟩
  | .function d body, hp => by
      obtain ⟨hd, hbody⟩ := List.forall_mem_cons.mp hp
      exact h.function d _ hd (codeAll h body hbody)
  | .method d body, hp => by
      obtain ⟨hd, hbody⟩ := List.forall_mem_cons.mp hp
      exact h.method d _ hd (codeAll h body hbody)
  | .classDef _ body, hp => definitionCode h body (List.forall_mem_cons.mp hp).2
  | .aggregate _ _, _ | .forward _, _ | .typeAlias _, _ | .prototype _, _ | .library _ _ _, _ =>
      List.forall_mem_nil _

theorem chainCode (h : Writes c Ok Q) : (chain : Chain) → (∀ p ∈ headsChain chain, Ok p) →
    ∀ line ∈ Stmt.chainCode chain c, Q line
  | .done, _ => List.forall_mem_nil _
  | .otherwise body, hp => List.forall_mem_singleton.mpr (h.block _ (codeAll h body hp))
  | .test e body rest, hp => by
      obtain ⟨he, hothers⟩ := List.forall_mem_cons.mp hp
      obtain ⟨hbody, hrest⟩ := List.forall_mem_append.mp hothers
      refine List.forall_mem_append.mpr ⟨h.values.evaluate e (condition he),
        List.forall_mem_singleton.mpr (restCode h e rest hrest _ _ ?_)⟩
      exact List.forall_mem_append.mpr ⟨h.values.dispose e, codeAll h body hbody⟩

/-- Whatever the branch that the rest of a chain follows. -/
theorem restCode (h : Writes c Ok Q) (e : Expr) : (chain : Chain) →
    (∀ p ∈ headsChain chain, Ok p) → (test : C.Term) → (before : List C.Code) →
    (∀ line ∈ before, Q line) → Q (.branch test before (Stmt.restCode e chain c))
  | .done, _, test, before, hbefore => by
      rw [Stmt.restCode]
      split
      · exact h.branch_block test before _ hbefore (h.values.dispose e)
      · exact h.branch test before hbefore
  | .otherwise body, hp, test, before, hbefore => by
      have hbody := codeAll h body hp
      rw [Stmt.restCode]
      split
      · exact h.branch_block test before _ hbefore (List.forall_mem_append.mpr
          ⟨h.values.dispose e, List.forall_mem_singleton.mpr (h.block _ hbody)⟩)
      · exact h.branch_block test before _ hbefore hbody
  | .test next body rest, hp, test, before, hbefore => by
      obtain ⟨hnext, hothers⟩ := List.forall_mem_cons.mp hp
      obtain ⟨hbody, hrest⟩ := List.forall_mem_append.mp hothers
      have hinner := List.forall_mem_append.mpr ⟨h.values.dispose next, codeAll h body hbody⟩
      -- with a block around it or without, what follows is one branch
      have hbranch := restCode h next rest hrest next.condition _ hinner
      rw [Stmt.restCode]
      split
      · refine h.branch_block test before _ hbefore (List.forall_mem_append.mpr
          ⟨List.forall_mem_append.mpr ⟨h.values.dispose e, ?_⟩,
            List.forall_mem_singleton.mpr hbranch⟩)
        exact h.values.evaluate next (condition hnext)
      · exact h.branch_branch test before _ _ _ hbefore hbranch

/-- **What holds of the lines that code is put together from holds of all lines of the code.** -/
theorem codeAll (h : Writes c Ok Q) : (stmts : List Stmt) → (∀ p ∈ headsAll stmts, Ok p) →
    ∀ line ∈ Stmt.codeAll stmts c, Q line
  | [], _ => List.forall_mem_nil _
  | stmt :: rest, hp => by
      obtain ⟨hstmt, hrest⟩ := List.forall_mem_append.mp hp
      exact List.forall_mem_append.mpr ⟨code h stmt hstmt, codeAll h rest hrest⟩

theorem definitionCode (h : Writes c Ok Q) : (stmts : List Stmt) → (∀ p ∈ headsAll stmts, Ok p) →
    ∀ line ∈ Stmt.definitionCode stmts c, Q line
  | [], _ => List.forall_mem_nil _
  | stmt :: rest, hp => by
      obtain ⟨hstmt, hrest⟩ := List.forall_mem_append.mp hp
      refine List.forall_mem_append.mpr ⟨?_, definitionCode h rest hrest⟩
      split
      · exact code h stmt hstmt
      · exact List.forall_mem_nil _

end

mutual

/-- Loading an extension runs its statements, and registers methods and classes. -/
theorem start (h : Writes c Ok Q)
    (hmethod : ∀ klass name function, Q (.defineMethod klass name function))
    (hclass : ∀ d : ClassDef, Q d.create) : (stmt : Stmt) → (∀ p ∈ stmt.heads, Ok p) →
    ∀ line ∈ stmt.start c, Q line
  | .method d _, _ => List.forall_mem_singleton.mpr (hmethod d.classCName d.name d.cName)
  | .classDef d body, hp => List.forall_mem_cons.mpr
      ⟨hclass d, startAll h hmethod hclass body (List.forall_mem_cons.mp hp).2⟩
  | .var _, _ | .array _, _ | .assign _, _ | .ret _, _ | .print _, _ | .evaluation _, _
  | .conditional _ _, _ | .count _ _, _ | .loop _ _ _, _ | .function _ _, _ | .aggregate _ _, _
  | .forward _, _ | .typeAlias _, _ | .prototype _, _ | .library _ _ _, _ =>
      List.forall_mem_nil _

theorem startAll (h : Writes c Ok Q)
    (hmethod : ∀ klass name function, Q (.defineMethod klass name function))
    (hclass : ∀ d : ClassDef, Q d.create) : (stmts : List Stmt) → (∀ p ∈ headsAll stmts, Ok p) →
    ∀ line ∈ Stmt.startAll stmts c, Q line
  | [], _ => List.forall_mem_nil _
  | stmt :: rest, hp => by
      obtain ⟨hstmt, hrest⟩ := List.forall_mem_append.mp hp
      refine List.forall_mem_append.mpr ⟨?_, startAll h hmethod hclass rest hrest⟩
      split
      · exact start h hmethod hclass stmt hstmt
      · exact code h stmt hstmt

end

end Stmt.Writes

end ExtensionCompiler

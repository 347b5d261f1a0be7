import ExtensionCompiler.Compile
import ExtensionCompiler.Proofs.Steps

set_option autoImplicit false

/-! # The walk over a unit

Both passes go over the statements of a unit in one order, and what they do to a statement apart
from those inside it is a matter of its `Part`. So a pass over a tree is a pass over a list.

* `Stmt.visits` lists the parts of statements in the order of analysis, each with the scope that it
  stands in and the state that it meets. If analysis succeeds, the visits are a `Run`: each starts
  in the state that the one before has left (`Stmt.analyseAll_traced`).
* `Stmt.parts` lists the parts of a tree with their scopes. After analysis they are what the visits
  have made of theirs, and the second pass settles them one after the other
  (`Stmt.rescanAll_eq_settle`).

Along a run the state only grows, and stays tidy (`Run.grows`, `Run.tidy`). -/

namespace ExtensionCompiler

/-! ## Parts of statements -/

/-- What a statement has of its own, without the statements inside it. -/
inductive Part where
  | var (d : Variable)
  | array (d : ArrayVariable)
  | assign (d : Assignment)
  | ret (d : Return)
  | print (d : Print)
  | evaluation (d : Evaluation)
  | aggregate (d : Aggregate)
  | forward (d : Forward)
  | typeAlias (d : TypeAlias)
  | prototype (d : Prototype)
  /-- The condition of a loop or of a branch. -/
  | condition (e : Expr)
  | count (d : CountLoop)
  | function (d : Function)
  | method (d : Method)
  | classDef (d : ClassDef)

/-- A part and the scope that it stands in. -/
structure Placed where
  scope : ScopeId
  part : Part

namespace Part

/-- Analyses a part. A definition opens the scope of the statements inside it. -/
def analyse : Part → ScopeId → Checker → Outcome Part
  | .var d, scope, c => (d.analyse scope c).map .var
  | .array d, scope, c => (d.analyse scope c).map .array
  | .assign d, scope, c => (d.analyse scope c).map .assign
  | .ret d, scope, c => (d.analyse scope c).map .ret
  | .print d, scope, c => (d.analyse scope c).map .print
  | .evaluation d, scope, c => (d.analyse scope c).map .evaluation
  | .aggregate d, scope, c =>
    (d.declare scope c).map fun type =>
      .aggregate
        { d with type := some type, scope := some scope, memberScope := some c.scopes.length }
  | .forward d, scope, c => (d.analyse scope c).map .forward
  | .typeAlias d, scope, c => (d.analyse scope c).map .typeAlias
  | .prototype d, scope, c => (d.analyse scope c).map .prototype
  | .condition e, scope, c => (e.analyseCondition scope c).map .condition
  | .count d, scope, c => (d.analyse scope c).map .count
  | .function d, scope, c => (d.enter scope c).map .function
  | .method d, scope, c => (d.enter scope c).map .method
  | .classDef d, scope, c => (d.enter scope c).map .classDef

/-- Settles a part that was analysed in `scope`. -/
def rescan : Part → ScopeId → Checker → Part × Checker
  | .var d, scope, c => ((d.rescan scope c).map .var id)
  | .array d, scope, c => ((d.rescan scope c).map .array id)
  | .forward d, scope, c => ((d.rescan scope c).map .forward id)
  | .typeAlias d, scope, c => ((d.rescan scope c).map .typeAlias id)
  | .prototype d, scope, c => ((d.rescan scope c).map .prototype id)
  | .function d, scope, c =>
    match d.scope with
    | some inner => (d.rescan inner scope c).map .function id
    | none => (.function d, c)
  | .method d, _, c =>
    match d.scope with
    | some inner => (d.rescan inner c).map .method id
    | none => (.method d, c)
  | part, _, c => (part, c)

end Part

/-- Settles parts one after the other. -/
def Placed.settleAll : List Placed → Checker → List Placed × Checker
  | [], c => ([], c)
  | p :: rest, c =>
    let settled := p.part.rescan p.scope c
    let others := settleAll rest settled.2
    (⟨p.scope, settled.1⟩ :: others.1, others.2)

theorem Placed.settleAll_append (ps qs : List Placed) (c : Checker) :
    settleAll (ps ++ qs) c
      = ((settleAll ps c).1 ++ (settleAll qs (settleAll ps c).2).1,
        (settleAll qs (settleAll ps c).2).2) := by
  induction ps generalizing c with
  | nil => rfl
  | cons p ps ih => simp only [List.cons_append, settleAll, ih]

namespace Stmt

mutual

/-- The parts of a statement in `scope` and of those inside it, in order. The statements inside a
definition stand in the scope that analysis has opened for them. -/
def parts : Stmt → ScopeId → List Placed
  | .var d, scope => [⟨scope, .var d⟩]
  | .array d, scope => [⟨scope, .array d⟩]
  | .assign d, scope => [⟨scope, .assign d⟩]
  | .ret d, scope => [⟨scope, .ret d⟩]
  | .print d, scope => [⟨scope, .print d⟩]
  | .evaluation d, scope => [⟨scope, .evaluation d⟩]
  | .aggregate d members, scope =>
    ⟨scope, .aggregate d⟩ :: match d.memberScope with
      | some inner => partsAll members inner
      | none => []
  | .forward d, scope => [⟨scope, .forward d⟩]
  | .typeAlias d, scope => [⟨scope, .typeAlias d⟩]
  | .prototype d, scope => [⟨scope, .prototype d⟩]
  | .library _ declarations _, scope => partsAll declarations scope
  | .conditional chain _, scope => partsChain chain scope
  | .count d body, scope => ⟨scope, .count d⟩ :: partsAll body scope
  | .loop condition body _, scope => ⟨scope, .condition condition⟩ :: partsAll body scope
  | .function d body, scope =>
    ⟨scope, .function d⟩ :: match d.scope with
      | some inner => partsAll body inner
      | none => []
  | .method d body, scope =>
    ⟨scope, .method d⟩ :: match d.scope with
      | some inner => partsAll body inner
      | none => []
  | .classDef d body, scope =>
    ⟨scope, .classDef d⟩ :: match d.scope with
      | some inner => partsAll body inner
      | none => []

def partsChain : Chain → ScopeId → List Placed
  | .done, _ => []
  | .otherwise body, scope => partsAll body scope
  | .test condition body rest, scope =>
    ⟨scope, .condition condition⟩ :: (partsAll body scope ++ partsChain rest scope)

def partsAll : List Stmt → ScopeId → List Placed
  | [], _ => []
  | stmt :: rest, scope => stmt.parts scope ++ partsAll rest scope

end

/-! ## The second pass as a pass over parts -/

mutual

theorem rescan_eq_settle : (stmt : Stmt) → (scope : ScopeId) → (c : Checker) →
    ((stmt.rescan scope c).1.parts scope, (stmt.rescan scope c).2)
      = Placed.settleAll (stmt.parts scope) c
  | .var _, _, _ | .array _, _, _ | .assign _, _, _ | .ret _, _, _ | .print _, _, _
  | .evaluation _, _, _ | .forward _, _, _ | .typeAlias _, _, _ | .prototype _, _, _ => rfl
  | .aggregate d members, scope, c => by
      rw [rescan, parts]
      cases hd : d.memberScope with
      | none =>
          simp only [parts, hd]
          rfl
      | some inner =>
          simp only [parts, hd, Placed.settleAll, Part.rescan,
            ← rescanAll_eq_settle members inner c]
  | .library header declarations position, scope, c => by
      rw [rescan, parts]
      exact rescanAll_eq_settle declarations scope c
  | .conditional chain position, scope, c => by
      rw [rescan, parts]
      exact rescanChain_eq_settle chain scope c
  | .count _ body, scope, c | .loop _ body _, scope, c => by
      simp only [rescan, parts, Placed.settleAll, Part.rescan, ← rescanAll_eq_settle body scope c]
  | .function d body, scope, c => by
      rw [rescan, parts]
      cases hd : d.scope with
      | none => simp only [parts, hd, Placed.settleAll, Part.rescan]
      | some inner =>
          -- the settled function has the scope that it had, so its body is found there again
          have hscope : (d.rescan inner scope c).1.scope = some inner := hd
          simp only [parts, hd, hscope, Placed.settleAll, Part.rescan, Prod.map,
            ← rescanAll_eq_settle body inner, id]
  | .method d body, scope, c => by
      rw [rescan, parts]
      cases hd : d.scope with
      | none => simp only [parts, hd, Placed.settleAll, Part.rescan]
      | some inner =>
          have hscope : (d.rescan inner c).1.scope = some inner := hd
          simp only [parts, hd, hscope, Placed.settleAll, Part.rescan, Prod.map,
            ← rescanAll_eq_settle body inner, id]
  | .classDef d body, scope, c => by
      rw [rescan, parts]
      cases hd : d.scope with
      | none =>
          simp only [parts, hd]
          rfl
      | some inner =>
          simp only [parts, hd, Placed.settleAll, Part.rescan, ← rescanAll_eq_settle body inner c]

theorem rescanChain_eq_settle : (chain : Chain) → (scope : ScopeId) → (c : Checker) →
    (partsChain (rescanChain chain scope c).1 scope, (rescanChain chain scope c).2)
      = Placed.settleAll (partsChain chain scope) c
  | .done, scope, c => rfl
  | .otherwise body, scope, c => by
      rw [rescanChain, partsChain]
      exact rescanAll_eq_settle body scope c
  | .test condition body rest, scope, c => by
      simp only [rescanChain, partsChain, Placed.settleAll, Part.rescan, Placed.settleAll_append,
        ← rescanAll_eq_settle body scope c, ← rescanChain_eq_settle rest scope]

/-- **The second pass settles the parts of a unit one after the other.** -/
theorem rescanAll_eq_settle : (stmts : List Stmt) → (scope : ScopeId) → (c : Checker) →
    (partsAll (rescanAll stmts scope c).1 scope, (rescanAll stmts scope c).2)
      = Placed.settleAll (partsAll stmts scope) c
  | [], scope, c => rfl
  | stmt :: rest, scope, c => by
      simp only [rescanAll, partsAll, Placed.settleAll_append, ← rescan_eq_settle stmt scope c,
        ← rescanAll_eq_settle rest scope]

end

end Stmt

/-! ## Visits -/

open Checker (Edits EditsIn)

/-- Whether a part is of a kind that names a type. -/
def Part.binds : Part → Bool
  | .aggregate _ | .typeAlias _ => true
  | _ => false

/-- Whether it succeeds or not, analysis of a part makes edits for its scope and nothing else. Only
parts that name a type change the registry. -/
theorem Part.analyse_editsIn (p : Part) (scope : ScopeId) {c : Checker} {n : Nat}
    (hn : n ≤ c.scopes.length) : EditsIn n scope p.binds c (p.analyse scope c).checker := by
  cases p with
  | var d | array d | assign d | ret d | forward d | typeAlias d | prototype d =>
      exact d.analyse_editsIn scope c
  | print d =>
      exact (Print.analyseValues_takesTemps d.position scope d.values c).editsIn (.inl rfl)
  | evaluation d => exact (d.value.analyse_takesTemps none scope c).editsIn (.inl rfl)
  | aggregate d => exact .head (.pushScope c _ rfl rfl) (d.editsIn_of_addScope scope c)
  | condition e => exact (e.analyseCondition_takesTemps scope c).editsIn (.inl rfl)
  | count d => exact d.analyse_editsIn scope c
  | function d | method d => exact .head (.pushScope c _ rfl rfl) (d.editsIn_of_addScope scope hn)
  | classDef d => exact d.enter_editsIn scope c

theorem Part.analyse_binds (p : Part) (scope : ScopeId) (c : Checker) :
    Edits p.binds c (p.analyse scope c).checker :=
  (p.analyse_editsIn scope c.scopes.length.zero_le).edits

theorem Part.analyse_edits (p : Part) (scope : ScopeId) (c : Checker) :
    Edits true c (p.analyse scope c).checker :=
  (p.analyse_binds scope c).weaken

/-- A part with the scope it stands in and the state that analysis meets it in. -/
structure Visit where
  scope : ScopeId
  before : Checker
  part : Part

namespace Visit

def outcome (v : Visit) : Outcome Part := v.part.analyse v.scope v.before

/-- The state that the visit leaves. -/
def after (v : Visit) : Checker := v.outcome.checker

/-- What the visit makes of the part. -/
def result (v : Visit) : Placed := ⟨v.scope, v.outcome.node⟩

end Visit

namespace Stmt

mutual

/-- The visits to the parts of a statement, in the order of analysis. -/
def visits : Stmt → ScopeId → Checker → List Visit
  | .var d, scope, c => [⟨scope, c, .var d⟩]
  | .array d, scope, c => [⟨scope, c, .array d⟩]
  | .assign d, scope, c => [⟨scope, c, .assign d⟩]
  | .ret d, scope, c => [⟨scope, c, .ret d⟩]
  | .print d, scope, c => [⟨scope, c, .print d⟩]
  | .evaluation d, scope, c => [⟨scope, c, .evaluation d⟩]
  | .aggregate d members, scope, c =>
    ⟨scope, c, .aggregate d⟩ :: visitsAll members c.scopes.length (d.declare scope c).checker
  | .forward d, scope, c => [⟨scope, c, .forward d⟩]
  | .typeAlias d, scope, c => [⟨scope, c, .typeAlias d⟩]
  | .prototype d, scope, c => [⟨scope, c, .prototype d⟩]
  | .library _ declarations _, scope, c => visitsAll declarations scope c
  | .conditional chain _, scope, c => visitsChain chain scope c
  | .count d body, scope, c =>
    ⟨scope, c, .count d⟩ :: visitsAll body scope (d.analyse scope c).checker
  | .loop condition body _, scope, c =>
    ⟨scope, c, .condition condition⟩
      :: visitsAll body scope (condition.analyseCondition scope c).checker
  | .function d body, scope, c =>
    ⟨scope, c, .function d⟩ :: visitsAll body c.scopes.length (d.enter scope c).checker
  | .method d body, scope, c =>
    ⟨scope, c, .method d⟩ :: visitsAll body c.scopes.length (d.enter scope c).checker
  | .classDef d body, scope, c =>
    ⟨scope, c, .classDef d⟩ :: visitsAll body c.scopes.length (d.enter scope c).checker

def visitsChain : Chain → ScopeId → Checker → List Visit
  | .done, _, _ => []
  | .otherwise body, scope, c => visitsAll body scope c
  | .test condition body rest, scope, c =>
    let tested := (condition.analyseCondition scope c).checker
    ⟨scope, c, .condition condition⟩
      :: (visitsAll body scope tested
        ++ visitsChain rest scope (analyseAll body scope tested).checker)

/-- The visits to the parts of statements, in the order of analysis. -/
def visitsAll : List Stmt → ScopeId → Checker → List Visit
  | [], _, _ => []
  | stmt :: rest, scope, c =>
    stmt.visits scope c ++ visitsAll rest scope (stmt.analyse scope c).checker

end

end Stmt

/-! ## Runs -/

/-- Visits that succeed one after the other, each in the state that the one before has left. -/
inductive Run : Checker → List Visit → Checker → Prop
  | done (c : Checker) : Run c [] c
  | step {v : Visit} {visits : List Visit} {c : Checker} :
      v.outcome.error = none → Run v.after visits c → Run v.before (v :: visits) c

namespace Run

variable {c c' : Checker} {vs : List Visit}

theorem append {c'' : Checker} {ws : List Visit} (h : Run c vs c') (h' : Run c' ws c'') :
    Run c (vs ++ ws) c'' := by
  induction h with
  | done => exact h'
  | step hok _ ih => exact .step hok (ih h')

theorem edits (h : Run c vs c') : Edits true c c' := by
  induction h with
  | done => exact .refl
  | @step v _ _ _ _ ih => exact (v.part.analyse_edits v.scope v.before).trans ih

theorem grows (h : Run c vs c') : c.Grows c' :=
  h.edits.grows

theorem tidy (h : Run c vs c') (hc : c.Tidy) : c'.Tidy :=
  h.edits.tidy hc

theorem outcome_ok (h : Run c vs c') : ∀ v ∈ vs, v.outcome.error = none := by
  induction h with
  | done => exact List.forall_mem_nil _
  | step hok _ ih => exact List.forall_mem_cons.mpr ⟨hok, ih⟩

/-- What every visit keeps holds at every visit and after the run. -/
theorem invariant {I : Checker → Prop} (h : Run c vs c') (hc : I c)
    (hstep : ∀ v ∈ vs, v.outcome.error = none → I v.before → I v.after) :
    I c' ∧ ∀ v ∈ vs, I v.before := by
  induction h with
  | done => exact ⟨hc, List.forall_mem_nil _⟩
  | @step v _ _ hok _ ih =>
      obtain ⟨hfirst, hothers⟩ := List.forall_mem_cons.mp hstep
      obtain ⟨hend, hrest⟩ := ih (hfirst hok hc) hothers
      exact ⟨hend, List.forall_mem_cons.mpr ⟨hc, hrest⟩⟩

/-- The run up to a visit and the run from it on. -/
theorem split {ws : List Visit} {v : Visit} (h : Run c (vs ++ v :: ws) c') :
    Run c vs v.before ∧ v.outcome.error = none ∧ Run v.after ws c' := by
  induction vs generalizing c with
  | nil =>
      cases h with
      | step hok hrest => exact ⟨.done _, hok, hrest⟩
  | cons u vs ih =>
      cases h with
      | step hok hrest =>
          obtain ⟨hbefore, hv, hafter⟩ := ih hrest
          exact ⟨.step hok hbefore, hv, hafter⟩

end Run

/-! ## Analysis as a run -/

/-- What is known of a pass in `scope` that visits `visits` and leaves the parts `parts`: the visits
are a run, the parts are what they have made, and all stand in scopes that are there. -/
structure Traced (scope : ScopeId) (c : Checker) (visits : List Visit) (c' : Checker)
    (parts : List Placed) : Prop where
  run : Run c visits c'
  results : parts = visits.map Visit.result
  inRange : scope < c.scopes.length → ∀ v ∈ visits, v.scope < v.before.scopes.length

namespace Traced

variable {scope inner : ScopeId} {c c' c'' : Checker} {vs ws : List Visit} {ps qs : List Placed}

theorem nil (scope : ScopeId) (c : Checker) : Traced scope c [] c [] :=
  ⟨.done c, rfl, fun _ _ h => nomatch h⟩

theorem append (h : Traced scope c vs c' ps) (h' : Traced scope c' ws c'' qs) :
    Traced scope c (vs ++ ws) c'' (ps ++ qs) where
  run := h.run.append h'.run
  results := by rw [h.results, h'.results, List.map_append]
  inRange hscope := List.forall_mem_append.mpr ⟨h.inRange hscope,
    h'.inRange (Nat.lt_of_lt_of_le hscope h.run.grows.length_le)⟩

/-- A visit, and then a pass in a scope that is there if the first one is. -/
theorem cons {p : Part} {ws : List Visit} {qs : List Placed} {part : Part}
    (hok : (p.analyse scope c).error = none)
    (hpart : part = (p.analyse scope c).node)
    (hinner : scope < c.scopes.length → inner < (p.analyse scope c).checker.scopes.length)
    (h : Traced inner (p.analyse scope c).checker ws c'' qs) :
    Traced scope c (⟨scope, c, p⟩ :: ws) c'' (⟨scope, part⟩ :: qs) where
  run := Run.step (v := ⟨scope, c, p⟩) hok h.run
  results := by
    rw [hpart, h.results]
    rfl
  inRange hscope := List.forall_mem_cons.mpr ⟨hscope, h.inRange (hinner hscope)⟩

/-- A visit in the scope of the pass. -/
theorem single {p : Part} (hok : (p.analyse scope c).error = none) :
    Traced scope c [⟨scope, c, p⟩] (p.analyse scope c).checker
      [⟨scope, (p.analyse scope c).node⟩] :=
  cons hok rfl (fun h => Nat.lt_of_lt_of_le h (p.analyse_edits scope c).grows.length_le)
    (nil scope _)

end Traced

namespace Stmt

mutual

theorem analyse_traced : (stmt : Stmt) → (scope : ScopeId) → (c : Checker) →
    (stmt.analyse scope c).error = none →
    Traced scope c (stmt.visits scope c) (stmt.analyse scope c).checker
      ((stmt.analyse scope c).node.parts scope)
  | .var _, _, _, h | .array _, _, _, h | .assign _, _, _, h | .ret _, _, _, h | .print _, _, _, h
  | .evaluation _, _, _, h | .forward _, _, _, h | .typeAlias _, _, _, h | .prototype _, _, _, h =>
      Traced.single h
  | .aggregate d members, scope, c, h => by
      rw [analyse] at h ⊢
      obtain ⟨hdeclare, hrest⟩ := (Outcome.andThen_error_eq_none_iff _ _ _).mp h
      obtain ⟨hmembers, -⟩ := (Outcome.andThen_error_eq_none_iff _ _ _).mp hrest
      rw [Outcome.andThen_of_ok hdeclare, Outcome.andThen_of_ok hmembers]
      -- the node is filled in after the members, but with nothing that they give
      exact Traced.cons (p := .aggregate d) hdeclare rfl
        (fun _ =>
          Checker.length_lt_of_edits_addScope (d.editsIn_of_addScope scope c (n := 0)).edits)
        (analyseAll_traced members c.scopes.length _ hmembers)
  | .library header declarations position, scope, c, h =>
      analyseAll_traced declarations scope c h
  | .conditional chain position, scope, c, h => analyseChain_traced chain scope c h
  | .count d body, scope, c, h => by
      rw [analyse] at h ⊢
      obtain ⟨hhead, hbody, heq⟩ := Outcome.andThen_parts h
      rw [heq]
      exact (Traced.single (p := .count d) hhead).append (analyseAll_traced body scope _ hbody)
  | .loop condition body position, scope, c, h => by
      rw [analyse] at h ⊢
      obtain ⟨hhead, hbody, heq⟩ := Outcome.andThen_parts h
      rw [heq]
      exact (Traced.single (p := .condition condition) hhead).append
        (analyseAll_traced body scope _ hbody)
  | .function d body, scope, c, h => by
      rw [analyse] at h ⊢
      obtain ⟨hhead, hbody, heq⟩ := Outcome.andThen_parts h
      rw [heq]
      -- the body stands in the scope that entering the function has opened
      have hparts := Traced.cons (p := .function d) hhead rfl
        (fun _ => Checker.length_lt_of_edits_addScope
          (d.editsIn_of_addScope scope (Nat.zero_le _)).edits)
        (analyseAll_traced body c.scopes.length _ hbody)
      dsimp only [Outcome.map, parts]
      rw [(Function.enter_entered hhead).scope_eq]
      exact hparts
  | .method d body, scope, c, h => by
      rw [analyse] at h ⊢
      obtain ⟨hhead, hbody, heq⟩ := Outcome.andThen_parts h
      rw [heq]
      have hparts := Traced.cons (p := .method d) hhead rfl
        (fun _ => Checker.length_lt_of_edits_addScope
          (d.editsIn_of_addScope scope (Nat.zero_le _)).edits)
        (analyseAll_traced body c.scopes.length _ hbody)
      dsimp only [Outcome.map, parts]
      obtain ⟨params, c₁, entry, -, -, -, hnode⟩ := Method.enter_ok hhead
      rw [show (d.enter scope c).node.scope = some c.scopes.length by rw [hnode]]
      exact hparts
  | .classDef d body, scope, c, h => by
      rw [analyse] at h ⊢
      obtain ⟨hhead, hbody, heq⟩ := Outcome.andThen_parts h
      rw [heq]
      obtain ⟨hscope, hlen, -⟩ := ClassDef.enter_ok hhead
      have hparts := Traced.cons (p := .classDef d) hhead rfl
        (fun _ => Nat.lt_of_lt_of_eq (Nat.lt_succ_self _) hlen.symm)
        (analyseAll_traced body c.scopes.length _ hbody)
      dsimp only [Outcome.map, parts]
      rw [hscope]
      exact hparts

theorem analyseChain_traced : (chain : Chain) → (scope : ScopeId) → (c : Checker) →
    (analyseChain chain scope c).error = none →
    Traced scope c (visitsChain chain scope c) (analyseChain chain scope c).checker
      (partsChain (analyseChain chain scope c).node scope)
  | .done, scope, c, _ => Traced.nil scope c
  | .otherwise body, scope, c, h => analyseAll_traced body scope c h
  | .test condition body rest, scope, c, h => by
      rw [analyseChain] at h ⊢
      obtain ⟨hhead, h, heq⟩ := Outcome.andThen_parts h
      rw [heq]
      obtain ⟨hbody, hrest, heq⟩ := Outcome.andThen_parts h
      rw [heq]
      exact (Traced.single (p := .condition condition) hhead).append
        ((analyseAll_traced body scope _ hbody).append (analyseChain_traced rest scope _ hrest))

/-- **Analysis that succeeds is a run over the parts of the statements.** -/
theorem analyseAll_traced : (stmts : List Stmt) → (scope : ScopeId) → (c : Checker) →
    (analyseAll stmts scope c).error = none →
    Traced scope c (visitsAll stmts scope c) (analyseAll stmts scope c).checker
      (partsAll (analyseAll stmts scope c).node scope)
  | [], scope, c, _ => Traced.nil scope c
  | stmt :: rest, scope, c, h => by
      rw [analyseAll] at h ⊢
      obtain ⟨hstmt, hrest, heq⟩ := Outcome.andThen_parts h
      rw [heq]
      exact (analyse_traced stmt scope c hstmt).append (analyseAll_traced rest scope _ hrest)

end

end Stmt

/-! ## The second pass changes types only -/

open Checker (Retyped)

theorem Checker.settleName_retyped (c : Checker) (scope : ScopeId) (name : String) (type : Ty) :
    Retyped c (c.settleName scope name type).2 := by
  unfold settleName
  split
  · exact c.retyped_setType scope name _
  · exact .refl c

theorem Parameter.rescan_retyped (declared : Bool) (scope : ScopeId) (p : Parameter) (c : Checker) :
    Retyped c (p.rescan declared scope c).2 := by
  unfold rescan
  split
  · dsimp only
    split
    · exact c.retyped_setType scope _ _
    · exact .refl c
  · exact .refl c

theorem Parameter.rescanAll_retyped (declared : Bool) (scope : ScopeId) (params : List Parameter)
    (c : Checker) : Retyped c (rescanAll declared scope params c).2 := by
  induction params generalizing c with
  | nil => exact .refl c
  | cons p rest ih => exact (p.rescan_retyped declared scope c).trans (ih _)

theorem Prototype.rescan_retyped (d : Prototype) (scope : ScopeId) (c : Checker) :
    Retyped c (d.rescan scope c).2 := by
  have hparams := Parameter.rescanAll_retyped false scope d.params c
  unfold rescan
  dsimp only
  split
  · exact hparams.trans (Checker.retyped_setType _ scope _ _)
  · exact hparams

theorem Part.rescan_retyped (p : Part) (scope : ScopeId) (c : Checker) :
    Retyped c (p.rescan scope c).2 := by
  cases p with
  | var d | array d => exact c.settleName_retyped scope d.name d.type
  | forward d => exact c.retyped_setType scope _ _
  | typeAlias d =>
      show Retyped c (d.rescan scope c).2
      unfold TypeAlias.rescan
      split
      · exact .refl c
      · exact Checker.retyped_setType (c.register d.name _ d.position) scope _ _
  | prototype d => exact d.rescan_retyped scope c
  | function d =>
      unfold Part.rescan
      dsimp only
      split
      · rename_i inner _
        have hparams := Parameter.rescanAll_retyped true inner d.params c
        exact (hparams.trans (Checker.retyped_setReturnType _ inner _)).trans
          (Checker.retyped_setType _ scope _ _)
      · exact .refl c
  | method d =>
      unfold Part.rescan
      dsimp only
      split
      · exact Parameter.rescanAll_retyped true _ d.params c
      · exact .refl c
  | _ => exact .refl c

theorem Placed.settleAll_retyped (ps : List Placed) (c : Checker) :
    Retyped c (settleAll ps c).2 := by
  induction ps generalizing c with
  | nil => exact .refl c
  | cons p rest ih => exact (p.part.rescan_retyped p.scope c).trans (ih _)

/-! ## Checked units -/

variable {unit : List Stmt} {registry : Registry} {checked : Checked}

/-- A checked unit has been analysed and settled, and nothing is left pending. -/
theorem check_ok (h : check unit registry = .ok checked) :
    (Stmt.analyseAll unit Checker.global (Checker.start registry)).error = none
      ∧ Stmt.rescanAll (Stmt.analyseAll unit Checker.global (Checker.start registry)).node
          Checker.global (Stmt.analyseAll unit Checker.global (Checker.start registry)).checker
        = (checked.unit, checked.checker)
      ∧ checked.checker.unresolved? = none := by
  unfold check at h
  dsimp only at h
  split at h
  · cases h
  · rename_i hok
    refine ⟨hok, ?_⟩
    split at h
    · cases h
    · rename_i hnone
      cases h
      exact ⟨rfl, hnone⟩

/-- A result can be run to see that it is there and what holds of it. -/
theorem exists_ok_of_decide {ε α : Type} {result : Except ε α} {p : α → Prop} [DecidablePred p]
    (h : (result.toOption.any fun a => decide (p a)) = true) : ∃ a, result = .ok a ∧ p a := by
  cases result with
  | error e => cases h
  | ok a => exact ⟨a, rfl, of_decide_eq_true h⟩

/-- What is compiled is a unit that the check accepts. -/
theorem compile_ok {options : Options}
    {compiled : Compiled} (h : compile unit registry options = .ok compiled) :
    ∃ checked, check unit registry = .ok checked
      ∧ compiled.code = generate checked.unit checked.checker options
      ∧ compiled.checker = checked.checker := by
  unfold compile at h
  split at h
  · cases h
  · rename_i checked hcheck
    cases h
    exact ⟨checked, hcheck, rfl, rfl⟩

/-- What the check accepts is compiled. -/
theorem exists_compile_ok (h : check unit registry = .ok checked) (options : Options) :
    ∃ compiled, compile unit registry options = .ok compiled := by
  rw [compile, h]
  exact ⟨_, rfl⟩

/-- The run of the analysis of a checked unit, and what the second pass makes of its parts. -/
structure Passes (unit : List Stmt) (registry : Registry) (checked : Checked)
    (visits : List Visit) (middle : Checker) : Prop where
  run : Run (Checker.start registry) visits middle
  inRange : ∀ v ∈ visits, v.scope < v.before.scopes.length
  settled : Placed.settleAll (visits.map Visit.result) middle
    = (Stmt.partsAll checked.unit Checker.global, checked.checker)
  resolved : checked.checker.unresolved? = none

theorem passes_of_check (h : check unit registry = .ok checked) :
    Passes unit registry checked
      (Stmt.visitsAll unit Checker.global (Checker.start registry))
      (Stmt.analyseAll unit Checker.global (Checker.start registry)).checker := by
  obtain ⟨hok, hrescan, hresolved⟩ := check_ok h
  have htraced := Stmt.analyseAll_traced unit Checker.global (Checker.start registry) hok
  refine ⟨htraced.run, htraced.inRange Nat.zero_lt_one, ?_, hresolved⟩
  rw [← htraced.results, ← Stmt.rescanAll_eq_settle, hrescan]

/-- Every state of a checked unit is tidy, up to the last. -/
theorem Passes.tidy {visits : List Visit} {middle : Checker}
    (h : Passes unit registry checked visits middle) : checked.checker.Tidy := by
  have hretyped := Placed.settleAll_retyped (visits.map Visit.result) middle
  rw [h.settled] at hretyped
  exact hretyped.tidy (h.run.tidy (Checker.tidy_start registry))

end ExtensionCompiler

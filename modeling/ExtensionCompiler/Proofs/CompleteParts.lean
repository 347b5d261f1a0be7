import ExtensionCompiler.Proofs.Written

set_option autoImplicit false

/-! # The parts of a checked tree

The parts of a tree are found from scope to scope, and those of a definition that was never entered
are missing. Its heads are read off the tree without any scope. Every part of a unit that both
passes have gone through is complete (`Passes.isComplete`): it holds what its lines in the file are
made of, and so the scope that its statements are in. The parts of such a tree are its heads
(`Stmt.map_part_partsAll`). -/

namespace ExtensionCompiler

/-- The part holds all that its lines at the top of the file are made of. -/
def Part.IsComplete : Part → Prop
  | .aggregate d => ∃ cName outer inner, d.type = some (.aggregate d.kind d.name cName inner)
      ∧ d.scope = some outer ∧ d.memberScope = some inner
  | .typeAlias d => d.isTagAlias = false → ∃ name cName target, d.type = .aliased name cName target
  | .prototype d => ∃ name cName params result, d.type = some (.function name cName params result)
  | .function d => d.scope.isSome = true
  | .method d => d.scope.isSome = true
  | .classDef d => d.scope.isSome = true
  | _ => True

theorem Visit.isComplete_result {v : Visit} (hok : v.outcome.error = none) :
    v.result.part.IsComplete := by
  obtain ⟨scope, c, p⟩ := v
  have hentered := isEntered_result hok
  cases p with
  | aggregate d =>
      obtain ⟨type, c₁, c₂, entry, htype, -, -, -, heq⟩ := Aggregate.declare_ok hok
      have hnode : (d.declare scope c).node = type := congrArg Outcome.node heq
      exact ⟨_, scope, c.scopes.length, congrArg some (hnode.trans htype), rfl, rfl⟩
  | typeAlias d =>
      intro htag
      change (d.analyse scope c).node.isTagAlias = false at htag
      show ∃ name cName target, (d.analyse scope c).node.type = .aliased name cName target
      cases hd : d.isTagAlias with
      | true =>
          unfold TypeAlias.analyse at htag
          rw [if_pos hd] at htag
          exact absurd (hd.symm.trans htag) (by decide)
      | false =>
          obtain ⟨cName, type, c₁, entry, htype, -, -, heq⟩ := TypeAlias.analyse_ok hok hd
          rw [heq]
          exact ⟨_, _, _, htype⟩
  | prototype d =>
      obtain ⟨params, c₁, c₂, entry, -, hentry, -, heq⟩ := Prototype.analyse_ok hok
      show ∃ name cName params result,
        (d.analyse scope c).node.type = some (.function name cName params result)
      rw [heq, hentry]
      exact ⟨_, _, _, _, rfl⟩
  | function d | method d | classDef d => exact hentered
  | _ => trivial

theorem Part.isComplete_rescan {p : Part} (h : p.IsComplete) (scope : ScopeId) (c : Checker) :
    (p.rescan scope c).1.IsComplete := by
  cases p with
  | typeAlias d =>
      show (Part.typeAlias (d.rescan scope c).1).IsComplete
      unfold TypeAlias.rescan
      split
      · exact h
      · intro htag
        obtain ⟨name, cName, target, htype⟩ := h htag
        show ∃ name cName target, d.type.rescan c.registry = .aliased name cName target
        rw [htype]
        exact ⟨_, _, _, rfl⟩
  | prototype d =>
      obtain ⟨name, cName, params, result, htype⟩ := h
      show (Part.prototype (d.rescan scope c).1).IsComplete
      unfold Prototype.rescan
      rw [htype]
      exact ⟨_, _, _, _, rfl⟩
  | function d | method d =>
      unfold rescan
      dsimp only
      split <;> exact h
  | aggregate d => exact h
  | classDef d => exact h
  | _ => trivial

theorem Passes.isComplete {unit : List Stmt} {registry : Registry} {checked : Checked}
    {visits : List Visit} {middle : Checker} (h : Passes unit registry checked visits middle) :
    ∀ p ∈ Stmt.partsAll checked.unit Checker.global, p.part.IsComplete := by
  intro p hp
  obtain ⟨x, -, hok, rfl⟩ := h.exists_revisit hp
  exact Part.isComplete_rescan (Visit.isComplete_result hok) _ _

/-! ## Parts and heads -/

namespace Stmt

theorem parts_aggregate (d : Aggregate) (members : List Stmt) (scope : ScopeId) :
    (Stmt.aggregate d members).parts scope
      = ⟨scope, .aggregate d⟩ :: d.memberScope.elim [] (partsAll members) := by
  rw [parts]
  cases d.memberScope <;> rfl

theorem parts_function (d : Function) (body : List Stmt) (scope : ScopeId) :
    (Stmt.function d body).parts scope
      = ⟨scope, .function d⟩ :: d.scope.elim [] (partsAll body) := by
  rw [parts]
  cases d.scope <;> rfl

theorem parts_method (d : Method) (body : List Stmt) (scope : ScopeId) :
    (Stmt.method d body).parts scope = ⟨scope, .method d⟩ :: d.scope.elim [] (partsAll body) := by
  rw [parts]
  cases d.scope <;> rfl

theorem parts_classDef (d : ClassDef) (body : List Stmt) (scope : ScopeId) :
    (Stmt.classDef d body).parts scope
      = ⟨scope, .classDef d⟩ :: d.scope.elim [] (partsAll body) := by
  rw [parts]
  cases d.scope <;> rfl

/-- The parts of a complete definition are its own and those of the statements inside. -/
theorem exists_parts_eq {stmt : Stmt} {scope : ScopeId} {p : Part} {inner : Option ScopeId}
    {body : List Stmt} (hparts : stmt.parts scope = ⟨scope, p⟩ :: inner.elim [] (partsAll body))
    (hinner : p.IsComplete → inner.isSome = true)
    (h : ∀ q ∈ stmt.parts scope, q.part.IsComplete) :
    ∃ id, stmt.parts scope = ⟨scope, p⟩ :: partsAll body id
      ∧ ∀ q ∈ partsAll body id, q.part.IsComplete := by
  rw [hparts] at h ⊢
  obtain ⟨hhead, hinside⟩ := List.forall_mem_cons.mp h
  obtain ⟨id, rfl⟩ := Option.isSome_iff_exists.mp (hinner hhead)
  exact ⟨id, rfl, hinside⟩

theorem map_part_definition {stmt : Stmt} {scope : ScopeId} {p : Part} {inner : Option ScopeId}
    {body : List Stmt} (hparts : stmt.parts scope = ⟨scope, p⟩ :: inner.elim [] (partsAll body))
    (hinner : p.IsComplete → inner.isSome = true)
    (hbody : ∀ id, (∀ q ∈ partsAll body id, q.part.IsComplete) →
      (partsAll body id).map Placed.part = headsAll body)
    (h : ∀ q ∈ stmt.parts scope, q.part.IsComplete) :
    (stmt.parts scope).map Placed.part = p :: headsAll body := by
  obtain ⟨id, heq, hinside⟩ := exists_parts_eq hparts hinner h
  rw [heq]
  exact congrArg (p :: ·) (hbody id hinside)

mutual

theorem map_part_parts : (stmt : Stmt) → (scope : ScopeId) →
    (∀ q ∈ stmt.parts scope, q.part.IsComplete) →
    (stmt.parts scope).map Placed.part = stmt.heads
  | .aggregate d members, scope, h =>
      map_part_definition (parts_aggregate d members scope)
        (fun ⟨_, _, _, _, _, hinner⟩ => Option.isSome_of_eq_some hinner)
        (map_part_partsAll members) h
  | .function d body, scope, h =>
      map_part_definition (parts_function d body scope) id (map_part_partsAll body) h
  | .method d body, scope, h =>
      map_part_definition (parts_method d body scope) id (map_part_partsAll body) h
  | .classDef d body, scope, h =>
      map_part_definition (parts_classDef d body scope) id (map_part_partsAll body) h
  | .library _ declarations _, scope, h => map_part_partsAll declarations scope h
  | .conditional chain _, scope, h => map_part_partsChain chain scope h
  | .count d body, scope, h =>
      congrArg (Part.count d :: ·) (map_part_partsAll body scope (List.forall_mem_cons.mp h).2)
  | .loop condition body _, scope, h =>
      congrArg (Part.condition condition :: ·)
        (map_part_partsAll body scope (List.forall_mem_cons.mp h).2)
  | .var _, _, _ | .array _, _, _ | .assign _, _, _ | .ret _, _, _ | .print _, _, _
  | .evaluation _, _, _ | .forward _, _, _ | .typeAlias _, _, _ | .prototype _, _, _ => rfl

theorem map_part_partsChain : (chain : Chain) → (scope : ScopeId) →
    (∀ q ∈ partsChain chain scope, q.part.IsComplete) →
    (partsChain chain scope).map Placed.part = headsChain chain
  | .done, _, _ => rfl
  | .otherwise body, scope, h => map_part_partsAll body scope h
  | .test condition body rest, scope, h => by
      obtain ⟨-, hothers⟩ := List.forall_mem_cons.mp h
      obtain ⟨hbody, hrest⟩ := List.forall_mem_append.mp hothers
      rw [partsChain, headsChain, List.map_cons, List.map_append,
        map_part_partsAll body scope hbody, map_part_partsChain rest scope hrest]

/-- The parts of a complete tree are the heads of its statements. -/
theorem map_part_partsAll : (stmts : List Stmt) → (scope : ScopeId) →
    (∀ q ∈ partsAll stmts scope, q.part.IsComplete) →
    (partsAll stmts scope).map Placed.part = headsAll stmts
  | [], _, _ => rfl
  | stmt :: rest, scope, h => by
      obtain ⟨hstmt, hrest⟩ := List.forall_mem_append.mp h
      rw [partsAll, headsAll, List.map_append, map_part_parts stmt scope hstmt,
        map_part_partsAll rest scope hrest]

end

end Stmt

/-- What holds of the parts of a checked unit holds of its heads. -/
theorem Passes.forall_heads {unit : List Stmt} {registry : Registry} {checked : Checked}
    {visits : List Visit} {middle : Checker} (h : Passes unit registry checked visits middle)
    {Q : Part → Prop} (hparts : ∀ p ∈ Stmt.partsAll checked.unit Checker.global, Q p.part) :
    ∀ p ∈ Stmt.headsAll checked.unit, Q p := by
  rw [← Stmt.map_part_partsAll checked.unit Checker.global h.isComplete]
  exact List.forall_mem_map.mpr hparts

end ExtensionCompiler

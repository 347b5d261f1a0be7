import ExtensionCompiler.Proofs.Outline
import ExtensionCompiler.Proofs.Revisits

set_option autoImplicit false

/-! # What a unit declares, as it is written

`Stmt.writtenAll` lists the variables and the named parameters of definitions in a unit, with the
descriptors that they are written with, and `Stmt.typeNames` the names of types that it defines.
Both are read off the source: `Stmt.headsAll` goes through it without any state, and meets the parts
that analysis visits (`Stmt.map_part_visitsAll`).

In an analysed unit, a `Slot` is such a declaration in the scope that analysis has put it in. What
is written in a part is not changed by either pass (`Part.written_analyse`,
`Part.written_rescan`). -/

namespace ExtensionCompiler

/-! ## Declarations of a part -/

/-- A variable or a parameter as it is written, with the dimension if it is an array. -/
structure Written where
  name : String
  descriptor : Descriptor
  depth : Nat
  dimension : Option Expr

/-- The type that is written. The dimension of an array has to be a number. -/
def Written.type? (w : Written) (registry : Registry) : Option Ty :=
  match w.dimension with
  | none => some (Ty.resolve registry w.descriptor w.depth)
  | some dimension =>
    (ArrayVariable.size? dimension).map fun size =>
      .array (Ty.resolve registry w.descriptor w.depth) size

/-- A written declaration in the scope that has its entry. -/
structure Slot where
  scope : ScopeId
  written : Written

theorem Expr.size?_outline (e : Expr) : ArrayVariable.size? e.outline = ArrayVariable.size? e := by
  cases e <;> rfl

/-- A parameter as it is written, if it has a name. -/
def Parameter.written? (p : Parameter) : Option Written :=
  p.name.map fun name => ⟨name, p.descriptor, p.depth, none⟩

theorem Parameter.mem_written {params : List Parameter} {w : Written} :
    w ∈ params.filterMap written?
      ↔ ∃ p ∈ params, ∃ name, p.name = some name ∧ w = ⟨name, p.descriptor, p.depth, none⟩ := by
  simp only [List.mem_filterMap, written?, Option.map_eq_some_iff, eq_comm (a := w)]

namespace Part

/-- The variables and parameters that a part declares. A prototype declares none of its own. -/
def written : Part → List Written
  | .var d => [⟨d.name, d.descriptor, d.depth, none⟩]
  | .array d => [⟨d.name, d.descriptor, 0, some d.dimension.outline⟩]
  | .function d => d.params.filterMap Parameter.written?
  | .method d => d.params.filterMap Parameter.written?
  | _ => []

/-- The scope in which a part that stands in `scope` declares its variables and parameters. -/
def home? (p : Part) (scope : ScopeId) : Option ScopeId :=
  match p with
  | .function d => d.scope
  | .method d => d.scope
  | _ => some scope

theorem filterMap_written?_outline (params : List Parameter) :
    (params.map Parameter.outline).filterMap Parameter.written?
      = params.filterMap Parameter.written? := by
  rw [List.filterMap_map]
  rfl

/-- What is written does not depend on what analysis has found out. -/
theorem written_outline (p : Part) : p.outline.written = p.written := by
  cases p with
  | array d =>
      show [Written.mk d.name d.descriptor 0 (some d.dimension.outline.outline)] = _
      rw [Expr.outline_outline]
      rfl
  | function d | method d => exact filterMap_written?_outline d.params
  | _ => rfl

theorem written_analyse (p : Part) (scope : ScopeId) (c : Checker) :
    (p.analyse scope c).node.written = p.written := by
  rw [← written_outline, outline_analyse, written_outline]

theorem written_rescan (p : Part) (scope : ScopeId) (c : Checker) :
    (p.rescan scope c).1.written = p.written := by
  rw [← written_outline, outline_rescan, written_outline]

theorem home?_rescan (p : Part) (scope : ScopeId) (c : Checker) :
    (p.rescan scope c).1.home? scope = p.home? scope := by
  cases p with
  | function d | method d =>
      unfold Part.rescan
      dsimp only
      split <;> rfl
  | _ => rfl

end Part

/-- The slots of a part in a unit. -/
def Placed.slots (p : Placed) : List Slot :=
  match p.part.home? p.scope with
  | some home => p.part.written.map fun w => ⟨home, w⟩
  | none => []

theorem Placed.mem_slots {p : Placed} {s : Slot} :
    s ∈ p.slots ↔ p.part.home? p.scope = some s.scope ∧ s.written ∈ p.part.written := by
  unfold slots
  cases p.part.home? p.scope with
  | none => simp
  | some home =>
      rw [List.mem_map, Option.some.injEq]
      constructor
      · rintro ⟨w, hw, rfl⟩
        exact ⟨rfl, hw⟩
      · rintro ⟨rfl, hw⟩
        exact ⟨s.written, hw, rfl⟩

theorem Placed.slots_rescan (p : Placed) (c : Checker) :
    (Placed.mk p.scope (p.part.rescan p.scope c).1).slots = p.slots := by
  unfold slots
  rw [Part.home?_rescan, Part.written_rescan]

/-- A part that was entered has a slot for all that it declares. -/
theorem Placed.written_slots {p : Placed} (h : p.part.isEntered = true) :
    p.slots.map Slot.written = p.part.written := by
  have hhome : (p.part.home? p.scope).isSome = true := by
    obtain ⟨scope, part⟩ := p
    cases part with
    | function d => exact h
    | method d => exact h
    | _ => rfl
  obtain ⟨home, hhome⟩ := Option.isSome_iff_exists.mp hhome
  unfold slots
  rw [hhome, List.map_map]
  exact List.map_id _

/-! ## Declarations of a unit -/

namespace Stmt

mutual

/-- The parts of a statement and of those inside it, in order. -/
def heads : Stmt → List Part
  | .var d => [.var d]
  | .array d => [.array d]
  | .assign d => [.assign d]
  | .ret d => [.ret d]
  | .print d => [.print d]
  | .evaluation d => [.evaluation d]
  | .aggregate d members => .aggregate d :: headsAll members
  | .forward d => [.forward d]
  | .typeAlias d => [.typeAlias d]
  | .prototype d => [.prototype d]
  | .library _ declarations _ => headsAll declarations
  | .conditional chain _ => headsChain chain
  | .count d body => .count d :: headsAll body
  | .loop condition body _ => .condition condition :: headsAll body
  | .function d body => .function d :: headsAll body
  | .method d body => .method d :: headsAll body
  | .classDef d body => .classDef d :: headsAll body

def headsChain : Chain → List Part
  | .done => []
  | .otherwise body => headsAll body
  | .test condition body rest => .condition condition :: (headsAll body ++ headsChain rest)

def headsAll : List Stmt → List Part
  | [] => []
  | stmt :: rest => stmt.heads ++ headsAll rest

end

mutual

theorem map_part_visits : (stmt : Stmt) → (scope : ScopeId) → (c : Checker) →
    (stmt.visits scope c).map Visit.part = stmt.heads
  | .var _, _, _ | .array _, _, _ | .assign _, _, _ | .ret _, _, _ | .print _, _, _
  | .evaluation _, _, _ | .forward _, _, _ | .typeAlias _, _, _ | .prototype _, _, _ => rfl
  | .aggregate _ members, _, _ => congrArg (_ :: ·) (map_part_visitsAll members _ _)
  | .library _ declarations _, _, _ => map_part_visitsAll declarations _ _
  | .conditional chain _, _, _ => map_part_visitsChain chain _ _
  | .count _ body, _, _ | .loop _ body _, _, _ | .function _ body, _, _ | .method _ body, _, _
  | .classDef _ body, _, _ => congrArg (_ :: ·) (map_part_visitsAll body _ _)

theorem map_part_visitsChain : (chain : Chain) → (scope : ScopeId) → (c : Checker) →
    (visitsChain chain scope c).map Visit.part = headsChain chain
  | .done, _, _ => rfl
  | .otherwise body, _, _ => map_part_visitsAll body _ _
  | .test condition body rest, scope, c => by
      rw [visitsChain, List.map_cons, List.map_append, map_part_visitsAll body,
        map_part_visitsChain rest]
      rfl

/-- The parts that are visited are those of the source. -/
theorem map_part_visitsAll : (stmts : List Stmt) → (scope : ScopeId) → (c : Checker) →
    (visitsAll stmts scope c).map Visit.part = headsAll stmts
  | [], _, _ => rfl
  | stmt :: rest, scope, c => by
      rw [visitsAll, List.map_append, map_part_visits stmt, map_part_visitsAll rest]
      rfl

end

/-- The names of types that a unit defines, as structures or as aliases. -/
def typeNames (unit : List Stmt) : List String := (headsAll unit).filterMap Part.typeName?

/-- The variables and parameters that are written in a unit. -/
def writtenAll (unit : List Stmt) : List Written := (headsAll unit).flatMap Part.written

/-- The slots of an analysed unit. -/
def slotsAll (unit : List Stmt) : List Slot := (partsAll unit Checker.global).flatMap Placed.slots

end Stmt

/-! ## Announcements -/

namespace Part

/-- The name that a part announces, with the place where it stands. -/
def announced? : Part → Option (String × Position)
  | .forward d => some (d.name, d.position)
  | .typeAlias d => some (d.name, d.position)
  | _ => none

def announce (registry : Registry) (p : Part) : Registry :=
  match p.announced? with
  | some (name, position) => registry.announce name position
  | none => registry

end Part

namespace Stmt

mutual

theorem announce_eq_foldl : (stmt : Stmt) → (registry : Registry) →
    stmt.announce registry = stmt.heads.foldl Part.announce registry
  | .conditional chain _, registry => announceChain_eq_foldl chain registry
  | .aggregate _ body, registry | .library _ body _, registry | .count _ body, registry
  | .loop _ body _, registry | .function _ body, registry | .method _ body, registry
  | .classDef _ body, registry => announceAll_eq_foldl body registry
  | .var _, _ | .array _, _ | .assign _, _ | .ret _, _ | .print _, _ | .evaluation _, _
  | .forward _, _ | .typeAlias _, _ | .prototype _, _ => rfl

theorem announceChain_eq_foldl : (chain : Chain) → (registry : Registry) →
    announceChain chain registry = (headsChain chain).foldl Part.announce registry
  | .done, _ => rfl
  | .otherwise body, registry => announceAll_eq_foldl body registry
  | .test _ body rest, registry => by
      rw [announceChain, headsChain, List.foldl_cons, List.foldl_append,
        announceAll_eq_foldl body, announceChain_eq_foldl rest]
      rfl

/-- A unit announces what its parts announce, in order. -/
theorem announceAll_eq_foldl : (stmts : List Stmt) → (registry : Registry) →
    announceAll stmts registry = (headsAll stmts).foldl Part.announce registry
  | [], _ => rfl
  | stmt :: rest, registry => by
      rw [announceAll, headsAll, List.foldl_append, announce_eq_foldl stmt,
        announceAll_eq_foldl rest]

end

/-- What every announcement preserves, those of a unit preserve. -/
theorem announceAll_invariant {P : Registry → Prop}
    (hP : ∀ registry name position, P registry → P (registry.announce name position))
    (unit : List Stmt) {registry : Registry} (h : P registry) : P (announceAll unit registry) := by
  rw [announceAll_eq_foldl]
  induction headsAll unit generalizing registry with
  | nil => exact h
  | cons p rest ih =>
      refine ih ?_
      unfold Part.announce
      split
      · exact hP registry _ _ h
      · exact h

end Stmt

end ExtensionCompiler

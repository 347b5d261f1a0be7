import ExtensionCompiler.Proofs.Outline

set_option autoImplicit false

/-! # The statements of a tree

`Stmt.nodesAll` lists all statements of a unit, at any depth, each with the kinds of statements that
stand around it. An emission that goes into some kinds of statements and not into others writes what
the nodes have that it comes to (`Node.linesWithin`).

Both passes keep the nodes of a unit: a checked unit has those of its source, with what the passes
have filled in (`Stmt.outlinesAll_of_check`). -/

namespace ExtensionCompiler

/-! ## The nodes of a tree -/

/-- A kind of statement that has others inside it. -/
inductive Enclosure where
  | aggregate
  | library
  | branch
  | loop
  | function
  | method
  | classBody
deriving DecidableEq, Repr

namespace Enclosure

/-- Whether the statements inside are asked for their lines at the top of the file. -/
def filesInside : Enclosure → Bool
  | .library | .function | .method | .classBody => true
  | .aggregate | .branch | .loop => false

/-- Whether the statements inside are run or registered when the extension is loaded. -/
def loadsInside : Enclosure → Bool
  | .classBody => true
  | _ => false

end Enclosure

/-- A statement of a tree, and what stands around it, from the inside out. -/
structure Node where
  around : List Enclosure
  stmt : Stmt

namespace Node

/-- Whether all that stands around the statement has a property. -/
def isWithin (p : Enclosure → Bool) (n : Node) : Bool := n.around.all p

/-- What an emission writes that goes into enclosures with a property, if it writes `own` for a
statement without those inside it. -/
def linesWithin (p : Enclosure → Bool) (own : Stmt → List C.Code) (nodes : List Node) :
    List C.Code :=
  (nodes.filter (isWithin p)).flatMap fun n => own n.stmt

section

variable (p : Enclosure → Bool) (own : Stmt → List C.Code)

theorem linesWithin_append (ms ns : List Node) :
    linesWithin p own (ms ++ ns) = linesWithin p own ms ++ linesWithin p own ns := by
  rw [linesWithin, List.filter_append, List.flatMap_append]
  rfl

theorem linesWithin_cons {n : Node} (h : n.isWithin p = true) (ns : List Node) :
    linesWithin p own (n :: ns) = own n.stmt ++ linesWithin p own ns := by
  rw [linesWithin, List.filter_cons_of_pos h, List.flatMap_cons]
  rfl

/-- Nothing is written if something that stands around all nodes lacks the property. -/
theorem linesWithin_blocked {around : List Enclosure} {nodes : List Node}
    (hnodes : ∀ n ∈ nodes, around <:+ n.around) (h : around.all p = false) :
    linesWithin p own nodes = [] := by
  have hnone : nodes.filter (isWithin p) = [] := by
    refine List.filter_eq_nil_iff.mpr fun n hn hall => ?_
    obtain ⟨inner, hinner⟩ := hnodes n hn
    rw [isWithin, ← hinner, List.all_append, h, Bool.and_false] at hall
    cases hall
  rw [linesWithin, hnone]
  rfl

end

end Node

namespace Stmt

mutual

/-- The statements inside a statement around which `around` stands, at any depth. -/
def inside (around : List Enclosure) : Stmt → List Node
  | .aggregate _ members => nodesAll (.aggregate :: around) members
  | .library _ declarations _ => nodesAll (.library :: around) declarations
  | .conditional chain _ => nodesChain (.branch :: around) chain
  | .count _ body => nodesAll (.loop :: around) body
  | .loop _ body _ => nodesAll (.loop :: around) body
  | .function _ body => nodesAll (.function :: around) body
  | .method _ body => nodesAll (.method :: around) body
  | .classDef _ body => nodesAll (.classBody :: around) body
  | _ => []

def nodesChain (around : List Enclosure) : Chain → List Node
  | .done => []
  | .otherwise body => nodesAll around body
  | .test _ body rest => nodesAll around body ++ nodesChain around rest

/-- All statements of a tree. -/
def nodesAll (around : List Enclosure) : List Stmt → List Node
  | [] => []
  | stmt :: rest => ⟨around, stmt⟩ :: (stmt.inside around ++ nodesAll around rest)

end

/-- The statement with nothing inside it. -/
def alone : Stmt → Stmt
  | .aggregate d _ => .aggregate d []
  | .library header _ position => .library header [] position
  | .conditional _ position => .conditional .done position
  | .count d _ => .count d []
  | .loop condition _ position => .loop condition [] position
  | .function d _ => .function d []
  | .method d _ => .method d []
  | .classDef d _ => .classDef d []
  | stmt => stmt

/-! ## What stands around a node -/

theorem suffix_of_cons {k : Enclosure} {around inner : List Enclosure} (h : k :: around <:+ inner) :
    around <:+ inner :=
  (List.suffix_cons k around).trans h

mutual

theorem suffix_of_mem_inside {n : Node} : (stmt : Stmt) → {around : List Enclosure} →
    n ∈ stmt.inside around → around <:+ n.around
  | .conditional chain _, _, h => suffix_of_cons (suffix_of_mem_nodesChain chain h)
  | .aggregate _ body, _, h | .library _ body _, _, h | .count _ body, _, h | .loop _ body _, _, h
  | .function _ body, _, h | .method _ body, _, h | .classDef _ body, _, h =>
      suffix_of_cons (suffix_of_mem_nodesAll body h)
  | .var _, _, h | .array _, _, h | .assign _, _, h | .ret _, _, h | .print _, _, h
  | .evaluation _, _, h | .forward _, _, h | .typeAlias _, _, h | .prototype _, _, h => nomatch h

theorem suffix_of_mem_nodesChain {n : Node} : (chain : Chain) → {around : List Enclosure} →
    n ∈ nodesChain around chain → around <:+ n.around
  | .done, _, h => nomatch h
  | .otherwise body, _, h => suffix_of_mem_nodesAll body h
  | .test _ body rest, _, h => by
      rcases List.mem_append.mp h with hbody | hrest
      · exact suffix_of_mem_nodesAll body hbody
      · exact suffix_of_mem_nodesChain rest hrest

/-- What stands around a tree stands around each of its statements. -/
theorem suffix_of_mem_nodesAll {n : Node} : (stmts : List Stmt) → {around : List Enclosure} →
    n ∈ nodesAll around stmts → around <:+ n.around
  | [], _, h => nomatch h
  | stmt :: rest, around, h => by
      rcases List.mem_cons.mp h with rfl | h
      · exact List.suffix_refl around
      · rcases List.mem_append.mp h with hinside | hrest
        · exact suffix_of_mem_inside stmt hinside
        · exact suffix_of_mem_nodesAll rest hrest

end

end Stmt

/-! ## Both passes keep the nodes -/

namespace Stmt

/-- What the statement has of its own, if it is more than a frame around others. -/
def part? : Stmt → Option Part
  | .var d => some (.var d)
  | .array d => some (.array d)
  | .assign d => some (.assign d)
  | .ret d => some (.ret d)
  | .print d => some (.print d)
  | .evaluation d => some (.evaluation d)
  | .aggregate d _ => some (.aggregate d)
  | .forward d => some (.forward d)
  | .typeAlias d => some (.typeAlias d)
  | .prototype d => some (.prototype d)
  | .count d _ => some (.count d)
  | .loop condition _ _ => some (.condition condition)
  | .function d _ => some (.function d)
  | .method d _ => some (.method d)
  | .classDef d _ => some (.classDef d)
  | .library _ _ _ => none
  | .conditional _ _ => none

end Stmt

/-- Where a node stands, and what it was before analysis. -/
def Node.outline (n : Node) : List Enclosure × Option Part :=
  (n.around, n.stmt.part?.map Part.outline)

namespace Stmt

/-- The outlines of a statement and of those inside it. -/
def outlines (around : List Enclosure) (stmt : Stmt) : List (List Enclosure × Option Part) :=
  (⟨around, stmt⟩ :: stmt.inside around : List Node).map Node.outline

def outlinesChain (around : List Enclosure) (chain : Chain) :
    List (List Enclosure × Option Part) :=
  (nodesChain around chain).map Node.outline

def outlinesAll (around : List Enclosure) (stmts : List Stmt) :
    List (List Enclosure × Option Part) :=
  (nodesAll around stmts).map Node.outline

theorem outlinesChain_test (around : List Enclosure) (condition : Expr) (body : List Stmt)
    (rest : Chain) :
    outlinesChain around (.test condition body rest)
      = outlinesAll around body ++ outlinesChain around rest := by
  rw [outlinesChain, nodesChain, List.map_append]
  rfl

theorem outlinesAll_cons (around : List Enclosure) (stmt : Stmt) (rest : List Stmt) :
    outlinesAll around (stmt :: rest) = stmt.outlines around ++ outlinesAll around rest := by
  rw [outlinesAll, nodesAll, List.map_cons, List.map_append]
  rfl

theorem outlines_congr {around : List Enclosure} {stmt stmt' : Stmt}
    (hpart : stmt.part?.map Part.outline = stmt'.part?.map Part.outline)
    (hinside : (stmt.inside around).map Node.outline = (stmt'.inside around).map Node.outline) :
    stmt.outlines around = stmt'.outlines around := by
  rw [outlines, outlines, List.map_cons, List.map_cons, hinside, Node.outline, Node.outline, hpart]

/-- A statement keeps its outlines if its part and the statements inside it do. -/
theorem outlines_of_part {around : List Enclosure} {stmt stmt' : Stmt} {p : Part}
    {pass : Part → Part} (hpass : ∀ p, (pass p).outline = p.outline) (hpart : stmt.part? = some p)
    (hpart' : stmt'.part? = some (pass p))
    (hinside : (stmt'.inside around).map Node.outline = (stmt.inside around).map Node.outline) :
    stmt'.outlines around = stmt.outlines around := by
  refine outlines_congr ?_ hinside
  rw [hpart, hpart', Option.map_some, Option.map_some, hpass]

section

open ExtensionCompiler.Part (outline_analyse outline_rescan)

mutual

theorem outlines_analyse (around : List Enclosure) : (stmt : Stmt) → (scope : ScopeId) →
    (c : Checker) → (stmt.analyse scope c).node.outlines around = stmt.outlines around
  | .var _, scope, c | .array _, scope, c | .assign _, scope, c | .ret _, scope, c
  | .print _, scope, c | .evaluation _, scope, c | .forward _, scope, c | .typeAlias _, scope, c
  | .prototype _, scope, c => outlines_of_part (outline_analyse scope c) rfl rfl rfl
  | .aggregate d members, scope, c => by
      have hmembers := outlinesAll_analyseAll (.aggregate :: around) members c.scopes.length
        (d.declare scope c).checker
      rw [analyse]
      refine Outcome.view_andThen (outlines around) rfl
        (Outcome.view_andThen (outlines around) ?_ ?_)
      · exact outlines_congr rfl hmembers
      · exact outlines_congr rfl hmembers
  | .library header declarations position, scope, c =>
      outlines_congr rfl (outlinesAll_analyseAll (.library :: around) declarations scope c)
  | .conditional chain position, scope, c =>
      outlines_congr rfl (outlinesChain_analyseChain (.branch :: around) chain scope c)
  | .count _ body, scope, c | .loop _ body _, scope, c | .function _ body, scope, c
  | .method _ body, scope, c | .classDef _ body, scope, c => by
      rw [analyse]
      exact Outcome.view_andThen (outlines around)
        (outlines_of_part (outline_analyse scope c) rfl rfl rfl)
        (outlines_of_part (outline_analyse scope c) rfl rfl (outlinesAll_analyseAll _ body _ _))

theorem outlinesChain_analyseChain (around : List Enclosure) : (chain : Chain) →
    (scope : ScopeId) → (c : Checker) →
    outlinesChain around (analyseChain chain scope c).node = outlinesChain around chain
  | .done, _, _ => rfl
  | .otherwise body, scope, c => outlinesAll_analyseAll around body scope c
  | .test condition body rest, scope, c => by
      have hbody (c : Checker) := outlinesAll_analyseAll around body scope c
      have hrest (c : Checker) := outlinesChain_analyseChain around rest scope c
      rw [analyseChain]
      refine Outcome.view_andThen (outlinesChain around) rfl
        (Outcome.view_andThen (outlinesChain around) ?_ ?_)
      · rw [outlinesChain_test, hbody, outlinesChain_test]
      · rw [Outcome.map, outlinesChain_test, hbody, hrest, outlinesChain_test]

theorem outlinesAll_analyseAll (around : List Enclosure) : (stmts : List Stmt) →
    (scope : ScopeId) → (c : Checker) →
    outlinesAll around (analyseAll stmts scope c).node = outlinesAll around stmts
  | [], _, _ => rfl
  | stmt :: rest, scope, c => by
      have hstmt := outlines_analyse around stmt scope c
      rw [analyseAll]
      refine Outcome.view_andThen (outlinesAll around) ?_ ?_
      · rw [outlinesAll_cons, hstmt, outlinesAll_cons]
      · rw [Outcome.map, outlinesAll_cons, hstmt, outlinesAll_analyseAll, outlinesAll_cons]

end

mutual

theorem outlines_rescan (around : List Enclosure) : (stmt : Stmt) → (scope : ScopeId) →
    (c : Checker) → (stmt.rescan scope c).1.outlines around = stmt.outlines around
  | .var _, scope, c | .array _, scope, c | .forward _, scope, c | .typeAlias _, scope, c
  | .prototype _, scope, c => outlines_of_part (outline_rescan scope c) rfl rfl rfl
  | .aggregate _ body, scope, c | .classDef _ body, scope, c => by
      rw [rescan]
      split
      · exact outlines_congr rfl (outlinesAll_rescanAll _ body _ c)
      · rfl
  | .library _ body _, scope, c | .count _ body, scope, c | .loop _ body _, scope, c =>
      outlines_congr rfl (outlinesAll_rescanAll _ body scope c)
  | .conditional chain _, scope, c =>
      outlines_congr rfl (outlinesChain_rescanChain (.branch :: around) chain scope c)
  | .function d body, scope, c | .method d body, scope, c => by
      rw [rescan]
      split
      · rename_i inner hinner
        refine outlines_of_part (outline_rescan scope c) rfl ?_
          (outlinesAll_rescanAll _ body inner _)
        rw [Part.rescan, hinner]
        rfl
      · rfl
  | .assign _, _, _ | .ret _, _, _ | .print _, _, _ | .evaluation _, _, _ => rfl

theorem outlinesChain_rescanChain (around : List Enclosure) : (chain : Chain) →
    (scope : ScopeId) → (c : Checker) →
    outlinesChain around (rescanChain chain scope c).1 = outlinesChain around chain
  | .done, _, _ => rfl
  | .otherwise body, scope, c => outlinesAll_rescanAll around body scope c
  | .test condition body rest, scope, c => by
      rw [rescanChain, outlinesChain_test, outlinesChain_test, outlinesAll_rescanAll,
        outlinesChain_rescanChain]

theorem outlinesAll_rescanAll (around : List Enclosure) : (stmts : List Stmt) →
    (scope : ScopeId) → (c : Checker) →
    outlinesAll around (rescanAll stmts scope c).1 = outlinesAll around stmts
  | [], _, _ => rfl
  | stmt :: rest, scope, c => by
      rw [rescanAll, outlinesAll_cons, outlinesAll_cons, outlines_rescan, outlinesAll_rescanAll]

end

end

/-- **A checked unit has the nodes of its source**, with what the passes have filled in. -/
theorem outlinesAll_of_check {unit : List Stmt} {registry : Registry} {checked : Checked}
    (h : check unit registry = .ok checked) (around : List Enclosure) :
    outlinesAll around checked.unit = outlinesAll around unit := by
  obtain ⟨-, hrescan, -⟩ := check_ok h
  have hunit : checked.unit = (rescanAll _ _ _).1 := (congrArg Prod.fst hrescan).symm
  rw [hunit, outlinesAll_rescanAll, outlinesAll_analyseAll]

/-- The passes leave the nodes of a kind where they are, if the kind can be told from the outline.
-/
theorem isWithin_of_check {unit : List Stmt} {registry : Registry} {checked : Checked}
    (hcheck : check unit registry = .ok checked) {kind : Part → Bool}
    (hkind : ∀ p, kind p.outline = kind p) {inside : Enclosure → Bool}
    (h : ∀ n ∈ nodesAll [] unit, n.stmt.part?.any kind = true → n.isWithin inside = true) :
    ∀ n ∈ nodesAll [] checked.unit, n.stmt.part?.any kind = true → n.isWithin inside = true := by
  have hread (n : Node) : n.stmt.part?.any kind = n.outline.2.any kind := by
    rw [Node.outline, Option.any_map]
    exact congrArg (fun p => n.stmt.part?.any p) (funext fun p => (hkind p).symm)
  intro n hn htrue
  have houtline : n.outline ∈ outlinesAll [] unit := by
    rw [← outlinesAll_of_check hcheck]
    exact List.mem_map_of_mem hn
  obtain ⟨n', hn', hsame⟩ := List.mem_map.mp houtline
  have haround : n'.around = n.around := congrArg Prod.fst hsame
  have hwithin := h n' hn' (by rw [hread, hsame, ← hread]; exact htrue)
  rwa [Node.isWithin, haround] at hwithin

end Stmt

end ExtensionCompiler

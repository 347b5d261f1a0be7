import ExtensionCompiler.Proofs.Emitted
import ExtensionCompiler.Proofs.Targets
import ExtensionCompiler.Proofs.TypedefOrder

set_option autoImplicit false

/-! # The typedefs of a file

`C.Code.typedefsAll` finds the names that the typedefs of a file introduce, at any depth. There are
none but in two sections at the top of the file (`typedefsAll_file`): those for tags, which an
announcement always writes and a structure or union writes unless it leaves that to another, and
those of aliases. Where the first come from is said part by part (`Passes.typedefsAll_eq`), for
units in which no tag is out of reach of the emission. -/

namespace ExtensionCompiler

/-! ## Typedefs in a tree -/

namespace C.Code

mutual

/-- The names that the typedefs in a tree introduce, in order. -/
def typedefs : Code → List String
  | .function _ body => typedefsAll body
  | .entryPoint _ body => typedefsAll body
  | .block body => typedefsAll body
  | .branch _ body rest => typedefsAll body ++ typedefsRest rest
  | .loop _ body => typedefsAll body
  | .count _ body => typedefsAll body
  | code => code.introduced

def typedefsRest : Rest → List String
  | .nothing => []
  | .block body => typedefsAll body
  | .branch _ body rest => typedefsAll body ++ typedefsRest rest

def typedefsAll : List Code → List String
  | [] => []
  | code :: rest => code.typedefs ++ typedefsAll rest

end

@[simp] theorem typedefsAll_nil : typedefsAll [] = [] := rfl

@[simp] theorem typedefsAll_cons (code : Code) (rest : List Code) :
    typedefsAll (code :: rest) = code.typedefs ++ typedefsAll rest := rfl

@[simp] theorem typedefsAll_append (xs ys : List Code) :
    typedefsAll (xs ++ ys) = typedefsAll xs ++ typedefsAll ys := by
  induction xs with
  | nil => rfl
  | cons x xs ih => rw [List.cons_append, typedefsAll, typedefsAll, ih, List.append_assoc]

theorem typedefsAll_eq_flatMap {code : List Code} (h : ∀ line ∈ code, line.isTop = true) :
    typedefsAll code = code.flatMap introduced := by
  induction code with
  | nil => rfl
  | cons line rest ih =>
      obtain ⟨hline, hrest⟩ := List.forall_mem_cons.mp h
      have hown : line.typedefs = line.introduced := by
        cases line with
        | function _ _ | entryPoint _ _ | block _ | branch _ _ _ | loop _ _ | count _ _ =>
            cases hline
        | _ => rfl
      rw [typedefsAll, List.flatMap_cons, ih hrest, hown]

theorem typedefsAll_eq_nil_iff {code : List Code} :
    typedefsAll code = [] ↔ ∀ line ∈ code, line.typedefs = [] := by
  induction code with
  | nil => simp
  | cons line rest ih =>
      rw [List.forall_mem_cons, ← ih, typedefsAll_cons, List.append_eq_nil_iff]

/-- Lines that are no typedefs and have no lines inside. -/
theorem typedefsAll_map {α : Type} (f : α → Code) (xs : List α)
    (h : ∀ x ∈ xs, (f x).typedefs = []) : typedefsAll (xs.map f) = [] :=
  typedefsAll_eq_nil_iff.mpr (List.forall_mem_map.mpr h)

@[simp] theorem typedefsAll_declarations (list : List Declaration) :
    typedefsAll (list.map .declaration) = [] :=
  typedefsAll_map .declaration list fun _ _ => rfl

end C.Code

open C.Code (typedefsAll typedefs typedefsRest)

/-! ## No typedefs in bodies -/

namespace Expr

@[simp] theorem typedefsAll_evaluate (e : Expr) : typedefsAll e.evaluate = [] :=
  C.Code.typedefsAll_map Step.code e.evaluation fun step _ => by cases step <;> rfl

@[simp] theorem typedefsAll_dispose (e : Expr) : typedefsAll e.dispose = [] :=
  C.Code.typedefsAll_map Step.code e.disposal fun step _ => by cases step <;> rfl

theorem typedefs_loopCode (condition : Expr) {body : List C.Code} (h : typedefsAll body = []) :
    (condition.loopCode body).typedefs = [] := by
  unfold loopCode
  split <;> simp [typedefs, typedefsRest, C.Code.introduced, h]

end Expr

theorem Method.typedefsAll_argumentCode (index : Nat) (params : List Parameter) :
    typedefsAll (argumentCode index params) = [] := by
  induction params generalizing index with
  | nil => rfl
  | cons p rest ih => simp [argumentCode, ih, typedefs, C.Code.introduced]

theorem Function.typedefsAll_code (d : Function) (c : Checker) {body : List C.Code}
    (h : typedefsAll body = []) : typedefsAll (d.code body c) = [] := by
  unfold code
  split <;> simp [typedefs, C.Code.introduced, h]

theorem Method.typedefsAll_code (d : Method) (c : Checker) {body : List C.Code}
    (h : typedefsAll body = []) : typedefsAll (d.code body c) = [] := by
  unfold code
  split <;> simp [typedefs, typedefsRest, C.Code.introduced, arityCode, typedefsAll_argumentCode, h]

namespace Stmt

variable (c : Checker)

open C.Code (typedefsAll_eq_nil_iff) in
theorem writes_typedefs : Writes c (fun _ => True) fun line => line.typedefs = [] where
  values :=
    { location := fun _ => rfl
      give := fun _ => rfl
      evaluate := fun e _ => typedefsAll_eq_nil_iff.mp e.typedefsAll_evaluate
      dispose := fun e => typedefsAll_eq_nil_iff.mp e.typedefsAll_dispose
      assign := fun _ _ _ => rfl
      eval := fun _ => rfl
      print := fun _ => rfl }
  block _ hbody := typedefsAll_eq_nil_iff.mpr hbody
  branch _ _ hbody := by simp [typedefs, typedefsRest, typedefsAll_eq_nil_iff.mpr hbody]
  branch_block _ _ _ hbody hother := by
    simp [typedefs, typedefsRest, typedefsAll_eq_nil_iff.mpr hbody,
      typedefsAll_eq_nil_iff.mpr hother]
  branch_branch _ _ _ _ _ hbody hother :=
    List.append_eq_nil_iff.mpr ⟨typedefsAll_eq_nil_iff.mpr hbody, hother⟩
  loop e _ _ hbody := e.typedefs_loopCode (typedefsAll_eq_nil_iff.mpr hbody)
  count _ _ _ hbody := typedefsAll_eq_nil_iff.mpr hbody
  function d _ _ hbody :=
    typedefsAll_eq_nil_iff.mp (d.typedefsAll_code c (typedefsAll_eq_nil_iff.mpr hbody))
  method d _ _ hbody :=
    typedefsAll_eq_nil_iff.mp (d.typedefsAll_code c (typedefsAll_eq_nil_iff.mpr hbody))

/-- Where statements stand they write no typedef, nor do the statements inside them. -/
theorem typedefsAll_definitionCode (stmts : List Stmt) :
    typedefsAll (definitionCode stmts c) = [] :=
  C.Code.typedefsAll_eq_nil_iff.mpr ((writes_typedefs c).definitionCode stmts fun _ _ => trivial)

/-- Nor are there typedefs in what runs when the extension is loaded. -/
theorem typedefsAll_startAll (stmts : List Stmt) : typedefsAll (startAll stmts c) = [] :=
  C.Code.typedefsAll_eq_nil_iff.mpr
    ((writes_typedefs c).startAll (fun _ _ _ => rfl) (fun _ => rfl) stmts fun _ _ => trivial)

end Stmt

/-! ## The sections with typedefs -/

/-- The C name that a part introduces in the section of tags. An announcement always introduces one,
and a structure or union does so unless what is found under its tag has its C name. -/
def Part.tagName? (c : Checker) : Part → Option String
  | .forward d => some d.cName
  | .aggregate d => ((d.header .typeTags c).flatMap C.Code.introduced).head?
  | _ => none

theorem Aggregate.introduced_header (d : Aggregate) (c : Checker) :
    (d.header .typeTags c).flatMap C.Code.introduced
      = ((Part.aggregate d).tagName? c).toList := by
  rw [Part.tagName?]
  unfold header
  split
  · dsimp only
    split <;> rfl
  · rfl

theorem HeaderSection.Line.introduced {part : HeaderSection} {line : C.Code} (h : part.Line line)
    (htags : part ≠ .typeTags) (haliases : part ≠ .typeAliases) : line.introduced = [] := by
  cases h with
  | tag _ _ => exact absurd rfl htags
  | typeAlias _ _ => exact absurd rfl haliases
  | _ => rfl

namespace Stmt

/-- What a statement introduces in the section of tags. -/
theorem introduced_header_typeTags (stmt : Stmt) (c : Checker) :
    (stmt.alone.header .typeTags c).flatMap C.Code.introduced
      = (stmt.part?.bind (Part.tagName? c)).toList := by
  cases stmt with
  | aggregate d members => exact d.introduced_header c
  | _ => rfl

end Stmt

/-- The names that a section introduces. -/
theorem typedefsAll_sectionCode (unit : List Stmt) (c : Checker) (part : HeaderSection) :
    typedefsAll (sectionCode unit c part)
      = (sectionLines unit c part).flatMap C.Code.introduced := by
  obtain ⟨gap, heq, hgap⟩ := sectionCode_eq unit c part
  have hblank : typedefsAll gap = [] := by
    rw [C.Code.typedefsAll_eq_flatMap fun line hline => by rw [hgap line hline]; rfl]
    exact List.flatMap_eq_nil_iff.mpr fun line hline => by rw [hgap line hline]; rfl
  rw [heq, C.Code.typedefsAll_append, hblank, List.append_nil,
    C.Code.typedefsAll_eq_flatMap fun _ => isTop_of_mem_sectionLines]

/-- Only two sections introduce types. -/
theorem typedefsAll_otherSection (unit : List Stmt) (c : Checker) {part : HeaderSection}
    (htags : part ≠ .typeTags) (haliases : part ≠ .typeAliases) :
    typedefsAll (sectionCode unit c part) = [] := by
  rw [typedefsAll_sectionCode]
  refine List.flatMap_eq_nil_iff.mpr fun line hline => ?_
  rcases List.mem_append.mp hline with hglobal | hheader
  · split at hglobal
    · obtain ⟨d, -, rfl⟩ := List.mem_map.mp hglobal
      rfl
    · cases hglobal
  · rw [Stmt.headerAll_eq part c unit [] rfl] at hheader
    obtain ⟨n, -, hown⟩ := List.mem_flatMap.mp hheader
    exact (Stmt.line_of_mem_header_alone hown).introduced htags haliases

/-- **All typedefs of a file stand in two sections.** -/
theorem typedefsAll_file (unit : List Stmt) (c : Checker) (target : String) :
    typedefsAll (file unit c target)
      = (Stmt.headerAll .typeTags unit c ++ Stmt.headerAll .typeAliases unit c).flatMap
          C.Code.introduced := by
  have hstandard : typedefsAll (standardHeaders.map .header) = [] :=
    C.Code.typedefsAll_map .header standardHeaders fun _ _ => rfl
  have hentry : typedefsAll [.entryPoint target (Stmt.startAll unit c)] = [] := by
    rw [typedefsAll, typedefs, Stmt.typedefsAll_startAll]
    rfl
  have hother (part : HeaderSection) (htags : part ≠ .typeTags) (haliases : part ≠ .typeAliases) :=
    typedefsAll_otherSection unit c htags haliases
  simp only [file, HeaderSection.all, List.flatMap_cons, List.flatMap_nil,
    C.Code.typedefsAll_append, hstandard, hentry, Stmt.typedefsAll_definitionCode,
    hother .includes (by decide) (by decide), hother .typeDefinitions (by decide) (by decide),
    hother .globals (by decide) (by decide), hother .prototypes (by decide) (by decide),
    typedefsAll_sectionCode, List.nil_append, List.append_nil,
    List.flatMap_append]
  rfl

/-! ## Tags and aliases, statement by statement -/

/-- The tag that a part defines or announces. -/
def Part.tag? : Part → Option String
  | .aggregate d => some d.tag
  | .forward d => some d.tag
  | _ => none

theorem Part.tag?_outline (p : Part) : p.outline.tag? = p.tag? := by
  cases p <;> rfl

theorem Part.tag?_of_tagName? {p : Part} {c : Checker} {n : String} (h : p.tagName? c = some n) :
    p.tag?.isSome = true := by
  cases p with
  | aggregate d => rfl
  | forward d => rfl
  | _ => cases h

namespace Stmt

section Heads

variable {α : Type} {g : Part → Option α}

mutual

theorem filterMap_inside (hg : ∀ e, g (.condition e) = none) (around : List Enclosure) :
    (stmt : Stmt) →
    (⟨around, stmt⟩ :: stmt.inside around : List Node).filterMap (fun n => n.stmt.part?.bind g)
      = stmt.heads.filterMap g
  | .library _ declarations _ => filterMap_nodesAll hg _ declarations
  | .conditional chain _ => filterMap_nodesChain hg _ chain
  | .aggregate _ body | .count _ body | .loop _ body _ | .function _ body | .method _ body
  | .classDef _ body => by
      rw [heads, inside, List.filterMap_cons, List.filterMap_cons, filterMap_nodesAll hg _ body]
      rfl
  | .var _ | .array _ | .assign _ | .ret _ | .print _ | .evaluation _ | .forward _
  | .typeAlias _ | .prototype _ => rfl

theorem filterMap_nodesChain (hg : ∀ e, g (.condition e) = none) (around : List Enclosure) :
    (chain : Chain) →
    (nodesChain around chain).filterMap (fun n => n.stmt.part?.bind g)
      = (headsChain chain).filterMap g
  | .done => rfl
  | .otherwise body => filterMap_nodesAll hg around body
  | .test condition body rest => by
      rw [nodesChain, headsChain, List.filterMap_cons_none (hg condition), List.filterMap_append,
        List.filterMap_append, filterMap_nodesAll hg around body,
        filterMap_nodesChain hg around rest]

/-- What is read off the nodes of a tree can be read off its parts. -/
theorem filterMap_nodesAll (hg : ∀ e, g (.condition e) = none) (around : List Enclosure) :
    (stmts : List Stmt) →
    (nodesAll around stmts).filterMap (fun n => n.stmt.part?.bind g) = (headsAll stmts).filterMap g
  | [] => rfl
  | stmt :: rest => by
      rw [nodesAll, headsAll, ← List.cons_append, List.filterMap_append, List.filterMap_append,
        filterMap_inside hg around stmt, filterMap_nodesAll hg around rest]

end

end Heads

/-- The emission comes to all structures and unions of the unit, and to all announcements of them.
-/
def TagsFiled (unit : List Stmt) : Prop :=
  ∀ n ∈ nodesAll [] unit, (n.stmt.part?.bind Part.tag?).isSome = true →
    n.isWithin Enclosure.filesInside = true

instance (unit : List Stmt) : Decidable (TagsFiled unit) :=
  inferInstanceAs (Decidable (∀ n ∈ nodesAll [] unit, _ → _))

variable {unit : List Stmt}

theorem TagsFiled.of_check {registry : Registry} {checked : Checked} (h : TagsFiled unit)
    (hcheck : check unit registry = .ok checked) : TagsFiled checked.unit := by
  have hany (n : Node) : (n.stmt.part?.bind Part.tag?).isSome
      = n.stmt.part?.any fun p => p.tag?.isSome := by
    cases n.stmt.part? <;> rfl
  simp only [TagsFiled, hany] at h ⊢
  exact isWithin_of_check hcheck (fun p => congrArg Option.isSome p.tag?_outline) h

/-- The names that a section introduces, if each node introduces at most one. -/
theorem introduced_filedLines {part : HeaderSection} {c : Checker} {nodes : List Node}
    {own : Node → Option String}
    (h : ∀ n ∈ nodes, (n.stmt.alone.header part c).flatMap C.Code.introduced = (own n).toList) :
    (filedLines part c nodes).flatMap C.Code.introduced
      = (nodes.filter (Node.isWithin Enclosure.filesInside)).filterMap own := by
  rw [filedLines, Node.linesWithin, List.flatMap_assoc, List.filterMap_eq_flatMap_toList]
  exact List.flatMap_congr fun n hn => h n (List.mem_filter.mp hn).1

/-- The names that the section of tags introduces, part by part. -/
theorem introduced_typeTags (h : TagsFiled unit) (c : Checker) :
    (headerAll .typeTags unit c).flatMap C.Code.introduced
      = (headsAll unit).filterMap (Part.tagName? c) := by
  rw [headerAll_eq .typeTags c unit [] rfl,
    introduced_filedLines fun n _ => n.stmt.introduced_header_typeTags c, List.filterMap_filter,
    ← filterMap_nodesAll (fun _ => rfl) []]
  refine List.filterMap_congr fun n hn => ?_
  by_cases hwithin : n.isWithin Enclosure.filesInside = true
  · rw [if_pos hwithin]
  · -- the emission does not come to the node, so that there is no line for it to write
    rw [if_neg hwithin]
    by_contra hsome
    obtain ⟨name, hname⟩ := Option.ne_none_iff_exists'.mp (Ne.symm hsome)
    obtain ⟨p, hpart, htag⟩ := Option.bind_eq_some_iff.mp hname
    refine hwithin (h n hn ?_)
    rw [hpart]
    exact Part.tag?_of_tagName? htag

/-- The aliases of a unit that have typedefs and to which the emission comes, in order. -/
def filedAliases (unit : List Stmt) : List TypeAlias :=
  ((nodesAll [] unit).filter (Node.isWithin Enclosure.filesInside)).filterMap Node.alias?

/-- The names that the section of aliases introduces. -/
theorem introduced_typeAliases {c : Checker} (h : ∀ n ∈ nodesAll [] unit, n.stmt.HasLines c) :
    (headerAll .typeAliases unit c).flatMap C.Code.introduced
      = (filedAliases unit).map TypeAlias.cName := by
  have hown (n : Node) (hn : n ∈ nodesAll [] unit) :
      (n.stmt.alone.header .typeAliases c).flatMap C.Code.introduced
        = (n.alias?.map TypeAlias.cName).toList := by
    rw [header_alone_typeAliases (h n hn), Node.alias?]
    cases n.stmt.alias? with
    | none => rfl
    | some d => exact congrArg (· ++ []) d.introduced_line
  rw [headerAll_eq .typeAliases c unit [] rfl, introduced_filedLines hown, filedAliases,
    List.map_filterMap]

end Stmt

/-- **The typedefs of a file**: those for tags, and then those of aliases. -/
theorem Passes.typedefsAll_eq {unit : List Stmt} {registry : Registry} {checked : Checked}
    {visits : List Visit} {middle : Checker} (h : Passes unit registry checked visits middle)
    (hfiled : Stmt.TagsFiled checked.unit) (target : String) :
    typedefsAll (file checked.unit checked.checker target)
      = (Stmt.partsAll checked.unit Checker.global).filterMap
            (fun p => p.part.tagName? checked.checker)
          ++ (Stmt.filedAliases checked.unit).map TypeAlias.cName := by
  have hlines : ∀ n ∈ Stmt.nodesAll [] checked.unit, n.stmt.HasLines checked.checker :=
    Stmt.hasLines_of_mem_nodesAll checked.checker checked.unit h.isComplete
  rw [typedefsAll_file, List.flatMap_append, Stmt.introduced_typeTags hfiled,
    Stmt.introduced_typeAliases hlines, ← Stmt.map_part_partsAll checked.unit _ h.isComplete,
    List.filterMap_map]
  rfl

end ExtensionCompiler

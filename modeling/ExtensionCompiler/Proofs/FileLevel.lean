import ExtensionCompiler.Proofs.CompleteParts
import ExtensionCompiler.Proofs.Nodes
import ExtensionCompiler.Proofs.Registrations

set_option autoImplicit false

/-! # Definitions at file level

A definition writes lines at the top of the file, and a method or a class is registered with the
host when the extension is loaded. Whether the emission comes to a definition depends on all the
statements around it: each kind of statement decides for itself whether it passes the request on to
the statements inside it.

The lines at the top of the file are those of the nodes around which all kinds pass the request on,
in order and once each (`Stmt.headerAll_eq`), and the registrations of the file are those of the
nodes that stand in class bodies only (`Stmt.registrationsAll_startAll`). A definition in a branch
or a loop is not written (`Stmt.definitions_written_of_compile`). -/

namespace ExtensionCompiler

open C.Code (Quiet)

namespace Stmt

/-! ## The sections at the top of the file -/

section Header

variable (part : HeaderSection) (c : Checker)

/-- The lines that the nodes of a tree have in a section, as far as the emission comes to them. -/
def filedLines (nodes : List Node) : List C.Code :=
  Node.linesWithin Enclosure.filesInside (fun stmt => stmt.alone.header part c) nodes

theorem filedLines_blocked {around : List Enclosure} {nodes : List Node}
    (hnodes : ∀ n ∈ nodes, around <:+ n.around) (h : around.all Enclosure.filesInside = false) :
    filedLines part c nodes = [] :=
  Node.linesWithin_blocked _ _ hnodes h

mutual

/-- The lines of a statement are its own, and those of the nodes inside it that are reached. -/
theorem header_eq : (stmt : Stmt) → (around : List Enclosure) →
    around.all Enclosure.filesInside = true →
    stmt.header part c = stmt.alone.header part c ++ filedLines part c (stmt.inside around)
  | .library name declarations position, around, h => by
      rw [inside, ← headerAll_eq declarations (.library :: around) h]
      simp only [alone, header, headerAll, List.append_nil]
  | .function d body, around, h => by
      rw [inside, ← headerAll_eq body (.function :: around) h]
      simp only [alone, header, headerAll, List.append_nil]
  | .method d body, around, h => by
      rw [inside, ← headerAll_eq body (.method :: around) h]
      simp only [alone, header, headerAll, List.append_nil]
  | .classDef d body, around, h => by
      rw [inside, ← headerAll_eq body (.classBody :: around) h]
      simp only [alone, header, headerAll, List.append_nil]
  -- the kinds that do not ask the statements inside them
  | .aggregate d members, around, h => by
      rw [inside, filedLines_blocked part c (fun _ => suffix_of_mem_nodesAll members) rfl,
        List.append_nil]
      rfl
  | .conditional chain _, around, h =>
      (filedLines_blocked part c (fun _ => suffix_of_mem_nodesChain chain) rfl).symm
  | .count _ body, around, h | .loop _ body _, around, h =>
      (filedLines_blocked part c (fun _ => suffix_of_mem_nodesAll body) rfl).symm
  | .var _, _, _ | .array _, _, _ | .assign _, _, _ | .ret _, _, _ | .print _, _, _
  | .evaluation _, _, _ | .forward _, _, _ | .typeAlias _, _, _ | .prototype _, _, _ =>
      (List.append_nil _).symm

/-- **The lines at the top of the file are those of the nodes that are reached**, in order and each
once. -/
theorem headerAll_eq : (stmts : List Stmt) → (around : List Enclosure) →
    around.all Enclosure.filesInside = true →
    headerAll part stmts c = filedLines part c (nodesAll around stmts)
  | [], _, _ => rfl
  | stmt :: rest, around, h => by
      rw [nodesAll, filedLines, Node.linesWithin_cons _ _ (n := ⟨around, stmt⟩) h,
        Node.linesWithin_append, ← filedLines, ← filedLines, ← headerAll_eq rest around h,
        ← List.append_assoc, ← header_eq stmt around h]
      rfl

end

end Header

end Stmt

/-- The lines that a statement can write in a section at the top of the file. -/
inductive HeaderSection.Line : HeaderSection → C.Code → Prop
  | include (spelling : String) : Line .includes (.header spelling)
  | tag (tag name : String) : Line .typeTags (.typedefTag tag name)
  | typeAlias (target : Ty) (name : String) : Line .typeAliases (.typedef target name)
  | aggregate (tag : String) (members : List C.Declaration) :
      Line .typeDefinitions (.aggregate tag members)
  | declaration (d : C.Declaration) : Line .globals (.declaration d)
  | external (name : String) : Line .prototypes (.external name)
  | prototype (heading : C.Heading) : Line .prototypes (.prototype heading)

theorem HeaderSection.Line.isTop {part : HeaderSection} {line : C.Code} (h : part.Line line) :
    line.isTop = true := by
  cases h <;> rfl

section

variable {part : HeaderSection} {c : Checker} {line : C.Code}

theorem Aggregate.line_of_mem_header {d : Aggregate} (h : line ∈ d.header part c) :
    part.Line line := by
  unfold header at h
  split at h
  · split at h
    · split at h
      · cases h
      · exact List.mem_singleton.mp h ▸ .tag _ _
    · exact List.mem_singleton.mp h ▸ .aggregate _ _
    · cases h
  · cases h

theorem TypeAlias.line_of_mem_header {d : TypeAlias} (h : line ∈ d.header part) :
    part.Line line := by
  unfold header at h
  split at h
  · cases h
  · rename_i hcond
    obtain rfl : part = .typeAliases :=
      Decidable.byContradiction fun hpart => hcond (by simp [hpart])
    split at h
    · exact List.mem_singleton.mp h ▸ .typeAlias _ _
    · cases h

theorem Prototype.line_of_mem_header {d : Prototype} (h : line ∈ d.header part) :
    part.Line line := by
  unfold header at h
  split at h
  · cases h
  · rename_i hpart
    obtain rfl := Decidable.not_not.mp hpart
    split at h
    · exact List.mem_singleton.mp h ▸ .external _
    · split at h
      · exact List.mem_singleton.mp h ▸ .prototype _
      · cases h

theorem ClassDef.line_of_mem_globals {d : ClassDef} (h : line ∈ d.globals c) :
    HeaderSection.globals.Line line := by
  rcases List.mem_cons.mp h with rfl | h
  · exact .declaration _
  · split at h
    · obtain ⟨declaration, -, rfl⟩ := List.mem_map.mp h
      exact .declaration declaration
    · cases h

theorem Stmt.line_of_mem_header_alone {stmt : Stmt} (h : line ∈ stmt.alone.header part c) :
    part.Line line := by
  -- a line that is written in one section and not in the others
  have hone {code : C.Code} {own : HeaderSection} (hcode : own.Line code)
      (hmem : line ∈ (if part = own then [code] else []) ++ []) : part.Line line := by
    rw [List.append_nil] at hmem
    split at hmem
    · rename_i hpart
      rw [List.mem_singleton.mp hmem, hpart]
      exact hcode
    · cases hmem
  cases stmt with
  | aggregate d members => exact Aggregate.line_of_mem_header h
  | forward d => exact hone (.tag _ _) (List.mem_append_left [] h)
  | typeAlias d => exact TypeAlias.line_of_mem_header h
  | prototype d => exact Prototype.line_of_mem_header h
  | library name declarations position => exact hone (.include _) h
  | function d body | method d body => exact hone (.prototype _) h
  | classDef d body =>
      rw [alone, header, headerAll, List.append_nil] at h
      split at h
      · rename_i hpart
        rw [hpart]
        exact ClassDef.line_of_mem_globals h
      · cases h
  | _ => cases h

end

/-- The top of a file: the headers that every extension includes, and the sections. -/
def fileTop (unit : List Stmt) (c : Checker) : List C.Code :=
  standardHeaders.map .header ++ HeaderSection.all.flatMap (sectionCode unit c)

theorem isTop_of_mem_sectionLines {unit : List Stmt} {c : Checker} {part : HeaderSection}
    {line : C.Code} (h : line ∈ sectionLines unit c part) : line.isTop = true := by
  rcases List.mem_append.mp h with hglobal | hheader
  · split at hglobal
    · exact C.Code.isTop_of_mem_declarations hglobal
    · cases hglobal
  · rw [Stmt.headerAll_eq part c unit [] rfl] at hheader
    obtain ⟨n, -, hline⟩ := List.mem_flatMap.mp hheader
    exact (Stmt.line_of_mem_header_alone hline).isTop

/-- No function body stands in the top of a file. -/
theorem isTop_of_mem_fileTop {unit : List Stmt} {c : Checker} {line : C.Code}
    (h : line ∈ fileTop unit c) : line.isTop = true := by
  rcases List.mem_append.mp h with hstandard | hsection
  · obtain ⟨name, -, rfl⟩ := List.mem_map.mp hstandard
    rfl
  · obtain ⟨part, -, hline⟩ := List.mem_flatMap.mp hsection
    unfold sectionCode at hline
    dsimp only at hline
    split at hline
    · cases hline
    · rcases List.mem_append.mp hline with hlines | hblank
      · exact isTop_of_mem_sectionLines hlines
      · rw [List.mem_singleton.mp hblank]
        rfl

namespace Stmt

variable (c : Checker)

/-! ## What is registered when the extension is loaded -/

/-- The registrations of the nodes of a tree, as far as the emission comes to them. -/
def loadedLines (nodes : List Node) : List C.Code :=
  Node.linesWithin Enclosure.loadsInside (fun stmt => stmt.alone.start c) nodes

theorem loadedLines_blocked {around : List Enclosure} {nodes : List Node}
    (hnodes : ∀ n ∈ nodes, around <:+ n.around) (h : around.all Enclosure.loadsInside = false) :
    loadedLines c nodes = [] :=
  Node.linesWithin_blocked _ _ hnodes h

theorem start_eq_nil {stmt : Stmt} (h : stmt.isDefinition = false) : stmt.start c = [] := by
  cases stmt with
  | method d body => cases h
  | classDef d body => cases h
  | _ => rfl

mutual

theorem registrationsAll_start : (stmt : Stmt) → (around : List Enclosure) →
    around.all Enclosure.loadsInside = true →
    C.Code.registrationsAll (stmt.start c)
      = stmt.alone.start c ++ loadedLines c (stmt.inside around)
  | .classDef d body, around, h => by
      rw [inside, ← registrationsAll_startAll body (.classBody :: around) h]
      rfl
  -- no other kind has the statements inside it registered
  | .method d body, around, _ => by
      rw [inside, loadedLines_blocked c (fun _ => suffix_of_mem_nodesAll body) rfl]
      rfl
  | .conditional chain _, _, _ =>
      (loadedLines_blocked c (fun _ => suffix_of_mem_nodesChain chain) rfl).symm
  | .aggregate _ body, _, _ | .library _ body _, _, _ | .count _ body, _, _ | .loop _ body _, _, _
  | .function _ body, _, _ =>
      (loadedLines_blocked c (fun _ => suffix_of_mem_nodesAll body) rfl).symm
  | .var _, _, _ | .array _, _, _ | .assign _, _, _ | .ret _, _, _ | .print _, _, _
  | .evaluation _, _, _ | .forward _, _, _ | .typeAlias _, _, _ | .prototype _, _, _ => rfl

/-- **What is registered when the extension is loaded** are the nodes that are reached, in order and
each once. -/
theorem registrationsAll_startAll : (stmts : List Stmt) → (around : List Enclosure) →
    around.all Enclosure.loadsInside = true →
    C.Code.registrationsAll (startAll stmts c) = loadedLines c (nodesAll around stmts)
  | [], _, _ => rfl
  | stmt :: rest, around, h => by
      have hstmt : C.Code.registrationsAll
          (if stmt.isDefinition then stmt.start c else stmt.code c)
            = C.Code.registrationsAll (stmt.start c) := by
        cases hdef : stmt.isDefinition with
        | true => rfl
        | false =>
            rw [start_eq_nil c hdef]
            exact code_quiet c stmt
      rw [nodesAll, loadedLines, Node.linesWithin_cons _ _ (n := ⟨around, stmt⟩) h,
        Node.linesWithin_append, ← loadedLines, ← loadedLines,
        ← registrationsAll_startAll rest around h, ← List.append_assoc,
        ← registrationsAll_start stmt around h, ← hstmt, startAll, C.Code.registrationsAll_append]

end

end Stmt

/-- The registrations of a file are those of the function that loads the extension. -/
theorem registrationsAll_file (unit : List Stmt) (c : Checker) (target : String) :
    C.Code.registrationsAll (file unit c target)
      = C.Code.registrationsAll (Stmt.startAll unit c) := by
  have htop : Quiet (fileTop unit c) :=
    C.Code.quiet_iff.mpr fun _ hline => C.Code.registrations_of_isTop (isTop_of_mem_fileTop hline)
  have hquiet := htop.append (Stmt.definitionCode_quiet c unit)
  show C.Code.registrationsAll (fileTop unit c ++ Stmt.definitionCode unit c
    ++ [.entryPoint target (Stmt.startAll unit c)]) = _
  rw [C.Code.registrationsAll_append, hquiet, List.nil_append]
  exact List.append_nil _

/-! ## What checked definitions write -/

namespace Stmt

/-- A definition writes what it has to at the top of the file, if it is asked, and is registered if
it has to be. What a header provides is not written, nor are aliases of a tag. -/
def HasLines (c : Checker) : Stmt → Prop
  | .aggregate d members => d.isExternal = false → ∃ cName outer inner,
      d.type = some (.aggregate d.kind d.name cName inner)
      ∧ (Stmt.aggregate d members).alone.header .typeTags c
        = (if d.isForwarded cName outer c then [] else [.typedefTag d.tag cName])
      ∧ (Stmt.aggregate d members).alone.header .typeDefinitions c
        = [.aggregate d.tag (c.scope inner).members]
  | .forward d => (Stmt.forward d).alone.header .typeTags c = [.typedefTag d.tag d.cName]
  | .typeAlias d => d.isExternal = false → d.isTagAlias = false → ∃ target,
      (Stmt.typeAlias d).alone.header .typeAliases c = [.typedef target d.cName]
  | .prototype d => d.isExternal = false → ∃ result,
      (Stmt.prototype d).alone.header .prototypes c
        = [.prototype ⟨result, d.cName, Parameter.unnamed d.params⟩]
  | .function d body => (Stmt.function d body).alone.header .prototypes c
      = [.prototype (d.heading (Parameter.unnamed d.params))]
  | .method d body =>
      (Stmt.method d body).alone.header .prototypes c = [.prototype d.heading]
      ∧ (Stmt.method d body).alone.start c = [C.Code.defineMethod d.classCName d.name d.cName]
  | .classDef d body => (∃ inner,
      (Stmt.classDef d body).alone.header .globals c
        = .declaration ⟨"static ", .object, d.cName, none⟩
          :: ((c.scope inner).declarations [] "static ").map .declaration)
      ∧ (Stmt.classDef d body).alone.start c = [d.create]
  | _ => True

variable (c : Checker)

/-- A statement has its lines if what it has of its own is complete. -/
theorem hasLines_of_part {stmt : Stmt} (h : ∀ p, stmt.part? = some p → p.IsComplete) :
    stmt.HasLines c := by
  cases stmt with
  | aggregate d members =>
      intro hext
      obtain ⟨cName, outer, inner, htype, hscope, hmembers⟩ := h (.aggregate d) rfl
      refine ⟨cName, outer, inner, htype, ?_, ?_⟩
      · simp only [alone, header, Aggregate.header, htype, hscope, hmembers, hext]
      · simp only [alone, header, Aggregate.header, htype, hscope, hmembers, hext]
  | forward d => rfl
  | typeAlias d =>
      intro hext htag
      obtain ⟨name, cName, target, htype⟩ := h (.typeAlias d) rfl htag
      refine ⟨target, ?_⟩
      simp [alone, header, TypeAlias.header, hext, htag, htype]
  | prototype d =>
      intro hext
      obtain ⟨name, cName, params, result, htype⟩ := h (.prototype d) rfl
      refine ⟨result, ?_⟩
      simp [alone, header, Prototype.header, hext, htype]
  | function d body => rfl
  | method d body => exact ⟨rfl, rfl⟩
  | classDef d body =>
      obtain ⟨inner, hinner⟩ := Option.isSome_iff_exists.mp (h (.classDef d) rfl)
      refine ⟨⟨inner, ?_⟩, rfl⟩
      simp [alone, header, headerAll, ClassDef.globals, hinner]
  | _ => trivial

/-- The own part of a statement is the first of its parts. -/
theorem mem_parts_of_part? {stmt : Stmt} {p : Part} (h : stmt.part? = some p) (scope : ScopeId) :
    ⟨scope, p⟩ ∈ stmt.parts scope := by
  cases stmt with
  | library _ _ _ => cases h
  | conditional _ _ => cases h
  | _ =>
      cases h
      rw [parts]
      exact List.mem_cons_self

theorem exists_parts_definition {stmt : Stmt} {scope : ScopeId} {p : Part} {inner : Option ScopeId}
    {body : List Stmt} {nodes : List Node}
    (hparts : stmt.parts scope = ⟨scope, p⟩ :: inner.elim [] (partsAll body))
    (hinner : p.IsComplete → inner.isSome = true)
    (hbody : ∀ {id}, (∀ q ∈ partsAll body id, q.part.IsComplete) →
      ∀ n ∈ nodes, ∃ within, ∀ q ∈ n.stmt.parts within, q ∈ partsAll body id)
    (h : ∀ q ∈ stmt.parts scope, q.part.IsComplete) :
    ∀ n ∈ nodes, ∃ id, ∀ q ∈ n.stmt.parts id, q ∈ stmt.parts scope := by
  intro n hn
  obtain ⟨id, heq, hinside⟩ := exists_parts_eq hparts hinner h
  obtain ⟨within, hin⟩ := hbody hinside n hn
  exact ⟨within, fun q hq => heq ▸ List.mem_cons_of_mem _ (hin q hq)⟩

mutual

theorem exists_parts_inside {around : List Enclosure} : (stmt : Stmt) →
    {scope : ScopeId} → (∀ q ∈ stmt.parts scope, q.part.IsComplete) →
    ∀ n ∈ stmt.inside around, ∃ id, ∀ q ∈ n.stmt.parts id, q ∈ stmt.parts scope
  | .aggregate d members, scope, h =>
      exists_parts_definition (parts_aggregate d members scope)
        (fun ⟨_, _, _, _, _, hinner⟩ => Option.isSome_of_eq_some hinner) (exists_parts members) h
  | .function d body, scope, h =>
      exists_parts_definition (parts_function d body scope) id (exists_parts body) h
  | .method d body, scope, h =>
      exists_parts_definition (parts_method d body scope) id (exists_parts body) h
  | .classDef d body, scope, h =>
      exists_parts_definition (parts_classDef d body scope) id (exists_parts body) h
  | .library _ declarations _, scope, h => exists_parts declarations h
  | .conditional chain _, scope, h => exists_parts_chain chain h
  | .count _ body, _, h | .loop _ body _, _, h => by
      intro n hn
      obtain ⟨inner, hin⟩ :=
        exists_parts body (fun q hq => h q (List.mem_cons_of_mem _ hq)) n hn
      exact ⟨inner, fun q hq => List.mem_cons_of_mem _ (hin q hq)⟩
  | .var _, _, _ | .array _, _, _ | .assign _, _, _ | .ret _, _, _ | .print _, _, _
  | .evaluation _, _, _ | .forward _, _, _ | .typeAlias _, _, _ | .prototype _, _, _ =>
      fun _ hn => nomatch hn

theorem exists_parts_chain {around : List Enclosure} : (chain : Chain) →
    {scope : ScopeId} → (∀ q ∈ partsChain chain scope, q.part.IsComplete) →
    ∀ n ∈ nodesChain around chain, ∃ id, ∀ q ∈ n.stmt.parts id, q ∈ partsChain chain scope
  | .done, _, _ => fun _ hn => nomatch hn
  | .otherwise body, _, h => exists_parts body h
  | .test _ body rest, _, h => by
      obtain ⟨-, hothers⟩ := List.forall_mem_cons.mp h
      obtain ⟨hbody, hrest⟩ := List.forall_mem_append.mp hothers
      intro n hn
      rcases List.mem_append.mp hn with hin | hin
      · obtain ⟨inner, hmem⟩ := exists_parts body hbody n hin
        exact ⟨inner, fun q hq => List.mem_cons_of_mem _ (List.mem_append_left _ (hmem q hq))⟩
      · obtain ⟨inner, hmem⟩ := exists_parts_chain rest hrest n hin
        exact ⟨inner, fun q hq => List.mem_cons_of_mem _ (List.mem_append_right _ (hmem q hq))⟩

/-- Every node of a tree has a scope such that its parts there are parts of the tree, if these are
complete. -/
theorem exists_parts {around : List Enclosure} : (stmts : List Stmt) →
    {scope : ScopeId} → (∀ q ∈ partsAll stmts scope, q.part.IsComplete) →
    ∀ n ∈ nodesAll around stmts, ∃ id, ∀ q ∈ n.stmt.parts id, q ∈ partsAll stmts scope
  | [], _, _ => fun _ hn => nomatch hn
  | stmt :: rest, scope, h => by
      obtain ⟨hstmt, hrest⟩ := List.forall_mem_append.mp h
      intro n hn
      rcases List.mem_cons.mp hn with rfl | hn
      · exact ⟨scope, fun q hq => List.mem_append_left _ hq⟩
      · rcases List.mem_append.mp hn with hin | hin
        · obtain ⟨inner, hmem⟩ := exists_parts_inside stmt hstmt n hin
          exact ⟨inner, fun q hq => List.mem_append_left _ (hmem q hq)⟩
        · obtain ⟨inner, hmem⟩ := exists_parts rest hrest n hin
          exact ⟨inner, fun q hq => List.mem_append_right _ (hmem q hq)⟩

end

/-- Every node of a tree has its place among the parts if these are complete. -/
theorem exists_placed {around : List Enclosure} {p : Part} (stmts : List Stmt) {scope : ScopeId}
    (h : ∀ q ∈ partsAll stmts scope, q.part.IsComplete) (n : Node) (hn : n ∈ nodesAll around stmts)
    (hp : n.stmt.part? = some p) : ∃ id, ⟨id, p⟩ ∈ partsAll stmts scope := by
  obtain ⟨id, hparts⟩ := exists_parts stmts h n hn
  exact ⟨id, hparts _ (mem_parts_of_part? hp id)⟩

/-- Every definition of a tree has its lines, wherever it stands, if the parts are complete. -/
theorem hasLines_of_mem_nodesAll {around : List Enclosure} (stmts : List Stmt) {scope : ScopeId}
    (h : ∀ p ∈ partsAll stmts scope, p.part.IsComplete) :
    ∀ n ∈ nodesAll around stmts, n.stmt.HasLines c := by
  intro n hn
  refine hasLines_of_part c fun p hp => ?_
  obtain ⟨id, hmem⟩ := exists_placed stmts h n hn hp
  exact h _ hmem

end Stmt

/-! ## Definitions of a compiled unit -/

/-- **Which definitions of a unit are written, and where.** A compiled unit has the nodes of its
source, and each definition among them has its lines. The sections before the first function body
hold the declarations of the global scope and the lines of the nodes around which stand bodies of
libraries, functions, methods and classes only, in order and each once; nothing is written there for
a node in a branch, in a loop or among the members of a structure. What the file registers, it
registers in the function that loads the extension, and these are the methods and classes at the top
of the unit and in class bodies, in order and each once. -/
theorem Stmt.definitions_written_of_compile (unit : List Stmt) (registry : Registry)
    (options : Options) (compiled : Compiled) (h : compile unit registry options = .ok compiled) :
    ∃ checked, check unit registry = .ok checked
      ∧ compiled.code = generate checked.unit checked.checker options
      ∧ outlinesAll [] checked.unit = outlinesAll [] unit
      ∧ (∀ n ∈ nodesAll [] checked.unit, n.stmt.HasLines checked.checker)
      ∧ (∃ rest, file checked.unit checked.checker options.target
          = fileTop checked.unit checked.checker ++ rest)
      ∧ (∀ line ∈ fileTop checked.unit checked.checker, line.isTop = true)
      ∧ (∀ part, sectionLines checked.unit checked.checker part
          = (if part = .globals then
              ((checked.checker.scope Checker.global).declarations [] "static ").map .declaration
            else []) ++ filedLines part checked.checker (nodesAll [] checked.unit))
      ∧ C.Code.registrationsAll (file checked.unit checked.checker options.target)
          = C.Code.registrationsAll (startAll checked.unit checked.checker)
      ∧ C.Code.registrationsAll (startAll checked.unit checked.checker)
          = loadedLines checked.checker (nodesAll [] checked.unit) := by
  unfold compile at h
  cases hcheck : check unit registry with
  | error e => rw [hcheck] at h; cases h
  | ok checked =>
      rw [hcheck] at h
      cases h
      refine ⟨checked, rfl, rfl, outlinesAll_of_check hcheck [], ?_, ?_, ?_, ?_, ?_, ?_⟩
      · exact hasLines_of_mem_nodesAll _ checked.unit (passes_of_check hcheck).isComplete
      · exact ⟨_, List.append_assoc _ _ _⟩
      · exact fun line hline => isTop_of_mem_fileTop hline
      · intro part
        rw [sectionLines, headerAll_eq part checked.checker checked.unit [] rfl]
      · exact registrationsAll_file checked.unit checked.checker options.target
      · exact registrationsAll_startAll checked.checker checked.unit [] rfl

/-- A structure in the body of a function, a method in a class, and both in a branch. -/
def Stmt.scatteredUnit : List Stmt :=
  let here := Position.unknown
  let struct (name : String) : Stmt :=
    .aggregate { kind := .struct, name, position := here }
      [.var
        { form := .plain, descriptor := .named "int", depth := 0, name := "x", value := none,
          position := here }]
  let method (name : String) : Stmt := .method { name, params := [], position := here } []
  [.function
      { descriptor := .named "void", depth := 0, name := "f", params := [], position := here }
      [struct "Kept"],
    .classDef { name := "K", ancestor := none, position := here } [method "kept"],
    .conditional
      (.test (.ofLiteral (.int 1) here) [struct "Lost", method "lost"] .done) here]

/-- The tag of the structure whose body a line is. -/
def C.Code.bodyTag? : C.Code → Option String
  | .aggregate tag _ => some tag
  | _ => none

/-- The name under which a line registers a method or a class. -/
def C.Code.registeredName? : C.Code → Option String
  | .eval (.call _ (_ :: .verbatim name :: _)) => some name
  | .assign _ (.call _ (.verbatim name :: _)) => some name
  | _ => none

/-- The unit compiles. Its file has the body of the structure in the function, and registers the
class and its method. -/
theorem Stmt.scatteredUnit_keeps :
    ∃ checked, check Stmt.scatteredUnit .empty = .ok checked
      ∧ (sectionLines checked.unit checked.checker .typeDefinitions).map C.Code.bodyTag?
        = [some "struct Kept"]
      ∧ (C.Code.registrationsAll (startAll checked.unit checked.checker)).map
          C.Code.registeredName? = [some "K", some "kept"] := by
  have hrun : (match compile Stmt.scatteredUnit .empty {}, check Stmt.scatteredUnit .empty with
      | .ok _, .ok checked =>
        decide ((filedLines .typeDefinitions checked.checker (nodesAll [] checked.unit)).map
            C.Code.bodyTag? = [some "struct Kept"]
          ∧ (loadedLines checked.checker (nodesAll [] checked.unit)).map C.Code.registeredName?
            = [some "K", some "kept"])
      | _, _ => false) = true := by decide +kernel
  cases h : compile Stmt.scatteredUnit .empty {} with
  | error e => rw [h] at hrun; cases hrun
  | ok compiled =>
      obtain ⟨checked, hcheck, -, -, -, -, -, hsections, -, hload⟩ :=
        Stmt.definitions_written_of_compile _ _ _ compiled h
      rw [h, hcheck] at hrun
      obtain ⟨hbodies, hnames⟩ := of_decide_eq_true hrun
      refine ⟨checked, hcheck, ?_, ?_⟩
      · rw [hsections]
        exact hbodies
      · rw [hload]
        exact hnames

/-- Whether the node is a structure of the unit's own with this name, or a method with this name, in
a branch at the top of the unit. -/
def Node.isInBranch (name : String) (n : Node) : Bool :=
  decide (n.around = [.branch]) && match n.stmt with
    | .aggregate d _ => !d.isExternal && decide (d.name = name)
    | .method d _ => decide (d.name = name)
    | _ => false

/-- In the same unit, the structure in the branch has no lines in the file, and the method in the
branch is not registered. -/
theorem Stmt.scatteredUnit_loses :
    ∃ checked, check Stmt.scatteredUnit .empty = .ok checked
      ∧ (∃ n ∈ nodesAll [] checked.unit, n.isInBranch "Lost" = true)
      ∧ (∃ n ∈ nodesAll [] checked.unit, n.isInBranch "lost" = true)
      ∧ (∀ line ∈ file checked.unit checked.checker "extension",
          line.bodyTag? ≠ some "struct Lost")
      ∧ ∀ line ∈ C.Code.registrationsAll (file checked.unit checked.checker "extension"),
          line.registeredName? ≠ some "lost" :=
  exists_ok_of_decide (by decide +kernel)

end ExtensionCompiler

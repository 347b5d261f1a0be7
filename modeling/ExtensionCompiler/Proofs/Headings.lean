import ExtensionCompiler.Proofs.Declarations
import ExtensionCompiler.Proofs.FunctionEntries
import ExtensionCompiler.Proofs.FunctionValues
import ExtensionCompiler.Proofs.Lines
import ExtensionCompiler.Proofs.Written

set_option autoImplicit false

/-! # Headings of functions, read back from their text

A function is announced by its heading, and its definition begins with one. Both are read by the
rules of C (`C.readDeclaration`). The result is written before the name of the function. A type that
is a name behind levels of indirection can stand there, but a pointer to a function cannot: the name
would have to be inside it. For all other headings the text says what is meant, but for lists of
parameters that do not (`C.Heading.readDeclaration_iff`).

In a compiled unit, the headings of a function are made of the types that its node has in the end,
and so is the entry, unless a later definition completes the function
(`Stmt.headings_of_compile`). -/

namespace ExtensionCompiler

open C (Typedefs TypeTree Declarator Specifies Direct Piece Declares Lists Series Closed Closing)
open C.Token (Apart Splits)

namespace C

/-! ## What a heading means -/

/-- The name that a text declares. -/
def declaredName (x : String) : Option (List Char) := if x = "" then none else some x.toList

/-- The parameters of a host method. -/
def Params.hostParams : List (Ty × String) :=
  [(.primitive .int, "argc"), (.pointer .object 1, "argv"), (.object, selfName)]

/-- The parameters, each with the name that it is declared under. -/
def Params.declared : Params → List (Option (List Char) × Ty)
  | types list => list.map fun ty => (none, ty)
  | named list => list.map fun p => (declaredName p.2, p.1)
  | host => hostParams.map fun p => (declaredName p.2, p.1)

namespace Heading

/-- The line of the heading, without what follows it. -/
def text (h : Heading) : String := Writer.headingText h.result.cType h.name h.params.render

/-- The types in the heading. -/
def types (h : Heading) : List Ty := h.result :: h.params.declared.map (·.2)

/-- The type of the function. -/
def tree (h : Heading) : TypeTree :=
  .function (some (Ty.trees some (h.params.declared.map (·.2)))) (h.result.tree some)

/-- Whether the heading says what is meant. -/
def isFaithful (h : Heading) : Bool :=
  h.result.isSimple && Ty.areTold h.params.declared && Ty.allFaithful (h.params.declared.map (·.2))

end Heading

/-! ## What is read -/

section

variable {ext : Char → Bool} {env : Typedefs}

/-- A declaration that leaves its name behind is not one. -/
theorem Declares.parse_eq_none {text : List Char} {tokens rest : List Token} {t : TypeTree}
    (h : Declares ext env Closed text tokens (none, t)) (hrest : Closed rest) :
    env.parse (.word "static".toList :: (tokens ++ rest)) = none := by
  have hparam := h.reads hrest (4 * (tokens ++ rest).length + 4)
    (by rw [List.length_append]; omega)
  rw [Typedefs.parse_static, hparam]

/-- The tokens of a line that begins with `static`. -/
theorem split_static {text : String} {tokens : List Token}
    (h : Splits ext text.toList tokens) :
    Token.split ext ("static " ++ text).toList = some (.word "static".toList :: tokens) := by
  have hword : ∀ w ∈ ["static".toList], Token.isWord ext w = true :=
    List.forall_mem_singleton.mpr (isWord_of_isPlainWord (by decide))
  have hsplits := splits_words (List.cons_ne_nil _ _) hword h.blank
    (Token.apart_of_mem (by decide) _)
  have htext : ("static " ++ text).toList
      = [' '].intercalate ["static".toList] ++ ' ' :: text.toList := by
    simp [String.toList_append]
  rw [htext]
  exact hsplits.split_eq

end

end C

namespace Ty

variable {ext : Char → Bool} {env : Typedefs}

theorem Simple.declares_spaced {ty : Ty} {name : String} {depth : Nat} {words : List (List Char)}
    {P : List C.Token → Prop} {declared : String} {tokens : List C.Token} {d : Declarator}
    (h : Simple ty name depth) (hname : Specifies ext env name.toList words)
    (hpiece : Piece ext env P declared.toList tokens d) :
    ∃ tokens, Declares ext env P (ty.cType ++ " " ++ declared).toList tokens
      (d.declares (ty.tree env.told)) :=
  h.declares hname hpiece.blank (fun rest _ => C.Token.apart_of_mem (by decide) _) _
    (by simp [h.cType_eq, String.toList_append, toList_stars])

/-- A type that is not simple is a pointer to a function, and nothing behind it goes on with it. -/
theorem Shaped.declares_callback {ty : Ty} (h : Shaped ty) (hcallback : ty.isSimple = false)
    (hknown : ∀ atom ∈ ty.atoms, atom.KnownTo ext env) :
    ∃ tokens, Declares ext env Closed ty.cType.toList tokens (none, ty.tree env.told) := by
  cases h with
  | simple hsimple => rw [hsimple] at hcallback; cases hcallback
  | callback hparams hresult =>
      obtain ⟨hknownParams, hknownResult⟩ := knownTo_of_function hknown
      obtain ⟨_, _, _, hsimple, hwords, -⟩ := simple_of_isSimple hresult hknownResult
      obtain ⟨between, hlists⟩ :=
        lists_cTypes fun p hp => (hparams p hp).declares_cType (hknownParams p hp)
      have hempty : Piece ext env Closing "".toList [] (.name none) := Piece.empty
      rw [cType, tree, tree]
      exact hsimple.declares_callback hwords hempty _ hlists

end Ty

namespace C

variable {ext : Char → Bool} {env : Typedefs}

theorem lists_void : ∃ tokens, Lists ext env "void".toList tokens (some []) := by
  have hvoid : (Ty.primitive .void).Shaped := .simple rfl
  obtain ⟨tokens, hdeclares⟩ :=
    hvoid.declares_cType (List.forall_mem_singleton.mpr trivial : ∀ atom ∈ [Ty.primitive .void],
      atom.KnownTo ext env)
  exact ⟨tokens, (Series.last hdeclares).lists⟩

/-- A name or nothing, as a declarator. -/
theorem piece_declaredName {x : String}
    (h : ∀ y ∈ declaredName x, isIdentifier ext (String.ofList y) = true) :
    ∃ tokens, Piece ext env Closing x.toList tokens (.name (declaredName x)) := by
  by_cases hempty : x = ""
  · rw [declaredName, if_pos hempty, hempty]
    exact ⟨_, Piece.empty⟩
  · rw [declaredName, if_neg hempty] at h ⊢
    have hx : isIdentifier ext x = true := by simpa using h x.toList rfl
    exact ⟨_, (Direct.name hx).piece.mono fun _ => Closing.closed⟩

/-- What stands between the parentheses is read as the parameters. -/
theorem Params.lists {params : Params} (hshaped : ∀ p ∈ params.declared, p.2.Shaped)
    (hknown : ∀ p ∈ params.declared, ∀ atom ∈ p.2.atoms, atom.KnownTo ext env)
    (hnames : ∀ p ∈ params.declared, ∀ x ∈ p.1, isIdentifier ext (String.ofList x) = true) :
    ∃ tokens, Lists ext env params.render.toList tokens
      (some (env.parameters (params.declared.map fun p => (p.1, p.2.tree env.told)))) := by
  cases params with
  | types list =>
      cases list with
      | nil => exact lists_void
      | cons first rest =>
          simp only [declared, List.forall_mem_map] at hshaped hknown
          obtain ⟨tokens, hseries⟩ := Series.of_forall (List.cons_ne_nil first rest)
            fun ty hty => (hshaped ty hty).declares_cType (hknown ty hty)
          rw [declared, List.map_map]
          exact ⟨tokens, hseries.lists⟩
  | named list =>
      cases list with
      | nil => exact lists_void
      | cons first rest =>
          simp only [declared, List.forall_mem_map] at hshaped hknown hnames
          have hdeclares : ∀ p ∈ first :: rest, ∃ tokens, Declares ext env Closing
              (p.1.cDeclaration p.2).toList tokens (declaredName p.2, p.1.tree env.told) := by
            intro p hp
            obtain ⟨tokens, hpiece⟩ := piece_declaredName (hnames p hp)
            exact (hshaped p hp).declares_cDeclaration (hknown p hp) (fun _ h => h)
              (fun _ => Closing.closed) hpiece
          obtain ⟨tokens, hseries⟩ := Series.of_forall (List.cons_ne_nil first rest) hdeclares
          rw [declared, List.map_map]
          exact ⟨tokens, hseries.lists⟩
  | host =>
      have htext : hostText = Text.commas (hostParams.map fun p => p.1.cType ++ " " ++ p.2) := by
        decide
      have hsimple : hostParams.all (fun p => p.1.isSimple) = true := by decide
      simp only [declared, List.forall_mem_map] at hknown hnames
      have hdeclares : ∀ p ∈ hostParams, ∃ tokens, Declares ext env Closing
          (p.1.cType ++ " " ++ p.2).toList tokens (declaredName p.2, p.1.tree env.told) := by
        intro p hp
        obtain ⟨tokens, hpiece⟩ := piece_declaredName (hnames p hp)
        obtain ⟨name, depth, words, hform, hwords, -⟩ :=
          Ty.simple_of_isSimple (List.all_eq_true.mp hsimple p hp) (hknown p hp)
        exact hform.declares_spaced hwords hpiece
      obtain ⟨tokens, hseries⟩ := Series.of_forall (List.cons_ne_nil _ _) hdeclares
      rw [render, htext, declared, List.map_map]
      exact ⟨tokens, hseries.lists⟩

namespace Heading

/-- The name and the parameters of a function, as a declarator. -/
theorem direct {h : Heading} {between : List Token} {params : Option (List TypeTree)}
    (hname : isIdentifier ext h.name = true)
    (hparams : Lists ext env h.params.render.toList between params) :
    ∃ tokens, Direct ext env (h.name ++ "(" ++ h.params.render ++ ")").toList
      (.word h.name.toList :: tokens) (.function (.name (some h.name.toList)) params) := by
  have hdirect := (Direct.name hname).function hparams
  have htext : (h.name ++ "(" ++ h.params.render ++ ")").toList
      = h.name.toList ++ '(' :: (h.params.render.toList ++ [')']) := by
    simp [String.toList_append]
  rw [← htext] at hdirect
  exact ⟨_, hdirect⟩

/-- What may follow the heading on its line. -/
def stops : List String := ["", ";"]

theorem exists_splits_stop {stop : String} (h : stop ∈ stops) :
    ∃ tokens ∈ endings, Splits ext stop.toList tokens ∧ C.Ends stop.toList := by
  simp only [stops, List.mem_cons, List.not_mem_nil, or_false] at h
  rcases h with rfl | rfl
  · exact ⟨[], by decide, .nil, .nil⟩
  · exact ⟨[.mark [';']], by decide, Splits.nil.mark rfl, .cons (by decide) _⟩

theorem text_append (h : Heading) (stop : String) :
    h.text ++ stop = "static "
      ++ (h.result.cType ++ " " ++ (h.name ++ "(" ++ h.params.render ++ ")") ++ stop) := by
  simp [text, Writer.headingText, String.append_assoc]

section

variable {h : Heading} {between : List Token} {params : Option (List TypeTree)} {stop : String}

/-- Behind a simple result, the heading is read as the declaration of a function. -/
theorem readDeclaration_of_isSimple (hresult : h.result.isSimple = true)
    (hknown : ∀ atom ∈ h.result.atoms, atom.KnownTo ext env)
    (hname : isIdentifier ext h.name = true)
    (hparams : Lists ext env h.params.render.toList between params) (hstop : stop ∈ stops) :
    readDeclaration ext env (h.text ++ stop)
      = some (h.name.toList, .function params (h.result.tree env.told)) := by
  obtain ⟨_, _, _, hform, hwords, -⟩ := Ty.simple_of_isSimple hresult hknown
  obtain ⟨_, hdirect⟩ := direct hname hparams
  obtain ⟨tokens, hdeclares⟩ := hform.declares_spaced hwords hdirect.piece
  obtain ⟨more, hmore, hsplits, hends⟩ := exists_splits_stop hstop
  have hline := hdeclares.splits hsplits hends
  rw [← String.toList_append] at hline
  rw [readDeclaration, text_append, split_static hline, Option.bind_some]
  exact (hdeclares.parse hmore).2

/-- A pointer to a function leaves no place for the name, which is then left over. -/
theorem readDeclaration_of_callback (hresult : h.result.Shaped)
    (hcallback : h.result.isSimple = false)
    (hknown : ∀ atom ∈ h.result.atoms, atom.KnownTo ext env)
    (hname : isIdentifier ext h.name = true)
    (hparams : Lists ext env h.params.render.toList between params) (hstop : stop ∈ stops) :
    readDeclaration ext env (h.text ++ stop) = none := by
  obtain ⟨tokens, hdeclares⟩ := hresult.declares_callback hcallback hknown
  obtain ⟨left, hdirect⟩ := direct hname hparams
  obtain ⟨more, hmore, hsplits, hends⟩ := exists_splits_stop hstop
  have hrest := (hdirect.splits hsplits hends).blank
  have hline := hdeclares.splits hrest (.cons (by decide) _)
  have htext : h.result.cType.toList
        ++ ' ' :: ((h.name ++ "(" ++ h.params.render ++ ")").toList ++ stop.toList)
      = (h.result.cType ++ " " ++ (h.name ++ "(" ++ h.params.render ++ ")") ++ stop).toList := by
    simp [String.toList_append]
  rw [htext] at hline
  rw [readDeclaration, text_append, split_static hline, Option.bind_some]
  exact hdeclares.parse_eq_none rfl

/-- **Which headings say what is meant.** A heading is read as the declaration of its function, with
the parameters and the result that are meant, if and only if its result is a name behind levels of
indirection, and all lists of parameters say what they are. -/
theorem readDeclaration_iff (hshaped : ∀ ty ∈ h.types, ty.Shaped)
    (hknown : ∀ ty ∈ h.types, ∀ atom ∈ ty.atoms, atom.KnownTo ext env)
    (hname : isIdentifier ext h.name = true)
    (hnames : ∀ p ∈ h.params.declared, ∀ x ∈ p.1, isIdentifier ext (String.ofList x) = true)
    (hstop : stop ∈ stops) :
    readDeclaration ext env (h.text ++ stop) = some (h.name.toList, h.tree)
      ↔ h.isFaithful = true := by
  rw [types, List.forall_mem_cons, List.forall_mem_map] at hshaped hknown
  obtain ⟨between, hparams⟩ := Params.lists hshaped.2 hknown.2 hnames
  cases hresult : h.result.isSimple with
  | false =>
      rw [readDeclaration_of_callback hshaped.1 hresult hknown.1 hname hparams hstop, isFaithful,
        hresult]
      exact iff_of_false nofun nofun
  | true =>
      have hlist := Ty.parameters_iff
        (fun p hp => (hshaped.2 p hp).standsForVoid_tree (hknown.2 p hp))
        (fun p hp => (hshaped.2 p hp).tree_told_iff (hknown.2 p hp))
      obtain ⟨_, _, _, hform, -⟩ := Ty.simple_of_isSimple hresult hknown.1
      rw [readDeclaration_of_isSimple hresult hknown.1 hname hparams hstop, isFaithful, hresult,
        Bool.true_and, ← hlist, Option.some_inj, Prod.mk.injEq, and_iff_right rfl, tree,
        TypeTree.function.injEq, Option.some_inj, hform.tree_eq, hform.tree_eq, and_iff_left rfl]

end

/-- A file in which the names of a heading are names: those of the function and of its parameters,
and those of the types in it that are no keywords. -/
structure KnownTo (ext : Char → Bool) (env : Typedefs) (h : Heading) : Prop where
  name : isIdentifier ext h.name = true
  params : ∀ p ∈ h.params.declared, ∀ x ∈ p.1, isIdentifier ext (String.ofList x) = true
  types : ∀ ty ∈ h.types, ∀ atom ∈ ty.atoms, atom.isNamed = true → atom.KnownTo ext env

theorem KnownTo.readDeclaration_iff {h : Heading} (hknown : h.KnownTo ext env)
    (hshaped : ∀ ty ∈ h.types, ty.Shaped ∧ ty.exposed = []) {stop : String} (hstop : stop ∈ stops) :
    readDeclaration ext env (h.text ++ stop) = some (h.name.toList, h.tree)
      ↔ h.isFaithful = true :=
  Heading.readDeclaration_iff (fun ty hty => (hshaped ty hty).1)
    (fun ty hty => (hshaped ty hty).1.knownTo_atoms (hshaped ty hty).2 (hknown.types ty hty))
    hknown.name hknown.params hstop

/-- Whether the names of a heading are identifiers, and its types are keywords and some others. -/
def isWrittenWith (ext : Char → Bool) (types : List Ty) (h : Heading) : Bool :=
  isIdentifier ext h.name
    && h.params.declared.all (fun p => p.1.all fun x => isIdentifier ext (String.ofList x))
    && h.types.all fun ty => ty.atoms.all fun atom => !atom.isNamed || types.contains atom

theorem knownTo_of_isWrittenWith {h : Heading} {types : List Ty}
    (hwritten : h.isWrittenWith ext types = true) (htypes : ∀ ty ∈ types, ty.KnownTo ext env) :
    h.KnownTo ext env := by
  simp only [isWrittenWith, Bool.and_eq_true, List.all_eq_true, Option.all_eq_true] at hwritten
  obtain ⟨⟨hname, hparams⟩, hatoms⟩ := hwritten
  refine ⟨hname, hparams, fun ty hty atom hatom hnamed => htypes atom ?_⟩
  simpa [hnamed] using hatoms ty hty atom hatom

end Heading

end C

/-! ## The types of a function in the end -/

namespace Ty

variable {registry : Registry}

variable {ty : Ty}

theorem isAtom_rescan (h : registry.All fun ty => ty.isAtom = true)
    (hty : ty.isAtom = true) : (ty.rescan registry).isAtom = true := by
  cases ty with
  | pending name => exact h name
  | pointer _ _ | array _ _ | function _ _ _ _ => cases hty
  | _ => rfl

theorem isSimple_rescan (h : registry.All fun ty => ty.isAtom = true)
    (hty : ty.isSimple = true) : (ty.rescan registry).isSimple = true := by
  rcases isSimple_cases hty with hself | ⟨base, depth, rfl, hbase⟩
  · have hatom := isAtom_rescan h hself
    rw [← pointerTo_zero (ty.rescan registry)]
    exact isSimple_pointerTo hatom 0
  · rw [rescan]
    exact isSimple_pointerTo (isAtom_rescan h hbase) _

/-- A rescan keeps the shape of types if names stand for names. -/
theorem Shaped.rescan (h : registry.All fun ty => ty.isAtom = true) (hty : Shaped ty) :
    Shaped (ty.rescan registry) := by
  induction hty with
  | simple hsimple => exact .simple (isSimple_rescan h hsimple)
  | callback _ hresult ih =>
      rw [Ty.rescan, Ty.rescan, rescanAll_eq_map]
      exact .callback (List.forall_mem_map.mpr ih) (isSimple_rescan h hresult)

theorem Shaped.settle (h : registry.All fun ty => ty.isAtom = true) (hty : Shaped ty) :
    Shaped (ty.settle registry) := by
  unfold Ty.settle
  split
  · exact hty.rescan h
  · exact hty

end Ty

/-- In the end, the types of a function have the shape of what descriptors resolve to, and no name
in them is pending. -/
theorem Passes.shaped_function {unit : List Stmt} {registry : Registry} {checked : Checked}
    {visits : List Visit} {middle : Checker} (h : Passes unit registry checked visits middle)
    (hregistry : ∀ b ∈ registry.bindings, b.type.isAtom = true) {x : Revisit}
    (hx : x ∈ Visit.revisits visits middle) {e : Entry}
    (he : (x.visit.settle x.state).1.callable? = some e) (hkind : e.kind = .function)
    {name cName : Option String} {params : List Ty} {result : Ty}
    (htype : e.type = .function name cName params result) :
    ∀ ty ∈ result :: params, ty.Shaped ∧ ty.exposed = [] := by
  obtain ⟨hmem, hok, -⟩ := h.run.at_revisit middle hx
  -- names stand for names in the state of the visit, and in that of the revisit
  obtain ⟨hmiddle, hbefore⟩ := h.run.all (P := fun ty => ty.isAtom = true)
    (fun _ _ _ _ => rfl) (fun _ _ _ _ _ _ => rfl) (Ty.isAtom_meaning hregistry)
  have hstate := (h.run.all_settled (fun _ _ _ => rfl) middle hmiddle).2 x hx
  obtain ⟨old, _, _, params', result', hold, holdKind, holdType, rfl⟩ :=
    Visit.callable?_of_settle hok he hkind
  obtain ⟨_, _, _, _, hresolvedType, hresolved⟩ := Visit.resolved_of_callable? hok hold holdKind
  cases hresolvedType.symm.trans holdType
  have hshaped : ∀ ty ∈ params' ++ [result'], ty.Shaped := by
    intro ty hty
    obtain ⟨d, depth, rfl⟩ := hresolved ty hty
    exact Ty.shaped_resolve (hbefore x.visit hmem) d depth
  cases htype
  obtain ⟨hexposed, -⟩ :=
    h.settled_signature (h.mem_parts hx) (Part.signature?_of_callable? he hkind)
  obtain ⟨hparams, hresult⟩ := List.append_eq_nil_iff.mp hexposed
  rw [Ty.waitingIn_eq_flatMap, List.flatMap_eq_nil_iff] at hparams
  refine List.forall_mem_cons.mpr ⟨⟨?_, hresult⟩, fun ty hty => ⟨?_, hparams ty hty⟩⟩
  · exact (hshaped _ (List.mem_append_right _ (List.mem_singleton_self _))).rescan hstate
  · obtain ⟨before, hbeforeMem, rfl⟩ := List.mem_map.mp hty
    exact (hshaped before (List.mem_append_left _ hbeforeMem)).settle hstate

/-! ## The lines that have headings -/

namespace C.Code

/-- The heading that a line has, and what follows it there. -/
def heading? : C.Code → Option (C.Heading × String)
  | .prototype heading => some (heading, ";")
  | .function heading _ => some (heading, "")
  | _ => none

theorem mem_lines_of_heading? {code : C.Code} {heading : C.Heading} {stop : String}
    (h : code.heading? = some (heading, stop)) : .plain (heading.text ++ stop) ∈ code.lines := by
  cases code with
  | prototype own =>
      cases h
      exact List.mem_singleton_self _
  | function own body =>
      cases h
      rw [String.append_empty]
      exact List.mem_cons_self
  | _ => cases h

theorem mem_linesAll {line : C.Line} {code : C.Code} (hline : line ∈ code.lines)
    {codes : List C.Code} (hcode : code ∈ codes) : line ∈ linesAll codes := by
  induction codes with
  | nil => cases hcode
  | cons first rest ih =>
      rcases List.mem_cons.mp hcode with rfl | hrest
      · exact List.mem_append_left _ hline
      · exact List.mem_append_right _ (ih hrest)

end C.Code

theorem mem_fileLines_of_heading? {unit : List Stmt} {c : Checker} {target : String}
    {code : C.Code} {heading : C.Heading} {stop : String} (hcode : code ∈ file unit c target)
    (h : code.heading? = some (heading, stop)) :
    .plain (heading.text ++ stop) ∈ fileLines unit c target :=
  List.mem_append_right _ (C.Code.mem_linesAll (C.Code.mem_lines_of_heading? h) hcode)

theorem Node.not_blocked {n : Node} {p : Enclosure → Bool} (h : n.isWithin p = true)
    {k : Enclosure} {around : List Enclosure} (hsuffix : k :: around <:+ n.around)
    (hk : p k = false) : False := by
  have hall := List.all_eq_true.mp h k (hsuffix.subset List.mem_cons_self)
  rw [hk] at hall
  cases hall

namespace Stmt

/-- The headings in the lines of a statement, without those inside it. -/
def headings (stmt : Stmt) (c : Checker) : List (C.Heading × String) :=
  (stmt.alone.header .prototypes c ++ stmt.code c).filterMap C.Code.heading?

mutual

/-- What a definition in class bodies writes, the class around it writes. -/
theorem code_subset_of_inside {c : Checker} {n : Node}
    (hwithin : n.isWithin Enclosure.loadsInside = true) (hn : n.stmt.isDefinition = true) :
    (stmt : Stmt) → {around : List Enclosure} → n ∈ stmt.inside around →
    stmt.isDefinition = true ∧ n.stmt.code c ⊆ stmt.code c
  | .classDef _ body, _, h => ⟨rfl, code_subset_definitionCode hwithin hn body h⟩
  | .conditional chain _, _, h =>
    (Node.not_blocked hwithin (suffix_of_mem_nodesChain chain h) rfl).elim
  | .aggregate _ body, _, h | .library _ body _, _, h | .count _ body, _, h | .loop _ body _, _, h
  | .function _ body, _, h | .method _ body, _, h =>
    (Node.not_blocked hwithin (suffix_of_mem_nodesAll body h) rfl).elim
  | .var _, _, h | .array _, _, h | .assign _, _, h | .ret _, _, h | .print _, _, h
  | .evaluation _, _, h | .forward _, _, h | .typeAlias _, _, h | .prototype _, _, h =>
    absurd h List.not_mem_nil

/-- What a definition in class bodies writes is among the definitions of the file. -/
theorem code_subset_definitionCode {c : Checker} {n : Node}
    (hwithin : n.isWithin Enclosure.loadsInside = true) (hn : n.stmt.isDefinition = true) :
    (stmts : List Stmt) → {around : List Enclosure} → n ∈ nodesAll around stmts →
    n.stmt.code c ⊆ definitionCode stmts c
  | [], _, h => absurd h List.not_mem_nil
  | stmt :: rest, _, h => by
      rw [definitionCode]
      rcases List.mem_cons.mp h with rfl | h
      · rw [if_pos hn]
        exact List.subset_append_left _ _
      · rcases List.mem_append.mp h with hinside | hrest
        · obtain ⟨hstmt, hsubset⟩ := code_subset_of_inside hwithin hn stmt hinside
          rw [if_pos hstmt]
          exact List.subset_append_of_subset_left _ hsubset
        · exact List.subset_append_of_subset_right _
            (code_subset_definitionCode hwithin hn rest hrest)

end

/-- The definition of a function stands in the file if only class bodies are around it. -/
theorem mem_file_of_code {unit : List Stmt} {c : Checker} {n : Node} (hn : n ∈ nodesAll [] unit)
    (hwithin : n.isWithin Enclosure.loadsInside = true) (hdefinition : n.stmt.isDefinition = true)
    {line : C.Code} (hline : line ∈ n.stmt.code c) (target : String) : line ∈ file unit c target :=
  List.mem_append_left _ (List.mem_append_right _
    (code_subset_definitionCode hwithin hdefinition unit hn hline))

/-- The headings of a function: that of its prototype, and that of its definition if it has one. -/
theorem headings_of_callable? {stmt : Stmt} {p : Part} {e : Entry} (hpart : stmt.part? = some p)
    (he : p.callable? = some e) (hkind : e.kind = .function) (hext : e.isExternal = false)
    (hcomplete : p.IsComplete) (c : Checker) {name cName : Option String} {params : List Ty}
    {result : Ty} (htype : e.type = .function name cName params result) :
    .prototype ⟨result, e.cName, .types params⟩ ∈ stmt.alone.header .prototypes c
      ∧ (∀ d body, stmt = .function d body →
          ∃ heading inner, .function heading inner ∈ stmt.code c)
      ∧ ∀ heading ∈ stmt.headings c, heading.2 ∈ C.Heading.stops ∧ heading.1.result = result
          ∧ heading.1.name = e.cName ∧ heading.1.params.declared.map (·.2) = params := by
  obtain ⟨heading, hheading, hline⟩ := header_of_callable hpart he hext c
  rw [Entry.heading?, hkind, htype] at hheading
  cases hheading
  rw [headings, hline]
  refine ⟨List.mem_singleton_self _, ?_⟩
  have hproto : (C.Params.types params).declared.map (·.2) = params := by
    rw [C.Params.declared, List.map_map]
    exact List.map_id' params
  have hsemicolon : ";" ∈ C.Heading.stops := by decide
  cases stmt with
  | prototype d =>
      refine ⟨fun _ _ h => ?_, List.forall_mem_singleton.mpr ⟨hsemicolon, rfl, rfl, hproto⟩⟩
      cases h
  | function d body =>
      cases hpart
      cases he
      cases htype
      obtain ⟨inner, hinner⟩ := Option.isSome_iff_exists.mp hcomplete
      have hdefinition : (Parameter.named d.params).declared.map (·.2)
          = Parameter.types d.params := by
        rw [Parameter.named, C.Params.declared, List.map_map, List.map_map]
        rfl
      rw [code, Function.code, hinner]
      refine ⟨fun _ _ _ => ⟨_, _, List.mem_cons_of_mem _ (List.mem_singleton_self _)⟩, ?_⟩
      exact List.forall_mem_cons.mpr ⟨⟨hsemicolon, rfl, rfl, hproto⟩,
        List.forall_mem_singleton.mpr ⟨List.mem_cons_self, rfl, rfl, hdefinition⟩⟩
  | method d body =>
      cases hpart
      cases he
      cases hkind
  | library _ _ _ | conditional _ _ => cases hpart
  | _ =>
      cases hpart
      cases he

/-! ## Compiled units -/

/-- The entry that the node of a function stands for, if no header provides it. -/
def ownFunction? (stmt : Stmt) : Option Entry :=
  (stmt.part?.bind Part.callable?).filter fun e => decide (e.kind = .function) && !e.isExternal

theorem ownFunction?_eq_some {stmt : Stmt} {e : Entry} (h : stmt.ownFunction? = some e) :
    ∃ p, stmt.part? = some p ∧ p.callable? = some e ∧ e.kind = .function
      ∧ e.isExternal = false := by
  obtain ⟨hbind, hkind⟩ := Option.filter_eq_some_iff.mp h
  obtain ⟨p, hpart, he⟩ := Option.bind_eq_some_iff.mp hbind
  rw [Bool.and_eq_true, decide_eq_true_eq, Bool.not_eq_true'] at hkind
  exact ⟨p, hpart, he, hkind⟩

/-- **Headings of functions.** Let a unit compile, and let a node of it be that of a function that
no header provides.

The function has an entry of its C name, with the type of a node of that function. This is the same
type as that of the node itself if the context knows nothing but announced names, and every name of
a type is defined once at most.

The node writes a prototype, and a heading if it is a definition, and both are lines of the file if
the file asks for them. They have the C name of the function and the types of the node. If no name
of the context stands for a pointer, an array or a function, a file that knows the names in such a
line reads it as a declaration of the function with these types, just if the result is no pointer to
a function and all lists of parameters say what they are. -/
theorem headings_of_compile (unit : List Stmt) (registry : Registry) (options : Options)
    (compiled : Compiled) (h : compile unit registry options = .ok compiled) :
    ∃ checked, check unit registry = .ok checked
      ∧ compiled.code = generate checked.unit checked.checker options
      ∧ ∀ n ∈ nodesAll [] checked.unit, ∀ e, n.stmt.ownFunction? = some e →
          (∃ scope p entry, n.stmt.part? = some p
            ∧ ⟨scope, p⟩ ∈ partsAll checked.unit Checker.global
            ∧ checked.checker.entryIn? scope e.name = some entry
            ∧ entry.kind = .function ∧ entry.cName = e.cName
            ∧ (∃ q, ⟨scope, q⟩ ∈ partsAll checked.unit Checker.global
                ∧ q.signature? = some ⟨.function, e.name, entry.type⟩)
            ∧ (registry.Blank → (typeNames unit).Nodup → e.type.same entry.type = true))
          ∧ (∃ heading, (heading, ";") ∈ n.stmt.headings checked.checker
            ∧ (n.isWithin Enclosure.filesInside = true → .plain (heading.text ++ ";")
                ∈ fileLines checked.unit checked.checker options.target))
          ∧ (∀ d body, n.stmt = .function d body →
              ∃ heading, (heading, "") ∈ n.stmt.headings checked.checker
              ∧ (n.isWithin Enclosure.loadsInside = true → .plain heading.text
                  ∈ fileLines checked.unit checked.checker options.target))
          ∧ ∀ heading stop, (heading, stop) ∈ n.stmt.headings checked.checker →
              heading.name = e.cName ∧ heading.tree = e.type.tree some
              ∧ ((∀ b ∈ registry.bindings, b.type.isAtom = true) → ∀ ext env,
                  heading.KnownTo ext env →
                  (C.readDeclaration ext env (heading.text ++ stop)
                      = some (e.cName.toList, e.type.tree some)
                    ↔ heading.isFaithful = true)) := by
  obtain ⟨checked, hcheck, hcode, -⟩ := compile_ok h
  have hpasses := passes_of_check hcheck
  have hheads := map_part_visitsAll unit Checker.global (Checker.start registry)
  generalize visitsAll unit Checker.global _ = visits at hpasses hheads
  generalize (analyseAll unit Checker.global _).checker = middle at hpasses
  refine ⟨checked, hcheck, hcode, ?_⟩
  intro n hn e hfunction
  obtain ⟨p, hpart, he, hkind, hext⟩ := ownFunction?_eq_some hfunction
  obtain ⟨scope, hplaced⟩ := exists_placed checked.unit hpasses.isComplete n hn hpart
  have hcomplete := hpasses.isComplete _ hplaced
  obtain ⟨x, hx, hok, hrevisit⟩ := hpasses.exists_revisit hplaced
  cases hrevisit
  obtain ⟨_, _, _, _, _, -, -, -, hsettled⟩ := Visit.callable?_of_settle hok he hkind
  have htype := congrArg Entry.type hsettled
  obtain ⟨hproto, hdefinition, hall⟩ :=
    headings_of_callable? hpart he hkind hext hcomplete checked.checker htype
  refine ⟨?_, ?_, ?_, ?_⟩
  · obtain ⟨entry, hentry, hentryKind, hcName, hlast, hsame⟩ :=
      hpasses.entry_of_settled hx he hkind
    rw [typeNames, ← hheads, List.filterMap_map]
    exact ⟨_, _, entry, hpart, hplaced, hentry, hentryKind, hcName, hlast, hsame⟩
  · refine ⟨_, List.mem_filterMap.mpr ⟨_, List.mem_append_left _ hproto, rfl⟩, ?_⟩
    intro hwithin
    exact mem_fileLines_of_heading? (mem_file_of_header hn hwithin hproto _) rfl
  · intro d body hstmt
    obtain ⟨heading, inner, hline⟩ := hdefinition d body hstmt
    refine ⟨heading, List.mem_filterMap.mpr ⟨_, List.mem_append_right _ hline, rfl⟩, ?_⟩
    intro hwithin
    have hfiled := mem_file_of_code hn hwithin (hstmt ▸ rfl) hline options.target
    rw [← @String.append_empty heading.text]
    exact mem_fileLines_of_heading? hfiled rfl
  · intro heading stop hheading
    obtain ⟨hstop, hresult, hname, hparams⟩ := hall _ hheading
    have htree : heading.tree = e.type.tree some := by
      rw [C.Heading.tree, hresult, hparams, htype, Ty.tree]
    refine ⟨hname, htree, ?_⟩
    intro hregistry ext env hknown
    rw [← htree, ← hname]
    refine hknown.readDeclaration_iff ?_ hstop
    rw [C.Heading.types, hresult, hparams]
    exact hpasses.shaped_function hregistry hx he hkind htype

/-- A structure, an alias, and a function that takes a function, as a prototype and as a
definition. -/
def sorterUnit : List Stmt :=
  let here := Position.unknown
  let items : Parameter :=
    { descriptor := .named "Item", depth := 1, name := some "items", position := here }
  let count : Parameter :=
    { descriptor := .named "Count", depth := 0, name := some "count", position := here }
  let order : Parameter :=
    { descriptor := .signature "int" [(.named "Item", 1), (.named "Item", 1)] 0, depth := 0,
      name := some "order", position := here }
  [.aggregate { kind := .struct, name := "Item", position := here }
      [.var
        { form := .plain, descriptor := .named "int", depth := 0, name := "weight",
          value := none, position := here }],
    .typeAlias { name := "Count", descriptor := .named "long", depth := 0, position := here },
    .prototype
      { name := "sort", descriptor := .named "Item", depth := 1,
        params := [items, count, order].map fun p => { p with name := none }, position := here },
    .function
      { name := "sort", descriptor := .named "Item", depth := 1,
        params := [items, count, order], position := here }
      []]

/-- The types that the unit names. -/
def sorterTypes : List Ty :=
  [.aggregate .struct "Item" "__extc_t_Object_Item" 1,
    .aliased "Count" "__extc_t_Object_Count" (.primitive .long)]

/-- The file of the unit, which has names for both. -/
def sorterFile : Typedefs where
  isType w := (sorterTypes.map fun ty => ty.cType.toList).contains w
  isVoid _ := false

/-- The type of the function. -/
def sorterType : Ty :=
  let items : Ty := .pointer (.aggregate .struct "Item" "__extc_t_Object_Item" 1) 1
  .function (some "sort") (some "__extc_c_f_sort")
    [items, .aliased "Count" "__extc_t_Object_Count" (.primitive .long),
      .pointer (.function none none [items, items] (.primitive .int)) 1]
    items

/-- The type of the function, in C. -/
def sorterTree : TypeTree :=
  let items : TypeTree := .pointer (.base "__extc_t_Object_Item".toList)
  .function
    (some [items, .base "__extc_t_Object_Count".toList,
      .pointer (.function (some [items, items]) (.base "int".toList))])
    items

/-- The lines of the file that have headings. -/
def sorterLines : List String :=
  ["static __extc_t_Object_Item* __extc_c_f_sort(__extc_t_Object_Item*, __extc_t_Object_Count, "
      ++ "int (*)(__extc_t_Object_Item*, __extc_t_Object_Item*));",
    "static __extc_t_Object_Item* __extc_c_f_sort(__extc_t_Object_Item*, __extc_t_Object_Count, "
      ++ "int (*)(__extc_t_Object_Item*, __extc_t_Object_Item*));",
    "static __extc_t_Object_Item* __extc_c_f_sort(__extc_t_Object_Item *__extc_ptr_items, "
      ++ "__extc_t_Object_Count __extc_v_count, "
      ++ "int (*__extc_ptr_order)(__extc_t_Object_Item*, __extc_t_Object_Item*))"]

theorem knownTo_sorterTypes : ∀ ty ∈ sorterTypes, ty.KnownTo (fun _ => false) sorterFile := by
  rw [sorterTypes, List.forall_mem_cons, List.forall_mem_singleton]
  exact ⟨⟨.inl (by decide), by decide⟩, .inl (by decide), by decide⟩

/-- The prototype, the announcement of the definition, and its heading are all read as declarations
of the function, with one type. -/
theorem sorterUnit_read :
    ∃ checked, check sorterUnit .empty = .ok checked
      ∧ ((nodesAll [] checked.unit).flatMap (·.stmt.headings checked.checker)).map
          (fun h => h.1.text ++ h.2) = sorterLines
      ∧ ∀ n ∈ nodesAll [] checked.unit, ∀ e, n.stmt.ownFunction? = some e →
          (∃ scope entry, checked.checker.entryIn? scope e.name = some entry
            ∧ e.type.same entry.type = true)
          ∧ ∀ heading stop, (heading, stop) ∈ n.stmt.headings checked.checker →
              C.readDeclaration (fun _ => false) sorterFile (heading.text ++ stop)
                = some ("__extc_c_f_sort".toList, sorterTree) := by
  have hrun : ∃ checked, check sorterUnit .empty = .ok checked
      ∧ ((nodesAll [] checked.unit).flatMap (·.stmt.headings checked.checker)).map
          (fun h => h.1.text ++ h.2) = sorterLines
      ∧ ∀ n ∈ nodesAll [] checked.unit, ∀ e ∈ n.stmt.ownFunction?.toList,
          (e.cName, e.type) = ("__extc_c_f_sort", sorterType)
          ∧ ∀ h ∈ n.stmt.headings checked.checker,
            (h.1.isFaithful && h.1.isWrittenWith (fun _ => false) sorterTypes) = true :=
    exists_ok_of_decide (by decide +kernel)
  obtain ⟨checked, hcheck, hlines, hforms⟩ := hrun
  obtain ⟨compiled, hcompile⟩ := exists_compile_ok hcheck {}
  obtain ⟨checked', hcheck', -, hheadings⟩ :=
    headings_of_compile sorterUnit .empty {} compiled hcompile
  obtain rfl : checked = checked' := Except.ok.inj (hcheck.symm.trans hcheck')
  refine ⟨checked, hcheck, hlines, ?_⟩
  intro n hn e he
  obtain ⟨hentry, hforms⟩ := hforms n hn e (Option.mem_toList.mpr he)
  obtain ⟨hcName, htype⟩ := Prod.mk.inj hentry
  obtain ⟨⟨scope, _, entry, -, -, hfound, -, -, -, hsame⟩, -, -, hread⟩ := hheadings n hn e he
  refine ⟨⟨scope, entry, hfound, hsame (fun _ => rfl) (by decide)⟩, ?_⟩
  intro heading stop hmem
  have hform := hforms _ hmem
  rw [Bool.and_eq_true] at hform
  have hempty : ∀ b ∈ Registry.empty.bindings, b.type.isAtom = true :=
    List.forall_mem_nil _
  have hline := ((hread heading stop hmem).2.2 hempty _ sorterFile
    (C.Heading.knownTo_of_isWrittenWith hform.2 knownTo_sorterTypes)).mpr hform.1
  rw [hcName, htype] at hline
  exact hline

/-- A function that returns a pointer to a function. -/
def selectorUnit : List Stmt :=
  [.function
    { name := "select", descriptor := .signature "int" [(.named "int", 0)] 0, depth := 0,
      params := [], position := .unknown }
    []]

/-- The unit compiles. Neither the prototype nor the heading of the definition is a declaration, as
the name does not stand inside the type that is returned. -/
theorem selectorUnit_unreadable :
    ∃ checked, check selectorUnit .empty = .ok checked
      ∧ ((nodesAll [] checked.unit).flatMap (·.stmt.headings checked.checker)).map
          (fun h => h.1.text ++ h.2)
        = ["static int (*)(int) __extc_c_f_select(void);",
          "static int (*)(int) __extc_c_f_select(void)"]
      ∧ ∀ h ∈ (nodesAll [] checked.unit).flatMap (·.stmt.headings checked.checker),
          C.readDeclaration (fun _ => false) ⟨fun _ => false, fun _ => false⟩ (h.1.text ++ h.2)
            = none := by
  let result : Ty := .pointer (.function none none [.primitive .int] (.primitive .int)) 1
  have hrun : ∃ checked, check selectorUnit .empty = .ok checked
      ∧ (nodesAll [] checked.unit).flatMap (·.stmt.headings checked.checker)
        = [(⟨result, "__extc_c_f_select", .types []⟩, ";"),
          (⟨result, "__extc_c_f_select", .named []⟩, "")] :=
    exists_ok_of_decide (by decide +kernel)
  obtain ⟨checked, hcheck, hheadings⟩ := hrun
  have hshaped : result.Shaped := .callback (List.forall_mem_singleton.mpr (.simple rfl)) rfl
  have hknown {ext : Char → Bool} {env : Typedefs} :
      ∀ atom ∈ result.atoms, atom.KnownTo ext env :=
    List.forall_mem_cons.mpr ⟨trivial, List.forall_mem_singleton.mpr trivial⟩
  obtain ⟨between, hvoid⟩ : ∃ tokens, Lists (fun _ => false) ⟨fun _ => false, fun _ => false⟩
      "void".toList tokens (some []) := C.lists_void
  refine ⟨checked, hcheck, ?_, ?_⟩
  · rw [hheadings]
    decide
  · rw [hheadings, List.forall_mem_cons, List.forall_mem_singleton]
    exact ⟨C.Heading.readDeclaration_of_callback hshaped rfl hknown (by decide) hvoid (by decide),
      C.Heading.readDeclaration_of_callback hshaped rfl hknown (by decide) hvoid (by decide)⟩

end Stmt

end ExtensionCompiler

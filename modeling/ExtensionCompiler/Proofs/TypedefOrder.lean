import ExtensionCompiler.Proofs.Typedefs

set_option autoImplicit false

/-! # The order of typedefs in a file

The lines for tags come first in a file, then the typedefs of aliases, and then all that uses types:
the bodies of structures, variables, prototypes and definitions. So the C name of a type is
introduced before every line that spells it, with one exception. The typedefs of aliases stand in
the order of the source, whatever they are aliases of, and an alias of a later one spells a name
that is introduced after it (`typedefs_before_uses_of_compile`). -/

namespace ExtensionCompiler

/-! ## The names that a line spells -/

namespace Ty

mutual

/-- The C names of types that a type is written with. An alias hides what it stands for. -/
def shown : Ty → List String
  | aggregate _ _ cName _ => [cName]
  | aliased _ cName _ => [cName]
  | pointer base _ => base.shown
  | array base _ => base.shown
  | function _ _ params result => shownIn params ++ result.shown
  | primitive _ => []
  | object => []
  | pending _ => []

def shownIn : List Ty → List String
  | [] => []
  | ty :: rest => ty.shown ++ shownIn rest

end

mutual

theorem mem_cNames_of_mem_shown {n : String} : (ty : Ty) → n ∈ ty.shown → n ∈ ty.cNames
  | aggregate _ _ _ _, h => h
  | aliased _ _ _, h => List.mem_cons.mpr (.inl (List.mem_singleton.mp h))
  | pointer base _, h | array base _, h => mem_cNames_of_mem_shown base h
  | function _ _ params result, h => by
      rcases List.mem_append.mp h with hparams | hresult
      · exact List.mem_append_left _ (mem_cNamesIn_of_mem_shownIn params hparams)
      · exact List.mem_append_right _ (mem_cNames_of_mem_shown result hresult)
  | primitive _, h | object, h | pending _, h => absurd h List.not_mem_nil

theorem mem_cNamesIn_of_mem_shownIn {n : String} : (tys : List Ty) → n ∈ shownIn tys →
    n ∈ cNamesIn tys
  | [], h => absurd h List.not_mem_nil
  | ty :: rest, h => by
      rcases List.mem_append.mp h with hfirst | hrest
      · exact List.mem_append_left _ (mem_cNames_of_mem_shown ty hfirst)
      · exact List.mem_append_right _ (mem_cNamesIn_of_mem_shownIn rest hrest)

end

end Ty

/-- The C names of types that a line spells, other than one that it introduces. -/
def C.Code.used (line : C.Code) : List String := line.types.flatMap Ty.shown

theorem C.Code.types_subset_typesAll {line : C.Code} {lines : List C.Code} (h : line ∈ lines) :
    ∀ ty ∈ line.types, ty ∈ typesAll lines := by
  intro ty hty
  obtain ⟨before, after, rfl⟩ := List.append_of_mem h
  rw [typesAll_append]
  exact List.mem_append_right _ (List.mem_append_left _ hty)

/-! ## The section of aliases -/

/-- The C name of a type that the unit does not introduce: it comes from the context, or a header
provides the type. -/
def Stmt.Provided (registry : Registry) (unit : List Stmt) (n : String) : Prop :=
  (∃ key, n ∈ (registry.meaning key).cNames)
    ∨ ∃ p ∈ partsAll unit Checker.global, p.part.typeCName? = some n ∧ p.part.isProvided = true

theorem TypeAlias.header_eq_line {d : TypeAlias} (hext : d.isExternal = false)
    (htag : d.isTagAlias = false) {line : C.Code} (h : d.header .typeAliases = [line]) :
    d.header .typeAliases = [d.line] := by
  cases htype : d.type with
  | aliased name cName target => simp [header, TypeAlias.line, htype, hext, htag]
  | _ => simp [header, htype, hext, htag] at h

namespace Stmt

/-- What a statement writes in the section of aliases. -/
theorem header_alone_typeAliases {stmt : Stmt} {c : Checker} (h : stmt.HasLines c) :
    stmt.alone.header .typeAliases c = (stmt.alias?.map TypeAlias.line).toList := by
  cases stmt with
  | typeAlias d =>
      show d.header .typeAliases = _
      cases hwritten : d.isExternal || d.isTagAlias with
      | true =>
          rw [TypeAlias.header, Bool.or_assoc, hwritten, Bool.or_true, if_pos rfl, alias?,
            hwritten]
          rfl
      | false =>
          obtain ⟨hext, htag⟩ := Bool.or_eq_false_iff.mp hwritten
          obtain ⟨target, hline⟩ := h hext htag
          rw [TypeAlias.header_eq_line hext htag hline, alias?, hwritten]
          rfl
  | aggregate d members =>
      show d.header .typeAliases c = []
      unfold Aggregate.header
      split <;> rfl
  | _ => rfl

theorem namesType_of_alias? {n : Node} {d : TypeAlias} (h : n.alias? = some d) :
    n.namesType = true := by
  obtain ⟨around, stmt⟩ := n
  cases stmt with
  | typeAlias d' => rfl
  | _ => cases h

/-- The section of aliases, node by node. -/
theorem filedLines_typeAliases (c : Checker) (nodes : List Node)
    (htop : ∀ n ∈ nodes, n.namesType = true → n.isWithin Enclosure.isLibrary = true)
    (hlines : ∀ n ∈ nodes, n.stmt.HasLines c) :
    filedLines .typeAliases c nodes
      = (nodes.filterMap Node.alias?).map TypeAlias.line := by
  induction nodes with
  | nil => rfl
  | cons n rest ih =>
      have hrest := ih (fun n' hn' => htop n' (List.mem_cons_of_mem n hn'))
        (fun n' hn' => hlines n' (List.mem_cons_of_mem n hn'))
      by_cases hwithin : n.isWithin Enclosure.filesInside = true
      · have hown := header_alone_typeAliases (hlines n List.mem_cons_self)
        rw [filedLines, Node.linesWithin_cons _ _ hwithin, ← filedLines, hrest, hown, ← Node.alias?]
        cases halias : n.alias? with
        | none =>
            rw [List.filterMap_cons_none halias]
            rfl
        | some d =>
            rw [List.filterMap_cons_some halias]
            rfl
      · -- the emission does not come to the node, so that it is no alias
        have halias : n.alias? = none := by
          cases hd : n.alias? with
          | none => rfl
          | some d =>
              have htype := htop n List.mem_cons_self (namesType_of_alias? hd)
              exact absurd (Node.filesInside_of_isLibrary htype) hwithin
        rw [List.filterMap_cons_none halias, ← hrest, filedLines, Node.linesWithin,
          List.filter_cons_of_neg hwithin]
        rfl

/-- **The typedefs of aliases stand in the order of the source.** -/
theorem sectionLines_typeAliases {unit : List Stmt} {registry : Registry} {checked : Checked}
    {visits : List Visit} {middle : Checker} (h : Passes unit registry checked visits middle)
    (htop : TypesOnTop checked.unit) :
    sectionLines checked.unit checked.checker .typeAliases
      = (aliases checked.unit).map TypeAlias.line := by
  show headerAll .typeAliases checked.unit checked.checker = _
  rw [headerAll_eq .typeAliases checked.checker checked.unit [] rfl]
  exact filedLines_typeAliases checked.checker _ htop
    (hasLines_of_mem_nodesAll checked.checker checked.unit h.isComplete)

end Stmt

/-! ## The file up to its aliases -/

variable {part : HeaderSection} {c : Checker} {line : C.Code}

theorem Aggregate.types_of_mem_header {d : Aggregate} (hpart : part = .includes ∨ part = .typeTags)
    (h : line ∈ d.header part c) : line.types = [] := by
  unfold header at h
  split at h
  · rcases hpart with rfl | rfl
    · cases h
    · dsimp only at h
      split at h
      · cases h
      · rw [List.mem_singleton.mp h]
        rfl
  · cases h

theorem Stmt.types_of_mem_header_alone {stmt : Stmt} (hpart : part = .includes ∨ part = .typeTags)
    (h : line ∈ stmt.alone.header part c) : line.types = [] := by
  cases stmt with
  | aggregate d members => exact Aggregate.types_of_mem_header hpart h
  | forward d =>
      rcases hpart with rfl | rfl
      · cases h
      · rw [List.mem_singleton.mp h]
        rfl
  | library name declarations position =>
      rcases hpart with rfl | rfl
      · rw [List.mem_singleton.mp h]
        rfl
      · cases h
  | _ => rcases hpart with rfl | rfl <;> cases h

/-- Neither the section of headers nor the section of tags spells types. -/
theorem types_of_mem_sectionLines {unit : List Stmt} (hpart : part = .includes ∨ part = .typeTags)
    (hline : line ∈ sectionLines unit c part) : line.types = [] := by
  have hlines : sectionLines unit c part = Stmt.headerAll part unit c := by
    rcases hpart with rfl | rfl <;> rfl
  rw [hlines, Stmt.headerAll_eq part c unit [] rfl] at hline
  obtain ⟨⟨around, stmt⟩, -, hstmt⟩ := List.mem_flatMap.mp hline
  exact Stmt.types_of_mem_header_alone hpart hstmt

/-- A section, and the empty line after it if there is one. -/
theorem sectionCode_eq (unit : List Stmt) (c : Checker) (part : HeaderSection) :
    ∃ gap, sectionCode unit c part = sectionLines unit c part ++ gap
      ∧ ∀ line ∈ gap, line = .blank := by
  unfold sectionCode
  dsimp only
  split
  · rename_i hempty
    have hlines : sectionLines unit c part = [] :=
      List.isEmpty_iff.mp (Bool.and_eq_true_iff.mp hempty).1
    exact ⟨[], by rw [hlines]; rfl, List.forall_mem_nil _⟩
  · exact ⟨[.blank], rfl, fun line hline => List.mem_singleton.mp hline⟩

/-- A file begins with lines that spell no types, the lines for tags among them, and then come the
typedefs of aliases. -/
theorem file_eq_append (unit : List Stmt) (c : Checker) (target : String) :
    ∃ first rest, file unit c target = first ++ (sectionLines unit c .typeAliases ++ rest)
      ∧ (∀ line ∈ first, line.types = [])
      ∧ ∀ line ∈ sectionLines unit c .typeTags, line ∈ first := by
  have htypes (part : HeaderSection) (hpart : part = .includes ∨ part = .typeTags) :
      ∀ line ∈ sectionCode unit c part, line.types = [] := by
    intro line hline
    obtain ⟨gap, heq, hgap⟩ := sectionCode_eq unit c part
    rw [heq] at hline
    rcases List.mem_append.mp hline with hsection | hblank
    · exact types_of_mem_sectionLines hpart hsection
    · rw [hgap line hblank]
      rfl
  obtain ⟨gap, hgap, -⟩ := sectionCode_eq unit c .typeAliases
  refine ⟨standardHeaders.map .header
      ++ (sectionCode unit c .includes ++ sectionCode unit c .typeTags),
    gap ++ ([.typeDefinitions, .globals, .prototypes].flatMap (sectionCode unit c)
      ++ (Stmt.definitionCode unit c ++ [.entryPoint target (Stmt.startAll unit c)])), ?_, ?_, ?_⟩
  · simp only [file, HeaderSection.all, List.flatMap_cons, hgap, List.append_assoc]
  · intro line hline
    rcases List.mem_append.mp hline with hstandard | hsection
    · obtain ⟨name, -, rfl⟩ := List.mem_map.mp hstandard
      rfl
    · rcases List.mem_append.mp hsection with hincludes | htags
      · exact htypes .includes (.inl rfl) line hincludes
      · exact htypes .typeTags (.inr rfl) line htags
  · intro line hline
    obtain ⟨gap', hgap', -⟩ := sectionCode_eq unit c .typeTags
    refine List.mem_append_right _ (List.mem_append_right _ ?_)
    rw [hgap']
    exact List.mem_append_left _ hline

/-! ## Definitions before uses -/

/-- A line of a list stands in its first or in its second part. -/
theorem eq_append_of_append_eq {xs ys before after : List C.Code}
    (h : xs ++ ys = before ++ line :: after) :
    (∃ t, xs = before ++ line :: t) ∨ ∃ t, before = xs ++ t ∧ ys = t ++ line :: after := by
  rcases List.append_eq_append_iff.mp h with ⟨t, hbefore, hys⟩ | ⟨t, hxs, hrest⟩
  · exact .inr ⟨t, hbefore, hys⟩
  · cases t with
    | nil =>
        refine .inr ⟨[], ?_, hrest.symm⟩
        rw [hxs, List.append_nil, List.append_nil]
    | cons first t =>
        cases hrest
        exact .inl ⟨t, hxs⟩

/-- Among the typedefs of aliases, what an alias introduces stands before, at or after a line. -/
theorem TypeAlias.introduced_of_mem {aliases : List TypeAlias} {before after : List C.Code}
    (hsplit : aliases.map TypeAlias.line = before ++ line :: after) {d' : TypeAlias}
    (hd' : d' ∈ aliases) :
    d'.cName ∈ line.introduced ∨ d'.cName ∈ before.flatMap C.Code.introduced
      ∨ ∃ d, [d, d'].Sublist aliases ∧ line = d.line := by
  obtain ⟨ds, rest, rfl, rfl, hrest⟩ := List.map_eq_append_iff.mp hsplit
  obtain ⟨d, ds', rfl, rfl, -⟩ := List.map_eq_cons_iff.mp hrest
  rcases List.mem_append.mp hd' with hearlier | hlater
  · refine .inr (.inl (List.mem_flatMap.mpr ⟨d'.line, List.mem_map_of_mem hearlier, ?_⟩))
    rw [d'.introduced_line]
    exact List.mem_singleton_self _
  · rcases List.mem_cons.mp hlater with rfl | hlater
    · left
      rw [d'.introduced_line]
      exact List.mem_singleton_self _
    · refine .inr (.inr ⟨d, ?_, rfl⟩)
      have hpair : [d, d'].Sublist (d :: ds') := (List.singleton_sublist.mpr hlater).cons_cons d
      exact hpair.trans (List.sublist_append_right ds (d :: ds'))

/-- The line is the typedef of an alias, and an alias that is written after it has the C name. -/
def Stmt.LaterAlias (unit : List Stmt) (line : C.Code) (n : String) : Prop :=
  ∃ d d', [d, d'].Sublist (aliases unit) ∧ line = d.line ∧ d'.cName = n

namespace Passes

variable {unit : List Stmt} {registry : Registry} {checked : Checked} {visits : List Visit}
  {middle : Checker}

variable (h : Passes unit registry checked visits middle)
include h

/-- The C names that a line spells are those of types of the unit, or provided. -/
theorem own_or_provided {target : String} {line : C.Code}
    (hline : line ∈ file checked.unit checked.checker target) {n : String} (hn : n ∈ line.used) :
    Stmt.OwnType checked.unit n ∨ Stmt.Provided registry checked.unit n := by
  obtain ⟨ty, hty, hshown⟩ := List.mem_flatMap.mp hn
  have hknown := h.file_known target ty (C.Code.types_subset_typesAll hline ty hty) n
    (ty.mem_cNames_of_mem_shown hshown)
  rcases hknown with hcontext | ⟨p, hp, hname⟩
  · exact .inr (.inl hcontext)
  · cases hprovided : p.part.isProvided with
    | true => exact .inr (.inr ⟨p, hp, hname, hprovided⟩)
    | false => exact .inl ⟨p, hp, hname, hprovided⟩

/-- **Definitions before uses.** A C name of the unit's own is introduced before every line that
spells it, unless the line is the typedef of an alias and a later alias has the name. -/
theorem introduced_before (htop : Stmt.TypesOnTop checked.unit) {target : String}
    {before after : List C.Code} {line : C.Code}
    (hsplit : file checked.unit checked.checker target = before ++ line :: after) {n : String}
    (hused : n ∈ line.used) (hown : Stmt.OwnType checked.unit n) :
    n ∈ line.introduced ∨ n ∈ before.flatMap C.Code.introduced
      ∨ Stmt.LaterAlias checked.unit line n ∨ IsTag n := by
  obtain ⟨first, rest, hfile, htypes, htags⟩ :=
    file_eq_append checked.unit checked.checker target
  rw [hfile, Stmt.sectionLines_typeAliases h htop] at hsplit
  -- what the lines for tags introduce stands before all but the lines that spell nothing
  have htag {t : List C.Code}
      (hmem : n ∈ (sectionLines checked.unit checked.checker .typeTags).flatMap C.Code.introduced) :
      n ∈ (first ++ t).flatMap C.Code.introduced := by
    obtain ⟨tag, hline, hname⟩ := List.mem_flatMap.mp hmem
    exact List.mem_flatMap.mpr ⟨tag, List.mem_append_left _ (htags tag hline), hname⟩
  rcases eq_append_of_append_eq hsplit with ⟨t, hfirst⟩ | ⟨t, rfl, hrest⟩
  · have hnone : line.types = [] := htypes line (by
      rw [hfirst]
      exact List.mem_append_right _ List.mem_cons_self)
    rw [C.Code.used, hnone] at hused
    cases hused
  · rcases h.introduced htop hown with (htagged | ⟨d', hd', rfl⟩) | hisTag
    · exact .inr (.inl (htag htagged))
    · rcases eq_append_of_append_eq hrest with ⟨u, haliases⟩ | ⟨u, rfl, -⟩
      · rcases TypeAlias.introduced_of_mem haliases hd' with hself | hbefore | ⟨d, hpair, hline⟩
        · exact .inl hself
        · rw [List.flatMap_append]
          exact .inr (.inl (List.mem_append_right _ hbefore))
        · exact .inr (.inr (.inl ⟨d, d', hpair, hline, rfl⟩))
      · refine .inr (.inl (List.mem_flatMap.mpr ⟨d'.line, ?_, ?_⟩))
        · refine List.mem_append_right _ (List.mem_append_left _ ?_)
          exact List.mem_map_of_mem hd'
        · rw [d'.introduced_line]
          exact List.mem_singleton_self _
    · exact .inr (.inr (.inr hisTag))

end Passes

/-- **Where typedefs stand.** A line of the file of a compiled unit with types at the top only
spells no C names of types but those of the unit's own types and those that the context or a header
provides. The line introduces a name of the unit's own itself, or a typedef before it does, or the
name is a tag and needs none. The exception are aliases of later aliases: their typedefs stand in
the order of the source. -/
theorem typedefs_before_uses_of_compile (unit : List Stmt) (registry : Registry)
    (options : Options) (compiled : Compiled) (h : compile unit registry options = .ok compiled)
    (htop : Stmt.TypesOnTop unit) :
    ∃ checked, check unit registry = .ok checked
      ∧ compiled.code = generate checked.unit checked.checker options
      ∧ ∀ before line after,
        file checked.unit checked.checker options.target = before ++ line :: after →
        ∀ n ∈ line.used,
          (Stmt.OwnType checked.unit n ∨ Stmt.Provided registry checked.unit n)
          ∧ (Stmt.OwnType checked.unit n →
              n ∈ line.introduced ∨ n ∈ before.flatMap C.Code.introduced
                ∨ Stmt.LaterAlias checked.unit line n ∨ IsTag n) := by
  obtain ⟨checked, hcheck, hcode, -⟩ := compile_ok h
  have hpasses := passes_of_check hcheck
  refine ⟨checked, hcheck, hcode, fun before line after hsplit n hn => ⟨?_, fun hown => ?_⟩⟩
  · have hline : line ∈ file checked.unit checked.checker options.target := by
      rw [hsplit]
      exact List.mem_append_right _ List.mem_cons_self
    exact hpasses.own_or_provided hline hn
  · exact hpasses.introduced_before (htop.of_check hcheck) hsplit hn hown

namespace Stmt

/-- A linked list. The structure comes before the alias that its member has for a type, and the
alias of a function pointer after the alias that it returns. -/
def listUnit : List Stmt :=
  let here := Position.unknown
  [.aggregate { kind := .struct, name := "node", position := here }
      [.var
        { form := .plain, descriptor := .named "link", depth := 0, name := "next", value := none,
          position := here }],
    .typeAlias
      { name := "link", descriptor := .named "struct node", depth := 1, position := here },
    .typeAlias
      { name := "visitor", descriptor := .signature "link" [(.named "node", 1)] 0, depth := 0,
        position := here },
    .function
      { descriptor := .named "link", depth := 0, name := "walk",
        params :=
          [{ descriptor := .named "visitor", depth := 0, name := some "v", position := here }],
        position := here }
      []]

/-- An alias of the alias after it. -/
def lateAliasUnit : List Stmt :=
  let here := Position.unknown
  [.typeAlias { name := "A", descriptor := .named "B", depth := 0, position := here },
    .typeAlias { name := "B", descriptor := .named "int", depth := 0, position := here }]

end Stmt

/-- The lines that introduce or spell C names of types, with what they introduce and spell. -/
def C.Code.namesOfTypes (lines : List C.Code) : List (List String × List String) :=
  (lines.map fun line => (line.introduced, line.used)).filter (· ≠ ([], []))

/-- No alias of the list is one of a later alias, and so all names are introduced before they are
spelled. -/
theorem Stmt.listUnit_ordered :
    ∃ checked, check Stmt.listUnit (Stmt.announceAll Stmt.listUnit .empty) = .ok checked
      ∧ C.Code.namesOfTypes (file checked.unit checked.checker "extension")
        = [(["__extc_t_Object_node"], []),
          (["__extc_t_Object_link"], ["__extc_t_Object_node"]),
          (["__extc_t_Object_visitor"], ["__extc_t_Object_node", "__extc_t_Object_link"]),
          ([], ["__extc_t_Object_link"]),
          ([], ["__extc_t_Object_link", "__extc_t_Object_visitor"]),
          ([], ["__extc_t_Object_link", "__extc_t_Object_visitor"])]
      ∧ ∀ before line after,
        file checked.unit checked.checker "extension" = before ++ line :: after →
        ∀ n ∈ line.used, Stmt.OwnType checked.unit n →
          n ∈ line.introduced ∨ n ∈ before.flatMap C.Code.introduced ∨ IsTag n := by
  have hrun : ∃ checked,
      check Stmt.listUnit (Stmt.announceAll Stmt.listUnit .empty) = .ok checked
      ∧ C.Code.namesOfTypes (file checked.unit checked.checker "extension")
        = [(["__extc_t_Object_node"], []),
          (["__extc_t_Object_link"], ["__extc_t_Object_node"]),
          (["__extc_t_Object_visitor"], ["__extc_t_Object_node", "__extc_t_Object_link"]),
          ([], ["__extc_t_Object_link"]),
          ([], ["__extc_t_Object_link", "__extc_t_Object_visitor"]),
          ([], ["__extc_t_Object_link", "__extc_t_Object_visitor"])]
      ∧ (Stmt.aliases checked.unit).Pairwise (fun d d' => d'.cName ∉ d.line.used) :=
    exists_ok_of_decide (by decide +kernel)
  obtain ⟨checked, hcheck, hnames, hpairs⟩ := hrun
  have hcompile : compile Stmt.listUnit (Stmt.announceAll Stmt.listUnit .empty) {}
      = .ok ⟨generate checked.unit checked.checker {}, checked.checker⟩ := by
    rw [compile, hcheck]
  obtain ⟨checked', hcheck', -, hordered⟩ :=
    typedefs_before_uses_of_compile _ _ _ _ hcompile (by decide +kernel)
  cases hcheck.symm.trans hcheck'
  refine ⟨checked, hcheck, hnames, fun before line after hsplit n hn hown => ?_⟩
  rcases (hordered before line after hsplit n hn).2 hown with hself | hbefore | hlater | htag
  · exact .inl hself
  · exact .inr (.inl hbefore)
  · obtain ⟨d, d', hpair, rfl, rfl⟩ := hlater
    exact absurd hn (List.pairwise_iff_forall_sublist.mp hpairs hpair)
  · exact .inr (.inr htag)

/-- The typedef of `A` spells the name of `B`, which the next line introduces. -/
theorem Stmt.lateAliasUnit_spells_later :
    Stmt.TypesOnTop Stmt.lateAliasUnit
      ∧ ∃ checked, check Stmt.lateAliasUnit (Stmt.announceAll Stmt.lateAliasUnit .empty)
          = .ok checked
        ∧ Stmt.OwnType checked.unit "__extc_t_Object_B"
        ∧ C.Code.namesOfTypes (file checked.unit checked.checker "extension")
          = [(["__extc_t_Object_A"], ["__extc_t_Object_B"]), (["__extc_t_Object_B"], [])] := by
  exact ⟨by decide +kernel, exists_ok_of_decide (by decide +kernel)⟩

end ExtensionCompiler

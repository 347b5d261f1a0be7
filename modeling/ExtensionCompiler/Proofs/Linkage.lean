import ExtensionCompiler.Proofs.Hoisting

set_option autoImplicit false

/-! # C names at file level

In C, the variables of the outermost scope and of class bodies, and all functions, methods and
classes wherever they are declared, stand side by side at file level. Their C names tell the kinds
apart and keep the name of the source, but say nothing of the scope.

So within one scope no two of them have the same C name, but entries of two scopes do as soon as
they agree in name and kind, and only then (`Checker.Tidy.cName_eq_cName_iff`). A unit is free of
clashes just if no two scopes declare a name in the same kind (`cNames_fileLevel_of_compile`); two
classes with a method of one name are enough for a clash (`Stmt.twinMethodsUnit_clashes`). -/

namespace ExtensionCompiler

/-- Whether an entry of a scope of the kind is declared or defined at file level: functions, methods
and classes always are, variables are if the scope is no function and no structure. -/
def Entry.isFileLevel (kind : ScopeKind) (entry : Entry) : Bool :=
  !entry.isExternal && match entry.kind with
    | .var | .pointer | .array => decide (kind = .global ∨ kind = .classBody)
    | .function | .method | .classHandle => true
    | .type | .aggregate => false

/-- The entries of a scope that C has at file level. -/
def Scope.fileLevel (scope : Scope) : List Entry :=
  scope.entries.filter fun e => e.isFileLevel scope.kind

/-- The entries of all scopes that C has at file level. -/
def Checker.fileLevel (c : Checker) : List Entry := c.scopes.flatMap Scope.fileLevel

/-- The C name of an entry at file level is made from its kind and its name. -/
theorem Entry.Linked.cName_of_isFileLevel {entry : Entry} (h : entry.Linked) {kind : ScopeKind}
    (hfile : entry.isFileLevel kind = true) :
    entry.kind.isType = false ∧ entry.cName = entry.kind.lead ++ entry.name := by
  rw [isFileLevel, Bool.and_eq_true, Bool.not_eq_true'] at hfile
  obtain ⟨hown, hemitted⟩ := hfile
  have hkind : entry.kind.isType = false := by
    cases hk : entry.kind with
    | type | aggregate => rw [hk] at hemitted; cases hemitted
    | _ => rfl
  have hname := h hkind
  rw [hown] at hname
  exact ⟨hkind, hname⟩

namespace Checker

variable {c : Checker}

theorem mem_fileLevel_iff {e : Entry} :
    e ∈ c.fileLevel ↔ ∃ s ∈ c.scopes, e ∈ s.entries ∧ e.isFileLevel s.kind = true := by
  rw [fileLevel, List.mem_flatMap]
  refine exists_congr fun s => and_congr_right fun _ => ?_
  rw [Scope.fileLevel, List.mem_filter]

/-- **When two entries have one C name at file level.** -/
theorem Tidy.cName_eq_cName_iff (h : c.Tidy) {e e' : Entry} (he : e ∈ c.fileLevel)
    (he' : e' ∈ c.fileLevel) :
    e.cName = e'.cName ↔ e.name = e'.name ∧ e.kind = e'.kind := by
  obtain ⟨s, hs, hmem, hfile⟩ := mem_fileLevel_iff.mp he
  obtain ⟨s', hs', hmem', hfile'⟩ := mem_fileLevel_iff.mp he'
  obtain ⟨hkind, hname⟩ := (h.linked s hs e hmem).cName_of_isFileLevel hfile
  obtain ⟨hkind', hname'⟩ := (h.linked s' hs' e' hmem').cName_of_isFileLevel hfile'
  rw [hname, hname']
  exact EntryKind.lead_append_inj hkind hkind'

/-- The names of a scope are distinct, and so are the C names of those at file level. -/
theorem Tidy.nodup_fileLevel_scope (h : c.Tidy) {s : Scope} (hs : s ∈ c.scopes) :
    (s.fileLevel.map Entry.cName).Nodup := by
  have hmem : ∀ e ∈ s.fileLevel, e ∈ c.fileLevel := fun e he => List.mem_flatMap.mpr ⟨s, hs, he⟩
  have hnames : (s.fileLevel.map Entry.name).Nodup :=
    (h.distinct s hs).sublist (List.filter_sublist.map Entry.name)
  rw [List.Nodup, List.pairwise_map] at hnames ⊢
  refine List.Pairwise.imp_of_mem (fun he he' hne heq => hne ?_) hnames
  exact ((h.cName_eq_cName_iff (hmem _ he) (hmem _ he')).mp heq).1

theorem Tidy.nodup_fileLevel_iff (h : c.Tidy) :
    (c.fileLevel.map Entry.cName).Nodup
      ↔ (c.fileLevel.map fun e => (e.name, e.kind)).Nodup := by
  rw [List.Nodup, List.Nodup, List.pairwise_map, List.pairwise_map]
  refine List.Pairwise.iff_of_mem fun he he' => not_congr ?_
  rw [h.cName_eq_cName_iff he he', Prod.mk.injEq]

end Checker

/-- **Which C names clash at file level.** In a unit that compiles, two entries at file level have
the same C name just if they agree in name and kind. Those of one scope never do, so the unit has no
clash if and only if no two of its scopes declare the same name in the same kind. -/
theorem cNames_fileLevel_of_compile (unit : List Stmt) (registry : Registry) (options : Options)
    (compiled : Compiled) (h : compile unit registry options = .ok compiled) :
    (∀ e ∈ compiled.checker.fileLevel, ∀ e' ∈ compiled.checker.fileLevel,
      e.cName = e'.cName ↔ e.name = e'.name ∧ e.kind = e'.kind)
      ∧ (∀ s ∈ compiled.checker.scopes, (s.fileLevel.map Entry.cName).Nodup)
      ∧ ((compiled.checker.fileLevel.map Entry.cName).Nodup
        ↔ (compiled.checker.fileLevel.map fun e => (e.name, e.kind)).Nodup) := by
  obtain ⟨checked, hcheck, -, hchecker⟩ := compile_ok h
  have htidy : compiled.checker.Tidy := by
    rw [hchecker]
    exact (passes_of_check hcheck).tidy
  refine ⟨fun e he e' he' => htidy.cName_eq_cName_iff he he', fun s hs => ?_,
    htidy.nodup_fileLevel_iff⟩
  exact htidy.nodup_fileLevel_scope hs

/-! ## Two instances -/

namespace Stmt

/-- The outermost scope, a class and a function that share names, but in no kind. -/
def sharedNamesUnit : List Stmt :=
  let here := Position.unknown
  let int (name : String) (form : VariableForm) (depth : Nat) : Stmt :=
    .var { form, descriptor := .named "int", depth, name, value := none, position := here }
  [int "go" .plain 0,
    .classDef { name := "A", ancestor := none, position := here }
      [int "go" .pointer 1,
        .function
          { descriptor := .named "void", depth := 0, name := "A", params := [], position := here }
          [int "go" .plain 0],
        .method { name := "run", params := [], position := here }
          [.method { name := "go", params := [], position := here } []]]]

/-- Two classes that both have a method `go`. -/
def twinMethodsUnit : List Stmt :=
  let here := Position.unknown
  let go : Stmt := .method { name := "go", params := [], position := here } []
  [.classDef { name := "A", ancestor := none, position := here } [go],
    .classDef { name := "B", ancestor := none, position := here } [go]]

end Stmt

/-- Different kinds keep the names apart. -/
theorem Stmt.sharedNamesUnit_cNames :
    ∃ compiled, compile Stmt.sharedNamesUnit .empty {} = .ok compiled
      ∧ compiled.checker.fileLevel.map (fun e => (e.name, e.kind))
        = [("go", .var), ("A", .classHandle), ("go", .pointer), ("A", .function),
          ("run", .method), ("go", .method)]
      ∧ (compiled.checker.fileLevel.map Entry.cName).Nodup := by
  have hrun : ∃ compiled, compile Stmt.sharedNamesUnit .empty {} = .ok compiled
      ∧ compiled.checker.fileLevel.map (fun e => (e.name, e.kind))
        = [("go", .var), ("A", .classHandle), ("go", .pointer), ("A", .function),
          ("run", .method), ("go", .method)] := exists_ok_of_decide (by decide +kernel)
  obtain ⟨compiled, h, hentries⟩ := hrun
  obtain ⟨-, -, hnodup⟩ := cNames_fileLevel_of_compile _ _ _ compiled h
  refine ⟨compiled, h, hentries, hnodup.mpr ?_⟩
  rw [hentries]
  decide

/-- The name of the function that a line defines. -/
def C.Code.definedFunction? : C.Code → Option String
  | .function heading _ => some heading.name
  | _ => none

/-- The two methods have one C name, and the file defines the function twice. -/
theorem Stmt.twinMethodsUnit_clashes :
    ∃ checked, check Stmt.twinMethodsUnit .empty = .ok checked
      ∧ checked.checker.fileLevel.map Entry.cName
        = ["__extc_cls_A", "__extc_cls_B", "__extc_f_go", "__extc_f_go"]
      ∧ (file checked.unit checked.checker "extension").filterMap C.Code.definedFunction?
        = ["__extc_f_go", "__extc_f_go"] := exists_ok_of_decide (by decide +kernel)

end ExtensionCompiler

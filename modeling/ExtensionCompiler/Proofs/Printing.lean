import ExtensionCompiler.Proofs.Canonical
import ExtensionCompiler.Proofs.FileLevel

set_option autoImplicit false

/-! # Printed values

Whether a value can be printed, and how, is a matter of its type: of what stands behind the aliases
of the type, and of what a function returns. Both analysis and emission look at the type that the
value has in the first pass, while the second pass may still find out what a pending name means.

`Ty.hidesForm` says where this matters. A value is printed as what its type turns out to be, unless
the type hides its form; then it is printed as an address, and that is right just if the type turns
out to be one that is printed so (`Stmt.printed_of_compile`). -/

namespace ExtensionCompiler

namespace Ty

/-! ## What a rescan can change -/

/-- Whether a rescan can make any type of the type: of a pending name, and of a pointer that has no
level. -/
def isOpen : Ty → Bool
  | pending _ => true
  | pointer _ 0 => true
  | _ => false

/-- Whether the type does not show yet how its values are printed: what it stands for is open, or it
is a single pointer to something open, which may turn out to be `char`. -/
def hidesForm (ty : Ty) : Bool :=
  ty.concrete.isOpen
    || match ty.unaliased with
      | pointer base 1 => base.unaliased.isOpen
      | _ => false

theorem concrete_ne (ty : Ty) :
    (∀ name cName target, ty.concrete ≠ aliased name cName target)
      ∧ ∀ name cName params result, ty.concrete ≠ function name cName params result := by
  fun_induction concrete ty with
  | case1 _ _ _ ih | case2 _ _ _ _ ih => exact ih
  | case3 ty halias hfunction => exact ⟨halias, hfunction⟩

/-- A pointer with levels stays one, and loses none of them. -/
theorem rescan_pointer (registry : Registry) (base : Ty) (depth : Nat) :
    ∃ base' more,
      (pointer base (depth + 1)).rescan registry = pointer base' (more + (depth + 1)) := by
  rw [rescan]
  cases base.rescan registry with
  | pointer inner levels => exact ⟨inner, levels, rfl⟩
  | _ => exact ⟨_, 0, congrArg (pointer _) (Nat.zero_add _).symm⟩

variable {ty : Ty}

/-- What is not open behind its aliases stays so, and does not turn into `char`. -/
theorem not_isOpen_rescan (registry : Registry) (h : ty.unaliased.isOpen = false) :
    (ty.rescan registry).unaliased.isOpen = false
      ∧ ((ty.rescan registry).unaliased = primitive .char ↔ ty.unaliased = primitive .char) := by
  rw [← unaliased_rescan]
  cases hform : ty.unaliased with
  | pending name =>
      rw [hform] at h
      cases h
  | pointer base depth =>
      cases depth with
      | zero =>
          rw [hform] at h
          cases h
      | succ depth =>
          obtain ⟨base', more, hpointer⟩ := rescan_pointer registry base depth
          rw [hpointer]
          exact ⟨rfl, iff_of_false (fun h => by cases h) fun h => by cases h⟩
  | aliased name cName target => exact absurd hform (unaliased_ne_aliased ty name cName target)
  | primitive kind => exact ⟨rfl, Iff.rfl⟩
  | _ => exact ⟨rfl, iff_of_false (fun h => by cases h) fun h => by cases h⟩

theorem isText_iff (ty : Ty) :
    ty.isText = true
      ↔ ∃ base, ty.unaliased = pointer base 1 ∧ base.unaliased = primitive .char := by
  unfold isText
  constructor
  · intro h
    split at h
    · rename_i base hpointer
      split at h
      · rename_i hchar
        exact ⟨base, hpointer, hchar⟩
      · cases h
    · cases h
  · rintro ⟨base, hpointer, hchar⟩
    simp only [hpointer, hchar]

/-- A single pointer to something that is not open is a text before the rescan just if it is one
after it. -/
theorem isText_rescan_pointer (registry : Registry) {base : Ty}
    (h : base.unaliased.isOpen = false) :
    ((pointer base 1).rescan registry).isText = (pointer base 1).isText := by
  obtain ⟨hopen, hchar⟩ := not_isOpen_rescan registry h
  rw [Bool.eq_iff_iff, isText_iff, isText_iff, rescan]
  cases hbase : base.rescan registry with
  | pointer inner levels =>
      rw [hbase] at hopen hchar
      refine iff_of_false ?_ ?_
      · rintro ⟨_, hsame, -⟩
        -- the pointer below has levels of its own
        cases levels with
        | zero => cases hopen
        | succ levels => cases hsame
      · rintro ⟨_, hsame, hbelow⟩
        cases hsame
        cases hchar.mpr hbelow
  | _ =>
      rw [hbase] at hchar
      constructor
      · rintro ⟨_, hsame, hbelow⟩
        cases hsame
        exact ⟨base, rfl, hchar.mp hbelow⟩
      · rintro ⟨_, hsame, hbelow⟩
        cases hsame
        exact ⟨_, rfl, hchar.mpr hbelow⟩

/-! ## Forms -/

theorem isPrintable_rescan (registry : Registry) (h : ty.concrete.isOpen = false) :
    Print.isPrintable (ty.rescan registry) = Print.isPrintable ty := by
  unfold Print.isPrintable
  rw [← concrete_rescan]
  cases hform : ty.concrete with
  | pending name =>
      rw [hform] at h
      cases h
  | pointer base depth =>
      cases depth with
      | zero =>
          rw [hform] at h
          cases h
      | succ depth =>
          obtain ⟨base', more, hpointer⟩ := rescan_pointer registry base depth
          rw [hpointer]
          rfl
  | aliased name cName target => exact absurd hform ((concrete_ne ty).1 name cName target)
  | function name cName params result =>
      exact absurd hform ((concrete_ne ty).2 name cName params result)
  | _ => rfl

theorem format_unaliased (ty : Ty) : ty.unaliased.format = ty.format := by
  unfold format isText
  rw [unaliased_unaliased]

theorem isObject_unaliased (ty : Ty) : ty.unaliased.isObject = ty.isObject := by
  unfold isObject
  rw [unaliased_unaliased]

/-- What is printed as an address is no object. -/
theorem isObject_of_format (h : ty.format = "%p") : ty.isObject = false := by
  rw [← format_unaliased] at h
  rw [← isObject_unaliased]
  cases hform : ty.unaliased with
  | object =>
      rw [hform] at h
      exact absurd h (by decide)
  | aliased name cName target => exact absurd hform (unaliased_ne_aliased ty name cName target)
  | _ => rfl

theorem format_pointer (base : Ty) (depth : Nat) :
    (pointer base depth).format = if (pointer base depth).isText then "%s" else "%p" := rfl

/-- A pointer that does not hide its form is a text before the rescan just if it is one after it. -/
theorem isText_rescan (registry : Registry) {base : Ty} {depth : Nat}
    (h : (pointer base depth).hidesForm = false) :
    ∃ base' depth', (pointer base depth).rescan registry = pointer base' depth'
      ∧ (pointer base' depth').isText = (pointer base depth).isText := by
  obtain ⟨hopen, hbelow⟩ := Bool.or_eq_false_iff.mp h
  rcases depth with _ | _ | depth
  · cases hopen
  · obtain ⟨base', more, hpointer⟩ := rescan_pointer registry base 0
    exact ⟨base', _, hpointer, hpointer ▸ isText_rescan_pointer registry hbelow⟩
  · obtain ⟨base', more, hpointer⟩ := rescan_pointer registry base (depth + 1)
    exact ⟨base', _, hpointer, rfl⟩

/-- **A type that does not hide its form has the same one after the rescan.** -/
theorem format_rescan (registry : Registry) (h : ty.hidesForm = false) :
    (ty.rescan registry).format = ty.format
      ∧ (ty.rescan registry).isObject = ty.isObject := by
  rw [hidesForm, ← concrete_unaliased, ← unaliased_unaliased] at h
  rw [← format_unaliased (ty.rescan registry), ← isObject_unaliased (ty.rescan registry),
    ← unaliased_rescan, format_unaliased, isObject_unaliased, ← format_unaliased ty,
    ← isObject_unaliased ty]
  cases hform : ty.unaliased with
  | pending name =>
      rw [hform] at h
      cases h
  | aliased name cName target => exact absurd hform (unaliased_ne_aliased ty name cName target)
  | pointer base depth =>
      rw [hform] at h
      obtain ⟨base', depth', hpointer, htext⟩ := isText_rescan registry h
      rw [hpointer, format_pointer, format_pointer, htext]
      exact ⟨rfl, rfl⟩
  | _ => exact ⟨rfl, rfl⟩

/-- A type that hides its form is printed as an address. -/
theorem format_of_hidesForm (h : ty.hidesForm = true) : ty.format = "%p" := by
  rw [hidesForm, ← concrete_unaliased, ← unaliased_unaliased] at h
  rw [← format_unaliased]
  cases hform : ty.unaliased with
  | primitive kind | object =>
      rw [hform] at h
      cases h
  | aliased name cName target => exact absurd hform (unaliased_ne_aliased ty name cName target)
  | pointer base depth =>
      rw [hform] at h
      have htext : (pointer base depth).isText = false := by
        rw [Bool.eq_false_iff, ne_eq, isText_iff]
        rintro ⟨_, hsame, hchar⟩
        cases hsame
        change (false || base.unaliased.isOpen) = true at h
        rw [hchar] at h
        cases h
      rw [format_pointer, htext]
      rfl
  | _ => rfl

end Ty

/-! ## Values -/

namespace Print

/-- The lines that print a value as one of the given type: with its format, and inspected if it is
an object. -/
def codeAs (ty : Ty) (value : Expr) : List C.Code :=
  let printed :=
    if ty.isObject then C.Term.call "RSTRING_PTR" [.dispatch value.term "inspect" []]
    else value.term
  value.evaluate ++ [.eval (.call "printf" [.verbatim ty.format, printed])] ++ value.dispose

theorem format_of_codeAs {a b : Ty} {value : Expr} (h : codeAs a value = codeAs b value) :
    a.format = b.format := by
  have hline := List.append_cancel_left (List.append_cancel_right h)
  injection hline with hline
  injection hline with hcall
  injection hcall with _ hargs
  injection hargs with hformat
  injection hformat

/-- A value that passes analysis is printed as one of its type after the rescan, just if its type
hides nothing or turns out to be printed as an address. -/
theorem valueCode_eq_codeAs_iff (registry : Registry) {value : Expr}
    (h : isPrintable value.type = true) :
    isPrintable (value.type.rescan registry) = true
        ∧ valueCode value = codeAs (value.type.rescan registry) value
      ↔ value.type.hidesForm = false
        ∨ isPrintable (value.type.rescan registry) = true
          ∧ (value.type.rescan registry).format = "%p" := by
  change _ ∧ codeAs value.type value = _ ↔ _
  cases hform : value.type.hidesForm with
  | false =>
      obtain ⟨hformat, hobject⟩ := Ty.format_rescan registry hform
      refine iff_of_true ⟨?_, ?_⟩ (.inl rfl)
      · rw [Ty.isPrintable_rescan registry (Bool.or_eq_false_iff.mp hform).1, h]
      · rw [codeAs, codeAs, hformat, hobject]
  | true =>
      have hformat := Ty.format_of_hidesForm hform
      rw [Bool.true_eq_false, false_or]
      refine and_congr_right fun _ => ⟨fun hcode => ?_, fun hlate => ?_⟩
      · rw [← format_of_codeAs hcode, hformat]
      · rw [codeAs, codeAs, hformat, hlate, Ty.isObject_of_format hformat,
          Ty.isObject_of_format hlate]

theorem isPrintable_of_analyseValues {position : Position} {scope : ScopeId} {values : List Expr}
    {c : Checker} (h : (analyseValues position scope values c).error = none) :
    ∀ e ∈ (analyseValues position scope values c).node, isPrintable e.type = true := by
  induction values generalizing c with
  | nil => exact List.forall_mem_nil _
  | cons value rest ih =>
      rw [analyseValues] at h ⊢
      obtain ⟨first, c₁, -, heq, hrest⟩ := Outcome.andThen_inv h
      rw [heq]
      by_cases hprint : isPrintable first.type = true
      · rw [if_pos hprint] at hrest ⊢
        exact List.forall_mem_cons.mpr ⟨hprint, ih hrest⟩
      · rw [if_neg hprint] at hrest
        cases hrest

end Print

/-! ## Statements -/

namespace Part

/-- The values that are printed. -/
def printed : Part → List Expr
  | .print d => d.values
  | _ => []

theorem printed_rescan (p : Part) (scope : ScopeId) (c : Checker) :
    (p.rescan scope c).1.printed = p.printed := by
  cases p with
  | function d | method d =>
      unfold rescan
      dsimp only
      split <;> rfl
  | _ => rfl

theorem isPrintable_of_analyse {p : Part} {scope : ScopeId} {c : Checker}
    (h : (p.analyse scope c).error = none) :
    ∀ e ∈ (p.analyse scope c).node.printed, Print.isPrintable e.type = true := by
  cases p with
  | print d => exact Print.isPrintable_of_analyseValues h
  | _ => exact List.forall_mem_nil _

end Part

/-- The values that a statement prints, without those inside it. -/
def Stmt.printed (stmt : Stmt) : List Expr := stmt.part?.elim [] Part.printed

/-- **How the values of a compiled unit are printed.** Each value of a statement that prints can be
printed when all is known, and is printed as one of the type that it has then, just if its type in
the first pass does not hide its form, or turns out to be one that is printed as an address. -/
theorem Stmt.printed_of_compile (unit : List Stmt) (registry : Registry) (options : Options)
    (compiled : Compiled) (h : compile unit registry options = .ok compiled) :
    ∃ checked, check unit registry = .ok checked
      ∧ compiled.code = generate checked.unit checked.checker options
      ∧ ∀ n ∈ nodesAll [] checked.unit, ∀ value ∈ n.stmt.printed,
          let last := value.type.rescan checked.checker.registry
          Print.isPrintable last = true ∧ Print.valueCode value = Print.codeAs last value
            ↔ value.type.hidesForm = false
              ∨ Print.isPrintable last = true ∧ last.format = "%p" := by
  obtain ⟨checked, hcheck, hcode, -⟩ := compile_ok h
  have hpasses := passes_of_check hcheck
  refine ⟨checked, hcheck, hcode, ?_⟩
  intro n hn value hvalue
  rw [printed] at hvalue
  cases hp : n.stmt.part? with
  | none =>
      rw [hp] at hvalue
      cases hvalue
  | some p =>
      rw [hp] at hvalue
      obtain ⟨scope, hplaced⟩ := exists_placed checked.unit hpasses.isComplete n hn hp
      obtain ⟨x, -, hok, hpart⟩ := hpasses.exists_revisit hplaced
      -- the second pass leaves the values as they were
      have hprinted : p.printed = x.visit.result.part.printed :=
        (congrArg (fun q : Placed => q.part.printed) hpart).trans
          (Part.printed_rescan _ x.visit.scope x.state)
      refine Print.valueCode_eq_codeAs_iff _ (Part.isPrintable_of_analyse hok value ?_)
      exact hprinted ▸ hvalue

/-- A text and a number whose types are named before, an object, and a pointer to what turns out to
be a structure. -/
def Stmt.labelsUnit : List Stmt :=
  let here := Position.unknown
  let var (type name : String) (depth : Nat) : Stmt :=
    .var { form := .plain, descriptor := .named type, depth, name, value := none, position := here }
  let named (name type : String) : Stmt :=
    .typeAlias { name, descriptor := .named type, depth := 0, position := here }
  [named "Letter" "char", named "Count" "u16",
    var "Letter" "label" 1, var "Count" "count" 0, var "object" "owner" 0, var "Node" "first" 1,
    .print ⟨[.ofName "label" here, .ofName "count" here, .ofName "owner" here,
      .ofName "first" here], here⟩,
    .aggregate { kind := .struct, name := "Node", position := here } [var "int" "weight" 0]]

/-- All of them are printed as what they are, the last one although its type was not known. -/
theorem Stmt.labelsUnit_printed :
    ∃ checked, check labelsUnit .empty = .ok checked
      ∧ ((nodesAll [] checked.unit).flatMap (·.stmt.printed)).map
          (fun value => (value.type.hidesForm,
            (value.type.rescan checked.checker.registry).format))
        = [(false, "%s"), (false, "%u"), (false, "%s"), (true, "%p")]
      ∧ ∀ n ∈ nodesAll [] checked.unit, ∀ value ∈ n.stmt.printed,
          let last := value.type.rescan checked.checker.registry
          Print.isPrintable last = true ∧ Print.valueCode value = Print.codeAs last value := by
  have hrun : ∃ checked, check labelsUnit .empty = .ok checked
      ∧ ((nodesAll [] checked.unit).flatMap (·.stmt.printed)).map
          (fun value => (value.type.hidesForm,
            (value.type.rescan checked.checker.registry).format))
        = [(false, "%s"), (false, "%u"), (false, "%s"), (true, "%p")]
      ∧ ∀ n ∈ nodesAll [] checked.unit, ∀ value ∈ n.stmt.printed,
          value.type.hidesForm = false
            ∨ Print.isPrintable (value.type.rescan checked.checker.registry) = true
              ∧ (value.type.rescan checked.checker.registry).format = "%p" :=
    exists_ok_of_decide (by decide +kernel)
  obtain ⟨checked, hcheck, hformats, hforms⟩ := hrun
  obtain ⟨compiled, hcompile⟩ := exists_compile_ok hcheck {}
  obtain ⟨checked', hcheck', -, hprinted⟩ :=
    printed_of_compile labelsUnit .empty {} compiled hcompile
  obtain rfl : checked = checked' := Except.ok.inj (hcheck.symm.trans hcheck')
  exact ⟨checked, hcheck, hformats, fun n hn value hvalue =>
    (hprinted n hn value hvalue).mpr (hforms n hn value hvalue)⟩

/-- An object, a pointer to characters, and a structure, all with types that are named later. -/
def Stmt.lateUnit : List Stmt :=
  let here := Position.unknown
  let var (type name : String) (depth : Nat) : Stmt :=
    .var { form := .plain, descriptor := .named type, depth, name, value := none, position := here }
  let named (name type : String) : Stmt :=
    .typeAlias { name, descriptor := .named type, depth := 0, position := here }
  [var "Owner" "owner" 0, var "Letter" "label" 1, var "Node" "node" 0,
    .print ⟨[.ofName "owner" here, .ofName "label" here, .ofName "node" here], here⟩,
    named "Owner" "object", named "Letter" "char",
    .aggregate { kind := .struct, name := "Node", position := here } [var "int" "weight" 0]]

/-- The unit compiles. All three are printed as addresses; the first turns out to be an object, the
second a text, and the third nothing that can be printed. -/
theorem Stmt.lateUnit_misprinted :
    ∃ checked, check lateUnit .empty = .ok checked
      ∧ ((nodesAll [] checked.unit).flatMap (·.stmt.printed)).map
          (fun value => (value.type.format, value.type.isObject))
        = [("%p", false), ("%p", false), ("%p", false)]
      ∧ ((nodesAll [] checked.unit).flatMap (·.stmt.printed)).map
          (fun value =>
            let last := value.type.rescan checked.checker.registry
            (last.format, last.isObject, Print.isPrintable last))
        = [("%s", true, true), ("%s", false, true), ("%p", false, false)] :=
  exists_ok_of_decide (by decide +kernel)

end ExtensionCompiler

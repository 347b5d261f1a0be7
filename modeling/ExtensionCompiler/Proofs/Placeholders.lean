import ExtensionCompiler.Proofs.CompleteParts
import ExtensionCompiler.Proofs.Spelling

set_option autoImplicit false

/-! # Placeholders in compiled units

A pending type is a placeholder: it stands for a type that should have been defined by the end of
the unit. This module says what becomes of placeholders in units that compile.

The types of the scopes have none, since the check looks at them. Those of the nodes are settled at
the same moments, but not always to the same (`Passes.settled_signature`), and the check does not
look at them. So the heading of a function can keep a placeholder. It is always one inside an alias,
which the text does not show, and it takes a context in which a name was waiting for another one. -/

namespace ExtensionCompiler

/-! ## Contexts of announced names -/

/-- A name that is announced waits for itself. -/
theorem Registry.Own.announceAll {registry : Registry} (h : registry.Own) (stmts : List Stmt) :
    (Stmt.announceAll stmts registry).Own :=
  Stmt.announceAll_invariant (fun _ name position hown => hown.announce name position) stmts h

/-! ## Types of scopes and nodes -/

namespace Passes

variable {unit : List Stmt} {registry : Registry} {checked : Checked} {visits : List Visit}
  {middle : Checker}

/-- The types of the scopes wait for nothing. -/
theorem scopes_noPending (h : Passes unit registry checked visits middle) :
    checked.checker.AllTypes Ty.NoPending where
  object := rfl
  entries id e he := Checker.noPending_of_unresolved? h.resolved (Checker.mem_scope he) he
  temps id t ht := by
    rcases checked.checker.scope_mem_or_eq id with hmem | hempty
    · rw [h.tidy.temps _ hmem t ht]
      rfl
    · rw [hempty] at ht
      cases ht

end Passes

namespace Ty

/-- The types in a heading wait for no more than the function does. -/
theorem waiting_of_mem_heading {deep : Bool} {name cName : Option String} {params : List Ty}
    {result : Ty} (h : (function name cName params result).waiting deep = []) :
    ∀ ty ∈ result :: params, ty.waiting deep = [] := by
  rw [waiting, List.append_eq_nil_iff, waitingIn_eq_flatMap, List.flatMap_eq_nil_iff] at h
  exact List.forall_mem_cons.mpr h.symm

theorem pendings_of_mem_spelled {type ty : Ty} (h : type.pendings = []) (hty : ty ∈ type.spelled) :
    ty.pendings = [] := by
  cases type with
  | aliased _ _ target =>
      rw [List.mem_singleton.mp hty]
      exact h
  | function _ _ params result => exact waiting_of_mem_heading h ty hty
  | _ => cases hty

end Ty

/-- A function is declared with the type of a function. -/
theorem Part.type_of_signature? {p : Part} {name : String} {type : Ty}
    (h : p.signature? = some ⟨.function, name, type⟩) :
    ∃ fname cName params result, type = .function fname cName params result := by
  cases p with
  | typeAlias d =>
      rw [signature?] at h
      split at h <;> cases h
  | prototype d =>
      rw [signature?] at h
      split at h
      · cases h
        exact ⟨_, _, _, _, rfl⟩
      · cases h
  | function d =>
      cases h
      exact ⟨_, _, _, _, rfl⟩
  | _ => cases h

/-! ## Types of the file -/

namespace Passes

variable {unit : List Stmt} {registry : Registry} {checked : Checked} {visits : List Visit}
  {middle : Checker}

variable (h : Passes unit registry checked visits middle)
include h

/-- Whatever the context, a placeholder in the file stands in a heading, and out of sight. -/
theorem file_exposed (target : String) :
    ∀ ty ∈ C.Code.typesAll (file checked.unit checked.checker target), ty.exposed = []
      ∧ (ty.NoPending
        ∨ ∃ p ∈ Stmt.partsAll checked.unit Checker.global, ∃ name type,
            p.part.signature? = some ⟨.function, name, type⟩ ∧ ty ∈ type.spelled) := by
  have hsettled : ∀ ty : Ty, ty.NoPending → ty.exposed = []
      ∧ (ty.NoPending
        ∨ ∃ p ∈ Stmt.partsAll checked.unit Checker.global, ∃ name type,
            p.part.signature? = some ⟨.function, name, type⟩ ∧ ty ∈ type.spelled) :=
    fun ty hty => ⟨Ty.exposed_of_pendings (Ty.noPending_iff.mp hty), .inl hty⟩
  refine file_allTypes (h.scopes_noPending.imp hsettled) (h.forall_heads ?_) target
  intro p hp ⟨kind, name, type⟩ hs ty hty
  obtain ⟨hexposed, hother, -⟩ := h.settled_signature hp hs
  by_cases hkind : kind = .function
  · subst hkind
    obtain ⟨fname, cName, params, result, rfl⟩ := Part.type_of_signature? hs
    exact ⟨Ty.waiting_of_mem_heading hexposed ty hty, .inr ⟨p, hp, name, _, hs, hty⟩⟩
  · exact hsettled ty (Ty.noPending_iff.mpr (Ty.pendings_of_mem_spelled (hother hkind) hty))

theorem file_noPending (hown : registry.Own) (target : String) :
    ∀ ty ∈ C.Code.typesAll (file checked.unit checked.checker target), ty.NoPending := by
  refine file_allTypes h.scopes_noPending (h.forall_heads ?_) target
  intro p hp ⟨kind, name, type⟩ hs ty hty
  obtain ⟨-, -, hnone⟩ := h.settled_signature hp hs
  exact Ty.noPending_iff.mpr (Ty.pendings_of_mem_spelled (hnone hown) hty)

end Passes

/-- **Placeholders in the file of a unit.** A type that the file of a compiled unit spells shows no
placeholder. It has none at all, unless it stands in the heading of a function. If every name of the
context waits for itself at most, as announced names do, then no type of the file and no node has
one. -/
theorem spelled_settled_of_compile (unit : List Stmt) (registry : Registry) (options : Options)
    (compiled : Compiled) (h : compile unit registry options = .ok compiled) :
    ∃ checked, check unit registry = .ok checked
      ∧ compiled.code = generate checked.unit checked.checker options
      ∧ (∀ ty ∈ C.Code.typesAll (file checked.unit checked.checker options.target),
          ty.exposed = []
          ∧ (ty.NoPending
            ∨ ∃ p ∈ Stmt.partsAll checked.unit Checker.global, ∃ name type,
                p.part.signature? = some ⟨.function, name, type⟩ ∧ ty ∈ type.spelled))
      ∧ (registry.Own →
          (∀ ty ∈ C.Code.typesAll (file checked.unit checked.checker options.target),
            ty.NoPending)
          ∧ ∀ p ∈ Stmt.partsAll checked.unit Checker.global, ∀ signature,
              p.part.signature? = some signature → signature.type.NoPending) := by
  unfold compile at h
  cases hcheck : check unit registry with
  | error e => rw [hcheck] at h; cases h
  | ok checked =>
      rw [hcheck] at h
      cases h
      have hpasses := passes_of_check hcheck
      refine ⟨checked, rfl, rfl, hpasses.file_exposed options.target, fun hown => ?_⟩
      refine ⟨hpasses.file_noPending hown options.target, fun p hp signature hs => ?_⟩
      obtain ⟨-, -, hnone⟩ := hpasses.settled_signature hp hs
      exact Ty.noPending_iff.mpr (hnone hown)

/-- The prototype of a function whose result is not defined yet, an alias of a type that is not
either, the function, and the two types. -/
def Stmt.lateTypesUnit : List Stmt :=
  let here := Position.unknown
  [.prototype { descriptor := .named "X", depth := 0, name := "f", params := [], position := here },
    .typeAlias { name := "n", descriptor := .named "S", depth := 0, position := here },
    .function { descriptor := .named "X", depth := 0, name := "f", params := [], position := here }
      [],
    .aggregate { kind := .struct, name := "S", position := here } [],
    .aggregate { kind := .struct, name := "X", position := here } []]

/-- With its names announced, the unit compiles to a file without placeholders. -/
theorem Stmt.lateTypesUnit_settled :
    ∃ checked, check Stmt.lateTypesUnit (Stmt.announceAll Stmt.lateTypesUnit .empty) = .ok checked
      ∧ ∀ ty ∈ C.Code.typesAll (file checked.unit checked.checker "extension"), ty.NoPending := by
  have hrun : (compile Stmt.lateTypesUnit (Stmt.announceAll Stmt.lateTypesUnit .empty) {}).isOk
      = true := by decide +kernel
  cases h : compile Stmt.lateTypesUnit (Stmt.announceAll Stmt.lateTypesUnit .empty) {} with
  | error e => rw [h] at hrun; cases hrun
  | ok compiled =>
      obtain ⟨checked, hcheck, -, -, hown⟩ := spelled_settled_of_compile _ _ _ compiled h
      exact ⟨checked, hcheck, (hown (Registry.own_empty.announceAll _)).1⟩

/-- A context in which `X` waits for `n`. -/
def Stmt.foreignContext : Registry :=
  Stmt.announceAll Stmt.lateTypesUnit (Registry.empty.register "X" (.pending "n") .unknown)

/-- In a context in which `X` waits for `n`, the unit compiles as well, and the prototype of `f`
keeps the placeholder `S` in its result: the prototype is settled before the alias `n` is, and the
function after it, and both have one entry. -/
theorem Stmt.lateTypesUnit_keeps_placeholder :
    ∃ checked, check Stmt.lateTypesUnit Stmt.foreignContext = .ok checked
      ∧ (∃ compiled, compile Stmt.lateTypesUnit Stmt.foreignContext {} = .ok compiled)
      ∧ ∃ ty ∈ C.Code.typesAll (file checked.unit checked.checker "extension"),
          ty.pending? = some "S" := by
  obtain ⟨checked, hcheck, hpending⟩ : ∃ checked,
      check Stmt.lateTypesUnit Stmt.foreignContext = .ok checked
        ∧ ∃ ty ∈ C.Code.typesAll (file checked.unit checked.checker "extension"),
            ty.pending? = some "S" := exists_ok_of_decide (by decide +kernel)
  refine ⟨checked, hcheck, ?_, hpending⟩
  rw [compile, hcheck]
  exact ⟨_, rfl⟩

end ExtensionCompiler

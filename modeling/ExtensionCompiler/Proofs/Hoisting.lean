import Mathlib.Data.List.Nodup
import ExtensionCompiler.Proofs.UseSites

set_option autoImplicit false

/-! # Names after hoisting

In the source, a name means the variable of an enclosing scope until the scope itself declares one.
In C, all variables of a function are declared at its top. So a name that was looked up outside may,
in C, fall to a variable that the function declares after it. `Checker.Hoists` says that the scope
of a use has a variable among its own entries under a C name. Other names that C declares around a
use are no entries of its scope, and it says nothing of them: the parameters `argc` and `argv` of a
method, temporaries, and the variables of a function around the scope.

`Stmt.hoists_iff_redeclared` says when a scope hoists a name in a unit that the check accepts: just
if the scope has, in the end, a variable of the same name and kind. A use that comes before such a
declaration is captured by it (`Stmt.lateLocalUnit_captures`). A name that the scope itself had
declared keeps its meaning. -/

namespace ExtensionCompiler

/-! ## Occurrences of names -/

/-- A name in the source, and what is written for it in C. -/
structure Occurrence where
  written : String
  cName : String
deriving DecidableEq, Repr

namespace Expr

mutual

/-- The names in an expression: those of variables, arrays and functions. -/
def occurrences : Expr → List Occurrence
  | literal _ _ => []
  | name _ written cName _ => [⟨written, cName⟩]
  | element _ written cName index => ⟨written, cName⟩ :: index.occurrences
  | unary _ _ operand _ => operand.occurrences
  | binary _ left _ right _ => left.occurrences ++ right.occurrences
  | call _ written cName args => ⟨written, cName⟩ :: occurrencesAll args

def occurrencesAll : List Expr → List Occurrence
  | [] => []
  | e :: rest => e.occurrences ++ occurrencesAll rest

end

mutual

/-- Every name of a typed expression is written as its entry says. -/
theorem Typed.occurrence {find : String → Option Entry} :
    (e : Expr) → Typed find e → ∀ o ∈ e.occurrences,
      ∃ entry, find o.written = some entry ∧ o.cName = entry.cName
  | .literal _ _, _ => List.forall_mem_nil _
  | .name _ _ _ _, h => by
      cases h with
      | name hfind _ _ => exact List.forall_mem_singleton.mpr ⟨_, hfind, rfl⟩
  | .element _ _ _ index, h => by
      cases h with
      | element hfind _ hindex _ =>
          exact List.forall_mem_cons.mpr ⟨⟨_, hfind, rfl⟩, Typed.occurrence index hindex⟩
  | .unary _ _ operand _, h => by
      cases h with
      | hostUnary hop _ _ | unary hop _ _ => exact Typed.occurrence operand hop
  | .binary _ left _ right _, h => by
      cases h with
      | hostBinary hl _ hr _ _ _ | binary hl _ hr _ _ =>
          exact List.forall_mem_append.mpr
            ⟨Typed.occurrence left hl, Typed.occurrence right hr⟩
  | .call _ _ _ args, h => by
      cases h with
      | call hfind _ hargs =>
          exact List.forall_mem_cons.mpr ⟨⟨_, hfind, rfl⟩, TypedArgs.occurrence args _ hargs⟩

theorem TypedArgs.occurrence {find : String → Option Entry} :
    (args : List Expr) → (params : List Ty) → TypedArgs find params args →
    ∀ o ∈ occurrencesAll args, ∃ entry, find o.written = some entry ∧ o.cName = entry.cName
  | [], _, _ => List.forall_mem_nil _
  | arg :: args, params, h => by
      cases h with
      | cons harg _ hargs =>
          exact List.forall_mem_append.mpr
            ⟨Typed.occurrence arg harg, TypedArgs.occurrence args _ hargs⟩

end

end Expr

/-- The names in an analysed part, with the counter of a loop. -/
def Part.occurrences (p : Part) : List Occurrence :=
  p.exprs.flatMap Expr.occurrences ++ match p with
    | .count d => [⟨d.counter, d.counterCName⟩]
    | _ => []

/-- The counter of a loop is written as its entry says. -/
theorem CountLoop.occurrence {d : CountLoop} {scope : ScopeId} {c : Checker}
    (h : (d.analyse scope c).error = none) :
    ∃ entry, c.find? scope (d.analyse scope c).node.counter = some entry
      ∧ (d.analyse scope c).node.counterCName = entry.cName := by
  obtain ⟨counter, left, right, c₁, c₂, hcounter, -, -, hok⟩ := analyse_ok h
  rw [hok]
  exact ⟨counter, hcounter, rfl⟩

theorem Visit.occurrence {v : Visit} (h : v.outcome.error = none) {o : Occurrence}
    (ho : o ∈ v.result.part.occurrences) :
    ∃ entry, v.reading.find? v.scope o.written = some entry ∧ o.cName = entry.cName := by
  obtain ⟨hexprs, -⟩ := v.part.analyse_typed v.scope v.before h
  rcases List.mem_append.mp ho with hinside | hcounter
  · obtain ⟨e, he, hmem⟩ := List.mem_flatMap.mp hinside
    exact Expr.Typed.occurrence e (hexprs e he) o hmem
  · obtain ⟨scope, before, part⟩ := v
    cases part with
    | count d =>
        rw [List.mem_singleton.mp hcounter]
        exact CountLoop.occurrence h
    | _ => cases hcounter

/-! ## C names -/

/-- Source names and kinds can be told from C names, except for those of types. -/
theorem EntryKind.lead_append_inj {k l : EntryKind} (hk : k.isType = false) (hl : l.isType = false)
    {a b : String} : k.lead ++ a = l.lead ++ b ↔ a = b ∧ k = l := by
  constructor
  · intro h
    -- two leads of different kinds differ within the length of the shorter one
    have hkind : k = l := by
      rw [← String.toList_inj, String.toList_append, String.toList_append] at h
      cases k <;> cases l <;> simp_all [lead, isType]
    subst hkind
    exact ⟨(String.append_right_inj k.lead).mp h, rfl⟩
  · rintro ⟨rfl, rfl⟩
    rfl

namespace Entry

/-- A local variable has a C name that is made from its name. -/
theorem Linked.cName_of_isLocal {entry : Entry} (h : entry.Linked)
    (hlocal : entry.isLocal [] = true) :
    entry.kind.isType = false ∧ entry.cName = entry.kind.lead ++ entry.name := by
  -- what takes up memory is no type, and what no header provides is linked by its kind
  simp only [isLocal, Bool.and_eq_true, Bool.not_eq_true'] at hlocal
  have hkind : entry.kind.isType = false := by
    cases hk : entry.kind <;> simp_all [EntryKind.isStorage, EntryKind.isType]
  have hname := h hkind
  rw [hlocal.1.2] at hname
  exact ⟨hkind, hname⟩

/-- When a local variable has the C name of another entry that is no type. -/
theorem Linked.cName_eq_iff {entry other : Entry} (h : entry.Linked) (hother : other.Linked)
    (hlocal : entry.isLocal [] = true) (hkind : other.kind.isType = false) :
    entry.cName = other.cName ↔
      if other.isExternal then entry.kind.lead ++ entry.name = other.name
      else entry.name = other.name ∧ entry.kind = other.kind := by
  obtain ⟨hentryKind, hentry⟩ := h.cName_of_isLocal hlocal
  rw [hentry, hother hkind]
  cases other.isExternal with
  | true => exact Iff.rfl
  | false => exact EntryKind.lead_append_inj hentryKind hkind

end Entry

/-! ## Where an entry lives -/

namespace Checker

variable {c : Checker} {id : ScopeId}

theorem mem_chainWithin {steps : Nat} {p : ScopeId × Scope}
    (h : p ∈ c.chainWithin steps id) : c.scopes[p.1]? = some p.2 := by
  induction steps generalizing id with
  | zero => cases h
  | succ steps ih =>
      rw [chainWithin] at h
      cases hs : c.scopes[id]? with
      | none => rw [hs] at h; cases h
      | some s =>
          rw [hs] at h
          rcases List.mem_cons.mp h with rfl | hrest
          · exact hs
          · cases hp : s.parent with
            | none => rw [hp] at hrest; cases hrest
            | some parent => rw [hp] at hrest; exact ih hrest

/-- An entry that a look-up finds stands in one of the scopes, under its name. -/
theorem mem_of_find? {name : String} {entry : Entry} (h : c.find? id name = some entry) :
    (∃ s ∈ c.scopes, entry ∈ s.entries) ∧ entry.name = name := by
  obtain ⟨p, hp, hget⟩ := List.exists_of_findSome?_eq_some h
  have hs : c.scopes[p.1]? = some p.2 := mem_chainWithin hp
  exact ⟨⟨p.2, List.mem_of_getElem? hs, Scope.mem_of_get? hget⟩, Scope.name_of_get? hget⟩

/-- The scope has a variable among its entries under the C name, which C declares before all that
the scope does. What else C declares there, or around it, does not count. -/
def Hoists (c : Checker) (id : ScopeId) (cName : String) : Prop :=
  ∃ e ∈ (c.scope id).entries, e.isLocal [] = true ∧ e.cName = cName

instance (c : Checker) (id : ScopeId) (cName : String) : Decidable (c.Hoists id cName) :=
  inferInstanceAs (Decidable (∃ e ∈ (c.scope id).entries, e.isLocal [] = true ∧ e.cName = cName))

/-- When a scope has a variable under the C name of an entry that is no type. -/
theorem Tidy.hoists_iff (h : c.Tidy) {other : Entry}
    (hother : other.Linked) (hkind : other.kind.isType = false) :
    c.Hoists id other.cName ↔ ∃ e ∈ (c.scope id).entries, e.isLocal [] = true
      ∧ if other.isExternal then e.kind.lead ++ e.name = other.name
        else e.name = other.name ∧ e.kind = other.kind := by
  refine exists_congr fun e => and_congr_right fun he => and_congr_right fun hlocal => ?_
  exact (h.linked _ (mem_scope he) e he).cName_eq_iff hother hlocal hkind

/-- An entry that a scope has keeps its names and its kind through the second pass. -/
theorem Retyped.entryIn? {c' : Checker} (h : Retyped c c') {name : String}
    {entry : Entry} (he : c.entryIn? id name = some entry) :
    ∃ e ∈ (c'.scope id).entries, e.name = name ∧ e.cName = entry.cName ∧ e.kind = entry.kind
      ∧ e.isExternal = entry.isExternal := by
  obtain ⟨s, hs, hget⟩ := entryIn?_eq_some_iff.mp he
  have hscope := h.getElem? id
  rw [hs, Option.map_some, Option.map_eq_some_iff] at hscope
  obtain ⟨s', hs', heq⟩ := hscope
  -- the two scopes are equal up to types, read from the later one to the earlier
  obtain ⟨e, hmem, hname, hcName, hkind, hext⟩ :=
    Scope.mem_of_untyped_eq heq.symm (Scope.mem_of_get? hget)
  rw [scope_eq_of_getElem? hs']
  exact ⟨e, hmem, hname ▸ Scope.name_of_get? hget, hcName.symm, hkind.symm, hext.symm⟩

end Checker

/-! ## Names and hoisted variables of a checked unit -/

open Checker (Edits)

/-- The edits of a visit before and after its look-ups. -/
theorem Part.reading_edits (p : Part) (scope : ScopeId) (c : Checker) :
    Edits true c (p.reading scope c)
      ∧ Edits true (p.reading scope c) (p.analyse scope c).checker := by
  cases p with
  | assign d =>
      unfold reading
      dsimp only
      cases hd : d.declareTarget scope c with
      | error e => exact ⟨.refl, (d.analyse_editsIn scope c (n := 0)).edits⟩
      | ok c' =>
          exact ⟨(Assignment.declareTarget_editsIn hd (n := 0)).edits,
            (Assignment.editsIn_of_declareTarget hd (n := 0)).edits⟩
  | _ => exact ⟨.refl, Part.analyse_edits _ scope c⟩

/-- **The scope of a use hoists its name just if it declares the name again.** Let a name stand in a
checked unit for an entry that is no type. The scope of the name has, in the end, a variable under
its C name iff it has one of the same name and kind. (A name that a header provides is written as it
is; it is met by a variable whose C name comes out the same.) If the scope itself had the entry when
the name was looked up, it is the only one of its name, and so the variable that C finds. -/
theorem Stmt.hoists_iff_redeclared (unit : List Stmt) (registry : Registry) (checked : Checked)
    (h : check unit registry = .ok checked) :
    ∀ v ∈ Stmt.visitsAll unit Checker.global (Checker.start registry),
      ∀ o ∈ v.result.part.occurrences,
        ∃ entry, v.reading.find? v.scope o.written = some entry ∧ o.cName = entry.cName
          ∧ (entry.kind.isType = false →
            (checked.checker.Hoists v.scope o.cName ↔
              ∃ e ∈ (checked.checker.scope v.scope).entries, e.isLocal [] = true
                ∧ if entry.isExternal then e.kind.lead ++ e.name = o.written
                  else e.name = o.written ∧ e.kind = entry.kind))
          ∧ (v.reading.entryIn? v.scope o.written = some entry →
            ∃ e ∈ (checked.checker.scope v.scope).entries, e.name = o.written ∧ e.cName = o.cName
              ∧ e.kind = entry.kind ∧ e.isExternal = entry.isExternal
              ∧ ∀ e' ∈ (checked.checker.scope v.scope).entries, e'.name = o.written → e' = e) := by
  intro v hv o ho
  have hpasses := passes_of_check h
  obtain ⟨vs, ws, hsplit⟩ := List.append_of_mem hv
  have hrun := hpasses.run
  rw [hsplit] at hrun
  obtain ⟨hbefore, hok, hafter⟩ := hrun.split
  obtain ⟨hread, hrest⟩ := v.part.reading_edits v.scope v.before
  obtain ⟨entry, hfind, hcName⟩ := Visit.occurrence hok ho
  refine ⟨entry, hfind, hcName, fun hkind => ?_, fun hown => ?_⟩
  · -- the entry is linked because the state that it was found in is tidy
    have htidy : v.reading.Tidy := hread.tidy (hbefore.tidy (Checker.tidy_start registry))
    obtain ⟨⟨s, hs, hmem⟩, hname⟩ := Checker.mem_of_find? hfind
    rw [hcName, ← hname]
    exact hpasses.tidy.hoists_iff (htidy.linked s hs entry hmem) hkind
  · -- growth takes the entry to the end of the analysis, and the second pass keeps its names
    have hmiddle := hafter.grows.entryIn? (hrest.grows.entryIn? hown)
    have hretyped := Placed.settleAll_retyped
      ((Stmt.visitsAll unit Checker.global (Checker.start registry)).map Visit.result)
      (Stmt.analyseAll unit Checker.global (Checker.start registry)).checker
    rw [hpasses.settled] at hretyped
    obtain ⟨e, hmem, hename, hecName, hekind, heext⟩ := hretyped.entryIn? hmiddle
    refine ⟨e, hmem, hename, hecName.trans hcName.symm, hekind, heext, fun e' he' hname' => ?_⟩
    -- names of a scope are distinct, so the name decides which entry it is
    have hdistinct := hpasses.tidy.distinct _ (Checker.mem_scope hmem)
    exact List.inj_on_of_nodup_map hdistinct he' hmem (hname'.trans hename.symm)

/-- A function uses the global variable `x` and then declares an `x` of its own. -/
def Stmt.lateLocalUnit : List Stmt :=
  let here := Position.unknown
  let int (value : Int) := Expr.ofLiteral (.int value) here
  let variableX (value : Int) : Stmt :=
    .var
      { form := .plain, descriptor := .named "int", depth := 0, name := "x",
        value := some (int value), position := here }
  [variableX 1,
    .function
      { descriptor := .named "void", depth := 0, name := "f", params := [], position := here }
      [.print { values := [.ofName "x" here], position := here }, variableX 2]]

/-- The check accepts the unit, and the use of the global variable is captured: at the use the scope
of the function has no such name, and in the end it has a variable under the C name that is written
for it. -/
theorem Stmt.lateLocalUnit_captures :
    ∃ checked, check Stmt.lateLocalUnit .empty = .ok checked
      ∧ ∃ v ∈ Stmt.visitsAll Stmt.lateLocalUnit Checker.global (Checker.start .empty),
          (v.before.scope v.scope).kind = .function
          ∧ ∃ o ∈ v.result.part.occurrences, v.reading.entryIn? v.scope o.written = none
            ∧ checked.checker.Hoists v.scope o.cName :=
  exists_ok_of_decide (by decide +kernel)

/-- In the same unit, the captured name is that of a variable that the function declares as well. -/
theorem Stmt.lateLocalUnit_redeclares :
    ∃ checked, check Stmt.lateLocalUnit .empty = .ok checked
      ∧ ∀ v ∈ Stmt.visitsAll Stmt.lateLocalUnit Checker.global (Checker.start .empty),
          ∀ o ∈ v.result.part.occurrences, ∃ entry,
            v.reading.find? v.scope o.written = some entry
            ∧ (entry.kind.isType = false →
              (checked.checker.Hoists v.scope o.cName ↔
                ∃ e ∈ (checked.checker.scope v.scope).entries, e.isLocal [] = true
                  ∧ if entry.isExternal then e.kind.lead ++ e.name = o.written
                    else e.name = o.written ∧ e.kind = entry.kind)) := by
  have hrun : (check Stmt.lateLocalUnit .empty).isOk = true := by decide +kernel
  cases h : check Stmt.lateLocalUnit .empty with
  | error e => rw [h] at hrun; cases hrun
  | ok checked =>
      refine ⟨checked, rfl, fun v hv o ho => ?_⟩
      obtain ⟨entry, hfind, -, hiff, -⟩ := Stmt.hoists_iff_redeclared _ _ checked h v hv o ho
      exact ⟨entry, hfind, hiff⟩

end ExtensionCompiler

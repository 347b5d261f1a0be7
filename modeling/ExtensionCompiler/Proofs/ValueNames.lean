import ExtensionCompiler.Proofs.Hoisting
import ExtensionCompiler.Proofs.Origins
import ExtensionCompiler.Proofs.Rendering

set_option autoImplicit false

/-! # Names that stand for values

Values, type names and the tags of structures share the scopes, so a look-up for a value may come
upon a type. A `Use` is a name that is written into an expression of C, and its form says what for;
what analysis asks of the entry depends on the form (`UseForm.admits`). Names and callees are asked
for their kind. The base of an element and the counter of a loop are asked for their type only, and
the name of an alias has the type that it stands for: so the alias of a pointer passes for a pointer
(`Stmt.aliasUnit_misused`). Nothing else slips through: `Stmt.uses_name_values` says that every
other use is of a value, and that no use is of a structure or union. -/

namespace ExtensionCompiler

/-! ## Uses -/

/-- What a name is used for. -/
inductive UseForm where
  | value
  /-- The array or pointer of an element. -/
  | base
  | callee
  /-- The counter of a loop. -/
  | counter
deriving DecidableEq, Repr

/-- What analysis asks of the entry behind a name. -/
def UseForm.admits : UseForm → Entry → Bool
  | value, entry => !entry.kind.isType
  | base, entry => entry.type.element?.isSome
  | callee, entry => entry.callee?.isSome
  | counter, entry => entry.type.isInteger

/-- A name in the source, what it is used for, and what is written for it in C. -/
structure Use where
  form : UseForm
  written : String
  cName : String
deriving DecidableEq, Repr

/-- The name was looked up, the entry is admitted, and its C name is written. -/
def Use.Resolved (find : String → Option Entry) (u : Use) : Prop :=
  ∃ entry, find u.written = some entry ∧ u.cName = entry.cName ∧ u.form.admits entry = true

namespace Expr

mutual

/-- Every node inside a typed expression is typed. -/
theorem Typed.inner {find : String → Option Entry} :
    (e : Expr) → Typed find e → ∀ n ∈ e.inner, Typed find n
  | .literal _ _, _ | .name _ _ _ _, _ => List.forall_mem_nil _
  | .element _ _ _ index, h => by
      cases h with
      | element _ _ hindex _ => exact List.forall_mem_cons.mpr ⟨hindex, Typed.inner index hindex⟩
  | .unary _ _ operand _, h => by
      cases h with
      | hostUnary hop _ _ | unary hop _ _ =>
          exact List.forall_mem_cons.mpr ⟨hop, Typed.inner operand hop⟩
  | .binary _ left _ right _, h => by
      cases h with
      | hostBinary hl _ hr _ _ _ | binary hl _ hr _ _ =>
          exact List.forall_mem_append.mpr
            ⟨List.forall_mem_cons.mpr ⟨hl, Typed.inner left hl⟩,
              List.forall_mem_cons.mpr ⟨hr, Typed.inner right hr⟩⟩
  | .call _ _ _ args, h => by
      cases h with
      | call _ _ hargs => exact TypedArgs.inner args _ hargs

theorem TypedArgs.inner {find : String → Option Entry} :
    (args : List Expr) → (params : List Ty) → TypedArgs find params args →
    ∀ n ∈ innerAll args, Typed find n
  | [], _, _ => List.forall_mem_nil _
  | arg :: args, params, h => by
      cases h with
      | cons harg _ hargs =>
          exact List.forall_mem_append.mpr
            ⟨List.forall_mem_cons.mpr ⟨harg, Typed.inner arg harg⟩, TypedArgs.inner args _ hargs⟩

end

variable {find : String → Option Entry} {e : Expr}

theorem Typed.subtrees (h : Typed find e) : ∀ n ∈ e.subtrees, Typed find n :=
  List.forall_mem_cons.mpr ⟨h, Typed.inner e h⟩

/-- The name that is written for a node itself. -/
def use? : Expr → Option Use
  | name _ written cName _ => some ⟨.value, written, cName⟩
  | element _ written cName _ => some ⟨.base, written, cName⟩
  | call _ written cName _ => some ⟨.callee, written, cName⟩
  | _ => none

/-- The names that are written for an expression. -/
def uses (e : Expr) : List Use := e.subtrees.filterMap use?

theorem Typed.resolved_use (h : Typed find e) {u : Use}
    (hu : e.use? = some u) : u.Resolved find := by
  cases h with
  | name hfind hkind _ | element hfind hkind _ _ | call hfind hkind _ =>
      cases hu
      exact ⟨_, hfind, rfl, by rw [UseForm.admits, hkind]; rfl⟩
  | _ => cases hu

/-- In a typed expression every use is resolved. -/
theorem Typed.resolved (h : Typed find e) : ∀ u ∈ e.uses, u.Resolved find := by
  intro u hu
  obtain ⟨n, hn, huse⟩ := List.mem_filterMap.mp hu
  exact (h.subtrees n hn).resolved_use huse

end Expr

/-- The names that are written for a part, in its expressions and as the counter of a loop. -/
def Part.uses (p : Part) : List Use :=
  p.exprs.flatMap Expr.uses ++ match p with
    | .count d => [⟨.counter, d.counter, d.counterCName⟩]
    | _ => []

theorem CountLoop.counter_resolved {d : CountLoop} {scope : ScopeId} {c : Checker}
    (h : (d.analyse scope c).error = none) :
    (Use.mk .counter (d.analyse scope c).node.counter
      (d.analyse scope c).node.counterCName).Resolved (c.find? scope) := by
  obtain ⟨counter, left, right, c₁, c₂, hcounter, -, -, hok⟩ := analyse_ok h
  have hinteger : counter.type.isInteger = true := by
    unfold analyse Checker.lookup at h
    rw [hcounter] at h
    split at h
    · dsimp only at h
      split at h
      · assumption
      · cases h
    · cases h
  rw [hok]
  exact ⟨counter, hcounter, rfl, hinteger⟩

/-- In a part whose analysis succeeds every use is resolved. -/
theorem Visit.resolved {v : Visit} (h : v.outcome.error = none) {u : Use}
    (hu : u ∈ v.result.part.uses) : u.Resolved (v.reading.find? v.scope) := by
  obtain ⟨hexprs, -⟩ := v.part.analyse_typed v.scope v.before h
  rcases List.mem_append.mp hu with hinside | hcounter
  · obtain ⟨e, he, hmem⟩ := List.mem_flatMap.mp hinside
    exact (hexprs e he).resolved u hmem
  · obtain ⟨scope, before, part⟩ := v
    cases part with
    | count d =>
        rw [List.mem_singleton.mp hcounter]
        exact CountLoop.counter_resolved h
    | _ => cases hcounter

/-! ## Entries of types -/

/-- An entry that is a type is an alias, or a structure or union. -/
def Entry.TypeShaped (e : Entry) : Prop :=
  e.kind.isType = true →
    (e.kind = .type ∧ ∃ name target, e.type = .aliased name e.cName target)
      ∨ ∃ kind name members, e.type = .aggregate kind name e.cName members

/-- What an entry must be for a type to be admitted in the place of a value. -/
theorem UseForm.alias_of_admits {form : UseForm} {e : Entry} (h : form.admits e = true)
    (hshape : e.TypeShaped) (htype : e.kind.isType = true) :
    e.kind = .type ∧ ∃ name target, e.type = .aliased name e.cName target
      ∧ (form = .base ∧ target.element?.isSome = true
        ∨ form = .counter ∧ target.isInteger = true) := by
  rcases hshape htype with ⟨hkind, name, target, heq⟩ | ⟨kind, name, members, heq⟩
  · refine ⟨hkind, name, target, heq, ?_⟩
    cases form with
    | value => simp [admits, htype] at h
    | base =>
        rw [admits, heq] at h
        exact .inl ⟨rfl, h⟩
    | callee => simp [admits, Entry.callee?, hkind] at h
    | counter =>
        rw [admits, heq] at h
        exact .inr ⟨rfl, h⟩
  · -- a structure has no elements, is no number, and cannot be called
    cases form with
    | value => simp [admits, htype] at h
    | base => simp [admits, heq, Ty.element?, Ty.unaliased] at h
    | callee => simp [admits, Entry.callee?, heq, Ty.unaliased] at h
    | counter => simp [admits, heq, Ty.isInteger, Ty.unaliased] at h

theorem Visit.Declares.typeShaped {v : Visit} {id : ScopeId} {e : Entry} (h : v.Declares id e) :
    e.TypeShaped := by
  intro htype
  cases h with
  | object hkind _ | slot hkind _ _ | method _ hkind _ _ _ => simp [hkind] at htype
  | heading _ hkind _ => simp [hkind, EntryKind.isType] at htype
  | forward _ _ _ hkind _ hshape _ | typeAlias _ _ _ _ hkind _ hshape _ =>
      exact .inl ⟨hkind, _, _, hshape⟩
  | aggregate _ _ _ _ _ hshape => exact .inr ⟨_, _, _, hshape⟩

namespace Checker

theorem entryIn?_of_find? {c : Checker} {id : ScopeId} {name : String} {e : Entry}
    (h : c.find? id name = some e) : ∃ id', c.entryIn? id' name = some e := by
  obtain ⟨p, hp, hget⟩ := List.exists_of_findSome?_eq_some h
  exact ⟨p.1, entryIn?_eq_some_iff.mpr ⟨p.2, mem_chainWithin hp, hget⟩⟩

end Checker

/-- All that an assignment adds before its look-ups is a variable. -/
theorem Part.reading_adds (p : Part) (scope : ScopeId) (c : Checker) :
    Checker.Adds (fun _ e => e.kind = .ofVariable .object) c (p.reading scope c) := by
  cases p with
  | assign d =>
      unfold reading
      dsimp only
      cases hdeclare : d.declareTarget scope c with
      | error e => exact .of_eq fun _ _ => rfl
      | ok c' => exact (Assignment.adds_of_declareTarget hdeclare).mono fun _ _ he => he.1
  | _ => exact .of_eq fun _ _ => rfl

variable {v : Visit} {name : String} {e : Entry}

/-- What the look-ups of a visit find was in the scopes before it, or is a variable. -/
theorem Visit.entryIn?_of_find? (h : v.reading.find? v.scope name = some e) :
    (∃ id, v.before.entryIn? id name = some e) ∨ e.kind = .ofVariable .object := by
  obtain ⟨id, hentry⟩ := Checker.entryIn?_of_find? h
  rcases v.part.reading_adds v.scope v.before id name e hentry with hold | hnew
  · exact .inl ⟨id, hold⟩
  · exact .inr hnew

/-- Whatever the look-ups of a visit can find was made by a visit before, or is an object that the
visit itself declares. -/
theorem Run.makes_of_find? {registry : Registry} {c : Checker} {vs ws : List Visit}
    (h : Run (Checker.start registry) (vs ++ v :: ws) c)
    (hscope : ∀ u ∈ vs ++ v :: ws, u.scope < u.before.scopes.length)
    (he : v.reading.find? v.scope name = some e) :
    (∃ u ∈ vs, ∃ id, u.Makes id e) ∨ e.kind = .ofVariable .object := by
  refine (Visit.entryIn?_of_find? he).imp ?_ id
  rintro ⟨id, hold⟩
  obtain ⟨hbefore, -, -⟩ := h.split
  rcases hbefore.exists_declares (fun u hu => hscope u (List.mem_append_left _ hu)) hold with
    hstart | ⟨_, u, _, rfl, -, hmakes⟩
  · rw [Checker.entryIn?_start] at hstart
    cases hstart
  · exact ⟨u, List.mem_append_right _ List.mem_cons_self, id, hmakes⟩

/-- Whatever the look-ups of a visit can find has the shape of its kind. -/
theorem Run.typeShaped {registry : Registry} {c : Checker} {vs ws : List Visit}
    (h : Run (Checker.start registry) (vs ++ v :: ws) c)
    (hscope : ∀ u ∈ vs ++ v :: ws, u.scope < u.before.scopes.length)
    (he : v.reading.find? v.scope name = some e) : e.TypeShaped := by
  rcases h.makes_of_find? hscope he with ⟨_, -, _, hdeclares, -⟩ | hnew
  · exact hdeclares.typeShaped
  · intro htype
    rw [hnew, EntryKind.isType_ofVariable] at htype
    cases htype

/-- **Where a type may pass for a value.** In a unit whose analysis succeeds, every name that is
written into an expression was looked up and is written as its entry says. The entry is no type,
unless the name is the base of an element or the counter of a loop; then it may be an alias, of an
array or pointer in the first case and of an integer in the second. It is never a structure or
union. -/
theorem Stmt.uses_name_values (unit : List Stmt) (registry : Registry)
    (h : (Stmt.analyseAll unit Checker.global (Checker.start registry)).error = none) :
    ∀ v ∈ Stmt.visitsAll unit Checker.global (Checker.start registry),
      ∀ u ∈ v.result.part.uses,
        ∃ entry, v.reading.find? v.scope u.written = some entry ∧ u.cName = entry.cName
          ∧ (entry.kind.isType = true →
            entry.kind = .type ∧ ∃ name target, entry.type = .aliased name entry.cName target
              ∧ (u.form = .base ∧ target.element?.isSome = true
                ∨ u.form = .counter ∧ target.isInteger = true)) := by
  intro v hv u hu
  have htraced := Stmt.analyseAll_traced unit Checker.global (Checker.start registry) h
  obtain ⟨vs, ws, hsplit⟩ := List.append_of_mem hv
  have hrun := htraced.run
  have hscope := htraced.inRange Nat.zero_lt_one
  rw [hsplit] at hrun hscope
  obtain ⟨entry, hfind, hcName, hadmits⟩ := Visit.resolved hrun.split.2.1 hu
  exact ⟨entry, hfind, hcName,
    UseForm.alias_of_admits hadmits (hrun.typeShaped hscope hfind)⟩

/-- The aliases of a pointer and of a number, with a variable. Elements are taken of the one, and a
loop counts the other. -/
def Stmt.aliasUnit : List Stmt :=
  let here := Position.unknown
  let int (value : Int) := Expr.ofLiteral (.int value) here
  let typeAlias (name : String) (depth : Nat) : Stmt :=
    .typeAlias { name, descriptor := .named "int", depth, position := here }
  [typeAlias "row" 1, typeAlias "size" 0,
    .var { form := .plain, descriptor := .named "int", depth := 0, name := "x", value := none,
           position := here },
    .print { values := [.ofElement "row" (.ofName "x" here) here], position := here },
    .count { left := int 0, leftOperator := "<=", counter := "size", rightOperator := "<",
             right := int 3, position := here } []]

/-- The variable that is the index of the element is no type. -/
theorem Stmt.aliasUnit_index :
    (Stmt.analyseAll aliasUnit Checker.global (Checker.start .empty)).error = none
      ∧ ∃ v ∈ Stmt.visitsAll aliasUnit Checker.global (Checker.start .empty),
          ⟨.value, "x", "__extc_v_x"⟩ ∈ v.result.part.uses
          ∧ ∃ entry, v.reading.find? v.scope "x" = some entry ∧ entry.kind.isType = false := by
  have hok : (Stmt.analyseAll aliasUnit Checker.global (Checker.start .empty)).error = none := by
    decide +kernel
  have huse : ∃ v ∈ Stmt.visitsAll aliasUnit Checker.global (Checker.start .empty),
      ⟨.value, "x", "__extc_v_x"⟩ ∈ v.result.part.uses := by decide +kernel
  obtain ⟨v, hv, hu⟩ := huse
  obtain ⟨entry, hfind, -, htype⟩ := uses_name_values aliasUnit .empty hok v hv _ hu
  refine ⟨hok, v, hv, hu, entry, hfind, ?_⟩
  cases hkind : entry.kind.isType with
  | false => rfl
  | true =>
      obtain ⟨-, -, -, -, ⟨hform, -⟩ | ⟨hform, -⟩⟩ := htype hkind
      · cases hform
      · cases hform

/-- The unit compiles, and both aliases are written in the place of a value. -/
theorem Stmt.aliasUnit_misused :
    ∃ compiled, compile aliasUnit .empty {} = .ok compiled
      ∧ (∃ v ∈ Stmt.visitsAll aliasUnit Checker.global (Checker.start .empty),
          ⟨.base, "row", "__extc_t_Object_row"⟩ ∈ v.result.part.uses
          ∧ (v.reading.find? v.scope "row").map Entry.kind = some .type)
      ∧ ∃ v ∈ Stmt.visitsAll aliasUnit Checker.global (Checker.start .empty),
          ⟨.counter, "size", "__extc_t_Object_size"⟩ ∈ v.result.part.uses
          ∧ (v.reading.find? v.scope "size").map Entry.kind = some .type :=
  exists_ok_of_decide (by decide +kernel)

end ExtensionCompiler

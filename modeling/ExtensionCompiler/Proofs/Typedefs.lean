import ExtensionCompiler.Proofs.FileLevel
import ExtensionCompiler.Proofs.Hoisting
import ExtensionCompiler.Proofs.Provenance

set_option autoImplicit false

/-! # Typedefs and the types that they introduce

A structure or union that is not provided by a header gets a typedef for its tag, unless an
announcement of the tag writes the same line, and an alias gets one for its target. This module says
that no type is left out, in units that introduce types at their top only (`Stmt.TypesOnTop`): the C
name of a type that no header provides is introduced by a line for a tag or by the typedef of an
alias, or it is a tag itself, which needs no typedef (`Passes.introduced`).

The case to look at is the structure that leaves its line to an announcement. It goes by the C name
of whatever stands under its tag in the scope. That this is an announcement or an alias, and nothing
else that happens to have the C name, is read off the names (`Passes.kind_of_forwarded`). -/

namespace ExtensionCompiler

/-! ## Types at the top of a unit -/

/-- Whether a part introduces or announces a type. -/
def Part.namesType : Part → Bool
  | .aggregate _ => true
  | .forward _ => true
  | .typeAlias _ => true
  | _ => false

theorem Part.namesType_outline (p : Part) : p.outline.namesType = p.namesType := by
  cases p <;> rfl

theorem Part.namesType_of_typeCName? {p : Part} {n : String} (h : p.typeCName? = some n) :
    p.namesType = true := by
  cases p with
  | aggregate d => rfl
  | forward d => rfl
  | typeAlias d => rfl
  | _ => cases h

def Enclosure.isLibrary : Enclosure → Bool
  | .library => true
  | _ => false

def Node.namesType (n : Node) : Bool := n.stmt.part?.any Part.namesType

namespace Stmt

/-- Types are introduced and announced at the top of the unit only, or in blocks of declarations for
a header there. -/
def TypesOnTop (unit : List Stmt) : Prop :=
  ∀ n ∈ nodesAll [] unit, n.namesType = true → n.isWithin Enclosure.isLibrary = true

instance (unit : List Stmt) : Decidable (TypesOnTop unit) :=
  inferInstanceAs (Decidable (∀ n ∈ nodesAll [] unit, _ → _))

/-- Both passes leave types where they are. -/
theorem TypesOnTop.of_check {unit : List Stmt} {registry : Registry} {checked : Checked}
    (h : TypesOnTop unit) (hcheck : check unit registry = .ok checked) :
    TypesOnTop checked.unit :=
  isWithin_of_check hcheck Part.namesType_outline h

end Stmt

/-! ## Parts and nodes -/

namespace Node

/-- The emission comes to all nodes around which only libraries stand. -/
theorem filesInside_of_isLibrary {n : Node} (h : n.isWithin Enclosure.isLibrary = true) :
    n.isWithin Enclosure.filesInside = true := by
  refine List.all_eq_true.mpr fun k hk => ?_
  have hlibrary := List.all_eq_true.mp h k hk
  cases k with
  | library => rfl
  | _ => cases hlibrary

/-- The node of a tree in `scope` has the part, and the part stands in that scope if nothing but
libraries stands around the node. -/
def Holds (n : Node) (scope : ScopeId) (q : Placed) : Prop :=
  n.stmt.part? = some q.part ∧ (n.isWithin Enclosure.isLibrary = true → q.scope = scope)

theorem holds_self (around : List Enclosure) {stmt : Stmt} {scope : ScopeId} {p : Part}
    (h : stmt.part? = some p) : (Node.mk around stmt).Holds scope ⟨scope, p⟩ :=
  ⟨h, fun _ => rfl⟩

/-- Inside anything but a library, the scope may be any. -/
theorem Holds.inside {n : Node} {inner : ScopeId} {q : Placed} (h : n.Holds inner q)
    {k : Enclosure} (hk : k.isLibrary = false) {around : List Enclosure}
    (hsuffix : k :: around <:+ n.around) (scope : ScopeId) : n.Holds scope q := by
  refine ⟨h.1, fun hwithin => ?_⟩
  obtain ⟨outer, houter⟩ := hsuffix
  rw [isWithin, ← houter, List.all_append, List.all_cons, hk, Bool.false_and,
    Bool.and_false] at hwithin
  cases hwithin

end Node

namespace Stmt

/-- A part of a definition with a scope of its own is that of the definition, or of a node inside.
-/
theorem node_of_mem_definition {stmt : Stmt} {scope : ScopeId} {p : Part} {inner : Option ScopeId}
    {body : List Stmt} {k : Enclosure} {around : List Enclosure} {q : Placed}
    (hparts : stmt.parts scope = ⟨scope, p⟩ :: inner.elim [] (partsAll body))
    (hpart : stmt.part? = some p) (hinside : stmt.inside around = nodesAll (k :: around) body)
    (hk : k.isLibrary = false)
    (hbody : ∀ id, q ∈ partsAll body id → ∃ n ∈ nodesAll (k :: around) body, n.Holds id q)
    (hq : q ∈ stmt.parts scope) :
    ∃ n ∈ (⟨around, stmt⟩ :: stmt.inside around : List Node), n.Holds scope q := by
  rw [hparts] at hq
  rcases List.mem_cons.mp hq with rfl | hq
  · exact ⟨⟨around, stmt⟩, List.mem_cons_self, Node.holds_self around hpart⟩
  · cases inner with
    | none => cases hq
    | some id =>
        obtain ⟨n, hn, hholds⟩ := hbody id hq
        refine ⟨n, List.mem_cons_of_mem _ (hinside ▸ hn), ?_⟩
        exact hholds.inside hk (suffix_of_mem_nodesAll body hn) scope

theorem node_of_mem_singleton {stmt : Stmt} {scope : ScopeId} {p : Part} {around : List Enclosure}
    {q : Placed} (hpart : stmt.part? = some p) (hq : q ∈ [⟨scope, p⟩]) :
    ∃ n ∈ (⟨around, stmt⟩ :: stmt.inside around : List Node), n.Holds scope q := by
  rw [List.mem_singleton.mp hq]
  exact ⟨⟨around, stmt⟩, List.mem_cons_self, Node.holds_self around hpart⟩

mutual

theorem node_of_mem_parts {q : Placed} (hq : ∀ e, q.part ≠ .condition e)
    (around : List Enclosure) : (stmt : Stmt) → {scope : ScopeId} → q ∈ stmt.parts scope →
    ∃ n ∈ (⟨around, stmt⟩ :: stmt.inside around : List Node), n.Holds scope q
  | .aggregate d members, scope, h =>
      node_of_mem_definition (parts_aggregate d members scope) rfl rfl rfl
        (fun _ => node_of_mem_partsAll hq (.aggregate :: around) members) h
  | .function d body, scope, h =>
      node_of_mem_definition (parts_function d body scope) rfl rfl rfl
        (fun _ => node_of_mem_partsAll hq (.function :: around) body) h
  | .method d body, scope, h =>
      node_of_mem_definition (parts_method d body scope) rfl rfl rfl
        (fun _ => node_of_mem_partsAll hq (.method :: around) body) h
  | .classDef d body, scope, h =>
      node_of_mem_definition (parts_classDef d body scope) rfl rfl rfl
        (fun _ => node_of_mem_partsAll hq (.classBody :: around) body) h
  | .count d body, scope, h => by
      have hparts : (Stmt.count d body).parts scope
          = ⟨scope, .count d⟩ :: (some scope).elim [] (partsAll body) := rfl
      exact node_of_mem_definition hparts rfl rfl rfl
        (fun _ => node_of_mem_partsAll hq (.loop :: around) body) h
  | .loop condition body _, scope, h => by
      obtain ⟨n, hn, hholds⟩ := node_of_mem_partsAll hq (.loop :: around) body
        (List.mem_of_ne_of_mem (fun heq => hq condition (congrArg Placed.part heq)) h)
      exact ⟨n, List.mem_cons_of_mem _ hn, hholds⟩
  | .library _ declarations _, scope, h => by
      obtain ⟨n, hn, hholds⟩ := node_of_mem_partsAll hq (.library :: around) declarations h
      exact ⟨n, List.mem_cons_of_mem _ hn, hholds⟩
  | .conditional chain _, scope, h => by
      obtain ⟨n, hn, hholds⟩ := node_of_mem_partsChain hq (.branch :: around) chain h
      exact ⟨n, List.mem_cons_of_mem _ hn, hholds⟩
  | .var _, _, h | .array _, _, h | .assign _, _, h | .ret _, _, h | .print _, _, h
  | .evaluation _, _, h | .forward _, _, h | .typeAlias _, _, h | .prototype _, _, h =>
      node_of_mem_singleton rfl h

theorem node_of_mem_partsChain {q : Placed} (hq : ∀ e, q.part ≠ .condition e)
    (around : List Enclosure) : (chain : Chain) → {scope : ScopeId} → q ∈ partsChain chain scope →
    ∃ n ∈ nodesChain around chain, n.Holds scope q
  | .done, _, h => absurd h List.not_mem_nil
  | .otherwise body, _, h => node_of_mem_partsAll hq around body h
  | .test condition body rest, _, h => by
      rcases List.mem_append.mp (List.mem_of_ne_of_mem
        (fun heq => hq condition (congrArg Placed.part heq)) h) with hbody | hrest
      · obtain ⟨n, hn, hholds⟩ := node_of_mem_partsAll hq around body hbody
        exact ⟨n, List.mem_append_left _ hn, hholds⟩
      · obtain ⟨n, hn, hholds⟩ := node_of_mem_partsChain hq around rest hrest
        exact ⟨n, List.mem_append_right _ hn, hholds⟩

/-- Every part of a tree is that of a node, but for the conditions, which a node may have more of.
-/
theorem node_of_mem_partsAll {q : Placed} (hq : ∀ e, q.part ≠ .condition e)
    (around : List Enclosure) : (stmts : List Stmt) → {scope : ScopeId} →
    q ∈ partsAll stmts scope → ∃ n ∈ nodesAll around stmts, n.Holds scope q
  | [], _, h => absurd h List.not_mem_nil
  | stmt :: rest, _, h => by
      rw [nodesAll, ← List.cons_append]
      rcases List.mem_append.mp h with hstmt | hrest
      · obtain ⟨n, hn, hholds⟩ := node_of_mem_parts hq around stmt hstmt
        exact ⟨n, List.mem_append_left _ hn, hholds⟩
      · obtain ⟨n, hn, hholds⟩ := node_of_mem_partsAll hq around rest hrest
        exact ⟨n, List.mem_append_right _ hn, hholds⟩

end

/-- In a unit with types at the top only, a part that names a type is that of a node at the top, and
stands in the outermost scope. -/
theorem TypesOnTop.node {unit : List Stmt} (h : TypesOnTop unit) {q : Placed}
    (hmem : q ∈ partsAll unit Checker.global) (hq : q.part.namesType = true) :
    q.scope = Checker.global ∧ ∃ n ∈ nodesAll [] unit, n.stmt.part? = some q.part
      ∧ n.isWithin Enclosure.isLibrary = true := by
  have hother (e : Expr) (heq : q.part = .condition e) : False := by rw [heq] at hq; cases hq
  obtain ⟨n, hn, hpart, hscope⟩ := node_of_mem_partsAll hother [] unit hmem
  have hwithin := h n hn (by rw [Node.namesType, hpart]; exact hq)
  exact ⟨hscope hwithin, n, hn, hpart, hwithin⟩

end Stmt

/-! ## C names of types in the outermost scope -/

/-- The C name that a type gets under its name in the outermost scope. -/
def rootTypeName (name : String) : String := EntryKind.type.lead ++ rootClass ++ "_" ++ name

theorem rootTypeName_inj {a b : String} : rootTypeName a = rootTypeName b ↔ a = b :=
  String.append_right_inj _

theorem Scope.linkageName_of_root {s : Scope} (hclass : s.className = rootClass) {kind : EntryKind}
    (hkind : kind.isType = true) (name : String) :
    s.linkageName kind name false = rootTypeName name := by
  have hlead : kind.lead = EntryKind.type.lead := by
    cases kind with
    | type => rfl
    | aggregate => rfl
    | _ => cases hkind
  unfold linkageName
  rw [if_neg Bool.false_ne_true, if_pos hkind, hclass, hlead]
  rfl

/-- No C name of the generator's own begins like a tag. -/
theorem AggregateKind.tag_ne_rootTypeName (kind : AggregateKind) (a b : String) :
    kind.tag a ≠ rootTypeName b := by
  intro h
  rw [tag, rootTypeName, ← String.toList_inj] at h
  simp only [String.toList_append] at h
  cases kind <;> simp [keyword, EntryKind.lead] at h

theorem EntryKind.lead_append_ne_rootTypeName {k : EntryKind} (hk : k.isType = false)
    (a b : String) : k.lead ++ a ≠ rootTypeName b := by
  intro h
  rw [rootTypeName, ← String.toList_inj] at h
  simp only [String.toList_append] at h
  cases k <;> simp [lead, isType] at h hk

theorem AggregateKind.length_tag (kind : AggregateKind) (a : String) :
    a.length + 6 ≤ (kind.tag a).length ∧ (kind.tag a).length ≤ a.length + 7 := by
  rw [tag, String.length_append, String.length_append]
  have hkeyword : kind.keyword.length = 5 ∨ kind.keyword.length = 6 := by
    cases kind with
    | struct => exact .inr rfl
    | union => exact .inl rfl
  have hblank : " ".length = 1 := rfl
  omega

namespace Checker

theorem Grows.global {registry : Registry} {c : Checker} (h : (start registry).Grows c) :
    ∃ s, c.scopes[Checker.global]? = some s ∧ s.parent = none ∧ s.className = rootClass := by
  obtain ⟨s, hs, entries, temps, returnType, rfl⟩ := h Checker.global globalScope rfl
  exact ⟨_, hs, rfl, rfl⟩

/-- From the outermost scope, a look-up goes nowhere else. -/
theorem find?_global {c : Checker} {s : Scope} (hs : c.scopes[Checker.global]? = some s)
    (hparent : s.parent = none) (name : String) :
    c.find? Checker.global name = c.entryIn? Checker.global name := by
  have hlength : c.scopes.length ≠ 0 := by
    intro hzero
    rw [List.length_eq_zero_iff.mp hzero] at hs
    cases hs
  obtain ⟨steps, hsteps⟩ := Nat.exists_eq_succ_of_ne_zero hlength
  have hchain : c.chain Checker.global = [(Checker.global, s)] := by
    rw [chain, hsteps, chainWithin, hs]
    simp only [hparent]
  rw [find?, hchain, entryIn?, hs]
  simp

end Checker

/-- The entries of kind `type` are those of announcements and aliases. -/
theorem Visit.Declares.of_type {v : Visit} {id : ScopeId} {e : Entry} (h : v.Declares id e)
    (hkind : e.kind = .type) :
    id = v.scope ∧ ((∃ d, v.part = .forward d ∧ e.name = d.tag
          ∧ e.cName = (v.before.scope id).linkageName .type d.name false)
      ∨ ∃ d, v.part = .typeAlias d
          ∧ e.cName = (v.before.scope id).linkageName .type e.name d.isExternal) := by
  have hnot (hfalse : e.kind.isType = false) : False := by
    rw [hkind] at hfalse
    cases hfalse
  cases h with
  | object hfalse _ | slot hfalse _ _ | method _ hfalse _ _ _ => exact (hnot hfalse).elim
  | heading _ hfun _ => cases hkind.symm.trans hfun
  | aggregate _ _ _ hagg _ _ => cases hkind.symm.trans hagg
  | @forward d hpart hid hname _ hcName _ _ =>
      rw [← hid] at hcName
      exact ⟨hid, .inl ⟨d, hpart, hname, hcName⟩⟩
  | @typeAlias d hpart _ hid hname _ hcName _ _ =>
      rw [← hid, ← hname] at hcName
      exact ⟨hid, .inr ⟨d, hpart, hcName⟩⟩

namespace Passes

variable {unit : List Stmt} {registry : Registry} {checked : Checked} {visits : List Visit}
  {middle : Checker}

variable {v : Visit} {name : String} {e : Entry}

variable (h : Passes unit registry checked visits middle)
include h

theorem grows_before (hv : v ∈ visits) :
    (Checker.start registry).Grows v.before ∧ v.before.Grows middle := by
  obtain ⟨vs, ws, rfl⟩ := List.append_of_mem hv
  obtain ⟨hfirst, hok, hrest⟩ := h.run.split
  exact ⟨hfirst.grows, (Run.step hok hrest).grows⟩

theorem className_global
    (hv : v ∈ visits) : (v.before.scope Checker.global).className = rootClass := by
  obtain ⟨s, hs, -, hclass⟩ := (h.grows_before hv).1.global
  rw [Checker.scope_eq_of_getElem? hs]
  exact hclass

/-- Every entry was declared by a visit. -/
theorem exists_declares {id : ScopeId} (he : middle.entryIn? id name = some e) :
    e.name = name ∧ ∃ v ∈ visits, v.outcome.error = none ∧ v.Declares id e := by
  obtain ⟨s, -, hget⟩ := Checker.entryIn?_eq_some_iff.mp he
  refine ⟨Scope.name_of_get? hget, ?_⟩
  rcases h.run.exists_declares h.inRange he with hold | ⟨vs, v, ws, hsplit, -, hdeclares, -⟩
  · rw [Checker.entryIn?_start] at hold
    cases hold
  · have hv : v ∈ visits := by
      rw [hsplit]
      exact List.mem_append_right _ List.mem_cons_self
    exact ⟨v, hv, h.run.outcome_ok v hv, hdeclares⟩

theorem retyped : Checker.Retyped middle checked.checker := by
  have hall := Placed.settleAll_retyped (visits.map Visit.result) middle
  rwa [h.settled] at hall

/-- An entry of the last state had its names and its kind before the second pass. -/
theorem entryIn?_middle {id : ScopeId} (he : checked.checker.entryIn? id name = some e) :
    ∃ e₀, middle.entryIn? id name = some e₀ ∧ e₀.cName = e.cName ∧ e₀.kind = e.kind := by
  have hback : Checker.Retyped checked.checker middle := Eq.symm h.retyped
  obtain ⟨e₀, hmem, hname, hcName, hkind, -⟩ := hback.entryIn? he
  refine ⟨e₀, ?_, hcName, hkind⟩
  have htidy : middle.Tidy := h.run.tidy (Checker.tidy_start registry)
  cases hs : middle.scopes[id]? with
  | none =>
      rw [Checker.scope, hs] at hmem
      cases hmem
  | some s =>
      rw [Checker.scope_eq_of_getElem? hs] at hmem
      rw [← hname]
      exact htidy.entryIn?_of_mem hs hmem

/-- The C names that announcements and aliases have in the outermost scope. -/
theorem cName_of_type (he : middle.entryIn? Checker.global name = some e) (hkind : e.kind = .type) :
    (∃ kind x, name = AggregateKind.tag kind x ∧ e.cName = rootTypeName x)
      ∨ e.cName = name ∨ e.cName = rootTypeName name := by
  obtain ⟨hname, v, hv, -, hdeclares⟩ := h.exists_declares he
  have hclass := h.className_global hv
  rcases (hdeclares.of_type hkind).2 with ⟨d, -, htag, hcName⟩ | ⟨d, -, hcName⟩
  · rw [Scope.linkageName_of_root hclass rfl] at hcName
    exact .inl ⟨d.kind, d.name, hname.symm.trans htag, hcName⟩
  · rw [hname] at hcName
    cases hext : d.isExternal with
    | true =>
        rw [hext] at hcName
        exact .inr (.inl hcName)
    | false =>
        rw [hext, Scope.linkageName_of_root hclass rfl] at hcName
        exact .inr (.inr hcName)

/-- The C name of a structure or union in the outermost scope: its tag, its own, or that of what
stands under its tag. -/
theorem typeName_global (hv : v ∈ visits) (hscope : v.scope = Checker.global) (d : Aggregate)
    {n : String} (hn : n = d.typeName v.scope (v.before.addScope d.name .aggregate v.scope).2) :
    (d.isExternal = true ∧ n = d.tag) ∨ n = rootTypeName d.name
      ∨ ∃ e, middle.entryIn? Checker.global d.tag = some e ∧ e.kind = .type ∧ e.cName = n := by
  rw [hscope] at hn
  obtain ⟨hstart, hgrows⟩ := h.grows_before hv
  have hopen : v.before.Grows (v.before.addScope d.name .aggregate Checker.global).2 :=
    (v.before.edits_addScope d.name .aggregate Checker.global (b := false)).grows
  obtain ⟨s, hs, hparent, hclass⟩ := (hstart.trans hopen).global
  unfold Aggregate.typeName at hn
  split at hn
  · rename_i hext
    exact .inl ⟨hext, hn⟩
  · right
    dsimp only at hn
    rw [Checker.scope_eq_of_getElem? hs, Scope.linkageName_of_root hclass rfl,
      Checker.find?_global hs hparent] at hn
    cases hfound : (v.before.addScope d.name .aggregate Checker.global).2.entryIn? Checker.global
        d.tag with
    | none =>
        rw [hfound] at hn
        exact .inl hn
    | some e =>
        rw [hfound] at hn
        dsimp only at hn
        split at hn
        · rename_i hkind
          refine .inr ⟨e, hgrows.entryIn? ?_, hkind, hn.symm⟩
          rwa [Checker.addScope, v.before.entryIn?_pushScope rfl] at hfound
        · exact .inl hn

/-- A structure or union whose name is a tag does not get the C name of what the tag is for: all C
names that it can get are longer. -/
theorem typeName_ne_of_tag (hv : v ∈ visits) (hscope : v.scope = Checker.global) {d : Aggregate}
    {kind : AggregateKind} (htag : d.name = kind.tag name) :
    rootTypeName name ≠ d.typeName v.scope (v.before.addScope d.name .aggregate v.scope).2 := by
  intro heq
  have hlength : name.length + 6 ≤ d.name.length := htag ▸ (kind.length_tag name).1
  rcases h.typeName_global hv hscope d heq with ⟨-, hplain⟩ | hown | ⟨e, he, hkind, hsame⟩
  · exact d.kind.tag_ne_rootTypeName d.name name hplain.symm
  · rw [← rootTypeName_inj.mp hown] at hlength
    omega
  · have hlength' : d.name.length + 6 ≤ d.tag.length := (d.kind.length_tag d.name).1
    rcases h.cName_of_type he hkind with ⟨kind', x, hforward, hx⟩ | hplain | hown
    · have hupper := (kind'.length_tag x).2
      rw [← hforward, ← rootTypeName_inj.mp (hsame.symm.trans hx)] at hupper
      omega
    · exact d.kind.tag_ne_rootTypeName d.name name (hplain.symm.trans hsame)
    · rw [← rootTypeName_inj.mp (hsame.symm.trans hown)] at hlength'
      omega

/-- **What a structure leaves its line to.** An entry under the tag of a structure or union of the
outermost scope that has its C name is that of an announcement or an alias. -/
theorem kind_of_forwarded (hv : v ∈ visits) (hscope : v.scope = Checker.global) {d : Aggregate}
    (hext : d.isExternal = false) (he : middle.entryIn? Checker.global d.tag = some e)
    (hcName : e.cName = d.typeName v.scope (v.before.addScope d.name .aggregate v.scope).2) :
    e.kind = .type := by
  rcases h.typeName_global hv hscope d hcName with ⟨htrue, -⟩ | hown | ⟨e', he', hkind, -⟩
  · cases hext.symm.trans htrue
  · -- the structure has a C name of its own, which only an announcement of the tag can have
    obtain ⟨hname, w, hw, -, hdeclares⟩ := h.exists_declares he
    have hlinked : e.Linked := by
      obtain ⟨s, hs, hget⟩ := Checker.entryIn?_eq_some_iff.mp he
      exact (h.run.tidy (Checker.tidy_start registry)).linked s (List.mem_of_getElem? hs) e
        (Scope.mem_of_get? hget)
    have hvalue (hkind : e.kind.isType = false) : False := by
      have hlink := hlinked hkind
      rw [hown, hname] at hlink
      split at hlink
      · exact d.kind.tag_ne_rootTypeName d.name d.name hlink.symm
      · exact EntryKind.lead_append_ne_rootTypeName hkind d.tag d.name hlink.symm
    cases hdeclares with
    | object hfalse _ | slot hfalse _ _ | method _ hfalse _ _ _ => exact (hvalue hfalse).elim
    | heading _ hfun _ => exact (hvalue (by rw [hfun]; rfl)).elim
    | forward _ _ _ hkind _ _ _ | typeAlias _ _ _ _ hkind _ _ _ => exact hkind
    | aggregate _ hid hname' _ hcName' _ =>
        exact absurd (hown.symm.trans hcName')
          (h.typeName_ne_of_tag hw hid.symm (hname'.symm.trans hname))
  · cases he.symm.trans he'
    exact hkind

/-- In the last state too, a look-up from the outermost scope goes nowhere else. -/
theorem find?_global (name : String) :
    checked.checker.find? Checker.global name = checked.checker.entryIn? Checker.global name := by
  obtain ⟨s, hs, hparent, -⟩ := h.run.grows.global
  have hscope := h.retyped.getElem? Checker.global
  rw [hs, Option.map_some, Option.map_eq_some_iff] at hscope
  obtain ⟨s', hs', hsame⟩ := hscope
  have hparent' : s'.untyped.parent = s.untyped.parent := congrArg Scope.parent hsame
  exact Checker.find?_global hs' (hparent'.trans hparent) name

end Passes

/-! ## The lines that introduce types -/

/-- The C names that a line introduces for types. -/
def C.Code.introduced : C.Code → List String
  | .typedefTag _ name => [name]
  | .typedef _ name => [name]
  | _ => []

/-- Whether a header provides the type that a part introduces. -/
def Part.isProvided : Part → Bool
  | .aggregate d => d.isExternal
  | .typeAlias d => d.isExternal
  | _ => false

/-- The typedef of an alias. -/
def TypeAlias.line (d : TypeAlias) : C.Code :=
  match d.type with
  | .aliased _ _ target => .typedef target d.cName
  | type => .typedef type d.cName

theorem TypeAlias.introduced_line (d : TypeAlias) : d.line.introduced = [d.cName] := by
  unfold line
  split <;> rfl

/-- The alias that a statement is, if it has a typedef. -/
def Stmt.alias? : Stmt → Option TypeAlias
  | .typeAlias d => if d.isExternal || d.isTagAlias then none else some d
  | _ => none

def Node.alias? (n : Node) : Option TypeAlias := n.stmt.alias?

/-- The aliases of a unit that have typedefs, in order. -/
def Stmt.aliases (unit : List Stmt) : List TypeAlias := (nodesAll [] unit).filterMap Node.alias?

/-- The name is the C name of a type that a part of the unit introduces or announces, and that no
header provides. -/
def Stmt.OwnType (unit : List Stmt) (n : String) : Prop :=
  ∃ p ∈ partsAll unit Checker.global, p.part.typeCName? = some n ∧ p.part.isProvided = false

instance (unit : List Stmt) (n : String) : Decidable (Stmt.OwnType unit n) :=
  inferInstanceAs (Decidable (∃ p ∈ Stmt.partsAll unit Checker.global, _ ∧ _))

/-- A line for a tag introduces the C name, or an alias that has a typedef does. -/
def Checked.Introduces (checked : Checked) (n : String) : Prop :=
  n ∈ (sectionLines checked.unit checked.checker .typeTags).flatMap C.Code.introduced
    ∨ ∃ d ∈ Stmt.aliases checked.unit, d.cName = n

/-- The C name is a tag, which needs no typedef. -/
def IsTag (n : String) : Prop := ∃ kind name, n = AggregateKind.tag kind name

theorem Part.isProvided_outline (p : Part) : p.outline.isProvided = p.isProvided := by
  cases p <;> rfl

namespace Visit

variable {v : Visit} {state : Checker}

theorem outline_settle : (v.settle state).1.outline = v.part.outline :=
  (Part.outline_rescan _ _ _).trans (Part.outline_analyse _ _ v.part)

theorem isProvided_settle : (v.settle state).1.isProvided = v.part.isProvided := by
  rw [← Part.isProvided_outline, outline_settle, Part.isProvided_outline]

/-- A node that both passes have made of a structure or union is that structure or union, in the
scope where it was declared. -/
theorem aggregate_of_settle {d : Aggregate} (h : (v.settle state).1 = .aggregate d) :
    ∃ d₀, v.part = .aggregate d₀ ∧ d.tag = d₀.tag ∧ d.isExternal = d₀.isExternal
      ∧ d.scope = some v.scope := by
  have houtline : (Part.aggregate d).outline = v.part.outline := by
    rw [← h]
    exact outline_settle
  obtain ⟨scope, c, part⟩ := v
  cases part with
  | aggregate d₀ =>
      cases h
      exact ⟨d₀, rfl, rfl, rfl, rfl⟩
  | _ => cases houtline

end Visit

namespace Passes

variable {unit : List Stmt} {registry : Registry} {checked : Checked} {visits : List Visit}
  {middle : Checker}

/-- The line of a node at the top of the unit stands in its section. -/
theorem mem_sectionLines {part : HeaderSection} {c : Checker} {n : Node} {line : C.Code}
    (hn : n ∈ Stmt.nodesAll [] unit) (hwithin : n.isWithin Enclosure.isLibrary = true)
    (hline : line ∈ n.stmt.alone.header part c) : line ∈ sectionLines unit c part := by
  refine List.mem_append_right _ ?_
  rw [Stmt.headerAll_eq part c unit [] rfl]
  have hfiled := List.mem_filter.mpr ⟨hn, Node.filesInside_of_isLibrary hwithin⟩
  exact List.mem_flatMap.mpr ⟨n, hfiled, hline⟩

variable {p : Placed} {n : String} {d : Aggregate}

/-- An announcement or an alias has a line of its own. -/
theorem introduced_of_not_aggregate (htop : Stmt.TypesOnTop checked.unit)
    (hp : p ∈ Stmt.partsAll checked.unit Checker.global)
    (hn : p.part.typeCName? = some n) (hown : p.part.isProvided = false)
    (hnot : ∀ d, p.part ≠ .aggregate d) : checked.Introduces n := by
  obtain ⟨-, node, hnode, hpart, hwithin⟩ := htop.node hp (Part.namesType_of_typeCName? hn)
  obtain ⟨around, stmt⟩ := node
  cases stmt with
  | forward d =>
      left
      rw [← Option.some.inj hpart] at hn
      refine List.mem_flatMap.mpr ⟨.typedefTag d.tag d.cName,
        mem_sectionLines hnode hwithin (List.mem_singleton_self _), ?_⟩
      rw [← Option.some.inj hn]
      exact List.mem_singleton_self _
  | typeAlias d =>
      right
      rw [← Option.some.inj hpart] at hn hown
      cases htag : d.isTagAlias with
      | true =>
          rw [Part.typeCName?, if_pos htag] at hn
          cases hn
      | false =>
          rw [Part.typeCName?, htag] at hn
          refine ⟨d, List.mem_filterMap.mpr ⟨_, hnode, ?_⟩, Option.some.inj hn⟩
          have hext : d.isExternal = false := hown
          rw [Node.alias?, Stmt.alias?, hext, htag, Bool.or_self, if_neg Bool.false_ne_true]
  | aggregate d members => exact absurd (Option.some.inj hpart).symm (hnot d)
  | library _ _ _ | conditional _ _ => cases hpart
  | _ =>
      rw [← Option.some.inj hpart] at hn
      cases hn

variable (h : Passes unit registry checked visits middle)
include h

/-- What a structure or union leaves its line to is a part of the unit, and the C name of both is
the tag if a header provides that part. -/
theorem exists_forwarding {v : Visit}
    (hv : v ∈ visits) (hscope : v.scope = Checker.global) (hext : d.isExternal = false)
    (hn : n = d.typeName v.scope (v.before.addScope d.name .aggregate v.scope).2)
    (hforward : d.isForwarded n Checker.global checked.checker = true) :
    ∃ p ∈ Stmt.partsAll checked.unit Checker.global, p.part.typeCName? = some n
      ∧ (∀ d', p.part ≠ .aggregate d') ∧ (p.part.isProvided = true → n = d.tag) := by
  unfold Aggregate.isForwarded at hforward
  rw [h.find?_global] at hforward
  split at hforward
  · rename_i e he
    obtain ⟨e₀, he₀, hcName, -⟩ := h.entryIn?_middle he
    have hsame : e₀.cName = n := hcName.trans (of_decide_eq_true hforward)
    have hkind : e₀.kind = .type := h.kind_of_forwarded hv hscope hext he₀ (hsame.trans hn)
    obtain ⟨hname, w, hw, hok, hdeclares⟩ := h.exists_declares he₀
    obtain ⟨state, hmem⟩ := h.exists_part hw
    have hform := (hdeclares.of_type hkind).2
    refine ⟨_, hmem, ?_, fun d' hd' => ?_, fun hprovided => ?_⟩
    · rw [← hsame]
      exact (Part.typeCName?_rescan _ _ _).trans (hdeclares.typeCName? hok (by rw [hkind]; rfl))
    · obtain ⟨d₁, hd₁, -⟩ := Visit.aggregate_of_settle hd'
      rcases hform with ⟨d₂, hd₂, -⟩ | ⟨d₂, hd₂, -⟩ <;> cases hd₁.symm.trans hd₂
    · -- an alias for a header keeps its name, which is the tag here
      rw [Visit.isProvided_settle] at hprovided
      rcases hform with ⟨d₂, hd₂, -⟩ | ⟨d₂, hd₂, hlink⟩
      · rw [hd₂] at hprovided
        cases hprovided
      · rw [hd₂] at hprovided
        have hexternal : d₂.isExternal = true := hprovided
        rw [hexternal, hname] at hlink
        exact hsame.symm.trans hlink
  · cases hforward

/-- The line for the tag of a structure or union of a checked unit, unless it is left to another. -/
theorem header_typeTags (hp : p ∈ Stmt.partsAll checked.unit Checker.global)
    (hpart : p.part = .aggregate d) (hn : p.part.typeCName? = some n)
    (hscope : d.scope = some p.scope) (hext : d.isExternal = false) :
    d.header .typeTags checked.checker
      = if d.isForwarded n p.scope checked.checker then [] else [.typedefTag d.tag n] := by
  have hcomplete := h.isComplete p hp
  rw [hpart] at hcomplete hn
  obtain ⟨cName, -, inner, htype, -, hmembers⟩ := hcomplete
  rw [Part.typeCName?, htype] at hn
  cases hn
  simp only [Aggregate.header, htype, hscope, hmembers, hext]

/-- A structure or union has a line of its own, or leaves it to an announcement or an alias. -/
theorem introduced_of_aggregate (htop : Stmt.TypesOnTop checked.unit)
    (hp : p ∈ Stmt.partsAll checked.unit Checker.global) (hpart : p.part = .aggregate d)
    (hn : p.part.typeCName? = some n) (hext : d.isExternal = false) :
    checked.Introduces n ∨ IsTag n := by
  obtain ⟨hglobal, ⟨around, stmt⟩, hnode, hstmt, hwithin⟩ :=
    htop.node hp (Part.namesType_of_typeCName? hn)
  obtain ⟨⟨v, state⟩, hx, hok, rfl⟩ := h.exists_revisit hp
  obtain ⟨d₀, hpart₀, htag, hext₀, hscope⟩ := Visit.aggregate_of_settle hpart
  have hname : n = d₀.typeName v.scope (v.before.addScope d₀.name .aggregate v.scope).2 := by
    refine Option.some.inj (hn.symm.trans ((Part.typeCName?_rescan _ _ _).trans ?_))
    exact Visit.typeCName?_of_aggregate hok hpart₀
  have hlines := h.header_typeTags hp hpart hn hscope hext
  cases hforward : d.isForwarded n v.scope checked.checker with
  | false =>
      rw [hforward, if_neg Bool.false_ne_true] at hlines
      have hheader : stmt.alone.header .typeTags checked.checker = [.typedefTag d.tag n] := by
        cases stmt with
        | aggregate d' members =>
            cases (Option.some.inj hstmt).trans hpart
            exact hlines
        | library _ _ _ | conditional _ _ => cases hstmt
        | _ => cases (Option.some.inj hstmt).trans hpart
      refine .inl (.inl (List.mem_flatMap.mpr ⟨.typedefTag d.tag n, ?_, List.mem_singleton_self _⟩))
      refine mem_sectionLines hnode hwithin ?_
      rw [hheader]
      exact List.mem_singleton_self _
  | true =>
      have hv : v ∈ visits := (h.run.at_revisit middle hx).1
      have hforward₀ : d₀.isForwarded n Checker.global checked.checker = true := by
        rw [Aggregate.isForwarded, ← htag, ← hglobal]
        exact hforward
      obtain ⟨q, hq, hqn, hnot, hprovided⟩ :=
        h.exists_forwarding hv hglobal (hext₀.symm.trans hext) hname hforward₀
      cases hown : q.part.isProvided with
      | true => exact .inr ⟨d₀.kind, d₀.name, hprovided hown⟩
      | false => exact .inl (introduced_of_not_aggregate htop hq hqn hown hnot)

/-- **Every type has a line.** In a unit with types at the top only, the C name of a type that no
header provides is introduced by a typedef, or is a tag. -/
theorem introduced (htop : Stmt.TypesOnTop checked.unit) (hn : Stmt.OwnType checked.unit n) :
    checked.Introduces n ∨ IsTag n := by
  obtain ⟨p, hp, hn, hown⟩ := hn
  cases hpart : p.part with
  | aggregate d =>
      rw [hpart] at hown
      exact h.introduced_of_aggregate htop hp hpart hn hown
  | _ =>
      refine .inl (introduced_of_not_aggregate htop hp hn hown fun d hd => ?_)
      cases hpart.symm.trans hd

end Passes

end ExtensionCompiler

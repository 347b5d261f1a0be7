import ExtensionCompiler.Proofs.Emitted

set_option autoImplicit false

/-! # The types that a file spells

A file writes types down in a few places: in the declarations of a scope, in the members of a
structure, in a typedef, and in the heading of a function. All but the headings of methods take them
from the scopes, or from the nodes of aliases, prototypes and functions. So what holds of all types
in the scopes and in these nodes holds of all types in the file (`file_allTypes`).

The statements are about any property of types, and the proof goes with the emission, for each of
the three places that a statement writes into. -/

namespace ExtensionCompiler

variable {P : Ty → Prop}

namespace C.Code

/-- Every type that the code spells has the property. -/
def AllTypes (P : Ty → Prop) (code : List Code) : Prop := ∀ ty ∈ typesAll code, P ty

theorem allTypes_iff {code : List Code} :
    AllTypes P code ↔ ∀ line ∈ code, ∀ ty ∈ line.types, P ty := by
  induction code with
  | nil => simp [AllTypes, typesAll]
  | cons line rest ih =>
      rw [List.forall_mem_cons, ← ih]
      exact List.forall_mem_append

theorem typesAll_append (xs ys : List Code) : typesAll (xs ++ ys) = typesAll xs ++ typesAll ys := by
  induction xs with
  | nil => rfl
  | cons x xs ih => rw [List.cons_append, typesAll, typesAll, ih, List.append_assoc]

namespace AllTypes

theorem nil : AllTypes P [] := fun _ h => nomatch h

variable {x : Code} {xs : List Code}

theorem cons (hx : ∀ ty ∈ x.types, P ty) (hxs : AllTypes P xs) : AllTypes P (x :: xs) :=
  List.forall_mem_append.mpr ⟨hx, hxs⟩

theorem append {ys : List Code} (hxs : AllTypes P xs) (hys : AllTypes P ys) :
    AllTypes P (xs ++ ys) := by
  rw [AllTypes, typesAll_append]
  exact List.forall_mem_append.mpr ⟨hxs, hys⟩

theorem single (hx : ∀ ty ∈ x.types, P ty) : AllTypes P [x] := cons hx nil

/-- A line without types may stand anywhere. -/
theorem quiet (hx : x.types = []) (hxs : AllTypes P xs) : AllTypes P (x :: xs) :=
  cons (fun ty h => by rw [hx] at h; cases h) hxs

theorem declarations {list : List Declaration} (h : ∀ d ∈ list, P d.type) :
    AllTypes P (list.map .declaration) :=
  allTypes_iff.mpr (List.forall_mem_map.mpr fun d hd => List.forall_mem_singleton.mpr (h d hd))

end AllTypes

end C.Code

open C.Code (AllTypes allTypes_iff)

/-! ## Statements without others inside -/

/-- Steps around a value are assignments, which spell no type. -/
theorem Step.types_code {steps : List Step} :
    ∀ line ∈ steps.map Step.code, ∀ ty ∈ line.types, P ty := by
  refine List.forall_mem_map.mpr fun step _ ty hty => ?_
  cases step <;> cases hty

namespace Expr

theorem evaluate_allTypes (e : Expr) : AllTypes P e.evaluate := allTypes_iff.mpr Step.types_code

theorem dispose_allTypes (e : Expr) : AllTypes P e.dispose := allTypes_iff.mpr Step.types_code

end Expr

theorem Expr.loopCode_allTypes (condition : Expr) {body : List C.Code} (h : AllTypes P body) :
    ∀ ty ∈ (condition.loopCode body).types, P ty := by
  unfold loopCode
  split
  · -- the round that leaves the loop disposes of the condition first
    have hleave : AllTypes P
        [.branch (.refuted condition.condition) (condition.dispose ++ [.leave]) .nothing] := by
      refine .single fun ty hty => ?_
      rcases List.mem_append.mp hty with hbody | hrest
      · exact (condition.dispose_allTypes.append (.quiet rfl .nil)) ty hbody
      · cases hrest
    exact ((condition.evaluate_allTypes.append hleave).append condition.dispose_allTypes).append h
  · exact h

/-! ## Declarations of scopes -/

/-- Every type in the scopes has the property. -/
structure Checker.AllTypes (P : Ty → Prop) (c : Checker) : Prop where
  object : P .object
  entries : ∀ id, ∀ e ∈ (c.scope id).entries, P e.type
  temps : ∀ id, ∀ t ∈ (c.scope id).temps, P t.2

namespace Checker.AllTypes

variable {c : Checker}

theorem imp {Q : Ty → Prop} (h : c.AllTypes P) (himp : ∀ ty, P ty → Q ty) : c.AllTypes Q where
  object := himp _ h.object
  entries id e he := himp _ (h.entries id e he)
  temps id t ht := himp _ (h.temps id t ht)

theorem declarations (h : c.AllTypes P) (id : ScopeId) (skip : List String) (storage : String) :
    C.Code.AllTypes P (((c.scope id).declarations skip storage).map .declaration) := by
  refine .declarations fun d hd => ?_
  rcases List.mem_append.mp hd with hentry | htemp
  · obtain ⟨e, he, rfl⟩ := List.mem_map.mp hentry
    exact h.entries id e (List.mem_filter.mp he).1
  · obtain ⟨t, ht, rfl⟩ := List.mem_map.mp htemp
    exact h.temps id t ht

theorem members (h : c.AllTypes P) (id : ScopeId) : ∀ d ∈ (c.scope id).members, P d.type := by
  intro d hd
  obtain ⟨e, he, rfl⟩ := List.mem_map.mp hd
  exact h.entries id e (List.mem_filter.mp he).1

end Checker.AllTypes

/-! ## Types of nodes -/

/-- The types that a declaration with this type spells: the target of an alias, and what the heading
of a function is made of. -/
def Ty.spelled : Ty → List Ty
  | aliased _ _ target => [target]
  | function _ _ params result => result :: params
  | _ => []

/-- Every type that the part spells has the property. -/
def Part.AllTypes (P : Ty → Prop) (p : Part) : Prop :=
  ∀ signature, p.signature? = some signature → ∀ ty ∈ signature.type.spelled, P ty

theorem Function.heading_allTypes {d : Function} (h : Part.AllTypes P (.function d)) :
    P d.returnType ∧ ∀ ty ∈ Parameter.types d.params, P ty := by
  have hspelled := h _ rfl
  exact ⟨hspelled _ List.mem_cons_self, fun ty hty => hspelled ty (List.mem_cons_of_mem _ hty)⟩

theorem Function.code_allTypes {d : Function} {c : Checker} (hc : c.AllTypes P)
    (h : Part.AllTypes P (.function d)) {body : List C.Code} (hbody : AllTypes P body) :
    AllTypes P (d.code body c) := by
  obtain ⟨hresult, hparams⟩ := heading_allTypes h
  unfold code
  split
  · exact .nil
  · refine .quiet rfl (.single fun ty hty => ?_)
    have hmem : ty ∈ d.returnType
        :: ((Parameter.named d.params).spelled ++ C.Code.typesAll _) := hty
    rcases List.mem_cons.mp hmem with rfl | hmem
    · exact hresult
    · rcases List.mem_append.mp hmem with hparam | hinside
      · rw [Parameter.named, C.Params.spelled, List.map_map] at hparam
        exact hparams ty hparam
      · exact ((hc.declarations _ _ _).append hbody) ty hinside

theorem Method.argumentCode_allTypes (index : Nat) (params : List Parameter) :
    AllTypes P (argumentCode index params) := by
  induction params generalizing index with
  | nil => exact .nil
  | cons p rest ih => exact .quiet rfl (ih (index + 1))

theorem Method.code_allTypes {d : Method} {c : Checker} (hc : c.AllTypes P) {body : List C.Code}
    (hbody : AllTypes P body) : AllTypes P (d.code body c) := by
  unfold code
  split
  · exact .nil
  · refine .quiet rfl (.single fun ty hty => ?_)
    rcases List.mem_cons.mp hty with rfl | hinside
    · exact hc.object
    · refine AllTypes.append (.append (.append (.append ?_ ?_) ?_) hbody) ?_ ty hinside
      · exact hc.declarations _ _ _
      · exact .quiet rfl .nil
      · exact argumentCode_allTypes 0 d.params
      · exact .quiet rfl .nil

/-! ## Where a statement stands -/

namespace Stmt

variable {c : Checker}

theorem writes_types (hc : c.AllTypes P) :
    Writes c (Part.AllTypes P) fun line => ∀ ty ∈ line.types, P ty where
  values :=
    { location := fun _ _ hty => absurd hty List.not_mem_nil
      give := fun _ _ hty => absurd hty List.not_mem_nil
      evaluate := fun _ _ => Step.types_code
      dispose := fun _ => Step.types_code
      assign := fun _ _ _ _ hty => absurd hty List.not_mem_nil
      eval := fun _ _ hty => absurd hty List.not_mem_nil
      print := fun _ _ hty => absurd hty List.not_mem_nil }
  block _ hbody := allTypes_iff.mpr hbody
  branch _ _ hbody := List.forall_mem_append.mpr
    ⟨allTypes_iff.mpr hbody, List.forall_mem_nil _⟩
  branch_block _ _ _ hbody hother :=
    List.forall_mem_append.mpr ⟨allTypes_iff.mpr hbody, allTypes_iff.mpr hother⟩
  branch_branch _ _ _ _ _ hbody hother :=
    List.forall_mem_append.mpr ⟨allTypes_iff.mpr hbody, hother⟩
  loop e _ _ hbody := e.loopCode_allTypes (allTypes_iff.mpr hbody)
  count _ _ _ hbody := allTypes_iff.mpr hbody
  function _ _ hd hbody := allTypes_iff.mp (Function.code_allTypes hc hd (allTypes_iff.mpr hbody))
  method _ _ _ hbody := allTypes_iff.mp (Method.code_allTypes hc (allTypes_iff.mpr hbody))

end Stmt

/-! ## The top of the file -/

theorem Aggregate.header_allTypes (d : Aggregate) (part : HeaderSection) {c : Checker}
    (hc : c.AllTypes P) : AllTypes P (d.header part c) := by
  unfold header
  split
  · split
    · split
      · exact .nil
      · exact .quiet rfl .nil
    · refine .single fun ty hty => ?_
      obtain ⟨member, hmember, rfl⟩ := List.mem_map.mp hty
      exact hc.members _ member hmember
    · exact .nil
  · exact .nil

theorem Forward.header_allTypes (d : Forward) (part : HeaderSection) :
    AllTypes P (d.header part) := by
  unfold header
  split
  · exact .quiet rfl .nil
  · exact .nil

theorem TypeAlias.header_allTypes {d : TypeAlias} (part : HeaderSection)
    (h : Part.AllTypes P (.typeAlias d)) : AllTypes P (d.header part) := by
  unfold header
  split
  · exact .nil
  · rename_i hcond
    split
    · rename_i target htype
      -- an alias of a tag has no line, so this one has a signature
      have htag : ¬ d.isTagAlias = true := fun htag => hcond (by simp [htag])
      have hs : (Part.typeAlias d).signature? = some ⟨.type, d.name, d.type⟩ := if_neg htag
      refine .single fun ty hty => h _ hs ty ?_
      rw [htype]
      exact hty
    · exact .nil

theorem Prototype.header_allTypes {d : Prototype} (part : HeaderSection)
    (h : Part.AllTypes P (.prototype d)) : AllTypes P (d.header part) := by
  unfold header
  split
  · exact .nil
  · split
    · exact .quiet rfl .nil
    · split
      · rename_i fname cName params result htype
        have hs : (Part.prototype d).signature? = some ⟨.function, d.name,
            .function fname cName (Parameter.types d.params) result⟩ := by
          rw [Part.signature?, htype]
        exact .single (h _ hs)
      · exact .nil

theorem ClassDef.globals_allTypes (d : ClassDef) {c : Checker} (hc : c.AllTypes P) :
    AllTypes P (d.globals c) := by
  refine .cons (fun ty hty => ?_) ?_
  · rw [List.mem_singleton.mp hty]
    exact hc.object
  · split
    · exact hc.declarations _ _ _
    · exact .nil

namespace Stmt

variable {c : Checker}

mutual

theorem header_allTypes (part : HeaderSection) (hc : c.AllTypes P) : (stmt : Stmt) →
    (∀ p ∈ stmt.heads, Part.AllTypes P p) → AllTypes P (stmt.header part c)
  | .aggregate d _, _ => d.header_allTypes part hc
  | .forward d, _ => d.header_allTypes part
  | .typeAlias d, h => TypeAlias.header_allTypes part (h _ List.mem_cons_self)
  | .prototype d, h => Prototype.header_allTypes part (h _ List.mem_cons_self)
  | .library _ declarations _, h => by
      refine .append ?_ (headerAll_allTypes part hc declarations h)
      split
      · exact .quiet rfl .nil
      · exact .nil
  | .function d body, h => by
      obtain ⟨hd, hbody⟩ := List.forall_mem_cons.mp h
      refine .append ?_ (headerAll_allTypes part hc body hbody)
      split
      · exact .single (hd _ rfl)
      · exact .nil
  | .method d body, h => by
      refine .append ?_ (headerAll_allTypes part hc body (List.forall_mem_cons.mp h).2)
      split
      · refine .single fun ty hty => ?_
        rw [List.mem_singleton.mp hty]
        exact hc.object
      · exact .nil
  | .classDef d body, h => by
      refine .append ?_ (headerAll_allTypes part hc body (List.forall_mem_cons.mp h).2)
      split
      · exact d.globals_allTypes hc
      · exact .nil
  | .var _, _ | .array _, _ | .assign _, _ | .ret _, _ | .print _, _ | .evaluation _, _
  | .conditional _ _, _ | .count _ _, _ | .loop _ _ _, _ => .nil

theorem headerAll_allTypes (part : HeaderSection) (hc : c.AllTypes P) : (stmts : List Stmt) →
    (∀ p ∈ headsAll stmts, Part.AllTypes P p) → AllTypes P (headerAll part stmts c)
  | [], _ => .nil
  | stmt :: rest, h => by
      obtain ⟨hstmt, hrest⟩ := List.forall_mem_append.mp h
      exact (header_allTypes part hc stmt hstmt).append (headerAll_allTypes part hc rest hrest)

end

end Stmt

/-! ## The file -/

/-- **What all types of the scopes and of the nodes have in common, all types of the file have.** -/
theorem file_allTypes {unit : List Stmt} {c : Checker} (hc : c.AllTypes P)
    (h : ∀ p ∈ Stmt.headsAll unit, Part.AllTypes P p) (target : String) :
    AllTypes P (file unit c target) := by
  have hstandard : AllTypes P (standardHeaders.map .header) :=
    .quiet rfl (.quiet rfl (.quiet rfl .nil))
  have hlines (part : HeaderSection) : AllTypes P (sectionLines unit c part) := by
    refine .append ?_ (Stmt.headerAll_allTypes part hc unit h)
    split
    · exact hc.declarations _ _ _
    · exact .nil
  have hsection (part : HeaderSection) : AllTypes P (sectionCode unit c part) := by
    unfold sectionCode
    dsimp only
    split
    · exact .nil
    · exact (hlines part).append (.quiet rfl .nil)
  have hsections (parts : List HeaderSection) :
      AllTypes P (parts.flatMap (sectionCode unit c)) := by
    induction parts with
    | nil => exact .nil
    | cons part rest ih => exact (hsection part).append ih
  refine .append (.append (.append hstandard (hsections _)) ?_) (.single ?_)
  · exact allTypes_iff.mpr ((Stmt.writes_types hc).definitionCode unit h)
  · exact allTypes_iff.mpr ((Stmt.writes_types hc).startAll
      (fun _ _ _ _ hty => absurd hty List.not_mem_nil)
      (fun _ _ hty => absurd hty List.not_mem_nil) unit h)

end ExtensionCompiler

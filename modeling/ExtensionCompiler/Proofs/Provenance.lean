import ExtensionCompiler.Proofs.CompleteParts
import ExtensionCompiler.Proofs.Rescanned
import ExtensionCompiler.Proofs.Spelling

set_option autoImplicit false

/-! # Where the C names in types come from

A type carries the C names of the structures, unions and aliases in it (`Ty.cNames`). Neither pass
invents any: they resolve descriptors, rescan pending names and put arrays, functions and aliases
around what they get. So every C name in a type of a checked unit was there in the context, or it is
that of a type which a part of the unit introduces or announces (`Passes.file_known`).

The proof is an invariant of both passes, `Checker.Known`: all types that the registry and the
scopes hold have known names only. -/

namespace ExtensionCompiler

/-! ## Names in types -/

namespace Ty

mutual

/-- The C names of the structures, unions and aliases in a type, at any depth. -/
def cNames : Ty → List String
  | aggregate _ _ cName _ => [cName]
  | aliased _ cName target => cName :: target.cNames
  | pointer base _ => base.cNames
  | array base _ => base.cNames
  | function _ _ params result => cNamesIn params ++ result.cNames
  | primitive _ => []
  | object => []
  | pending _ => []

/-- The C names in a list of types. -/
def cNamesIn : List Ty → List String
  | [] => []
  | ty :: rest => ty.cNames ++ cNamesIn rest

end

theorem cNamesIn_eq_flatMap (tys : List Ty) : cNamesIn tys = tys.flatMap cNames := by
  induction tys with
  | nil => rfl
  | cons ty rest ih => rw [cNamesIn, ih, List.flatMap_cons]

theorem cNames_pointerTo (base : Ty) (depth : Nat) :
    (pointerTo base depth).cNames = base.cNames := by
  unfold pointerTo
  split
  · rfl
  · split <;> rfl

/-- All C names in the type are known. -/
def Known (K : String → Prop) (ty : Ty) : Prop := ∀ n ∈ ty.cNames, K n

variable {K : String → Prop}

theorem known_function {fname cName : Option String} {params : List Ty} {result : Ty}
    (hparams : ∀ ty ∈ params, ty.Known K) (hresult : result.Known K) :
    (function fname cName params result).Known K := by
  intro n hn
  rw [cNames, cNamesIn_eq_flatMap, List.mem_append, List.mem_flatMap] at hn
  rcases hn with ⟨ty, hty, hmem⟩ | hmem
  · exact hparams ty hty n hmem
  · exact hresult n hmem

theorem known_aliased {name cName : String} {target : Ty} (hname : K cName)
    (htarget : target.Known K) : (aliased name cName target).Known K := by
  exact List.forall_mem_cons.mpr ⟨hname, htarget⟩

theorem Known.spelled {type : Ty} (h : type.Known K) : ∀ ty ∈ type.spelled, ty.Known K := by
  intro ty hty n hn
  cases type with
  | aliased name cName target =>
      rw [List.mem_singleton.mp hty] at hn
      exact h n (List.mem_cons_of_mem _ hn)
  | function fname cName params result =>
      refine h n ?_
      rw [cNames, cNamesIn_eq_flatMap, List.mem_append, List.mem_flatMap]
      rcases List.mem_cons.mp hty with rfl | hparam
      · exact .inr hn
      · exact .inl ⟨ty, hparam, hn⟩
  | _ => cases hty

end Ty

namespace Registry

/-- All C names in what names stand for are known. -/
def Known (K : String → Prop) (registry : Registry) : Prop :=
  ∀ key, (registry.meaning key).Known K

variable {K : String → Prop} {registry : Registry}

theorem Known.register (h : registry.Known K) (name : String) {type : Ty} (htype : type.Known K)
    (position : Position) : (registry.register name type position).Known K := by
  intro key
  rw [meaning_register]
  split
  · exact htype
  · exact h key

mutual

theorem Known.rescan (h : registry.Known K) : (ty : Ty) → ty.Known K →
    (ty.rescan registry).Known K
  | .pending name, _ => by
      rw [Ty.rescan_pending]
      exact h name
  | .primitive _, hty => hty
  | .aggregate _ _ _ _, hty => hty
  | .object, hty => hty
  | .pointer base depth, hty => by
      rw [Ty.rescan, Ty.Known, Ty.cNames_pointerTo]
      exact h.rescan base hty
  | .array base size, hty => by
      rw [Ty.rescan]
      exact h.rescan base hty
  | .aliased name cName target, hty => by
      rw [Ty.rescan]
      refine Ty.known_aliased (hty cName List.mem_cons_self) ?_
      exact h.rescan target fun n hn => hty n (List.mem_cons_of_mem _ hn)
  | .function fname cName params result, hty => by
      rw [Ty.rescan]
      refine Ty.known_function (h.rescanAll params fun n hn => ?_) (h.rescan result fun n hn => ?_)
      · exact hty n (List.mem_append_left _ hn)
      · exact hty n (List.mem_append_right _ hn)

theorem Known.rescanAll (h : registry.Known K) : (tys : List Ty) →
    (∀ n ∈ Ty.cNamesIn tys, K n) → ∀ ty ∈ Ty.rescanAll registry tys, ty.Known K
  | [], _ => List.forall_mem_nil _
  | first :: rest, hall => by
      obtain ⟨hfirst, hrest⟩ := List.forall_mem_append.mp hall
      exact List.forall_mem_cons.mpr ⟨h.rescan first hfirst, h.rescanAll rest hrest⟩

end

theorem Known.resolveName (h : registry.Known K) (name : String) :
    (Ty.resolveName registry name).Known K := by
  rw [Ty.resolveName_eq]
  cases hk : Descriptor.keyword? name with
  | none => exact h _
  | some ty =>
      rcases Descriptor.type_of_keyword? hk with ⟨kind, rfl⟩ | rfl
      · exact List.forall_mem_nil _
      · exact List.forall_mem_nil _

mutual

theorem Known.resolve (h : registry.Known K) : (d : Descriptor) → (depth : Nat) →
    (Ty.resolve registry d depth).Known K
  | .named name, depth => by
      rw [Ty.resolve, Ty.Known, Ty.cNames_pointerTo]
      exact h.resolveName name
  | .signature base params resultDepth, depth => by
      rw [Ty.resolve, Ty.Known, Ty.cNames_pointerTo]
      refine Ty.known_function (h.resolveParams params) ?_
      rw [Ty.Known, Ty.cNames_pointerTo]
      exact h.resolveName base

theorem Known.resolveParams (h : registry.Known K) : (params : List (Descriptor × Nat)) →
    ∀ ty ∈ Ty.resolveParams registry params, ty.Known K
  | [] => List.forall_mem_nil _
  | (d, depth) :: rest => by
      exact List.forall_mem_cons.mpr ⟨h.resolve d depth, h.resolveParams rest⟩

end

end Registry

/-! ## What a visit introduces -/

namespace Visit

variable {v : Visit}

theorem typeCName?_of_aggregate (hok : v.outcome.error = none) {d : Aggregate}
    (hpart : v.part = .aggregate d) :
    v.result.part.typeCName?
      = some (d.typeName v.scope (v.before.addScope d.name .aggregate v.scope).2) := by
  obtain ⟨scope, c, p⟩ := v
  cases hpart
  obtain ⟨type, c₁, c₂, entry, htype, -, -, -, heq⟩ := Aggregate.declare_ok hok
  have hnode : (d.declare scope c).node = type := congrArg Outcome.node heq
  show (Part.aggregate { d with
    type := some (d.declare scope c).node
    scope := some scope
    memberScope := some c.scopes.length }).typeCName? = _
  rw [hnode, htype]
  rfl

/-- The entry of a type has the C name that the node has. -/
theorem Declares.typeCName? {id : ScopeId} {e : Entry} (h : v.Declares id e)
    (hok : v.outcome.error = none) (hkind : e.kind.isType = true) :
    v.result.part.typeCName? = some e.cName := by
  cases h with
  | object hnot _ | slot hnot _ _ | method _ hnot _ _ _ => cases hnot.symm.trans hkind
  | heading _ hfun _ =>
      rw [hfun] at hkind
      cases hkind
  | forward _ _ _ _ _ _ hresult => rw [hresult, Part.typeCName?]
  | @typeAlias d _ htag _ _ _ _ _ hresult =>
      rw [hresult, Part.typeCName?, if_neg]
      show ¬ d.isTagAlias = true
      rw [htag]
      exact Bool.false_ne_true
  | aggregate hpart _ _ _ hcName _ => rw [typeCName?_of_aggregate hok hpart, hcName]

end Visit

theorem Part.typeCName?_rescan (p : Part) (scope : ScopeId) (c : Checker) :
    (p.rescan scope c).1.typeCName? = p.typeCName? := by
  cases p with
  | typeAlias d =>
      show (Part.typeAlias (d.rescan scope c).1).typeCName? = _
      unfold TypeAlias.rescan
      split <;> rfl
  | function d | method d =>
      unfold rescan
      dsimp only
      split <;> rfl
  | _ => rfl

/-! ## Both passes -/

/-- All C names in the types of the registry and of the scopes are known. -/
structure Checker.Known (K : String → Prop) (c : Checker) : Prop where
  registry : c.registry.Known K
  entries : ∀ id name ty, c.typeIn? id name = some ty → ty.Known K

section Passes

variable {K : String → Prop} {v : Visit}

theorem Visit.known_rescanned (hok : v.outcome.error = none)
    (hK : ∀ n, v.result.part.typeCName? = some n → K n) (h : v.before.registry.Known K) :
    ∀ ty ∈ v.result.part.rescanned, ty.Known K := by
  intro ty hty
  cases resolves_of_mem_rescanned hok hty with
  | announced _ => exact List.forall_mem_nil _
  | written _ | array _ => exact h.resolve _ _
  | aliased _ hcName => exact Ty.known_aliased (hK _ hcName) (h.resolve _ _)

theorem Part.known_of_signature? {p : Part} (hp : ∀ ty ∈ p.rescanned, ty.Known K)
    {kind : EntryKind} {name : String} {type : Ty}
    (hs : p.signature? = some ⟨kind, name, type⟩) : type.Known K := by
  rcases signature?_form hs with hself | ⟨fname, cName, params, result, rfl, hmem⟩
  · exact hp type hself
  · refine Ty.known_function (fun ty hty => ?_) ?_
    · exact hp ty (hmem ty (List.mem_append_left _ hty))
    · exact hp result (hmem result (List.mem_append_right _ (List.mem_singleton_self _)))

/-- The type of an entry has known names if the context of the visit has. -/
theorem Visit.Declares.known {id : ScopeId} {e : Entry} (h : v.Declares id e)
    (hok : v.outcome.error = none) (hK : ∀ n, v.result.part.typeCName? = some n → K n)
    (hbefore : v.before.registry.Known K) : e.type.Known K := by
  have hnode := known_rescanned hok hK hbefore
  have hown (hkind : e.kind.isType = true) : K e.cName := hK _ (h.typeCName? hok hkind)
  cases h with
  | object _ htype =>
      rw [htype]
      exact List.forall_mem_nil _
  | slot _ _ hmem => exact hnode _ hmem
  | method params _ htype hmem _ =>
      rw [htype]
      exact Ty.known_function (fun ty hty => hnode ty (hmem ty hty))
        (List.forall_mem_nil _)
  | heading _ _ hs => exact Part.known_of_signature? hnode hs
  | forward _ _ _ hkind _ htype _ =>
      rw [htype]
      exact Ty.known_aliased (hown (by rw [hkind]; rfl)) (hbefore _)
  | typeAlias _ _ _ _ hkind _ htype _ =>
      rw [htype]
      exact Ty.known_aliased (hown (by rw [hkind]; rfl)) (hbefore.resolve _ _)
  | aggregate _ _ _ hkind _ htype =>
      rw [htype]
      intro n hn
      rw [List.mem_singleton.mp hn]
      exact hown (by rw [hkind]; rfl)

/-- What a visit binds has known names. -/
theorem Visit.Introduces.known {name : String} {type : Ty} {position : Position}
    (h : v.Introduces name type position) (hok : v.outcome.error = none)
    (hname : v.part.typeName? = some name)
    (hK : ∀ n, v.result.part.typeCName? = some n → K n) (hbefore : v.before.registry.Known K) :
    type.Known K := by
  cases hp : v.part with
  | aggregate d =>
      have hcName := typeCName?_of_aggregate hok hp
      obtain ⟨scope, c, p⟩ := v
      cases hp
      cases hname
      obtain ⟨type', c₁, c₂, entry, htype, hc₁, -, hdeclare, heq⟩ := Aggregate.declare_ok hok
      have hsame : type = type' := by
        rw [← h.meaning_after]
        show (d.declare scope c).checker.registry.meaning d.name = _
        rw [heq]
        show c₂.registry.meaning d.name = _
        rw [Checker.registry_of_declare hdeclare, hc₁, Checker.register,
          Registry.meaning_register, if_pos rfl]
      rw [hsame, htype]
      intro n hn
      rw [List.mem_singleton.mp hn]
      exact hK _ hcName
  | typeAlias d =>
      obtain ⟨cName, htype, hresult⟩ := h.type_of_alias hok hp hname
      refine known_rescanned hok hK hbefore type ?_
      rw [hp, Part.typeName?] at hname
      split at hname
      · cases hname
      · rename_i htag
        have htag' : ¬ TypeAlias.isTagAlias { d with cName, type } = true := htag
        rw [hresult, Part.rescanned, if_neg htag']
        exact List.mem_singleton_self _
  | _ =>
      rw [hp] at hname
      cases hname

/-- The first pass, one visit. -/
theorem Visit.known_after (hok : v.outcome.error = none)
    (hscope : v.scope < v.before.scopes.length)
    (hK : ∀ n, v.result.part.typeCName? = some n → K n) (h : v.before.Known K) :
    v.after.Known K where
  registry := by
    cases hv : v.part.typeName? with
    | none =>
        rw [(registry_of_typeName?_eq_none hv v.before).1]
        exact h.registry
    | some name =>
        obtain ⟨type, position, hintro⟩ := introduces hok hv
        rw [hintro.early]
        exact h.registry.register name (hintro.known hok hv hK h.registry) position
  entries id name ty hty := by
    obtain ⟨e, he, rfl⟩ := Option.map_eq_some_iff.mp hty
    rcases adds hok hscope id name e he with hold | ⟨hnew, -⟩
    · refine h.entries id name e.type ?_
      rw [Checker.typeIn?, hold]
      rfl
    · exact hnew.known hok hK h.registry

/-- The second pass, one revisit. -/
theorem Visit.known_settle (hok : v.outcome.error = none)
    (hK : ∀ n, v.result.part.typeCName? = some n → K n) (hbefore : v.before.registry.Known K)
    {r : Checker} (h : r.Known K) :
    (v.settle r).2.Known K ∧ ∀ ty ∈ (v.settle r).1.rescanned, ty.Known K := by
  have hnode := known_rescanned hok hK hbefore
  have hrescan (ty : Ty) (hty : ty ∈ v.result.part.rescanned) := h.registry.rescan ty (hnode ty hty)
  refine ⟨⟨?_, fun id name ty hty => ?_⟩, fun ty hty => ?_⟩
  · cases hv : v.part.typeName? with
    | none =>
        rw [(registry_of_typeName?_eq_none hv r).2]
        exact h.registry
    | some name =>
        obtain ⟨type, position, hintro⟩ := introduces hok hv
        rw [hintro.late r]
        split
        · refine h.registry.register name (h.registry.rescan type ?_) position
          exact hintro.known hok hv hK hbefore
        · exact h.registry
  · have hgives : r.Gives (Ty.Known K) (v.settle r).2 := by
      refine v.result.part.gives_rescan v.scope r (fun _ _ _ _ => Ty.known_function) ?_ ?_
      · intro d hd
        refine Ty.known_aliased (hK _ ?_) (h.registry _)
        rw [hd, Part.typeCName?]
      · intro ty hty
        refine ⟨hrescan ty hty, ?_⟩
        unfold Ty.settle
        split
        · exact hrescan ty hty
        · exact hnode ty hty
    rcases hgives id name with hkept | ⟨new, hnew, hknown⟩
    · exact h.entries id name ty (hkept ▸ hty)
    · cases hnew.symm.trans hty
      exact hknown
  · obtain ⟨old, hold, rfl | rfl⟩ := Part.stemsFrom_rescan hty
    · exact hnode _ hold
    · exact hrescan old hold

end Passes

theorem Run.known {c c' : Checker} {visits : List Visit} (h : Run c visits c')
    (hscope : ∀ v ∈ visits, v.scope < v.before.scopes.length) {K : String → Prop}
    (hK : ∀ v ∈ visits, ∀ n, v.result.part.typeCName? = some n → K n) (hc : c.Known K) :
    c'.Known K ∧ ∀ v ∈ visits, v.before.registry.Known K := by
  obtain ⟨hend, hstates⟩ := h.invariant hc fun v hv hok hbefore =>
    Visit.known_after hok (hscope v hv) (hK v hv) hbefore
  exact ⟨hend, fun v hv => (hstates v hv).registry⟩

theorem Run.settleAll_known {c c' : Checker} {visits : List Visit} (h : Run c visits c')
    {K : String → Prop} (hK : ∀ v ∈ visits, ∀ n, v.result.part.typeCName? = some n → K n)
    (hbefore : ∀ v ∈ visits, v.before.registry.Known K) (r : Checker) (hr : r.Known K) :
    (Visit.settleAll visits r).Known K
      ∧ ∀ x ∈ Visit.revisits visits r, ∀ ty ∈ (x.visit.settle x.state).1.rescanned,
          ty.Known K := by
  have hsettle (x : Revisit) (hx : x ∈ Visit.revisits visits r) :=
    have hv := (h.at_revisit r hx).1
    Visit.known_settle (h.at_revisit r hx).2.1 (hK _ hv) (hbefore _ hv) (r := x.state)
  obtain ⟨hend, hstates⟩ := h.invariant_revisits (I := fun _ r => r.Known K) hr
    fun x hx _ _ _ hr => (hsettle x hx hr).1
  exact ⟨hend, fun x hx => (hsettle x hx (hstates x hx)).2⟩

/-! ## The file -/

namespace Passes

variable {unit : List Stmt} {registry : Registry} {checked : Checked} {visits : List Visit}
  {middle : Checker}

/-- What a visit has made of its part is one of the parts of the checked unit, up to the types. -/
theorem exists_part (h : Passes unit registry checked visits middle) {v : Visit} (hv : v ∈ visits) :
    ∃ state, ⟨v.scope, (v.settle state).1⟩ ∈ Stmt.partsAll checked.unit Checker.global := by
  rw [← Visit.map_visit_revisits visits middle] at hv
  obtain ⟨x, hx, rfl⟩ := List.mem_map.mp hv
  refine ⟨x.state, ?_⟩
  rw [h.parts_eq]
  exact List.mem_map.mpr ⟨x, hx, rfl⟩

/-- The C names that a unit can use for types: those of its context, and those of the types that its
parts introduce or announce. -/
def Names (registry : Registry) (unit : List Stmt) (n : String) : Prop :=
  (∃ key, n ∈ (registry.meaning key).cNames)
    ∨ ∃ p ∈ Stmt.partsAll unit Checker.global, p.part.typeCName? = some n

/-- **Every C name in a type of the file** comes from the context, or a part of the unit introduces
or announces the type that has it. -/
theorem file_known (h : Passes unit registry checked visits middle) (target : String) :
    ∀ ty ∈ C.Code.typesAll (file checked.unit checked.checker target),
      ty.Known (Names registry checked.unit) := by
  have hK : ∀ v ∈ visits, ∀ n, v.result.part.typeCName? = some n →
      Names registry checked.unit n := by
    intro v hv n hn
    obtain ⟨state, hmem⟩ := h.exists_part hv
    refine .inr ⟨_, hmem, ?_⟩
    exact (Part.typeCName?_rescan _ _ _).trans hn
  have hstart : (Checker.start registry).Known (Names registry checked.unit) := by
    refine ⟨fun key n hn => .inl ⟨key, hn⟩, fun id name ty hty => ?_⟩
    rw [Checker.typeIn?, Checker.entryIn?_start] at hty
    cases hty
  obtain ⟨hmiddle, hbefore⟩ := h.run.known h.inRange hK hstart
  obtain ⟨hend, hnodes⟩ := h.run.settleAll_known hK hbefore middle hmiddle
  rw [h.settleAll_eq] at hend
  refine file_allTypes ⟨List.forall_mem_nil _, fun id e he => ?_,
    fun id t ht => ?_⟩ (h.forall_heads ?_) target
  · cases hs : checked.checker.scopes[id]? with
    | none =>
        rw [Checker.scope, hs] at he
        cases he
    | some s =>
        rw [Checker.scope_eq_of_getElem? hs] at he
        exact hend.entries id e.name e.type (h.tidy.typeIn?_of_mem hs he)
  · rcases checked.checker.scope_mem_or_eq id with hmem | hempty
    · rw [h.tidy.temps _ hmem t ht]
      exact List.forall_mem_nil _
    · rw [hempty] at ht
      cases ht
  · rintro p hp ⟨kind, name, type⟩ hs ty hty
    obtain ⟨x, hx, hok, rfl⟩ := h.exists_revisit hp
    exact (Part.known_of_signature? (hnodes x hx) hs).spelled ty hty

end Passes

end ExtensionCompiler

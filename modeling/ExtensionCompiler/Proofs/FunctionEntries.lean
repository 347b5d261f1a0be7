import ExtensionCompiler.Proofs.Callables
import ExtensionCompiler.Proofs.Canonical
import ExtensionCompiler.Proofs.Typedefs

set_option autoImplicit false

/-! # The entry of a function in the end

A function can be declared by a prototype and completed by a definition. Both have nodes with types
of their own, and one entry. The first pass compares each definition with the entry that it
completes (`Visit.entry_of_callable?`). The second gives the entry the type of every node that it
comes to, so that the last one is what remains (`Passes.entry_of_function`).

Whether all nodes have the type of the entry then depends on the names that were pending in the
first pass. If every name is bound once at most, they mean the same at all moments at which they are
looked up, and types that were the same still are (`Passes.same_entry`). `Passes.entry_of_settled`
says both of the nodes of a checked unit. -/

namespace ExtensionCompiler

/-! ## What holds of the types that names stand for -/

/-- All names stand for types with the property `P`. -/
def Registry.All (P : Ty → Prop) (registry : Registry) : Prop := ∀ key, P (registry.meaning key)

section

variable {P : Ty → Prop} {c c' : Checker} {visits : List Visit}

theorem Registry.All.register {registry : Registry} (h : registry.All P) (name : String) {type : Ty}
    (htype : P type) (position : Position) : (registry.register name type position).All P := by
  intro key
  rw [meaning_register]
  split
  · exact htype
  · exact h key

/-- The first pass binds names to structures, and to aliases of what it resolves. -/
theorem Run.all
    (haggregate : ∀ kind tag cName scope, P (.aggregate kind tag cName scope))
    (halias : ∀ registry : Registry, registry.All P → ∀ name cName d depth,
      P (.aliased name cName (Ty.resolve registry d depth)))
    (h : Run c visits c') (hc : c.registry.All P) :
    c'.registry.All P ∧ ∀ v ∈ visits, v.before.registry.All P := by
  refine h.invariant (I := fun c => c.registry.All P) hc fun v _ hok hbefore => ?_
  cases hv : v.part.typeName? with
  | none => rwa [(Visit.registry_of_typeName?_eq_none hv v.before).1]
  | some name =>
      obtain ⟨type, position, hintro⟩ := Visit.introduces hok hv
      rw [hintro.early]
      refine hbefore.register name ?_ position
      rcases hintro.form with ⟨kind, tag, cName, scope, rfl⟩ | ⟨cName, d, depth, rfl⟩
      · exact haggregate kind tag cName scope
      · exact halias _ hbefore name cName d depth

/-- The second pass binds names to aliases only. -/
theorem Run.all_settled (halias : ∀ name cName target, P (.aliased name cName target))
    (h : Run c visits c') (r : Checker) (hr : r.registry.All P) :
    (Visit.settleAll visits r).registry.All P
      ∧ ∀ x ∈ Visit.revisits visits r, x.state.registry.All P := by
  refine h.invariant_revisits (I := fun _ r => r.registry.All P) hr fun x _ hok _ _ hr => ?_
  cases Visit.binds hok x.state with
  | nothing _ hlate | settled _ _ hlate => rwa [hlate]
  | pendingAlias _ htype _ hlate =>
      rw [hlate, htype, Ty.rescan]
      exact hr.register _ (halias _ _ _) _

end

/-! ## Types without pointers over pointers -/

namespace Ty

theorem flat_pointerTo {base : Ty} (h : base.Flat) (depth : Nat) : (pointerTo base depth).Flat := by
  unfold pointerTo
  split
  · exact h
  · split
    · exact h
    · rename_i hne
      refine ⟨?_, h⟩
      cases base with
      | pointer inner innerDepth => exact absurd rfl (hne inner innerDepth)
      | _ => rfl

theorem flatAll_iff {tys : List Ty} : FlatAll tys ↔ ∀ ty ∈ tys, ty.Flat := by
  induction tys with
  | nil => simp [FlatAll]
  | cons ty rest ih => simp [FlatAll, ih]

variable {registry : Registry}

theorem rescanAll_eq_map (tys : List Ty) : rescanAll registry tys = tys.map (rescan registry) := by
  induction tys with
  | nil => rfl
  | cons ty rest ih => rw [rescanAll, ih, List.map_cons]

theorem flat_resolveName (h : registry.All Flat) (name : String) :
    (resolveName registry name).Flat := by
  rw [resolveName_eq]
  cases hkeyword : Descriptor.keyword? name with
  | none => exact h _
  | some ty =>
      rcases Descriptor.type_of_keyword? hkeyword with ⟨kind, rfl⟩ | rfl
      · exact trivial
      · exact trivial

mutual

theorem flat_resolve (h : registry.All Flat) : (d : Descriptor) → (depth : Nat) →
    (resolve registry d depth).Flat
  | .named name, depth => by
      rw [resolve]
      exact flat_pointerTo (flat_resolveName h name) depth
  | .signature base params resultDepth, depth => by
      have hresult := flat_pointerTo (flat_resolveName h base) resultDepth
      have hfunction : (function none none (resolveParams registry params)
          (pointerTo (resolveName registry base) resultDepth)).Flat :=
        ⟨flatAll_resolveParams h params, hresult⟩
      rw [resolve]
      exact flat_pointerTo hfunction _

theorem flatAll_resolveParams (h : registry.All Flat) : (params : List (Descriptor × Nat)) →
    FlatAll (resolveParams registry params)
  | [] => trivial
  | (d, depth) :: rest => ⟨flat_resolve h d depth, flatAll_resolveParams h rest⟩

end

end Ty

/-! ## Nodes of functions -/

namespace Part

theorem signature?_of_callable? {p : Part} {e : Entry} (h : p.callable? = some e)
    (hkind : e.kind = .function) : p.signature? = some ⟨.function, e.name, e.type⟩ := by
  cases p with
  | prototype d =>
      rw [callable?] at h
      split at h
      · rename_i htype
        cases h
        rw [signature?, htype]
      · cases h
  | function d =>
      cases h
      rfl
  | method d =>
      cases h
      cases hkind
  | _ => cases h

theorem callable?_of_signature? {p : Part} {name : String} {type : Ty}
    (h : p.signature? = some ⟨.function, name, type⟩) :
    ∃ e, p.callable? = some e ∧ e.kind = .function ∧ e.name = name ∧ e.type = type := by
  cases p with
  | typeAlias d =>
      rw [signature?] at h
      split at h <;> cases h
  | prototype d =>
      rw [signature?] at h
      split at h
      · rename_i htype
        cases h
        rw [callable?, htype]
        exact ⟨_, rfl, rfl, rfl, rfl⟩
      · cases h
  | function d =>
      cases h
      exact ⟨_, rfl, rfl, rfl, rfl⟩
  | _ => cases h

end Part

namespace Visit

variable {v : Visit} {e : Entry}

/-- The types in the heading of a function are what descriptors resolve to. -/
theorem resolved_of_callable? (hok : v.outcome.error = none)
    (he : v.result.part.callable? = some e) (hkind : e.kind = .function) :
    ∃ name cName params result, e.type = .function name cName params result
      ∧ ∀ ty ∈ params ++ [result], ∃ d depth, ty = Ty.resolve v.before.registry d depth := by
  obtain ⟨scope, c, p⟩ := v
  have hresolved {declare : Bool} {inner : ScopeId} {params params' : List Parameter}
      {c₀ c₁ : Checker} (hparams : Parameter.analyseAll declare inner params c₀ = .ok params' c₁)
      (hregistry : c₀.registry = c.registry) (d : Descriptor) (depth : Nat) :
      ∀ ty ∈ Parameter.types params' ++ [Ty.resolve c₁.registry d depth],
        ∃ d depth, ty = Ty.resolve c.registry d depth := by
    intro ty hty
    rcases List.mem_append.mp hty with hparam | hresult
    · obtain ⟨p, -, rfl⟩ := Parameter.resolved_of_analyseAll hparams ty hparam
      exact ⟨_, _, by rw [hregistry]⟩
    · rw [List.mem_singleton.mp hresult, Parameter.registry_of_analyseAll hparams, hregistry]
      exact ⟨_, _, rfl⟩
  cases p with
  | prototype d =>
      obtain ⟨params, c₁, c₂, entry, hparams, hentry, -, heq⟩ := Prototype.analyse_ok hok
      change (Part.prototype (d.analyse scope c).node).callable? = some e at he
      rw [heq, hentry] at he
      cases he
      exact ⟨_, _, _, _, rfl, hresolved hparams rfl d.descriptor d.depth⟩
  | function d =>
      obtain ⟨c₁, hparams, hresult⟩ := (Function.enter_entered hok).heading
      change (Part.function (d.enter scope c).node).callable? = some e at he
      cases he
      refine ⟨_, _, _, _, rfl, ?_⟩
      rw [hresult]
      exact hresolved hparams rfl d.descriptor d.depth
  | method d =>
      cases he
      cases hkind
  | _ => cases he

/-- The node of a function after the second pass comes from one after the first. -/
theorem callable?_of_settle (hok : v.outcome.error = none) {r : Checker}
    (he : (v.settle r).1.callable? = some e) (hkind : e.kind = .function) :
    ∃ old name cName params result, v.result.part.callable? = some old ∧ old.kind = .function
      ∧ old.type = .function name cName params result
      ∧ e = { old with type := .function name cName (params.map (Ty.settle r.registry))
                        (result.rescan r.registry) } := by
  have hsigned := Part.signature?_of_callable? he hkind
  have hentered := isEntered_result hok
  cases hsig : v.result.part.signature? with
  | none => cases (Part.signature?_rescan_eq_none hsig v.scope r).symm.trans hsigned
  | some signature =>
      obtain ⟨kind, before, type⟩ := signature
      obtain ⟨settled, hsettled, -⟩ := Part.signature?_rescan v.scope r hsig hentered
      cases hsettled.symm.trans hsigned
      obtain ⟨old, hold, holdKind, -⟩ := Part.callable?_of_signature? hsig
      obtain ⟨name, cName, params, result, htype, hlast⟩ :=
        Part.callable?_rescan hold hentered v.scope r
      exact ⟨old, name, cName, params, result, hold, holdKind, htype,
        Option.some.inj (he.symm.trans hlast)⟩

/-- A function has an entry of its C name after the visit, whose type is the same. -/
theorem entry_of_callable? (hok : v.outcome.error = none)
    (hscope : v.scope < v.before.scopes.length) (he : v.result.part.callable? = some e)
    (hkind : e.kind = .function) :
    ∃ entry, v.after.entryIn? v.scope e.name = some entry ∧ entry.kind = .function
      ∧ entry.cName = e.cName ∧ entry.type.same e.type = true := by
  obtain ⟨scope, c, p⟩ := v
  cases p with
  | prototype d =>
      obtain ⟨params, c₁, c₂, entry, hparams, hentry, hdeclare, heq⟩ := Prototype.analyse_ok hok
      have hedits := Parameter.analyseAll_edits (b := true) false scope d.params c
      rw [hparams] at hedits
      have hfound := Checker.entryIn?_of_declare hdeclare
        (Nat.lt_of_lt_of_le hscope hedits.grows.length_le)
      change (Part.prototype (d.analyse scope c).node).callable? = some e at he
      show ∃ entry, (d.analyse scope c).checker.entryIn? scope e.name = some entry ∧ _
      rw [heq] at he ⊢
      subst hentry
      cases he
      exact ⟨_, hfound, rfl, rfl, Ty.same_refl _⟩
  | function d =>
      have hedits := Parameter.analyseAll_edits (b := true) true c.scopes.length d.params
        (c.addScope d.name .function scope).2
      have hentered := Function.enter_entered hok
      change (Part.function (d.enter scope c).node).callable? = some e at he
      show ∃ entry, (d.enter scope c).checker.entryIn? scope e.name = some entry ∧ _
      generalize (d.enter scope c).node = node at hentered he
      generalize (d.enter scope c).checker = after at hentered ⊢
      cases hentered with
      | completes hparams hresult hproto =>
          obtain ⟨entry, hget, hfun, hcName, hsame⟩ := Function.prototype?_eq_some hproto
          rw [Checker.get?_scope] at hget
          cases he
          exact ⟨entry, hget, hfun, hcName, hsame _ _⟩
      | @declares params c₁ c₂ returnType entry hparams hresult hentry hdeclare =>
          rw [hparams] at hedits
          have hopen : Checker.Edits true c
              (c₁.setReturnType c.scopes.length (some returnType)) :=
            ((c.edits_addScope d.name .function scope).trans hedits).tail (.setReturnType _ _ _)
          have hfound := Checker.entryIn?_of_declare hdeclare
            (Nat.lt_of_lt_of_le hscope hopen.grows.length_le)
          subst hentry
          cases he
          exact ⟨_, hfound, rfl, rfl, Ty.same_refl _⟩
  | method d =>
      cases he
      cases hkind
  | _ => cases he

end Visit

/-! ## Both passes -/

theorem Registry.Blank.own {registry : Registry} (h : registry.Blank) : registry.Own := by
  intro name ty hget m hm
  have hmeaning := h name
  rw [meaning, hget, Option.getD_some] at hmeaning
  rw [hmeaning] at hm
  exact List.mem_singleton.mp hm

namespace Passes

variable {unit : List Stmt} {registry : Registry} {checked : Checked} {visits : List Visit}
  {middle : Checker}

/-- The entry that a function has when the first pass is done. -/
theorem entry_of_callable? (h : Passes unit registry checked visits middle) {x : Revisit}
    (hx : x ∈ Visit.revisits visits middle) {e : Entry}
    (he : x.visit.result.part.callable? = some e) (hkind : e.kind = .function) :
    ∃ entry, middle.entryIn? x.visit.scope e.name = some entry ∧ entry.kind = .function
      ∧ entry.cName = e.cName ∧ entry.type.same e.type = true := by
  obtain ⟨hmem, hok, -, rest, hrest, -⟩ := h.run.at_revisit middle hx
  obtain ⟨entry, hentry, hforms⟩ :=
    Visit.entry_of_callable? hok (h.inRange x.visit hmem) he hkind
  exact ⟨entry, hrest.grows.entryIn? hentry, hforms⟩

/-- **The entry of a function.** It has the C name of the function, and the type of the last node
that the second pass comes to under its name: that of the function itself, or of one that completes
it. -/
theorem entry_of_function (h : Passes unit registry checked visits middle) {x : Revisit}
    (hx : x ∈ Visit.revisits visits middle) {e : Entry}
    (he : x.visit.result.part.callable? = some e) (hkind : e.kind = .function) :
    ∃ entry, checked.checker.entryIn? x.visit.scope e.name = some entry
      ∧ entry.kind = .function ∧ entry.cName = e.cName
      ∧ ∃ y ∈ Visit.revisits visits middle, y.visit.scope = x.visit.scope
        ∧ (y.visit.settle y.state).1.signature? = some ⟨.function, e.name, entry.type⟩ := by
  obtain ⟨hmem, hok, hretyped, rest, hrest, hfinal, hsub⟩ := h.run.at_revisit middle hx
  obtain ⟨old, hold, hfun, hcName, -⟩ :=
    Visit.entry_of_callable? hok (h.inRange x.visit hmem) he hkind
  have hmiddle := hrest.grows.entryIn? hold
  -- the revisit gives the entry the type of its node
  have hthere : (x.state.typeIn? x.visit.scope e.name).isSome := by
    rw [hretyped.isSome_typeIn?, Checker.typeIn?, hmiddle]
    rfl
  obtain ⟨settled, hsettled, -, hgiven⟩ := Part.signature?_rescan x.visit.scope x.state
    (Part.signature?_of_callable? he hkind) (Visit.isEntered_result hok)
  have hnow := hgiven (.inl rfl) hthere
  have hstill : ((x.visit.settle x.state).2.typeIn? x.visit.scope e.name).isSome := by
    rw [Visit.settle, hnow]
    rfl
  -- and so do the revisits of the functions that complete it
  obtain ⟨type, htype, y, hy, hscope, hsigned⟩ : ∃ type,
      checked.checker.typeIn? x.visit.scope e.name = some type
        ∧ ∃ y ∈ Visit.revisits visits middle, y.visit.scope = x.visit.scope
          ∧ (y.visit.settle y.state).1.signature? = some ⟨.function, e.name, type⟩ := by
    rcases hrest.last_settled hold _ hstill with
      hkept | ⟨-, y, hy, hscope, -, last, -, -, hlast, hgave⟩
    · rw [hfinal, h.settleAll_eq, Visit.settle, hnow] at hkept
      exact ⟨settled, hkept, x, hx, rfl, hsettled⟩
    · rw [hfinal, h.settleAll_eq] at hgave
      exact ⟨last, hgave, y, hsub y hy, hscope, hlast⟩
  obtain ⟨entry, hentry, rfl⟩ := Option.map_eq_some_iff.mp htype
  obtain ⟨same, hsame, hsameName, hsameKind⟩ := h.entryIn?_middle hentry
  cases hsame.symm.trans hmiddle
  exact ⟨entry, hentry, hsameKind ▸ hfun, hsameName ▸ hcName, y, hy, hscope, hsigned⟩

section Distinct

variable (h : Passes unit registry checked visits middle) (hblank : registry.Blank)
  (hdistinct : (Visit.typeNames visits).Nodup)

include h hblank hdistinct

omit hdistinct in
theorem flat_before {v : Visit} (hv : v ∈ visits) : v.before.registry.All Ty.Flat := by
  have hstart : (Checker.start registry).registry.All Ty.Flat := by
    intro key
    show (registry.meaning key).Flat
    rw [hblank key]
    exact trivial
  refine (h.run.all (fun _ _ _ _ => trivial) (fun r hr name cName d depth => ?_) hstart).2 v hv
  exact Ty.flat_resolve hr d depth

/-- What was resolved on a visit and settled on the revisit is what a rescan in the last state makes
of it. -/
theorem settle_resolved {x : Revisit} (hx : x ∈ Visit.revisits visits middle) {ty : Ty}
    {d : Descriptor} {depth : Nat} (hty : ty = Ty.resolve x.visit.before.registry d depth)
    (hnil : (ty.settle x.state.registry).pendings = []) :
    ty.settle x.state.registry = ty.rescan checked.checker.registry := by
  have hlast : ty.settle x.state.registry = Ty.resolve checked.checker.registry d depth :=
    h.settled_resolve hblank hdistinct hx d depth hty rfl hnil
  rw [hlast, hty]
  exact (Ty.rescan_resolve (h.before_settlesTo hblank hdistinct hx) d depth).symm

/-- The type of a function was resolved on the visit, and in the end it is what a rescan in the last
state makes of that. -/
theorem settled_function {x : Revisit} (hx : x ∈ Visit.revisits visits middle) {name : String}
    {type : Ty} (hs : (x.visit.settle x.state).1.signature? = some ⟨.function, name, type⟩) :
    ∃ e, x.visit.result.part.callable? = some e ∧ e.kind = .function ∧ e.name = name
      ∧ e.type.Flat ∧ type = e.type.rescan checked.checker.registry := by
  obtain ⟨hmem, hok, -⟩ := h.run.at_revisit middle hx
  obtain ⟨last, hlast, hlastKind, hlastName, hlastType⟩ := Part.callable?_of_signature? hs
  obtain ⟨e, own, cName, params, result, he, hkind, htype, rfl⟩ :=
    Visit.callable?_of_settle hok hlast hlastKind
  obtain ⟨_, _, _, _, htype', hresolved⟩ := Visit.resolved_of_callable? hok he hkind
  cases htype.symm.trans htype'
  have hflat : ∀ ty ∈ params ++ [result], ty.Flat := by
    intro ty hty
    obtain ⟨d, depth, rfl⟩ := hresolved ty hty
    exact Ty.flat_resolve (h.flat_before hblank hmem) d depth
  have hnil : (Ty.function own cName (params.map (Ty.settle x.state.registry))
      (result.rescan x.state.registry)).pendings = [] :=
    (h.settled_signature (h.mem_parts hx) (hlastType ▸ hs)).2.2 hblank.own
  obtain ⟨hparams, hresult⟩ := List.append_eq_nil_iff.mp hnil
  rw [Ty.waitingIn_eq_flatMap, List.flatMap_eq_nil_iff, List.forall_mem_map] at hparams
  refine ⟨e, he, hkind, hlastName, ?_, ?_⟩
  · rw [htype]
    exact ⟨Ty.flatAll_iff.mpr fun ty hty => hflat ty (List.mem_append_left _ hty),
      hflat result (List.mem_append_right _ (List.mem_singleton_self _))⟩
  · have hsettledParams : params.map (Ty.settle x.state.registry)
        = params.map (Ty.rescan checked.checker.registry) := by
      refine List.map_congr_left fun ty hty => ?_
      obtain ⟨d, depth, hd⟩ := hresolved ty (List.mem_append_left _ hty)
      exact h.settle_resolved hblank hdistinct hx hd (hparams ty hty)
    have hsettledResult : result.rescan checked.checker.registry
        = result.rescan x.state.registry := by
      refine Ty.rescan_congr result fun m hm => ?_
      exact (h.state_keptIn hdistinct hx).1 m (Registry.pendings_rescan_eq_nil_iff.mp hresult m hm)
    rw [← hlastType, htype, Ty.rescan, Ty.rescanAll_eq_map, hsettledResult, ← hsettledParams]

omit hdistinct in
/-- No name stands for a pointer. -/
theorem pointerless : checked.checker.registry.Pointerless := by
  have hstart : (Checker.start registry).registry.All fun ty => ty.isBarePointer = false := by
    intro key
    show (registry.meaning key).isBarePointer = false
    rw [hblank key]
    rfl
  have hmiddle := (h.run.all (fun _ _ _ _ => rfl) (fun _ _ _ _ _ _ => rfl) hstart).1
  have hend := (h.run.all_settled (fun _ _ _ => rfl) middle hmiddle).1
  rw [h.settleAll_eq] at hend
  intro name ty hget
  have hty := hend name
  rwa [Registry.meaning, hget] at hty

/-- **All nodes of a function have the type of its entry**, if names of types are bound once. -/
theorem same_entry {x y : Revisit} (hx : x ∈ Visit.revisits visits middle)
    (hy : y ∈ Visit.revisits visits middle) (hscope : y.visit.scope = x.visit.scope)
    {name : String} {type last : Ty}
    (hs : (x.visit.settle x.state).1.signature? = some ⟨.function, name, type⟩)
    (hlast : (y.visit.settle y.state).1.signature? = some ⟨.function, name, last⟩) :
    type.same last = true := by
  obtain ⟨e, he, hekind, rfl, heflat, rfl⟩ := h.settled_function hblank hdistinct hx hs
  obtain ⟨f, hf, hfkind, hname, hfflat, rfl⟩ := h.settled_function hblank hdistinct hy hlast
  -- the first pass has compared both with the entry that they share
  obtain ⟨entry, hentry, -, -, hesame⟩ := h.entry_of_callable? hx he hekind
  obtain ⟨entry', hentry', -, -, hfsame⟩ := h.entry_of_callable? hy hf hfkind
  rw [hname, hscope] at hentry'
  cases hentry'.symm.trans hentry
  have hsame : e.type.same f.type = true := by
    rw [Ty.same_iff_canonical_eq] at hesame hfsame ⊢
    exact hesame.symm.trans hfsame
  exact Ty.same_rescan (h.pointerless hblank) e.type f.type heflat hfflat hsame

end Distinct

/-- The entry of a function, from its node in the checked unit. -/
theorem entry_of_settled (h : Passes unit registry checked visits middle) {x : Revisit}
    (hx : x ∈ Visit.revisits visits middle) {e : Entry}
    (he : (x.visit.settle x.state).1.callable? = some e) (hkind : e.kind = .function) :
    ∃ entry, checked.checker.entryIn? x.visit.scope e.name = some entry
      ∧ entry.kind = .function ∧ entry.cName = e.cName
      ∧ (∃ q, ⟨x.visit.scope, q⟩ ∈ Stmt.partsAll checked.unit Checker.global
          ∧ q.signature? = some ⟨.function, e.name, entry.type⟩)
      ∧ (registry.Blank → (Visit.typeNames visits).Nodup → e.type.same entry.type = true) := by
  obtain ⟨-, hok, -⟩ := h.run.at_revisit middle hx
  obtain ⟨old, _, _, _, _, hold, holdKind, -, rfl⟩ := Visit.callable?_of_settle hok he hkind
  obtain ⟨entry, hentry, hentryKind, hcName, y, hy, hscope, hsigned⟩ :=
    h.entry_of_function hx hold holdKind
  refine ⟨entry, hentry, hentryKind, hcName, ⟨_, hscope ▸ h.mem_parts hy, hsigned⟩, ?_⟩
  intro hblank hdistinct
  exact h.same_entry hblank hdistinct hx hy hscope (Part.signature?_of_callable? he hkind) hsigned

end Passes

end ExtensionCompiler

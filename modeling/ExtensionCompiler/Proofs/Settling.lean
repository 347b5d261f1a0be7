import ExtensionCompiler.Proofs.Pending
import ExtensionCompiler.Proofs.Walk

set_option autoImplicit false

/-! # Nodes and entries in the second pass

The check after both passes looks at the types of entries. The file spells types that stand in the
nodes of aliases, prototypes and functions; `Part.signature?` is the type of such a node, together
with the name that it is declared under. This module says how the two hang together, part by part.

* Analysis gives node and entry types that wait for the same names, and these are names that were
  pending in the registry then (`Visit.declared_of_signature?`).
* The second pass settles both at one moment (`Part.signature?_rescan`). It leaves the entries of
  other parts alone (`Part.typeIn?_rescan_of_not_mem_keys`). A later part can have the name of an
  earlier one only as a function that completes it, and then waits for the same names
  (`Visit.completes_of_mem_keys`). -/

namespace ExtensionCompiler

/-! ## The type of a name in one scope -/

theorem Scope.get?_setType (s : Scope) (name : String) (type : Ty) (n : String) :
    (s.setType name type).get? n
      = (s.get? n).map fun e => if e.name = name then { e with type } else e := by
  have hname : (fun e : Entry => decide (e.name = n)) ∘
      (fun e => if e.name = name then { e with type } else e) = fun e => decide (e.name = n) := by
    funext e
    dsimp only [Function.comp]
    split <;> rfl
  unfold get? setType
  rw [List.find?_map, hname]

namespace Checker

def typeIn? (c : Checker) (id : ScopeId) (name : String) : Option Ty :=
  (c.entryIn? id name).map Entry.type

theorem entryIn?_setType_self (c : Checker) (id : ScopeId) (name : String) (type : Ty) :
    (c.setType id name type).entryIn? id name
      = (c.entryIn? id name).map fun e => { e with type } := by
  unfold setType entryIn?
  rw [getElem?_modifyScope_self]
  cases hs : c.scopes[id]? with
  | none => rfl
  | some s =>
      rw [Option.map_some, Option.bind_some, Option.bind_some, Scope.get?_setType]
      cases hget : s.get? name with
      | none => rfl
      | some e => rw [Option.map_some, if_pos (Scope.name_of_get? hget), Option.map_some]

theorem typeIn?_setType_self {c : Checker} {id : ScopeId} {name : String}
    (h : (c.typeIn? id name).isSome) (type : Ty) :
    (c.setType id name type).typeIn? id name = some type := by
  unfold typeIn? at h ⊢
  rw [entryIn?_setType_self]
  cases he : c.entryIn? id name with
  | none => rw [he] at h; cases h
  | some e => rfl

theorem typeIn?_setType_ne {c : Checker} {id j : ScopeId} {name n : String}
    (h : (j, n) ≠ (id, name)) (type : Ty) :
    (c.setType id name type).typeIn? j n = c.typeIn? j n := by
  unfold typeIn? setType entryIn?
  by_cases hid : id = j
  · subst hid
    have hname : n ≠ name := fun hn => h (by rw [hn])
    rw [getElem?_modifyScope_self]
    cases hs : c.scopes[id]? with
    | none => rfl
    | some s =>
        rw [Option.map_some, Option.bind_some, Option.bind_some, Scope.get?_setType]
        cases hget : s.get? n with
        | none => rfl
        | some e =>
            have hne : e.name ≠ name := by
              rw [Scope.name_of_get? hget]
              exact hname
            rw [Option.map_some, if_neg hne]
  · rw [getElem?_modifyScope_ne c hid]

@[simp] theorem typeIn?_setReturnType (c : Checker) (id j : ScopeId) (type : Option Ty)
    (name : String) : (c.setReturnType id type).typeIn? j name = c.typeIn? j name := by
  unfold typeIn? setReturnType entryIn?
  rw [getElem?_modifyScope]
  split
  · cases c.scopes[j]? with
    | none => rfl
    | some s => rfl
  · rfl

/-- States that differ in types only have the same names. -/
theorem Retyped.isSome_typeIn? {c c' : Checker} (h : Retyped c c') (id : ScopeId) (name : String) :
    (c'.typeIn? id name).isSome = (c.typeIn? id name).isSome := by
  -- whether there is an entry can be read off the scope without its types
  have huntyped : ∀ d : Checker, (d.typeIn? id name).isSome
      = ((d.scopes[id]?.map Scope.untyped).bind fun s => s.get? name).isSome := by
    intro d
    unfold typeIn? entryIn?
    cases d.scopes[id]? with
    | none => rfl
    | some s =>
        rw [Option.bind_some, Option.map_some, Option.bind_some, Option.isSome_map, Scope.untyped,
          Scope.get?, Scope.get?, List.find?_map, Option.isSome_map]
        rfl
  rw [huntyped, huntyped, h.getElem? id]

end Checker

/-! ## Parts that spell the type of their entry -/

/-- The type of a function as an entry has it. -/
def Function.type (d : Function) : Ty :=
  .function (some d.name) (some d.cName) (Parameter.types d.params) d.returnType

/-- The kind, the name and the type of an entry. -/
structure Signature where
  kind : EntryKind
  name : String
  type : Ty

namespace Part

/-- What the node of an analysed alias, prototype or function says about its entry. -/
def signature? : Part → Option Signature
  | .typeAlias d => if d.isTagAlias then none else some ⟨.type, d.name, d.type⟩
  | .prototype d =>
    match d.type with
    | some (.function name cName _ result) =>
      some ⟨.function, d.name, .function name cName (Parameter.types d.params) result⟩
    | _ => none
  | .function d => some ⟨.function, d.name, d.type⟩
  | _ => none

/-- Whether a definition knows the scope of the statements inside it. -/
def isEntered : Part → Bool
  | .function d => d.scope.isSome
  | .method d => d.scope.isSome
  | .classDef d => d.scope.isSome
  | _ => true

/-- The names of parameters in the scope of their function. -/
def paramKeys (inner : Option ScopeId) (params : List Parameter) : List (ScopeId × String) :=
  inner.elim [] fun inner => (Parameter.names params).map fun name => (inner, name)

/-- The names, with their scopes, whose types the second pass may change for the part. -/
def keys (p : Part) (scope : ScopeId) : List (ScopeId × String) :=
  match p with
  | .var d => [(scope, d.name)]
  | .array d => [(scope, d.name)]
  | .forward d => [(scope, d.tag)]
  | .typeAlias d => if d.isTagAlias then [] else [(scope, d.name)]
  | .prototype d => [(scope, d.name)]
  | .function d => (scope, d.name) :: paramKeys d.scope d.params
  | .method d => paramKeys d.scope d.params
  | _ => []

end Part

/-! ## Settling parameters -/

namespace Parameter

theorem type_rescan (declared : Bool) (scope : ScopeId) (p : Parameter) (c : Checker) :
    (p.rescan declared scope c).1.type
      = if p.type.pending?.isSome then p.type.rescan c.registry else p.type := by
  unfold rescan
  split
  · dsimp only
    split <;> rfl
  · rfl

theorem registry_rescan (declared : Bool) (scope : ScopeId) (p : Parameter) (c : Checker) :
    (p.rescan declared scope c).2.registry = c.registry := by
  unfold rescan
  split
  · dsimp only
    split <;> rfl
  · rfl

theorem typeIn?_rescan (declared : Bool) (scope : ScopeId) (p : Parameter) (c : Checker)
    {key : ScopeId × String} (h : ∀ name ∈ p.name, key ≠ (scope, name)) :
    (p.rescan declared scope c).2.typeIn? key.1 key.2 = c.typeIn? key.1 key.2 := by
  unfold rescan
  split
  · dsimp only
    split
    · rename_i name hname
      exact Checker.typeIn?_setType_ne (h name hname) _
    · rfl
  · rfl

theorem registry_rescanAll (declared : Bool) (scope : ScopeId) (params : List Parameter)
    (c : Checker) : (rescanAll declared scope params c).2.registry = c.registry := by
  induction params generalizing c with
  | nil => rfl
  | cons p rest ih => exact (ih _).trans (registry_rescan declared scope p c)

theorem waitingIn_rescanAll (deep declared : Bool) (scope : ScopeId) (params : List Parameter)
    (c : Checker) :
    Ty.waitingIn deep (types (rescanAll declared scope params c).1)
      = (Ty.waitingIn deep (types params)).flatMap fun m =>
          (c.registry.meaning m).waiting deep := by
  induction params generalizing c with
  | nil => rfl
  | cons p rest ih =>
      show Ty.waiting deep (p.rescan declared scope c).1.type ++ Ty.waitingIn deep
        (types (rescanAll declared scope rest (p.rescan declared scope c).2).1) = _
      rw [ih, type_rescan, Ty.waiting_rescan_if, registry_rescan]
      show _ = List.flatMap _ (Ty.waiting deep p.type ++ Ty.waitingIn deep (types rest))
      rw [List.flatMap_append]

theorem typeIn?_rescanAll (declared : Bool) (scope : ScopeId) (params : List Parameter)
    (c : Checker) {key : ScopeId × String}
    (h : key ∉ (names params).map fun name => (scope, name)) :
    (rescanAll declared scope params c).2.typeIn? key.1 key.2 = c.typeIn? key.1 key.2 := by
  induction params generalizing c with
  | nil => rfl
  | cons p rest ih =>
      have hfirst : ∀ name ∈ p.name, key ≠ (scope, name) := by
        intro name hname heq
        refine h (List.mem_map.mpr ⟨name, ?_, heq.symm⟩)
        exact List.mem_filterMap.mpr ⟨p, List.mem_cons_self, hname⟩
      have hrest : key ∉ (names rest).map fun name => (scope, name) := by
        intro hmem
        obtain ⟨name, hname, heq⟩ := List.mem_map.mp hmem
        obtain ⟨q, hq, hqname⟩ := List.mem_filterMap.mp hname
        refine h (List.mem_map.mpr ⟨name, ?_, heq⟩)
        exact List.mem_filterMap.mpr ⟨q, List.mem_cons_of_mem p hq, hqname⟩
      exact (ih _ hrest).trans (typeIn?_rescan declared scope p c hfirst)

end Parameter

/-! ## Settling a part -/

namespace Part

/-- The second pass changes no type but those of the part's own names. -/
theorem typeIn?_rescan_of_not_mem_keys (p : Part) (scope : ScopeId) (c : Checker)
    {key : ScopeId × String} (h : key ∉ p.keys scope) :
    (p.rescan scope c).2.typeIn? key.1 key.2 = c.typeIn? key.1 key.2 := by
  have hsettle : ∀ (name : String) (type : Ty), key ≠ (scope, name) →
      (c.settleName scope name type).2.typeIn? key.1 key.2 = c.typeIn? key.1 key.2 := by
    intro name type hne
    unfold Checker.settleName
    split
    · exact Checker.typeIn?_setType_ne hne _
    · rfl
  cases p with
  | var d | array d => exact hsettle d.name d.type fun heq => h (heq ▸ List.mem_singleton_self _)
  | forward d =>
      have hne : key ≠ (scope, d.tag) := fun heq => h (heq ▸ List.mem_singleton_self _)
      exact Checker.typeIn?_setType_ne hne _
  | typeAlias d =>
      show (d.rescan scope c).2.typeIn? key.1 key.2 = _
      unfold TypeAlias.rescan
      split
      · rfl
      · rename_i hcond
        simp only [Bool.or_eq_true, not_or, Bool.not_eq_true] at hcond
        rw [keys, if_neg (by simp [hcond.1])] at h
        exact Checker.typeIn?_setType_ne (fun heq => h (heq ▸ List.mem_singleton_self _)) _
  | prototype d =>
      have hne : key ≠ (scope, d.name) := fun heq => h (heq ▸ List.mem_singleton_self _)
      -- the parameters of a prototype are declared nowhere
      have hparams : ∀ (params : List Parameter) (c : Checker),
          (Parameter.rescanAll false scope params c).2 = c := by
        intro params
        induction params with
        | nil => exact fun _ => rfl
        | cons p rest ih =>
            intro c
            have hp : (p.rescan false scope c).2 = c := by
              unfold Parameter.rescan
              split <;> rfl
            show (Parameter.rescanAll false scope rest (p.rescan false scope c).2).2 = c
            rw [hp, ih]
      show (d.rescan scope c).2.typeIn? key.1 key.2 = _
      unfold Prototype.rescan
      dsimp only
      rw [hparams]
      split
      · exact Checker.typeIn?_setType_ne hne _
      · rfl
  | function d =>
      -- three changes one after the other, to the parameters, to the result and to the entry
      rw [keys, List.mem_cons, not_or] at h
      unfold Part.rescan
      dsimp only
      cases hd : d.scope with
      | none => rfl
      | some inner =>
          rw [paramKeys, hd] at h
          show (((Parameter.rescanAll true inner d.params c).2.setReturnType inner _).setType scope
            d.name _).typeIn? key.1 key.2 = _
          rw [Checker.typeIn?_setType_ne h.1, Checker.typeIn?_setReturnType,
            Parameter.typeIn?_rescanAll true inner d.params c h.2]
  | method d =>
      unfold Part.rescan
      dsimp only
      cases hd : d.scope with
      | none => rfl
      | some inner =>
          rw [keys, paramKeys, hd] at h
          exact Parameter.typeIn?_rescanAll true inner d.params c h
  | _ => rfl

/-- The second pass settles the type of a node, and gives it to the entry if it is that of a
function or anything was pending. -/
theorem signature?_rescan {p : Part} (scope : ScopeId) (c : Checker) {kind : EntryKind}
    {name : String} {type : Ty} (hs : p.signature? = some ⟨kind, name, type⟩)
    (hp : p.isEntered = true) :
    ∃ settled, (p.rescan scope c).1.signature? = some ⟨kind, name, settled⟩
      ∧ (∀ deep, settled.waiting deep
        = (type.waiting deep).flatMap fun m => (c.registry.meaning m).waiting deep)
      ∧ (kind = .function ∨ type.pendings ≠ [] → (c.typeIn? scope name).isSome →
        (p.rescan scope c).2.typeIn? scope name = some settled) := by
  cases p with
  | typeAlias d =>
      rw [signature?] at hs
      by_cases htag : d.isTagAlias = true
      · rw [if_pos htag] at hs
        cases hs
      · rw [if_neg htag] at hs
        cases hs
        show ∃ settled, (Part.typeAlias (d.rescan scope c).1).signature?
            = some ⟨.type, d.name, settled⟩
          ∧ _ ∧ (_ → _ → (d.rescan scope c).2.typeIn? scope d.name = some settled)
        refine ⟨if d.type.pending?.isSome then d.type.rescan c.registry else d.type, ?_,
          fun deep => Ty.waiting_rescan_if deep c.registry d.type, fun hcond hentry => ?_⟩
        · unfold TypeAlias.rescan
          cases hpend : d.type.pending? with
          | none => simp [signature?, htag]
          | some m =>
              simp only [htag, Option.isNone_some, Bool.or_self, Bool.false_eq_true, if_false,
                signature?, Option.isSome_some, if_true]
              rw [if_neg (show ¬ TypeAlias.isTagAlias { d with type := d.type.rescan c.registry }
                = true from htag)]
        · unfold TypeAlias.rescan
          cases hpend : d.type.pending? with
          | none => exact absurd (Ty.noPending_iff.mp hpend) (hcond.resolve_left nofun)
          | some m =>
              simp only [htag, Option.isNone_some, Bool.or_self, Bool.false_eq_true, if_false,
                Option.isSome_some, if_true]
              exact Checker.typeIn?_setType_self
                (c := c.register d.name (d.type.rescan c.registry) d.position) hentry _
  | prototype d =>
      rw [signature?] at hs
      split at hs
      · rename_i fname cName _ result htype
        cases hs
        show ∃ settled, (Part.prototype (d.rescan scope c).1).signature?
            = some ⟨.function, d.name, settled⟩
          ∧ _ ∧ (_ → _ → (d.rescan scope c).2.typeIn? scope d.name = some settled)
        unfold Prototype.rescan
        dsimp only
        rw [htype]
        refine ⟨_, rfl, fun deep => ?_, fun _ hentry => ?_⟩
        · rw [Ty.waiting, Ty.waiting, Parameter.waitingIn_rescanAll, Ty.waiting_rescan,
            Parameter.registry_rescanAll, List.flatMap_append]
        · refine Checker.typeIn?_setType_self ?_ _
          rwa [(Parameter.rescanAll_retyped false scope d.params c).isSome_typeIn?]
      · cases hs
  | function d =>
      obtain ⟨inner, hinner⟩ := Option.isSome_iff_exists.mp hp
      cases hs
      have hrescan : (Part.function d).rescan scope c
          = (d.rescan inner scope c).map .function id := by
        unfold Part.rescan
        dsimp only
        rw [hinner]
      rw [hrescan]
      have hparams := Parameter.rescanAll_retyped true inner d.params c
      refine ⟨(d.rescan inner scope c).1.type, rfl, fun deep => ?_, fun _ hentry => ?_⟩
      · show Ty.waiting deep (.function _ _
          (Parameter.types (Parameter.rescanAll true inner d.params c).1)
          (d.returnType.rescan (Parameter.rescanAll true inner d.params c).2.registry)) = _
        rw [Function.type, Ty.waiting, Ty.waiting, Parameter.waitingIn_rescanAll, Ty.waiting_rescan,
          Parameter.registry_rescanAll, List.flatMap_append]
      · refine Checker.typeIn?_setType_self ?_ _
        rwa [Checker.typeIn?_setReturnType, hparams.isSome_typeIn?]
  | _ => cases hs

theorem isEntered_rescan (p : Part) (scope : ScopeId) (c : Checker) :
    (p.rescan scope c).1.isEntered = p.isEntered := by
  cases p with
  | function d | method d =>
      unfold Part.rescan
      dsimp only
      split <;> rfl
  | _ => rfl

theorem signature?_rescan_eq_none {p : Part} (h : p.signature? = none) (scope : ScopeId)
    (c : Checker) : (p.rescan scope c).1.signature? = none := by
  cases p with
  | typeAlias d =>
      rw [signature?] at h
      split at h
      · rename_i htag
        show (Part.typeAlias (d.rescan scope c).1).signature? = none
        unfold TypeAlias.rescan
        rw [if_pos (by simp [htag]), signature?, if_pos htag]
      · cases h
  | prototype d =>
      rw [signature?] at h
      split at h
      · cases h
      · rename_i htype
        show (Part.prototype (d.rescan scope c).1).signature? = none
        unfold Prototype.rescan
        dsimp only
        split
        · rename_i hfun
          exact absurd hfun (htype _ _ _ _)
        · rw [signature?]
          split
          · rename_i hfun
            exact absurd hfun (htype _ _ _ _)
          · rfl
  | function d => cases h
  | method d =>
      unfold Part.rescan
      dsimp only
      split <;> rfl
  | _ => rfl

end Part

/-! ## What analysis leaves to settle -/

open Checker (Edits)

theorem Parameter.pending_of_analyseAll {declare : Bool} {scope : ScopeId}
    {params params' : List Parameter} {c c' : Checker}
    (h : analyseAll declare scope params c = .ok params' c') :
    ∀ m ∈ Ty.waitingIn true (types params'), ∃ key, m ∈ (c.registry.meaning key).pendings := by
  intro m hm
  rw [types_of_analyseAll h, Ty.waitingIn_eq_flatMap] at hm
  obtain ⟨ty, hty, hmem⟩ := List.mem_flatMap.mp hm
  obtain ⟨p, -, rfl⟩ := List.mem_map.mp hty
  exact Ty.mem_pendings_resolve c.registry p.descriptor p.depth m hmem

/-- What the heading of a function waits for. -/
theorem Parameter.pending_of_heading {declare : Bool} {scope : ScopeId}
    {params params' : List Parameter} {c c' : Checker}
    (h : analyseAll declare scope params c = .ok params' c') (d : Descriptor) (depth : Nat) :
    ∀ m ∈ Ty.waitingIn true (types params') ++ (Ty.resolve c'.registry d depth).pendings,
      ∃ key, m ∈ (c.registry.meaning key).pendings := by
  intro m hm
  rcases List.mem_append.mp hm with hmem | hmem
  · exact pending_of_analyseAll h m hmem
  · have hedits := analyseAll_edits (b := false) declare scope params c
    rw [h] at hedits
    rw [← hedits.registry_eq]
    exact Ty.mem_pendings_resolve _ d depth m hmem

/-- A function has the C name of the prototype that it completes, and the same type. -/
theorem Function.prototype?_eq_some {name cName : String} {params : List Ty} {result : Ty}
    {scope : Scope} (h : prototype? name params result scope = some cName) :
    ∃ entry, scope.get? name = some entry ∧ entry.kind = .function ∧ entry.cName = cName
      ∧ ∀ own ownCName, entry.type.same (.function own ownCName params result) = true := by
  unfold prototype? at h
  split at h
  · cases h
  · rename_i entry hget
    split at h
    · rename_i params' result' htype
      split at h
      · rename_i hcond
        refine ⟨entry, hget, hcond.1, Option.some.inj h, fun own ownCName => ?_⟩
        rw [htype]
        simp [Ty.same, Ty.unaliased, hcond.2.2.1, hcond.2.2.2]
      · cases h
    · cases h

/-- A name that is declared was not in the scope before. -/
theorem Checker.Edits.entryIn?_eq_none {b : Bool} {c c₁ c₂ : Checker} {id : ScopeId} {entry : Entry}
    (h : Edits b c c₁) (hdeclare : c₁.declare id entry = .ok c₂) :
    c.entryIn? id entry.name = none := by
  refine Option.eq_none_iff_forall_ne_some.mpr fun old hold => ?_
  have hkept := h.grows.entryIn? hold
  rw [(declare_eq_ok hdeclare).1] at hkept
  cases hkept

namespace Visit

variable {v : Visit} {name : String}

/-- An alias, a prototype or a function has been declared, if it is no function that completes what
was declared before. Node and entry wait for the same names, which were pending then. -/
theorem declared_of_signature? (hok : v.outcome.error = none) {kind : EntryKind}
    {type : Ty} (hs : v.result.part.signature? = some ⟨kind, name, type⟩) :
    (∀ m ∈ type.pendings, ∃ key, m ∈ (v.before.registry.meaning key).pendings)
      ∧ ∃ entry : Entry, entry.kind = kind ∧ entry.type.pendings = type.pendings
        ∧ ((∃ c₁, Edits true v.before c₁ ∧ c₁.declare v.scope entry = .ok v.after
            ∧ entry.name = name)
          ∨ (v.after.entryIn? v.scope name = some entry ∧ kind = .function)) := by
  obtain ⟨scope, c, p⟩ := v
  -- the three kinds of parts that have a signature; only the function has two ways to go
  cases p with
  | typeAlias d =>
      change (d.analyse scope c).error = none at hok
      change (Part.typeAlias (d.analyse scope c).node).signature? = _ at hs
      cases htag : d.isTagAlias with
      | true =>
          have hnode : (d.analyse scope c).node = d := by
            unfold TypeAlias.analyse
            rw [if_pos htag]
            rfl
          rw [hnode, Part.signature?, if_pos htag] at hs
          cases hs
      | false =>
          obtain ⟨cName, ty, c₁, entry, hty, hentry, hdeclare, heq⟩ :=
            TypeAlias.analyse_ok hok htag
          have htag' : TypeAlias.isTagAlias { d with cName, type := ty } = false := htag
          rw [heq, Outcome.ok, Part.signature?, if_neg (by simp [htag'])] at hs
          cases hs
          refine ⟨fun m hm => ?_, entry, by rw [hentry]; rfl, by rw [hentry]; rfl,
            .inl ⟨c.register d.name ty d.position, .single ?_, ?_, by rw [hentry]; rfl⟩⟩
          · rw [hty] at hm
            exact Ty.mem_pendings_resolve c.registry d.descriptor d.depth m hm
          · exact .register c d.name ty d.position rfl (by rw [hty]; rfl)
          · rw [hdeclare]
            exact congrArg (fun o => Except.ok o.checker) heq.symm
  | prototype d =>
      change (d.analyse scope c).error = none at hok
      change (Part.prototype (d.analyse scope c).node).signature? = _ at hs
      obtain ⟨params, c₁, c₂, entry, hparams, hentry, hdeclare, heq⟩ := Prototype.analyse_ok hok
      have hedits := Parameter.analyseAll_edits (b := true) false scope d.params c
      rw [hparams] at hedits
      rw [heq, hentry] at hs
      cases hs
      refine ⟨Parameter.pending_of_heading hparams d.descriptor d.depth, entry, by rw [hentry]; rfl,
        by rw [hentry]; rfl, .inl ⟨c₁, hedits, ?_, by rw [hentry]; rfl⟩⟩
      rw [hdeclare]
      exact congrArg (fun o => Except.ok o.checker) heq.symm
  | function d =>
      change (d.enter scope c).error = none at hok
      change some (Signature.mk .function (d.enter scope c).node.name (d.enter scope c).node.type)
        = _ at hs
      change (∀ m ∈ type.pendings, ∃ key, m ∈ (c.registry.meaning key).pendings)
        ∧ ∃ entry : Entry, entry.kind = kind ∧ entry.type.pendings = type.pendings
          ∧ ((∃ c₁, Edits true c c₁ ∧ c₁.declare scope entry = .ok (d.enter scope c).checker
              ∧ entry.name = name)
            ∨ ((d.enter scope c).checker.entryIn? scope name = some entry ∧ kind = .function))
      have hedits := Parameter.analyseAll_edits (b := true) true c.scopes.length d.params
        (c.addScope d.name .function scope).2
      have hentered := Function.enter_entered hok
      generalize (d.enter scope c).node = node at hentered hs
      generalize (d.enter scope c).checker = after at hentered ⊢
      cases hentered with
      | completes hparams hresult hproto =>
          -- node and prototype were compared by `Ty.same`, so they wait for the same names
          cases hs
          obtain ⟨entry, hget, hkind, -, hsame⟩ := Function.prototype?_eq_some hproto
          rw [Checker.get?_scope] at hget
          refine ⟨?_, entry, hkind, Ty.pendings_of_same _ _ (hsame _ _), .inr ⟨hget, rfl⟩⟩
          rw [hresult]
          exact Parameter.pending_of_heading hparams d.descriptor d.depth
      | @declares params c₁ c₂ returnType entry hparams hresult hentry hdeclare =>
          cases hs
          rw [hparams] at hedits
          have hopen : Edits true c (c₁.setReturnType c.scopes.length (some returnType)) :=
            ((c.edits_addScope d.name .function scope).trans hedits).tail (.setReturnType _ _ _)
          refine ⟨?_, entry, by rw [hentry]; rfl, by rw [hentry]; rfl,
            .inl ⟨_, hopen, hdeclare, by rw [hentry]; rfl⟩⟩
          rw [hresult]
          exact Parameter.pending_of_heading hparams d.descriptor d.depth
  | _ => exact nomatch (show none = some _ from hs)

/-- The entry of an alias, a prototype or a function. -/
theorem entry_of_signature? (hok : v.outcome.error = none)
    (hscope : v.scope < v.before.scopes.length) {kind : EntryKind} {type : Ty}
    (hs : v.result.part.signature? = some ⟨kind, name, type⟩) :
    ∃ entry, v.after.entryIn? v.scope name = some entry ∧ entry.kind = kind
      ∧ entry.type.pendings = type.pendings := by
  obtain ⟨-, entry, hkind, hpendings, ⟨c₁, hedits, hdeclare, hname⟩ | ⟨hentry, -⟩⟩ :=
    declared_of_signature? hok hs
  · have hlt := Nat.lt_of_lt_of_le hscope hedits.grows.length_le
    exact ⟨entry, hname ▸ Checker.entryIn?_of_declare hdeclare hlt, hkind, hpendings⟩
  · exact ⟨entry, hentry, hkind, hpendings⟩

/-- A part that has a name of an earlier one is a function that completes a prototype. -/
theorem completes_of_mem_keys (hok : v.outcome.error = none) {id : ScopeId}
    {entry : Entry} (hentry : v.before.entryIn? id name = some entry)
    (hkey : (id, name) ∈ v.result.part.keys v.scope) :
    id = v.scope ∧ entry.kind = .function
      ∧ ∃ type, v.result.part.signature? = some ⟨.function, name, type⟩
        ∧ type.pendings = entry.type.pendings := by
  -- a name that is declared is new, and so is the scope that parameters are declared in
  have hnew {b : Bool} {c₁ c₂ : Checker} {new : Entry} (hedits : Edits b v.before c₁)
      (hdeclare : c₁.declare v.scope new = .ok c₂) : (id, name) ≠ (v.scope, new.name) := by
    intro heq
    cases heq
    rw [hedits.entryIn?_eq_none hdeclare] at hentry
    cases hentry
  have hparam {params : List Parameter} :
      (id, name) ∉ Part.paramKeys (some v.before.scopes.length) params := by
    intro hmem
    obtain ⟨n, -, heq⟩ := List.mem_map.mp hmem
    cases heq
    obtain ⟨s, hs, -⟩ := Checker.entryIn?_eq_some_iff.mp hentry
    exact absurd (List.getElem?_eq_some_iff.mp hs).1 (Nat.lt_irrefl _)
  have hsigned {kind : EntryKind} {n : String} {type : Ty}
      (hs : v.result.part.signature? = some ⟨kind, n, type⟩) (heq : (id, name) = (v.scope, n)) :
      id = v.scope ∧ entry.kind = .function
        ∧ ∃ type, v.result.part.signature? = some ⟨.function, name, type⟩
          ∧ type.pendings = entry.type.pendings := by
    cases heq
    obtain ⟨-, new, hkind, hpendings, ⟨c₁, hedits, hdeclare, hname⟩ | ⟨hfound, rfl⟩⟩ :=
      declared_of_signature? hok hs
    · exact absurd (by rw [hname]) (hnew hedits hdeclare)
    · have hgrows := (v.part.analyse_edits v.scope v.before).grows.entryIn? hentry
      cases hfound.symm.trans hgrows
      exact ⟨rfl, hkind, type, hs, hpendings.symm⟩
  obtain ⟨scope, c, p⟩ := v
  cases p with
  | var d =>
      obtain ⟨c₁, new, hedits, hdeclare, -, hname, -⟩ := Variable.declared_of_analyse hok
      change (id, name) ∈ [(scope, (d.analyse scope c).node.name)] at hkey
      rw [← hname, List.mem_singleton] at hkey
      exact absurd hkey (hnew hedits hdeclare)
  | array d =>
      obtain ⟨c₁, new, hedits, hdeclare, -, hname, -⟩ := ArrayVariable.declared_of_analyse hok
      change (id, name) ∈ [(scope, (d.analyse scope c).node.name)] at hkey
      rw [← hname, List.mem_singleton] at hkey
      exact absurd hkey (hnew hedits hdeclare)
  | forward d =>
      obtain ⟨cName, type, c₁, new, -, rfl, hdeclare, heq⟩ := Forward.analyse_ok hok
      change (id, name) ∈ [(scope, (d.analyse scope c).node.tag)] at hkey
      rw [heq, List.mem_singleton] at hkey
      exact absurd hkey (hnew (b := true) .refl hdeclare)
  | typeAlias d =>
      change (id, name) ∈ (Part.typeAlias (d.analyse scope c).node).keys scope at hkey
      rw [Part.keys] at hkey
      split at hkey
      · cases hkey
      · rename_i htag
        exact hsigned (if_neg htag) (List.mem_singleton.mp hkey)
  | prototype d =>
      obtain ⟨params, c₁, c₂, new, -, rfl, -, heq⟩ := Prototype.analyse_ok hok
      change (id, name) ∈ [(scope, (d.analyse scope c).node.name)] at hkey
      obtain ⟨type, hs⟩ : ∃ type, (Part.prototype (d.analyse scope c).node).signature?
          = some ⟨.function, (d.analyse scope c).node.name, type⟩ := by
        rw [heq]
        exact ⟨_, rfl⟩
      exact hsigned hs (List.mem_singleton.mp hkey)
  | function d =>
      have hinner := (Function.enter_entered hok).scope_eq
      change (id, name) ∈ (scope, (d.enter scope c).node.name)
        :: Part.paramKeys (d.enter scope c).node.scope (d.enter scope c).node.params at hkey
      rw [hinner] at hkey
      exact hsigned rfl ((List.mem_cons.mp hkey).resolve_right hparam)
  | method d =>
      obtain ⟨params, c₁, new, -, -, -, hnode⟩ := Method.enter_ok hok
      change (id, name) ∈ Part.paramKeys (d.enter scope c).node.scope _ at hkey
      rw [hnode] at hkey
      exact absurd hkey hparam
  | _ => exact nomatch (show (id, name) ∈ [] from hkey)

end Visit

end ExtensionCompiler

import ExtensionCompiler.Proofs.Growth
import ExtensionCompiler.Proofs.Resolution
import ExtensionCompiler.Ty.Compatible

set_option autoImplicit false

/-! # Pending names

`Ty.pendings` lists the pending names of a type, and `Ty.exposed` those that its spelling in C would
show: an alias is spelled by its own name, and so hides what its target waits for. A rescan replaces
each of them by those of its meaning (`Ty.waiting_rescan`), and types that are the same wait for the
same names (`Ty.pendings_of_same`).

The second half follows the registry through the two passes over a unit. Both bind names.
`Registry.Later turn late` compares what was known when the second pass began with what it knows at
some moment: no name gets unsettled, and those that get settled are aliases of the unit.
`Registry.Ahead early late turn` compares what the first pass knew at a part with what the second
pass knows when it comes to the same part. A name that has become settled since the turn is then not
one that the first pass had left pending (`Ahead.settled_of_pending`). This rests on contexts in
which a name waits for nothing but itself (`Registry.Own`). -/

namespace ExtensionCompiler

namespace Ty

/-! ## The pending names of a type -/

mutual

/-- The pending names in a type. Unless `deep` is set, an alias hides those of its target. -/
def waiting (deep : Bool) : Ty → List String
  | pending name => [name]
  | pointer base _ => base.waiting deep
  | array base _ => base.waiting deep
  | aliased _ _ target => if deep then target.waiting deep else []
  | function _ _ params result => waitingIn deep params ++ result.waiting deep
  | primitive _ => []
  | aggregate _ _ _ _ => []
  | object => []

/-- The pending names in a list of types. -/
def waitingIn (deep : Bool) : List Ty → List String
  | [] => []
  | ty :: rest => ty.waiting deep ++ waitingIn deep rest

end

/-- All pending names of a type. -/
abbrev pendings (ty : Ty) : List String := ty.waiting true

/-- The pending names that the spelling of a type shows. -/
abbrev exposed (ty : Ty) : List String := ty.waiting false

theorem waitingIn_eq_flatMap (deep : Bool) (tys : List Ty) :
    waitingIn deep tys = tys.flatMap (waiting deep) := by
  induction tys with
  | nil => rfl
  | cons ty rest ih => rw [waitingIn, ih, List.flatMap_cons]

mutual

/-- The first pending name is the head of the list of all. -/
theorem head?_pendings : (ty : Ty) → ty.pendings.head? = ty.pending?
  | pending _ | primitive _ | aggregate _ _ _ _ | object => rfl
  | pointer base _ | array base _ | aliased _ _ base => by
      rw [pendings, waiting, pending?]
      exact head?_pendings base
  | function _ _ params result => by
      rw [pendings, waiting, pending?, List.head?_append, head?_waitingIn params,
        head?_pendings result]

theorem head?_waitingIn : (tys : List Ty) → (waitingIn true tys).head? = pendingIn? tys
  | [] => rfl
  | ty :: rest => by
      rw [waitingIn, pendingIn?, List.head?_append, head?_pendings ty, head?_waitingIn rest]

end

theorem noPending_iff {ty : Ty} : ty.NoPending ↔ ty.pendings = [] := by
  rw [NoPending, ← head?_pendings, List.head?_eq_none_iff]

mutual

theorem mem_pendings_of_mem_exposed : (ty : Ty) → ∀ name ∈ ty.exposed, name ∈ ty.pendings
  | pending _, _, h => h
  | primitive _, _, h | aggregate _ _ _ _, _, h | object, _, h | aliased _ _ _, _, h => nomatch h
  | pointer base _, name, h | array base _, name, h => mem_pendings_of_mem_exposed base name h
  | function _ _ params result, name, h => by
      rw [exposed, waiting, List.mem_append] at h
      rw [pendings, waiting, List.mem_append]
      rcases h with hparams | hresult
      · exact .inl (mem_waitingIn_true params name hparams)
      · exact .inr (mem_pendings_of_mem_exposed result name hresult)

theorem mem_waitingIn_true : (tys : List Ty) → ∀ name ∈ waitingIn false tys,
    name ∈ waitingIn true tys
  | [], _, h => nomatch h
  | ty :: rest, name, h => by
      rw [waitingIn, List.mem_append] at h ⊢
      rcases h with hfirst | hrest
      · exact .inl (mem_pendings_of_mem_exposed ty name hfirst)
      · exact .inr (mem_waitingIn_true rest name hrest)

end

theorem exposed_of_pendings {ty : Ty} (h : ty.pendings = []) : ty.exposed = [] := by
  refine List.eq_nil_iff_forall_not_mem.mpr fun name hname => ?_
  have hmem := mem_pendings_of_mem_exposed ty name hname
  rw [h] at hmem
  cases hmem

/-- A type that goes by a name of its own is spelled by it. -/
theorem exposed_of_isNamed {ty : Ty} (h : ty.isNamed = true) : ty.exposed = [] := by
  cases ty with
  | aggregate _ _ _ _ => rfl
  | aliased _ _ _ => rfl
  | _ => cases h

/-! ## Pending names of types that are made from others -/

theorem waiting_pointerTo (deep : Bool) (base : Ty) (depth : Nat) :
    (pointerTo base depth).waiting deep = base.waiting deep := by
  by_cases hd : depth = 0
  · subst hd
    rw [pointerTo_zero]
  · cases base with
    | pointer base inner => rw [pointerTo_pointer, if_neg hd, waiting, waiting]
    | _ => simp [pointerTo, hd, waiting]

mutual

/-- **A rescan puts the pending names of their meanings in the place of names.** -/
theorem waiting_rescan (deep : Bool) (registry : Registry) : (ty : Ty) →
    (ty.rescan registry).waiting deep
      = (ty.waiting deep).flatMap fun name => (registry.meaning name).waiting deep
  | pending name => by
      rw [rescan_pending, waiting]
      simp
  | primitive _ => rfl
  | aggregate _ _ _ _ => rfl
  | object => rfl
  | pointer base depth => by
      rw [rescan, waiting_pointerTo, waiting]
      exact waiting_rescan deep registry base
  | array base _ => by
      rw [rescan, waiting, waiting]
      exact waiting_rescan deep registry base
  | aliased _ _ target => by
      rw [rescan, waiting, waiting]
      cases deep with
      | true => exact waiting_rescan true registry target
      | false => rfl
  | function _ _ params result => by
      rw [rescan, waiting, waiting, List.flatMap_append, waitingIn_rescanAll deep registry params,
        waiting_rescan deep registry result]

theorem waitingIn_rescanAll (deep : Bool) (registry : Registry) : (tys : List Ty) →
    waitingIn deep (rescanAll registry tys)
      = (waitingIn deep tys).flatMap fun name => (registry.meaning name).waiting deep
  | [] => rfl
  | ty :: rest => by
      rw [rescanAll, waitingIn, waitingIn, List.flatMap_append, waiting_rescan deep registry ty,
        waitingIn_rescanAll deep registry rest]

end

/-- Leaving a type without pending names as it is makes no difference. -/
theorem waiting_rescan_if (deep : Bool) (registry : Registry) (ty : Ty) :
    (if ty.pending?.isSome then ty.rescan registry else ty).waiting deep
      = (ty.waiting deep).flatMap fun name => (registry.meaning name).waiting deep := by
  by_cases h : ty.pending?.isSome = true
  · rw [if_pos h, waiting_rescan]
  · rw [if_neg h]
    have hnone : ty.pendings = [] := by
      rw [← noPending_iff, NoPending]
      simpa using h
    have hnil : ty.waiting deep = [] := by
      cases deep with
      | true => exact hnone
      | false => exact exposed_of_pendings hnone
    rw [hnil]
    rfl

theorem waiting_of_keyword? {name : String} {ty : Ty} (h : Descriptor.keyword? name = some ty)
    (deep : Bool) : ty.waiting deep = [] := by
  rcases Descriptor.type_of_keyword? h with ⟨kind, rfl⟩ | rfl
  · rfl
  · rfl

/-- What a name waits for, its meaning waits for. -/
theorem mem_pendings_resolveName {registry : Registry} {name m : String}
    (h : m ∈ (resolveName registry name).pendings) :
    m ∈ (registry.meaning (Descriptor.key name)).pendings := by
  rw [resolveName_eq] at h
  cases hk : Descriptor.keyword? name with
  | none => rwa [hk, Option.getD_none] at h
  | some ty =>
      rw [hk, Option.getD_some, pendings, waiting_of_keyword? hk] at h
      cases h

mutual

/-- What a resolved descriptor waits for, the meaning of one of its names waits for. -/
theorem mem_pendings_resolve (registry : Registry) : (d : Descriptor) → (depth : Nat) →
    ∀ m ∈ (resolve registry d depth).pendings, ∃ key, m ∈ (registry.meaning key).pendings
  | .named name, depth, m, h => by
      rw [resolve, pendings, waiting_pointerTo] at h
      exact ⟨_, mem_pendings_resolveName h⟩
  | .signature base params resultDepth, depth, m, h => by
      rw [resolve, pendings, waiting_pointerTo, waiting, List.mem_append] at h
      rcases h with hparams | hresult
      · exact mem_waitingIn_resolveParams registry params m hparams
      · rw [waiting_pointerTo] at hresult
        exact ⟨_, mem_pendings_resolveName hresult⟩

theorem mem_waitingIn_resolveParams (registry : Registry) : (params : List (Descriptor × Nat)) →
    ∀ m ∈ waitingIn true (resolveParams registry params),
      ∃ key, m ∈ (registry.meaning key).pendings
  | [], m, h => nomatch h
  | (d, depth) :: rest, m, h => by
      rw [resolveParams, waitingIn, List.mem_append] at h
      rcases h with hfirst | hrest
      · exact mem_pendings_resolve registry d depth m hfirst
      · exact mem_waitingIn_resolveParams registry rest m hrest

end

/-! ## Types that are the same -/

theorem pendings_unaliased (ty : Ty) : ty.unaliased.pendings = ty.pendings := by
  fun_induction unaliased ty with
  | case1 name cName target ih =>
      rw [ih]
      rfl
  | case2 ty _ => rfl

mutual

/-- Types that are the same wait for the same names. -/
theorem pendings_of_same : (a b : Ty) → a.same b = true → a.pendings = b.pendings
  | aliased _ _ target, b, h => by
      rw [same] at h
      exact pendings_of_same target b h
  | pointer base _, b, h | array base _, b, h => by
      rw [same] at h
      rw [← pendings_unaliased b]
      split at h
      · rename_i base' _ hb
        rw [Bool.and_eq_true] at h
        rw [hb]
        exact pendings_of_same base base' h.2
      · cases h
  | primitive _, b, h | aggregate _ _ _ _, b, h => by
      rw [same] at h
      rw [← pendings_unaliased b]
      split at h
      · rename_i hb
        rw [hb]
        rfl
      · cases h
  | function _ _ params result, b, h => by
      rw [same] at h
      rw [← pendings_unaliased b]
      split at h
      · rename_i params' result' hb
        rw [Bool.and_eq_true] at h
        rw [hb, pendings, pendings, waiting, waiting, waitingIn_of_sameAll params params' h.1]
        exact congrArg (_ ++ ·) (pendings_of_same result result' h.2)
      · cases h
  | object, b, h => by
      rw [same, isObject] at h
      rw [← pendings_unaliased b]
      split at h
      · rename_i hb
        rw [hb]
      · cases h
  | pending name, b, h => by
      rw [same] at h
      rw [← pendings_unaliased b]
      split at h
      · rename_i name' hb
        rw [hb, of_decide_eq_true h]
      · cases h

theorem waitingIn_of_sameAll : (as bs : List Ty) → sameAll as bs = true →
    waitingIn true as = waitingIn true bs
  | [], [], _ => rfl
  | [], _ :: _, h => nomatch h
  | _ :: _, [], h => nomatch h
  | a :: as, b :: bs, h => by
      rw [sameAll, Bool.and_eq_true] at h
      rw [waitingIn, waitingIn, waitingIn_of_sameAll as bs h.2]
      exact congrArg (· ++ _) (pendings_of_same a b h.1)

end

end Ty

/-! ## Registries between the two passes -/

namespace Registry

theorem meaning_register (registry : Registry) (name : String) (type : Ty) (position : Position)
    (other : String) :
    (registry.register name type position).meaning other
      = if other = name then type else registry.meaning other := by
  rw [meaning, get?_register]
  split
  · rfl
  · rfl

/-- The meaning of the name waits for nothing. -/
def Settled (registry : Registry) (name : String) : Prop := (registry.meaning name).pendings = []

/-- A rescan settles a type just if all that it waits for is settled. -/
theorem pendings_rescan_eq_nil_iff {registry : Registry} {ty : Ty} :
    (ty.rescan registry).pendings = [] ↔ ∀ name ∈ ty.pendings, registry.Settled name := by
  rw [Ty.pendings, Ty.waiting_rescan, List.flatMap_eq_nil_iff]
  rfl

/-- A name waits for nothing but itself. -/
def Own (registry : Registry) : Prop :=
  ∀ name ty, registry.get? name = some ty → ∀ m ∈ ty.pendings, m = name

theorem own_empty : Own .empty := fun _ _ h => nomatch h

theorem Own.announce {registry : Registry} (h : registry.Own) (name : String)
    (position : Position) : (registry.announce name position).Own := by
  unfold Registry.announce
  split
  · exact h
  · intro n ty hget m hm
    rw [get?_register] at hget
    split at hget
    · rename_i hn
      cases hget
      rw [hn]
      exact List.mem_singleton.mp hm
    · exact h n ty hget m hm

/-- The name stands for a type that goes by a name of its own. -/
def Names (registry : Registry) (name : String) : Prop := (registry.meaning name).isNamed = true

/-- Analysis binds names to types that have names of their own, so a name that stands for such a
type goes on doing so. -/
theorem Names.edits {b : Bool} {c c' : Checker} {name : String} (h : c.registry.Names name)
    (hedits : Checker.Edits b c c') : c'.registry.Names name := by
  refine hedits.invariant (P := fun d => d.registry.Names name) (fun hstep hd => ?_) h
  cases hstep with
  | temp id | pushScope scope _ _ | setReturnType id type => exact hd
  | declare hdeclare _ => rwa [Checker.registry_of_declare hdeclare]
  | register n type position _ hnamed =>
      rw [Names, Checker.register, meaning_register]
      split
      · exact hnamed
      · exact hd

/-- What the second pass knows at some moment, compared with what was known when it began. -/
structure Later (turn late : Registry) : Prop where
  /-- Nothing gets unsettled. -/
  settled : ∀ m, turn.Settled m → late.Settled m
  named : ∀ m, turn.Names m → late.Names m
  /-- Only aliases of the unit get settled. -/
  origin : ∀ m, late.Settled m → turn.Settled m ∨ turn.Names m

namespace Later

variable {turn late late' : Registry}

theorem refl (turn : Registry) : Later turn turn := ⟨fun _ h => h, fun _ h => h, fun _ h => .inl h⟩

/-- The second pass binds an alias again to what it has settled to. -/
theorem register (h : Later turn late) {name : String} {type : Ty} (position : Position)
    (hturn : turn.Names name) (hnamed : type.isNamed = true) (hsettled : type.pendings = []) :
    Later turn (late.register name type position) where
  settled m hm := by
    rw [Settled, meaning_register]
    split
    · exact hsettled
    · exact h.settled m hm
  named m hm := by
    rw [Names, meaning_register]
    split
    · exact hnamed
    · exact h.named m hm
  origin m hm := by
    rw [Settled, meaning_register] at hm
    split at hm
    · rename_i hself
      exact .inr (hself ▸ hturn)
    · exact h.origin m hm

/-- A name that is settled at one moment of the second pass shows no pending name at any other. -/
theorem exposed_meaning (h : Later turn late) (h' : Later turn late') {m : String}
    (hm : late'.Settled m) : (late.meaning m).exposed = [] := by
  rcases h'.origin m hm with hsettled | hnames
  · exact Ty.exposed_of_pendings (h.settled m hsettled)
  · exact Ty.exposed_of_isNamed (h.named m hnames)

end Later

/-- What the first pass knew at a part of the unit, compared with what the second pass knows when it
comes to that part. `turn` is what was known when the second pass began. -/
structure Ahead (early late turn : Registry) : Prop where
  /-- Of what the first pass knew, a name waits for itself or for what is settled now. -/
  own : ∀ name ty, early.get? name = some ty → ∀ m ∈ ty.pendings, m = name ∨ late.Settled m
  /-- What is settled now was so from the turn on, or the first pass had bound it and nothing was
  waiting for it. -/
  fresh : ∀ m, late.Settled m → turn.Settled m
    ∨ (early.get? m).isSome ∧ ∀ name ty, early.get? name = some ty → m ∉ ty.pendings

namespace Ahead

variable {early late turn : Registry}

theorem start (h : early.Own) : Ahead early turn turn where
  own name ty hget m hm := .inl (h name ty hget m hm)
  fresh _ hm := .inl hm

/-- A meaning does not wait for a name that is bound and that nothing waits for. -/
theorem not_mem_pendings_meaning {m key : String} (hbound : (early.get? m).isSome)
    (hfree : ∀ name ty, early.get? name = some ty → m ∉ ty.pendings) :
    m ∉ (early.meaning key).pendings := by
  intro hm
  unfold meaning at hm
  cases hget : early.get? key with
  | some ty =>
      rw [hget, Option.getD_some] at hm
      exact hfree key ty hget hm
  | none =>
      -- a name that is not bound means itself, but `m` is bound
      rw [hget, Option.getD_none] at hm
      rw [List.mem_singleton.mp hm, hget] at hbound
      cases hbound

/-- What was pending at a part, and is settled when the second pass comes there, was settled from
the turn on. -/
theorem settled_of_pending (h : Ahead early late turn) {key m : String}
    (hm : m ∈ (early.meaning key).pendings) (hsettled : late.Settled m) : turn.Settled m := by
  rcases h.fresh m hsettled with hturn | ⟨hbound, hfree⟩
  · exact hturn
  · exact absurd hm (not_mem_pendings_meaning hbound hfree)

/-- The first pass binds a name to a type that waits for nothing. -/
theorem register_settled (h : Ahead early late turn) (name : String) {type : Ty}
    (position : Position) (htype : type.pendings = []) :
    Ahead (early.register name type position) late turn where
  own n ty hget m hm := by
    rw [get?_register] at hget
    split at hget
    · cases hget
      rw [htype] at hm
      cases hm
    · exact h.own n ty hget m hm
  fresh m hm := by
    rcases h.fresh m hm with hturn | ⟨hbound, hfree⟩
    · exact .inl hturn
    · refine .inr ⟨?_, fun n ty hget => ?_⟩
      · rw [get?_register]
        split
        · rfl
        · exact hbound
      · rw [get?_register] at hget
        split at hget
        · cases hget
          rw [htype]
          exact List.not_mem_nil
        · exact hfree n ty hget

/-- The first pass binds a name to an alias, and the second pass binds it again to what it has
settled to. -/
theorem register_alias (h : Ahead early late turn) (name cName : String) (d : Descriptor)
    (depth : Nat) (position position' : Position) {type : Ty}
    (htype : type = .aliased name cName (Ty.resolve early d depth))
    (hsettles : ∀ m ∈ type.pendings, late.Settled m) :
    Ahead (early.register name type position)
      (late.register name (type.rescan late) position') turn := by
  -- the second pass has settled one name more
  have hsettled : ∀ m, (late.register name (type.rescan late) position').Settled m ↔
      m = name ∨ late.Settled m := by
    intro m
    rw [Settled, meaning_register]
    by_cases hm : m = name
    · rw [if_pos hm]
      exact iff_of_true (pendings_rescan_eq_nil_iff.mpr hsettles) (.inl hm)
    · rw [if_neg hm]
      exact ⟨.inr, fun hor => hor.resolve_left hm⟩
  -- the new alias waits for nothing that was bound and waited for by nobody
  have hnew : ∀ m, (early.get? m).isSome →
      (∀ n ty, early.get? n = some ty → m ∉ ty.pendings) → m ∉ type.pendings := by
    intro m hbound hfree hm
    rw [htype] at hm
    obtain ⟨key, hkey⟩ := Ty.mem_pendings_resolve early d depth m hm
    exact not_mem_pendings_meaning hbound hfree hkey
  refine ⟨fun n ty hget m hm => ?_, fun m hm => ?_⟩
  · rw [get?_register] at hget
    split at hget
    · cases hget
      exact .inr ((hsettled m).mpr (.inr (hsettles m hm)))
    · rcases h.own n ty hget m hm with hself | hlate
      · exact .inl hself
      · exact .inr ((hsettled m).mpr (.inr hlate))
  · by_cases hlate : late.Settled m
    · rcases h.fresh m hlate with hturn | ⟨hbound, hfree⟩
      · exact .inl hturn
      · refine .inr ⟨?_, fun n ty hget => ?_⟩
        · rw [get?_register]
          split
          · rfl
          · exact hbound
        · rw [get?_register] at hget
          split at hget
          · cases hget
            exact hnew m hbound hfree
          · exact hfree n ty hget
    · -- only the alias itself has become settled; by `own`, no other name can wait for it
      have hself : m = name := ((hsettled m).mp hm).resolve_right hlate
      refine .inr ⟨?_, fun n ty hget hmem => ?_⟩
      · rw [get?_register, if_pos hself]
        rfl
      · rw [get?_register] at hget
        split at hget
        · cases hget
          exact hlate (hsettles m hmem)
        · rename_i hne
          rcases h.own n ty hget m hmem with hown | hsettledM
          · exact hne (hown.symm.trans hself)
          · exact hlate hsettledM

end Ahead

end Registry

end ExtensionCompiler

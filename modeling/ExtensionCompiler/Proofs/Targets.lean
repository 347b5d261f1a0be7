import ExtensionCompiler.Proofs.Addresses
import ExtensionCompiler.Proofs.Frame
import ExtensionCompiler.Proofs.Typedefs

set_option autoImplicit false

/-! # What announcements and aliases stand for

An announcement `struct S` and an alias `S = …` are about a name, and all that they can find out
about it is what the registry has under the bare name. So an announcement ends up with the type of
whatever declares the name, be it a structure of the kind that was announced or not
(`Stmt.forwards_completed_of_check`).

An alias ends up with the type that it is written with, as long as it makes a type at all: an alias
of a tag under its own name makes none, also where it is written with levels of indirection, and
these are lost (`Stmt.aliases_resolved_of_check`). -/

namespace ExtensionCompiler

/-! ## What a part binds -/

/-- The name that a checked part binds in the registry, with its type. -/
def Part.binding? : Part → Option (String × Ty)
  | .aggregate d => d.type.map fun type => (d.name, type)
  | .typeAlias d => if d.isTagAlias then none else some (d.name, d.type)
  | _ => none

namespace Visit

variable {v : Visit} {name : String} {type : Ty} {position : Position}

theorem Introduces.result_of_aggregate (h : v.Introduces name type position)
    (hok : v.outcome.error = none) {d : Aggregate} (hpart : v.part = .aggregate d)
    (hname : v.part.typeName? = some name) :
    (∃ cName scope, type = .aggregate d.kind d.name cName scope)
      ∧ ∃ d', v.result.part = .aggregate d' ∧ d'.name = name ∧ d'.type = some type := by
  obtain ⟨scope, c, p⟩ := v
  cases hpart
  cases hname
  obtain ⟨type', c₁, c₂, entry, htype, hc₁, -, hdeclare, heq⟩ := Aggregate.declare_ok hok
  -- both say what the visit has bound the name to
  have hsame : type = type' := by
    rw [← h.meaning_after]
    show (d.declare scope c).checker.registry.meaning d.name = _
    rw [heq]
    show c₂.registry.meaning d.name = _
    rw [Checker.registry_of_declare hdeclare, hc₁, Checker.register, Registry.meaning_register,
      if_pos rfl]
  refine ⟨⟨_, _, hsame.trans htype⟩, _, rfl, rfl, ?_⟩
  show some (d.declare scope c).node = _
  rw [heq, hsame]
  rfl

/-- In the end, the part has the type that the visit has bound its name to, as far as it is settled
at the revisit. -/
theorem Introduces.binding?_settle (h : v.Introduces name type position)
    (hok : v.outcome.error = none) (hname : v.part.typeName? = some name) (r : Checker) :
    (v.settle r).1.binding? = some (name, type.settle r.registry) := by
  cases hpart : v.part with
  | aggregate d =>
      obtain ⟨⟨cName, scope, htype⟩, d', hresult, hname', htype'⟩ :=
        h.result_of_aggregate hok hpart hname
      rw [settle, hresult]
      show (Part.aggregate d').binding? = _
      rw [Part.binding?, htype', hname', htype]
      rfl
  | typeAlias d =>
      obtain ⟨cName, -, hresult⟩ := h.type_of_alias hok hpart hname
      rw [hpart, Part.typeName?] at hname
      split at hname
      · cases hname
      · rename_i htag
        cases hname
        rw [settle, hresult]
        show (Part.typeAlias (TypeAlias.rescan _ v.scope r).1).binding? = _
        have htag' : ¬ TypeAlias.isTagAlias { d with cName, type } = true := htag
        cases hpending : type.pending? with
        | none => simp [TypeAlias.rescan, Part.binding?, Ty.settle, hpending, htag']
        | some m =>
            have hrescan : ¬ TypeAlias.isTagAlias
                { d with cName, type := type.rescan r.registry } = true := htag
            simp [TypeAlias.rescan, Part.binding?, Ty.settle, hpending, htag', hrescan]
  | _ =>
      rw [hpart] at hname
      cases hname

end Visit

/-! ## Where a type of the registry comes from -/

theorem Registry.get?_of_settled {registry : Registry} {name : String}
    (h : registry.Settled name) : registry.get? name = some (registry.meaning name) := by
  cases hget : registry.get? name with
  | none =>
      rw [Settled, meaning, hget] at h
      cases h
  | some type => rw [meaning, hget, Option.getD_some]

/-- After the first pass a name means what a visit has made of it, or what it meant before. -/
theorem Run.meaning_origin {c c' : Checker} {visits : List Visit} (h : Run c visits c')
    (name : String) :
    (∃ v ∈ visits, v.outcome.error = none ∧ v.part.typeName? = some name
        ∧ ∃ position, v.Introduces name (c'.registry.meaning name) position)
      ∨ name ∉ Visit.typeNames visits
        ∧ c'.registry.meaning name = c.registry.meaning name := by
  induction h with
  | done => exact .inr ⟨List.not_mem_nil, rfl⟩
  | @step v rest c' hok hrest ih =>
      rcases ih with ⟨u, hu, hothers⟩ | ⟨hnot, hmeaning⟩
      · exact .inl ⟨u, List.mem_cons_of_mem v hu, hothers⟩
      · by_cases hname : v.part.typeName? = some name
        · obtain ⟨type, position, hintro⟩ := Visit.introduces hok hname
          rw [hmeaning, hintro.meaning_after]
          exact .inl ⟨v, List.mem_cons_self, hok, hname, position, hintro⟩
        · have hnew : name ∉ Visit.typeNames (v :: rest) := by
            rw [Visit.typeNames_cons, List.mem_append, Option.mem_toList, not_or]
            exact ⟨hname, hnot⟩
          exact .inr ⟨hnew, (Run.step hok hrest).meaning_of_not_mem hnew⟩

/-- In the second pass, only an alias that was pending binds its name again. -/
theorem Run.meaning_state {c c' : Checker} {visits : List Visit} (h : Run c visits c')
    (r : Checker) {x : Revisit} (hx : x ∈ Visit.revisits visits r) (name : String) :
    x.state.registry.meaning name = r.registry.meaning name
      ∨ ∃ y ∈ Visit.revisits visits r, y.visit.outcome.error = none
          ∧ y.visit.part.typeName? = some name
          ∧ ∃ type position, y.visit.Introduces name type position
            ∧ x.state.registry.meaning name = type.settle y.state.registry := by
  induction h generalizing r with
  | done => cases hx
  | @step v rest c' hok _ ih =>
      rcases List.mem_cons.mp hx with rfl | hx
      · exact .inl rfl
      · rcases ih (v.settle r).2 hx with hmeaning | ⟨y, hy, hothers⟩
        · cases hv : v.part.typeName? with
          | none =>
              rw [(Visit.registry_of_typeName?_eq_none hv r).2] at hmeaning
              exact .inl hmeaning
          | some bound =>
              obtain ⟨type, position, hintro⟩ := Visit.introduces hok hv
              rw [hintro.late r] at hmeaning
              split at hmeaning
              · rename_i hpending
                rw [Registry.meaning_register] at hmeaning
                split at hmeaning
                · rename_i heq
                  subst heq
                  refine .inr ⟨⟨v, r⟩, List.mem_cons_self, hok, hv, type, position, hintro, ?_⟩
                  rw [hmeaning, Ty.settle, if_pos hpending]
                · exact .inl hmeaning
              · exact .inl hmeaning
        · exact .inr ⟨y, List.mem_cons_of_mem _ hy, hothers⟩

namespace Passes

variable {unit : List Stmt} {registry : Registry} {checked : Checked} {visits : List Visit}
  {middle : Checker}

theorem exists_revisit_of_visit {visits : List Visit} {v : Visit} (hv : v ∈ visits) (r : Checker) :
    ∃ x ∈ Visit.revisits visits r, x.visit = v := by
  rw [← Visit.map_visit_revisits visits r] at hv
  exact List.mem_map.mp hv

/-- What a name means at a revisit, if that is settled, is the last type of a part that declares it,
or what the context has under it. -/
theorem meaning_at_revisit (h : Passes unit registry checked visits middle) {x : Revisit}
    (hx : x ∈ Visit.revisits visits middle) {name : String}
    (hsettled : x.state.registry.Settled name) :
    (∃ y ∈ Visit.revisits visits middle, y.visit.outcome.error = none
        ∧ y.visit.part.typeName? = some name
        ∧ (y.visit.settle y.state).1.binding? = some (name, x.state.registry.meaning name))
      ∨ name ∉ Visit.typeNames visits
        ∧ x.state.registry.meaning name = registry.meaning name := by
  rcases h.run.meaning_state middle hx name with
    hmiddle | ⟨y, hy, hok, hname, type, position, hintro, hmeaning⟩
  · rw [Registry.Settled, hmiddle] at hsettled
    rw [hmiddle]
    rcases h.run.meaning_origin name with ⟨v, hv, hok, hname, position, hintro⟩ | hcontext
    · left
      obtain ⟨y, hy, rfl⟩ := exists_revisit_of_visit hv middle
      refine ⟨y, hy, hok, hname, ?_⟩
      have hnone : ¬ (middle.registry.meaning name).pending?.isSome = true := by
        rw [Ty.noPending_iff.mpr hsettled]
        exact Bool.false_ne_true
      rw [hintro.binding?_settle hok hname y.state, Ty.settle, if_neg hnone]
    · exact .inr hcontext
  · left
    refine ⟨y, hy, hok, hname, ?_⟩
    rw [hintro.binding?_settle hok hname y.state, hmeaning]

end Passes

/-! ## Announcements -/

namespace Visit

variable {v : Visit}

theorem forward_of_settle {state : Checker} {d : Forward} (h : (v.settle state).1 = .forward d) :
    ∃ d₀, v.part = .forward d₀ := by
  have houtline : (Part.forward d).outline = v.part.outline := by
    rw [← h]
    exact outline_settle
  cases hpart : v.part with
  | forward d₀ => exact ⟨d₀, rfl⟩
  | _ =>
      rw [hpart] at houtline
      cases houtline

/-- A visit declares the tag of an announcement as a type, and a revisit gives it what the announced
name means by then. -/
theorem settle_forward (hok : v.outcome.error = none) (hscope : v.scope < v.before.scopes.length)
    {d : Forward} (hpart : v.part = .forward d) :
    ∃ cName entry, v.after.entryIn? v.scope d.tag = some entry ∧ entry.kind = .type
      ∧ entry.cName = cName
      ∧ ∀ (r : Checker) (type : Ty), type = .aliased d.tag cName (r.registry.meaning d.name) →
        v.settle r = (.forward { d with cName, type }, r.setType v.scope d.tag type) := by
  obtain ⟨scope, c, p⟩ := v
  cases hpart
  obtain ⟨cName, type, c₁, entry, htype, hentry, hdeclare, heq⟩ := Forward.analyse_ok hok
  refine ⟨cName, entry, ?_, by rw [hentry]; rfl, by rw [hentry, htype]; rfl,
    fun r type' htype' => ?_⟩
  · have hname : entry.name = d.tag := by
      rw [hentry]
      rfl
    show (d.analyse scope c).checker.entryIn? scope d.tag = some entry
    rw [heq, ← hname]
    exact Checker.entryIn?_of_declare hdeclare hscope
  · show ((d.analyse scope c).node.rescan scope r).map Part.forward id = _
    rw [heq, htype']
    rfl

end Visit

namespace Passes

variable {unit : List Stmt} {registry : Registry} {checked : Checked} {visits : List Visit}
  {middle : Checker}

/-- A revisit gives an announcement what its name means by then, and that is settled. -/
theorem forward_revisit (h : Passes unit registry checked visits middle) {x : Revisit}
    (hx : x ∈ Visit.revisits visits middle) {d : Forward}
    (hd : (x.visit.settle x.state).1 = .forward d) :
    d.type = .aliased d.tag d.cName (x.state.registry.meaning d.name)
      ∧ x.state.registry.Settled d.name := by
  obtain ⟨hmem, hok, hretyped, rest, hrest, hfinal, -⟩ := h.run.at_revisit middle hx
  obtain ⟨d₀, hpart⟩ := Visit.forward_of_settle hd
  obtain ⟨cName, entry, hentry, hkind, -, hsettle⟩ :=
    Visit.settle_forward hok (h.inRange x.visit hmem) hpart
  have hnow := hsettle x.state _ rfl
  rw [hnow] at hd
  cases hd
  refine ⟨rfl, ?_⟩
  -- the entry is not touched after the revisit, so the check at the end has seen this type
  have hthere : (x.state.typeIn? x.visit.scope d₀.tag).isSome := by
    rw [hretyped.isSome_typeIn?, Checker.typeIn?, hrest.grows.entryIn? hentry]
    rfl
  have hlast : checked.checker.typeIn? x.visit.scope d₀.tag
      = some (.aliased d₀.tag cName (x.state.registry.meaning d₀.name)) := by
    rw [← h.settleAll_eq, ← hfinal, hrest.typeIn?_settleAll hentry (by rw [hkind]; decide), hnow]
    exact Checker.typeIn?_setType_self hthere _
  have hnil := Checker.pendings_of_typeIn? h.resolved hlast
  exact hnil

end Passes

namespace Forward

/-- Whether a part defines the structure or union that is announced. -/
def isDefinedBy (d : Forward) : Part → Bool
  | .aggregate e => decide (e.kind = d.kind ∧ e.name = d.name)
  | _ => false

/-- A type is the structure or union that is announced. -/
def Completes (d : Forward) (target : Ty) : Prop :=
  ∃ cName scope, target = .aggregate d.kind d.name cName scope

end Forward

/-- What a part binds an announced name to is what was announced just if the part defines that. -/
theorem Visit.completes_iff {v : Visit} (hok : v.outcome.error = none) {r : Checker} {d : Forward}
    {target : Ty} (hname : v.part.typeName? = some d.name)
    (hbinding : (v.settle r).1.binding? = some (d.name, target)) :
    d.Completes target ↔ d.isDefinedBy v.part = true := by
  obtain ⟨type, position, hintro⟩ := introduces hok hname
  rw [hintro.binding?_settle hok hname r] at hbinding
  cases hbinding
  cases hpart : v.part with
  | aggregate e =>
      obtain ⟨⟨cName, scope, rfl⟩, -⟩ := hintro.result_of_aggregate hok hpart hname
      show (∃ cName' scope', Ty.aggregate e.kind e.name cName scope
        = .aggregate d.kind d.name cName' scope') ↔ _
      rw [Forward.isDefinedBy, decide_eq_true_iff]
      constructor
      · rintro ⟨cName', scope', heq⟩
        obtain ⟨hkind, hname', -, -⟩ := Ty.aggregate.inj heq
        exact ⟨hkind, hname'⟩
      · rintro ⟨hkind, hname'⟩
        exact ⟨cName, scope, by rw [hkind, hname']⟩
  | typeAlias e =>
      -- an alias stays one
      obtain ⟨cName, htype, -⟩ := hintro.type_of_alias hok hpart hname
      have hsettle : ∃ target', type.settle r.registry = .aliased d.name cName target' := by
        rw [Ty.settle]
        split
        · exact ⟨_, by rw [htype, Ty.rescan]⟩
        · exact ⟨_, htype⟩
      obtain ⟨target', htarget⟩ := hsettle
      rw [htarget]
      constructor
      · rintro ⟨cName', scope', heq⟩
        cases heq
      · intro hdefined
        cases hdefined
  | _ =>
      rw [hpart] at hname
      cases hname

/-- **An announcement is completed by what declares its name.** In the end, it stands for a settled
type: the type of a structure, union or alias of the unit with the announced name, or what the
context has under it if the unit declares no such name. So it stands for the announced structure or
union if all that declares the name defines that, and not if nothing does. -/
theorem Stmt.forwards_completed_of_check (unit : List Stmt) (registry : Registry)
    (checked : Checked) (h : check unit registry = .ok checked) (d : Forward)
    (hd : Part.forward d ∈ headsAll checked.unit) :
    ∃ target, d.type = .aliased d.tag d.cName target ∧ target.NoPending
      ∧ ((∃ p ∈ headsAll checked.unit, p.binding? = some (d.name, target))
        ∨ d.name ∉ typeNames unit ∧ registry.get? d.name = some target)
      ∧ (d.name ∈ typeNames unit →
          (∀ p ∈ headsAll unit, p.typeName? = some d.name → d.isDefinedBy p = true) →
          d.Completes target)
      ∧ (d.name ∈ typeNames unit → d.Completes target →
          ∃ p ∈ headsAll unit, d.isDefinedBy p = true) := by
  have hpasses := passes_of_check h
  have hheads := map_part_visitsAll unit Checker.global (Checker.start registry)
  generalize visitsAll unit Checker.global _ = visits at hpasses hheads
  generalize (analyseAll unit Checker.global _).checker = middle at hpasses
  have hnames : typeNames unit = Visit.typeNames visits := by
    rw [typeNames, ← hheads, List.filterMap_map]
    rfl
  have hchecked := map_part_partsAll checked.unit Checker.global hpasses.isComplete
  rw [← hchecked] at hd ⊢
  obtain ⟨p, hp, hforward⟩ := List.mem_map.mp hd
  obtain ⟨x, hx, -, rfl⟩ := hpasses.exists_revisit hp
  obtain ⟨htype, hsettled⟩ := hpasses.forward_revisit hx hforward
  refine ⟨_, htype, Ty.noPending_iff.mpr hsettled, ?_⟩
  rw [hnames]
  rcases hpasses.meaning_at_revisit hx hsettled with
    ⟨y, hy, hok, hname, hbinding⟩ | ⟨hnot, hmeaning⟩
  · have hpart : y.visit.part ∈ headsAll unit := by
      rw [← hheads]
      exact List.mem_map_of_mem (hpasses.run.at_revisit middle hy).1
    have hiff := Visit.completes_iff hok hname hbinding
    refine ⟨.inl ⟨_, List.mem_map_of_mem (hpasses.mem_parts hy), hbinding⟩, ?_, ?_⟩
    · intro _ hall
      exact hiff.mpr (hall _ hpart hname)
    · intro _ hcompletes
      exact ⟨_, hpart, hiff.mp hcompletes⟩
  · refine ⟨.inr ⟨hnot, ?_⟩, fun hmem => absurd hmem hnot, fun hmem => absurd hmem hnot⟩
    rw [hmeaning]
    refine Registry.get?_of_settled ?_
    rwa [Registry.Settled, hmeaning] at hsettled

/-- Whether a part announces a structure or union and stands for `target`. -/
def Part.announces (kind : AggregateKind) (name : String) (target : Ty) : Part → Bool
  | .forward d => decide (d.kind = kind ∧ d.name = name ∧ d.type = .aliased d.tag d.cName target)
  | _ => false

theorem Stmt.exists_forward_of_any {stmts : List Stmt} {kind : AggregateKind} {name : String}
    {target : Ty} (h : (headsAll stmts).any (Part.announces kind name target) = true) :
    ∃ d, Part.forward d ∈ headsAll stmts ∧ d.kind = kind ∧ d.name = name
      ∧ d.type = .aliased d.tag d.cName target := by
  obtain ⟨p, hp, hannounces⟩ := List.any_eq_true.mp h
  cases p with
  | forward d => exact ⟨d, hp, of_decide_eq_true hannounces⟩
  | _ => cases hannounces

/-- The structure `node` is announced in a class and defined after it, with an alias of a pointer to
it in between. -/
def Stmt.announcedUnit : List Stmt :=
  let here := Position.unknown
  [.classDef { name := "List", ancestor := none, position := here }
      [.forward { kind := .struct, name := "node", position := here }],
    .typeAlias { name := "link", descriptor := .named "struct node", depth := 1, position := here },
    .aggregate { kind := .struct, name := "node", position := here }
      [.var
        { form := .plain, descriptor := .named "link", depth := 0, name := "next", value := none,
          position := here }]]

theorem Stmt.announcedUnit_completed :
    ∃ checked, check announcedUnit (announceAll announcedUnit .empty) = .ok checked
      ∧ ∃ d, Part.forward d ∈ headsAll checked.unit ∧ d.kind = .struct ∧ d.name = "node"
        ∧ ∃ target, d.type = .aliased d.tag d.cName target ∧ target.NoPending
          ∧ d.Completes target := by
  obtain ⟨checked, hcheck, hany⟩ : ∃ checked,
      check announcedUnit (announceAll announcedUnit .empty) = .ok checked
        ∧ (headsAll checked.unit).any (Part.announces .struct "node"
            (.aggregate .struct "node" "__extc_t_Object_node" 2)) = true :=
    exists_ok_of_decide (by decide +kernel)
  obtain ⟨d, hd, hkind, hname, -⟩ := exists_forward_of_any hany
  obtain ⟨target, htype, hsettled, -, hcompletes, -⟩ :=
    forwards_completed_of_check _ _ checked hcheck d hd
  refine ⟨checked, hcheck, d, hd, hkind, hname, target, htype, hsettled, hcompletes ?_ ?_⟩
  · rw [hname]
    decide +kernel
  · have honly : ∀ p ∈ headsAll announcedUnit, p.typeName? = some "node" →
        ∃ e, p = .aggregate e ∧ e.kind = .struct ∧ e.name = "node" := by
      simp [announcedUnit, headsAll, heads, Part.typeName?]
    intro p hp hpname
    rw [hname] at hpname
    obtain ⟨e, rfl, hekind, hename⟩ := honly p hp hpname
    exact decide_eq_true ⟨hekind.trans hkind.symm, hename.trans hname.symm⟩

/-- The structure `S` is announced, and there is none: the name is that of an alias. -/
def Stmt.misannouncedUnit : List Stmt :=
  let here := Position.unknown
  [.forward { kind := .struct, name := "S", position := here },
    .typeAlias { name := "S", descriptor := .named "int", depth := 0, position := here }]

theorem Stmt.misannouncedUnit_accepted :
    ∃ checked, check misannouncedUnit (announceAll misannouncedUnit .empty) = .ok checked
      ∧ ∃ d, Part.forward d ∈ headsAll checked.unit ∧ d.kind = .struct ∧ d.name = "S"
        ∧ ∃ target, d.type = .aliased d.tag d.cName target ∧ ¬ d.Completes target := by
  obtain ⟨checked, hcheck, hany⟩ : ∃ checked,
      check misannouncedUnit (announceAll misannouncedUnit .empty) = .ok checked
        ∧ (headsAll checked.unit).any (Part.announces .struct "S"
            (.aliased "S" "__extc_t_Object_S" (.primitive .int))) = true :=
    exists_ok_of_decide (by decide +kernel)
  obtain ⟨d, hd, hkind, hname, htype⟩ := exists_forward_of_any hany
  refine ⟨checked, hcheck, d, hd, hkind, hname, _, htype, ?_⟩
  rintro ⟨cName, scope, heq⟩
  cases heq

/-! ## Texts of a tag -/

namespace Text

theorem isBlank_of_isWordChar {c : Char} (h : isWordChar c = true) : isBlank c = false := by
  -- no range of the one table meets a range of the other
  have hapart : (wordChars.all fun r => blanks.all fun b =>
      decide (r.2 < b.1) || decide (b.2 < r.1)) = true := by decide +kernel
  obtain ⟨r, hr, hrlow, hrhigh⟩ := (CharClass.contains_iff _ _).mp h
  rw [Bool.eq_false_iff]
  intro hblank
  obtain ⟨b, hb, hblow, hbhigh⟩ := (CharClass.contains_iff _ _).mp hblank
  have hranges := List.all_eq_true.mp (List.all_eq_true.mp hapart r hr) b hb
  rw [Bool.or_eq_true, decide_eq_true_iff, decide_eq_true_iff] at hranges
  omega

theorem squeezeFrom_append {word : List Char} (h : ∀ c ∈ word, isBlank c = false)
    (rest : List Char) : squeezeFrom false (word ++ rest) = word ++ squeezeFrom false rest := by
  induction word with
  | nil => rfl
  | cons c cs ih =>
      obtain ⟨hc, hcs⟩ := List.forall_mem_cons.mp h
      rw [List.cons_append, squeezeFrom, hc, if_neg Bool.false_ne_true, ih hcs, List.cons_append]

/-- What follows a run of white space does not see how long the run is. -/
theorem squeezeFrom_blanks {run : List Char} (h : ∀ c ∈ run, isBlank c = true)
    (rest : List Char) : squeezeFrom true (run ++ rest) = squeezeFrom true rest := by
  induction run with
  | nil => rfl
  | cons c cs ih =>
      obtain ⟨hc, hcs⟩ := List.forall_mem_cons.mp h
      rw [List.cons_append, squeezeFrom, if_pos hc, if_pos rfl, ih hcs]

/-- A keyword and a name with white space between them, with the white space written as one
space. -/
theorem squeeze_of_words {keyword run name : List Char}
    (hkeyword : ∀ c ∈ keyword, isBlank c = false) (hrun : ∀ c ∈ run, isBlank c = true)
    (hrunne : run ≠ []) (hname : ∀ c ∈ name, isBlank c = false) (hnamene : name ≠ []) :
    squeeze (keyword ++ (run ++ name)) = keyword ++ ' ' :: name := by
  obtain ⟨blank, run, rfl⟩ := List.exists_cons_of_ne_nil hrunne
  obtain ⟨hblank, hrun⟩ := List.forall_mem_cons.mp hrun
  obtain ⟨first, others, rfl⟩ := List.exists_cons_of_ne_nil hnamene
  obtain ⟨hfirst, hothers⟩ := List.forall_mem_cons.mp hname
  have hword := squeezeFrom_append hothers []
  rw [List.append_nil, squeezeFrom, List.append_nil] at hword
  rw [squeeze, squeezeFrom_append hkeyword, List.cons_append, squeezeFrom, if_pos hblank,
    if_neg Bool.false_ne_true, squeezeFrom_blanks hrun, squeezeFrom, hfirst,
    if_neg Bool.false_ne_true, hword]

end Text

theorem Primitive.take_of_ofKeyword? {text : String} {kind : Primitive}
    (h : ofKeyword? text = some kind) :
    text.toList.take 3 ≠ "str".toList ∧ text.toList.take 3 ≠ "uni".toList := by
  unfold ofKeyword? at h
  split at h
  any_goals decide
  cases h

theorem AggregateKind.isBlank_of_mem_keyword {kind : AggregateKind} {c : Char}
    (hc : c ∈ kind.keyword.toList) : Text.isBlank c = false := by
  have hall : (kind.keyword.toList.all fun c => !Text.isBlank c) = true := by
    cases kind with
    | struct => decide
    | union => decide
  simpa using List.all_eq_true.mp hall c hc

/-- A text that is a keyword and a name has one space between them when it is normalised. -/
theorem squeeze_of_isTagText (kind : AggregateKind) {name written : List Char}
    (h : isTagText kind.keyword name written = true) :
    Text.squeeze written = kind.keyword.toList ++ ' ' :: name := by
  unfold isTagText at h
  split at h
  · rename_i hstarts
    rw [Bool.and_eq_true, Bool.and_eq_true, Bool.and_eq_true, decide_eq_true_iff] at h
    obtain ⟨⟨⟨hrun, hname⟩, hword⟩, hrest⟩ := h
    obtain ⟨rest, rfl⟩ := List.isPrefixOf_iff_prefix.mp hstarts
    rw [← String.length_toList, List.drop_left] at hrun hrest
    rw [← List.takeWhile_append_dropWhile (p := Text.isBlank) (l := rest), hrest]
    refine Text.squeeze_of_words (fun c hc => ?_) (fun c hc => ?_) ?_ (fun c hc => ?_) ?_
    · exact AggregateKind.isBlank_of_mem_keyword hc
    · exact List.all_eq_true.mp List.all_takeWhile c hc
    · rintro hnil
      rw [hnil] at hrun
      cases hrun
    · exact Text.isBlank_of_isWordChar (List.all_eq_true.mp hword c hc)
    · rintro rfl
      cases hname
  · cases h

/-- A keyword and a name name no type of their own, and ask the registry for the name. -/
theorem Descriptor.key_of_tag (kind : AggregateKind) {written name : String}
    (h : normalised written = kind.keyword.toList ++ ' ' :: name.toList) :
    keyword? written = none ∧ key written = name := by
  refine ⟨?_, ?_⟩
  · unfold keyword?
    rw [h]
    split
    · rename_i primitive hprimitive
      obtain ⟨hstruct, hunion⟩ := Primitive.take_of_ofKeyword? hprimitive
      rw [String.toList_ofList] at hstruct hunion
      cases kind with
      | struct => exact absurd rfl hstruct
      | union => exact absurd rfl hunion
    · refine if_neg fun hobject => ?_
      cases kind with
      | struct | union => cases hobject
  · have hbare : bareName (normalised written) = name.toList := by
      rw [h]
      cases kind with
      | struct => rfl
      | union => rfl
    rw [key, hbare, String.ofList_toList]

/-- An alias of a tag under its own name is written with a name that asks the registry for just
that. -/
theorem TypeAlias.written_of_isTagAlias {d : TypeAlias} (h : d.isTagAlias = true) :
    ∃ written, d.descriptor = .named written ∧ Descriptor.keyword? written = none
      ∧ Descriptor.key written = d.name := by
  unfold isTagAlias at h
  split at h
  · rename_i written hwritten
    refine ⟨written, hwritten, ?_⟩
    rcases Bool.or_eq_true_iff.mp h with hstruct | hunion
    · exact Descriptor.key_of_tag .struct (squeeze_of_isTagText .struct hstruct)
    · exact Descriptor.key_of_tag .union (squeeze_of_isTagText .union hunion)
  · cases h

theorem Ty.unaliased_pointerTo_eq_iff (ty : Ty) (depth : Nat) :
    ty.unaliased = (pointerTo ty depth).unaliased ↔ depth = 0 := by
  constructor
  · intro h
    by_contra hdepth
    -- behind its aliases the type would be a pointer to itself
    have hcanonical : (pointerTo ty depth).canonical = ty.canonical := by
      rw [← canonical_unaliased, ← h, canonical_unaliased]
    cases ty with
    | pointer base inner =>
        rw [pointerTo_pointer, if_neg hdepth] at h
        change pointer base inner = pointer base (inner + depth) at h
        have hsum := (pointer.inj h).2
        omega
    | _ =>
        rw [show pointerTo _ depth = _ from if_neg hdepth] at hcanonical
        exact canonical_pointer_ne _ _ hcanonical
  · rintro rfl
    rw [pointerTo_zero]

/-! ## Aliases -/

namespace Passes

variable {unit : List Stmt} {registry : Registry} {checked : Checked} {visits : List Visit}
  {middle : Checker}

variable (h : Passes unit registry checked visits middle)
include h

/-- In the end, the name of an alias stands for the type that the alias is written with. -/
theorem meaning_of_alias (hblank : registry.Blank) (hdistinct : (Visit.typeNames visits).Nodup)
    {x : Revisit} (hx : x ∈ Visit.revisits visits middle) {d : TypeAlias}
    (hpart : x.visit.part = .typeAlias d) (htag : d.isTagAlias = false) :
    ∃ cName, checked.checker.registry.meaning d.name
      = .aliased d.name cName (Ty.resolve checked.checker.registry d.descriptor d.depth) := by
  obtain ⟨-, hok, -⟩ := h.run.at_revisit middle hx
  have hname : x.visit.part.typeName? = some d.name := by
    rw [hpart, Part.typeName?, htag, if_neg Bool.false_ne_true]
  obtain ⟨type, position, hintro⟩ := Visit.introduces hok hname
  obtain ⟨cName, rfl, -⟩ := hintro.type_of_alias hok hpart hname
  have hbefore := h.before_settlesTo hblank hdistinct hx
  refine ⟨cName, ?_⟩
  rw [← h.rescan_introduced hblank hdistinct hx hbefore hintro, Ty.rescan,
    Ty.rescan_resolve hbefore]

/-- What the context knows of is known in the end. -/
theorem isSome_get? {name : String}
    (hname : name ∈ registry.names) : (checked.checker.registry.get? name).isSome = true := by
  have hmiddle : name ∈ middle.registry.names := h.run.edits.names_isPrefix.subset hname
  rw [← Registry.mem_names_iff, ← h.settleAll_eq, Visit.settleAll,
    h.run.names_settleAll (List.Subset.refl _)]
  exact hmiddle

end Passes

/-- **An alias names its target, unless that is lost with a tag.** The context of the unit knows
nothing but what the unit announces, and every name of a type is defined by one structure or alias
at most. Then, if the check accepts the unit, the name of each alias is bound in the end, and but
for aliases it stands for the type that the alias is written with, with one exception: an alias of a
tag under its own name that is written with levels of indirection. -/
theorem Stmt.aliases_resolved_of_check (unit : List Stmt) (checked : Checked)
    (hdistinct : (typeNames unit).Nodup) (h : check unit (announceAll unit .empty) = .ok checked)
    (d : TypeAlias) (hd : Part.typeAlias d ∈ headsAll unit) :
    ∃ type, checked.checker.registry.get? d.name = some type
      ∧ (type.unaliased
            = (Ty.resolve checked.checker.registry d.descriptor d.depth).unaliased
          ↔ (d.isTagAlias = true → d.depth = 0)) := by
  have hpasses := passes_of_check h
  have hheads := map_part_visitsAll unit Checker.global (Checker.start (announceAll unit .empty))
  generalize visitsAll unit Checker.global _ = visits at hpasses hheads
  generalize (analyseAll unit Checker.global _).checker = middle at hpasses
  have hbound : d.name ∈ (announceAll unit .empty).names :=
    Registry.mem_names_announceAll.mpr ⟨_, hd, _, rfl⟩
  obtain ⟨type, hget⟩ := Option.isSome_iff_exists.mp (hpasses.isSome_get? hbound)
  refine ⟨type, hget, ?_⟩
  cases htag : d.isTagAlias with
  | true =>
      obtain ⟨written, hwritten, hkeyword, hkey⟩ := TypeAlias.written_of_isTagAlias htag
      rw [hwritten, Ty.resolve, Ty.resolveName_eq, hkeyword, Option.getD_none, hkey,
        Registry.meaning, hget, Option.getD_some, Ty.unaliased_pointerTo_eq_iff]
      simp
  | false =>
      rw [← hheads] at hd
      obtain ⟨v, hv, hpart⟩ := List.mem_map.mp hd
      obtain ⟨x, hx, rfl⟩ := Passes.exists_revisit_of_visit hv middle
      have hnames : (Visit.typeNames visits).Nodup := by
        rw [typeNames, ← hheads, List.filterMap_map] at hdistinct
        exact hdistinct
      obtain ⟨cName, hmeaning⟩ :=
        hpasses.meaning_of_alias (Registry.blank_announceAll unit) hnames hx hpart htag
      rw [Registry.meaning, hget, Option.getD_some] at hmeaning
      rw [hmeaning, Ty.unaliased]
      simp

namespace TypeAlias

def link : TypeAlias :=
  { name := "link", descriptor := .named "node", depth := 1, position := .unknown }

def visit : TypeAlias :=
  { name := "visit", descriptor := .signature "void" [(.named "link", 0)] 0, depth := 0,
    position := .unknown }

/-- The tag of the structure `node` under its own name. -/
def ownTag : TypeAlias :=
  { name := "node", descriptor := .named " struct \t node", depth := 0, position := .unknown }

/-- What is written as a pointer to the structure `node`, under the name of the structure. -/
def pointerToOwnTag : TypeAlias :=
  { name := "node", descriptor := .named "struct node", depth := 1, position := .unknown }

end TypeAlias

/-- Aliases, and the structure that they lead to after them. -/
def Stmt.aliasedUnit (aliases : List TypeAlias) : List Stmt :=
  aliases.map .typeAlias
    ++ [.aggregate { kind := .struct, name := "node", position := .unknown }
      [.var
        { form := .plain, descriptor := .named "int", depth := 0, name := "x", value := none,
          position := .unknown }]]

theorem Stmt.mem_headsAll_aliasedUnit {aliases : List TypeAlias} {d : TypeAlias}
    (hd : d ∈ aliases) : Part.typeAlias d ∈ headsAll (aliasedUnit aliases) := by
  induction aliases with
  | nil => cases hd
  | cons first rest ih =>
      rcases List.mem_cons.mp hd with rfl | hd
      · exact List.mem_cons_self
      · exact List.mem_cons_of_mem _ (ih hd)

theorem Stmt.aliasedUnit_resolved :
    ∃ checked, check (aliasedUnit [.link, .visit, .ownTag])
          (announceAll (aliasedUnit [.link, .visit, .ownTag]) .empty) = .ok checked
      ∧ ∀ d ∈ [TypeAlias.link, .visit, .ownTag], ∃ type,
          checked.checker.registry.get? d.name = some type
          ∧ type.unaliased
            = (Ty.resolve checked.checker.registry d.descriptor d.depth).unaliased := by
  obtain ⟨checked, hcheck, -⟩ : ∃ checked, check (aliasedUnit [.link, .visit, .ownTag])
      (announceAll (aliasedUnit [.link, .visit, .ownTag]) .empty) = .ok checked ∧ True :=
    exists_ok_of_decide (by decide +kernel)
  have hdepth : ∀ d ∈ [TypeAlias.link, .visit, .ownTag], d.isTagAlias = true → d.depth = 0 := by
    decide +kernel
  refine ⟨checked, hcheck, fun d hd => ?_⟩
  obtain ⟨type, hget, hiff⟩ := aliases_resolved_of_check _ checked (by decide +kernel) hcheck d
    (mem_headsAll_aliasedUnit hd)
  exact ⟨type, hget, hiff.mpr (hdepth d hd)⟩

theorem Stmt.aliasedUnit_loses_pointer :
    (typeNames (aliasedUnit [.pointerToOwnTag])).Nodup
      ∧ Part.typeAlias .pointerToOwnTag ∈ headsAll (aliasedUnit [.pointerToOwnTag])
      ∧ ∃ checked, check (aliasedUnit [.pointerToOwnTag])
            (announceAll (aliasedUnit [.pointerToOwnTag]) .empty) = .ok checked
        ∧ ∃ type, checked.checker.registry.get? TypeAlias.pointerToOwnTag.name = some type
          ∧ type.unaliased ≠ (Ty.resolve checked.checker.registry
              TypeAlias.pointerToOwnTag.descriptor TypeAlias.pointerToOwnTag.depth).unaliased := by
  refine ⟨by decide +kernel, List.mem_cons_self, ?_⟩
  obtain ⟨checked, hcheck, hget, hne⟩ : ∃ checked, check (aliasedUnit [.pointerToOwnTag])
        (announceAll (aliasedUnit [.pointerToOwnTag]) .empty) = .ok checked
      ∧ checked.checker.registry.get? "node"
        = some (.aggregate .struct "node" "__extc_t_Object_node" 1)
      ∧ Ty.aggregate .struct "node" "__extc_t_Object_node" 1
        ≠ (Ty.resolve checked.checker.registry (.named "struct node") 1).unaliased :=
    exists_ok_of_decide (by decide +kernel)
  exact ⟨checked, hcheck, _, hget, hne⟩

end ExtensionCompiler

import ExtensionCompiler.Proofs.Redeclarations
import ExtensionCompiler.Proofs.TypedefLines

set_option autoImplicit false

/-! # One typedef for a tag

A structure or union goes by the C name that an announcement of its tag has given it, if there is
one in sight when it is analysed, and then the announcement writes the typedef. Whether it does is
decided anew when the file is written, by looking the tag up once more (`Passes.isForwarded_iff`).
By then the look-up may end in a nearer scope, at an announcement that came later and has another C
name. The structure then writes a typedef of its own, and the announcement that named it still
writes the same.

So a C name has at least one typedef, and it has exactly one just if each announcement by that name
is the one that the look-up ends at, and no other type has the name
(`Stmt.typedef_once_of_compile`). -/

namespace ExtensionCompiler

open C.Code (typedefsAll)

/-! ## Where a look-up ends -/

namespace Checker

/-- The nearest scope around a place that has the name. -/
def foundIn? (c : Checker) (id : ScopeId) (name : String) : Option ScopeId :=
  ((c.chain id).find? fun s => (s.2.get? name).isSome).map Prod.fst

theorem find?_eq_bind (c : Checker) (id : ScopeId) (name : String) :
    c.find? id name = (c.foundIn? id name).bind fun s => c.entryIn? s name := by
  have hscopes : ∀ s ∈ c.chain id, c.scopes[s.1]? = some s.2 := fun _ => mem_chainWithin
  unfold find? foundIn?
  generalize c.chain id = chain at hscopes ⊢
  induction chain with
  | nil => rfl
  | cons s rest ih =>
      obtain ⟨hs, hrest⟩ := List.forall_mem_cons.mp hscopes
      cases hget : s.2.get? name with
      | none =>
          rw [List.findSome?_cons_of_isNone (by rw [hget]; rfl),
            List.find?_cons_of_neg (by rw [hget]; exact Bool.false_ne_true)]
          exact ih hrest
      | some e =>
          rw [List.findSome?_cons_of_isSome (by rw [hget]; rfl),
            List.find?_cons_of_pos (by rw [hget]; rfl), hget]
          show some e = c.entryIn? s.1 name
          rw [entryIn?, hs]
          exact hget.symm

/-- Names and C names of entries last when types change. -/
theorem Retyped.exists_entryIn? {c c' : Checker} (h : Retyped c c') (htidy : c'.Tidy)
    {id : ScopeId} {name : String} {e : Entry} (he : c.entryIn? id name = some e) :
    ∃ e', c'.entryIn? id name = some e' ∧ e'.cName = e.cName := by
  obtain ⟨e', hmem, hname, hcName, -, -⟩ := h.entryIn? he
  cases hs : c'.scopes[id]? with
  | none =>
      rw [scope, hs] at hmem
      cases hmem
  | some s =>
      rw [scope_eq_of_getElem? hs] at hmem
      refine ⟨e', ?_, hcName⟩
      rw [← hname]
      exact htidy.entryIn?_of_mem hs hmem

end Checker

/-! ## How C names end -/

theorem Scope.suffix_linkageName (s : Scope) {kind : EntryKind} (hkind : kind.isType = true)
    (name : String) : '_' :: name.toList <:+ (s.linkageName kind name false).toList := by
  unfold linkageName
  rw [if_neg Bool.false_ne_true, if_pos hkind]
  refine ⟨(kind.lead ++ s.className).toList, ?_⟩
  simp

namespace AggregateKind

theorem suffix_tag (kind : AggregateKind) (name : String) :
    ' ' :: name.toList <:+ (kind.tag name).toList := by
  refine ⟨kind.keyword.toList, ?_⟩
  simp [tag]

/-- A tag has one name. -/
theorem tag_inj {kind kind' : AggregateKind} {a b : String} (h : kind.tag a = kind'.tag b) :
    a = b := by
  rw [tag, tag, ← String.toList_inj] at h
  simp only [String.toList_append] at h
  rw [← String.toList_inj]
  cases kind with
  | struct =>
      cases kind' with
      | struct => simpa using h
      | union => simp [keyword] at h
  | union =>
      cases kind' with
      | struct => simp [keyword] at h
      | union => simpa using h

/-- What ends in a name after an underscore does not end in a tag for the name. -/
theorem not_suffix_tag {kind : AggregateKind} {name : String} {cs : List Char}
    (h : '_' :: name.toList <:+ cs) : ¬ (kind.tag name).toList <:+ cs := by
  intro htag
  have hblank : ' ' :: name.toList <:+ cs := (kind.suffix_tag name).trans htag
  have heq := (List.suffix_of_suffix_length_le hblank h (Nat.le_refl _)).eq_of_length rfl
  cases heq

end AggregateKind

/-- A name that is no type's ends the C name of its entry. -/
theorem Entry.Linked.suffix {e : Entry} (h : e.Linked) (hkind : e.kind.isType = false) :
    e.name.toList <:+ e.cName.toList := by
  rw [h hkind]
  split
  · exact List.suffix_refl _
  · rw [String.toList_append]
    exact List.suffix_append _ _

namespace Passes

variable {unit : List Stmt} {registry : Registry} {checked : Checked} {visits : List Visit}
  {middle : Checker}

/-! ## What stands under a tag -/

variable (h : Passes unit registry checked visits middle)
include h

/-- If no type has the name, then what stands under it is an announcement or no type. -/
theorem forward_of_entryIn? {id : ScopeId}
    {name : String} (hfree : ∀ v ∈ visits, v.part.typeName? ≠ some name) {e : Entry}
    (he : middle.entryIn? id name = some e) (hkind : e.kind.isType = true) :
    ∃ v ∈ visits, ∃ d, v.part = .forward d ∧ v.scope = id ∧ d.tag = name
      ∧ v.result.part = .forward { d with cName := e.cName, type := e.type }
      ∧ '_' :: d.name.toList <:+ e.cName.toList := by
  obtain ⟨rfl, v, hv, -, hdeclares⟩ := h.exists_declares he
  have hnot (hfalse : e.kind.isType = false) : False := Bool.false_ne_true (hfalse.symm.trans hkind)
  cases hdeclares with
  | object hfalse _ | slot hfalse _ _ | method _ hfalse _ _ _ => exact (hnot hfalse).elim
  | heading _ hfun _ => exact (hnot (by rw [hfun]; rfl)).elim
  | @forward d hpart hid hname _ hcName _ hresult =>
      refine ⟨v, hv, d, hpart, hid.symm, hname.symm, hresult, ?_⟩
      rw [hcName]
      exact Scope.suffix_linkageName _ rfl _
  | @typeAlias d hpart htag _ hname _ _ _ _ =>
      refine absurd ?_ (hfree v hv)
      rw [hpart, hname, Part.typeName?, htag]
      rfl
  | aggregate hpart _ hname _ _ _ =>
      refine absurd ?_ (hfree v hv)
      rw [hpart, hname]
      rfl

/-- The C name of a structure or union ends in its name, whoever has given it. -/
theorem suffix_typeName {v : Visit} (hv : v ∈ visits) {d : Aggregate} (hext : d.isExternal = false)
    (hfree : ∀ w ∈ visits, w.part.typeName? ≠ some d.tag) :
    '_' :: d.name.toList
      <:+ (d.typeName v.scope (v.before.addScope d.name .aggregate v.scope).2).toList := by
  unfold Aggregate.typeName
  rw [if_neg (by rw [hext]; exact Bool.false_ne_true)]
  dsimp only
  split
  · rename_i e hfind
    split
    · rename_i hkind
      rw [Checker.find?_eq_bind] at hfind
      obtain ⟨id, -, he⟩ := Option.bind_eq_some_iff.mp hfind
      rw [Checker.addScope, v.before.entryIn?_pushScope rfl] at he
      obtain ⟨w, -, d', -, -, htag, -, hsuffix⟩ :=
        h.forward_of_entryIn? hfree ((h.grows_before hv).2.entryIn? he) (by rw [hkind]; rfl)
      rwa [AggregateKind.tag_inj htag] at hsuffix
    · exact Scope.suffix_linkageName _ rfl _
  · exact Scope.suffix_linkageName _ rfl _

/-- An entry under a tag that has a C name for the tagged type is that of an announcement. -/
theorem exists_forward {id : ScopeId} {kind : AggregateKind} {name : String}
    (hfree : ∀ v ∈ visits, v.part.typeName? ≠ some (kind.tag name)) {e : Entry}
    (he : checked.checker.entryIn? id (kind.tag name) = some e)
    (hsuffix : '_' :: name.toList <:+ e.cName.toList) :
    ∃ q ∈ Stmt.partsAll checked.unit Checker.global, q.scope = id
      ∧ ∃ d, q.part = .forward d ∧ d.cName = e.cName ∧ d.tag = kind.tag name := by
  obtain ⟨e₀, he₀, hcName, -⟩ := h.entryIn?_middle he
  cases hkind : e₀.kind.isType with
  | false =>
      obtain ⟨s, hs, hget⟩ := Checker.entryIn?_eq_some_iff.mp he₀
      have hlinked := (h.run.tidy (Checker.tidy_start registry)).linked s (List.mem_of_getElem? hs)
        e₀ (Scope.mem_of_get? hget)
      have htag := hlinked.suffix hkind
      rw [Scope.name_of_get? hget, hcName] at htag
      exact absurd htag (AggregateKind.not_suffix_tag hsuffix)
  | true =>
      obtain ⟨v, hv, d, -, hscope, htag, hresult, -⟩ := h.forward_of_entryIn? hfree he₀ hkind
      obtain ⟨state, hmem⟩ := h.exists_part hv
      refine ⟨_, hmem, hscope, ?_⟩
      rw [Visit.settle, hresult]
      exact ⟨_, rfl, hcName, htag⟩

/-- The entry of an announcement keeps its C name. -/
theorem entryIn?_of_forward {q : Placed} (hq : q ∈ Stmt.partsAll checked.unit Checker.global)
    {d : Forward} (hd : q.part = .forward d) :
    ∃ e, checked.checker.entryIn? q.scope d.tag = some e ∧ e.cName = d.cName := by
  obtain ⟨x, hx, hok, rfl⟩ := h.exists_revisit hq
  obtain ⟨hv, -, -, rest, hrest, -, -⟩ := h.run.at_revisit middle hx
  obtain ⟨d₀, hpart⟩ := Visit.forward_of_settle hd
  obtain ⟨cName, entry, hentry, -, hcName, hsettle⟩ :=
    Visit.settle_forward hok (h.inRange x.visit hv) hpart
  rw [hsettle x.state _ rfl] at hd
  cases hd
  obtain ⟨e, he, hsame⟩ :=
    h.retyped.exists_entryIn? h.tidy (hrest.grows.entryIn? hentry)
  exact ⟨e, he, hsame.trans hcName⟩

/-! ## Who writes a typedef -/

/-- The line that a structure or union writes in the section of tags. -/
theorem tagName?_aggregate {p : Placed} (hp : p ∈ Stmt.partsAll checked.unit Checker.global)
    {d : Aggregate} (hd : p.part = .aggregate d) :
    ∃ n, p.part.typeCName? = some n
      ∧ p.part.tagName? checked.checker
        = if d.isExternal || d.isForwarded n p.scope checked.checker then none else some n := by
  have hcomplete := h.isComplete p hp
  obtain ⟨x, -, -, rfl⟩ := h.exists_revisit hp
  obtain ⟨-, -, -, -, hscope⟩ := Visit.aggregate_of_settle hd
  rw [hd] at hcomplete ⊢
  obtain ⟨n, outer, inner, htype, -, hmembers⟩ := hcomplete
  refine ⟨n, by rw [Part.typeCName?, htype], ?_⟩
  rw [Part.tagName?]
  unfold Aggregate.header
  rw [htype, hscope, hmembers]
  cases d.isExternal with
  | true => rfl
  | false =>
      dsimp only
      cases d.isForwarded n x.visit.scope checked.checker with
      | true => rfl
      | false => rfl

/-- What writes a C name in the section of tags is an announcement that has it, or a structure or
union that has it and does not leave the line to an announcement. -/
theorem tagName?_eq_some_iff {q : Placed}
    (hq : q ∈ Stmt.partsAll checked.unit Checker.global) {n : String} :
    q.part.tagName? checked.checker = some n
      ↔ (∃ f, q.part = .forward f ∧ f.cName = n)
        ∨ ∃ d, q.part = .aggregate d ∧ d.isExternal = false ∧ q.part.typeCName? = some n
          ∧ d.isForwarded n q.scope checked.checker = false := by
  cases hpart : q.part with
  | forward f => simp [Part.tagName?]
  | aggregate d =>
      obtain ⟨n', hn', htag⟩ := h.tagName?_aggregate hq hpart
      rw [hpart] at hn' htag
      rw [htag, hn']
      constructor
      · intro hsome
        split at hsome
        · cases hsome
        · rename_i hnot
          cases hsome
          rw [Bool.or_eq_true, not_or, Bool.not_eq_true, Bool.not_eq_true] at hnot
          exact .inr ⟨d, rfl, hnot.1, rfl, hnot.2⟩
      · rintro (⟨f, hf, -⟩ | ⟨d', hd', hext, hsame, hforwarded⟩)
        · cases hf
        · cases hd'
          cases hsame
          rw [hext, hforwarded]
          rfl
  | _ => simp [Part.tagName?]

end Passes

/-! ## Definitions and announcements of a unit -/

/-- The tag that a part defines. -/
def Part.definedTag? : Part → Option String
  | .aggregate d => some d.tag
  | _ => none

/-- The tags that a unit defines, in order. -/
def Stmt.definedTags (unit : List Stmt) : List String := (headsAll unit).filterMap Part.definedTag?

def Visit.definedTags (visits : List Visit) : List String :=
  visits.filterMap fun v => v.part.definedTag?

/-- What tells the definition or announcement of a tag from all others: the tag, and for an
announcement also its scope. -/
def Placed.mark? : Placed → Option (Option ScopeId × String)
  | ⟨_, .aggregate d⟩ => some (none, d.tag)
  | ⟨scope, .forward d⟩ => some (some scope, d.tag)
  | _ => none

theorem Placed.mark?_outline (scope : ScopeId) (p : Part) :
    mark? ⟨scope, p.outline⟩ = mark? ⟨scope, p⟩ := by
  cases p <;> rfl

theorem Placed.mark?_aggregate {p : Placed} {d : Aggregate} (h : p.part = .aggregate d) :
    p.mark? = some (none, d.tag) := by
  obtain ⟨scope, part⟩ := p
  cases h
  rfl

theorem Placed.mark?_forward {p : Placed} {d : Forward} (h : p.part = .forward d) :
    p.mark? = some (some p.scope, d.tag) := by
  obtain ⟨scope, part⟩ := p
  cases h
  rfl

theorem Placed.mark?_eq_some {p : Placed} {m : Option ScopeId × String}
    (h : p.mark? = some m) :
    p.part.definedTag? = some m.2 ∧ m.1 = none
      ∨ ∃ d, p.part = .forward d ∧ m = (some p.scope, d.tag) := by
  obtain ⟨scope, part⟩ := p
  cases part with
  | aggregate d =>
      cases h
      exact .inl ⟨rfl, rfl⟩
  | forward d =>
      cases h
      exact .inr ⟨d, rfl, rfl⟩
  | _ => cases h

namespace Passes

variable {unit : List Stmt} {registry : Registry} {checked : Checked} {visits : List Visit}
  {middle : Checker}

variable (h : Passes unit registry checked visits middle)
include h

theorem marks_eq :
    (Stmt.partsAll checked.unit Checker.global).filterMap Placed.mark?
      = visits.filterMap fun v => Placed.mark? ⟨v.scope, v.part⟩ := by
  have hvisits := Visit.map_visit_revisits visits middle
  rw [h.parts_eq, List.filterMap_map, ← hvisits, List.filterMap_map, hvisits]
  refine List.filterMap_congr fun x _ => ?_
  show Placed.mark? ⟨_, _⟩ = Placed.mark? ⟨_, _⟩
  rw [← Placed.mark?_outline, Visit.outline_settle, Placed.mark?_outline]

/-- A tag is announced once in a scope, and so it is marked once if it is defined once. -/
theorem nodup_marks (htags : (Visit.definedTags visits).Nodup) :
    ((Stmt.partsAll checked.unit Checker.global).filterMap Placed.mark?).Nodup := by
  have happart := (List.pairwise_flatMap.mp (h.run.takesNames h.inRange).apart).2
  have hdefined := List.pairwise_filterMap.mp htags
  rw [h.marks_eq]
  refine List.pairwise_filterMap.mpr ((happart.and hdefined).imp ?_)
  rintro v w ⟨hscopes, hdistinct⟩ m hm m' hm' rfl
  rcases Placed.mark?_eq_some hm with ⟨hv, hnone⟩ | ⟨f, hv, hf⟩
  · rcases Placed.mark?_eq_some hm' with ⟨hw, -⟩ | ⟨g, -, hg⟩
    · exact hdistinct _ hv _ hw rfl
    · rw [hg] at hnone
      cases hnone
  · rcases Placed.mark?_eq_some hm' with ⟨-, hnone⟩ | ⟨g, hw, hg⟩
    · rw [hf] at hnone
      cases hnone
    · -- both announce the tag in one scope, and only functions are introduced again
      obtain ⟨hscope, htag⟩ := Prod.mk.inj (hf.symm.trans hg)
      have hv' : v.introductions = [⟨v.scope, f.tag, none⟩] := by
        rw [Visit.introductions, show v.part = _ from hv]
      have hw' : w.introductions = [⟨w.scope, g.tag, none⟩] := by
        rw [Visit.introductions, show w.part = _ from hw]
      rw [hv', hw'] at hscopes
      obtain ⟨_, _, hform, -⟩ := hscopes _ (List.mem_singleton_self _) _
        (List.mem_singleton_self _) (Option.some.inj hscope) htag
      cases hform

end Passes

/-! ## How many typedefs a C name has -/

section Counting

variable {α β : Type} {l : List α}

theorem countP_le_one_of_nodup [DecidableEq β] {f : α → Option β} (h : (l.filterMap f).Nodup)
    {p : α → Bool} {b : β} (hp : ∀ a ∈ l, p a = true → f a = some b) : l.countP p ≤ 1 := by
  calc l.countP p ≤ l.countP (fun a => f a == some b) :=
        List.countP_mono_left fun a ha hpa => beq_iff_eq.mpr (hp a ha hpa)
    _ = (l.filterMap f).count b := List.count_filterMap.symm
    _ ≤ 1 := List.nodup_iff_count_le_one.mp h b

theorem eq_of_countP_le_one {p : α → Bool} (h : l.countP p ≤ 1) {a b : α} (ha : a ∈ l)
    (hb : b ∈ l) (hpa : p a = true) (hpb : p b = true) : a = b := by
  have ha' := List.mem_filter.mpr ⟨ha, hpa⟩
  have hb' := List.mem_filter.mpr ⟨hb, hpb⟩
  rw [List.countP_eq_length_filter] at h
  generalize l.filter p = l' at h ha' hb'
  match l' with
  | [] => cases ha'
  | [x] => rw [List.mem_singleton.mp ha', List.mem_singleton.mp hb']
  | x :: y :: rest =>
      rw [List.length_cons, List.length_cons] at h
      omega

theorem eq_of_nodup_filterMap [DecidableEq β] {f : α → Option β} (h : (l.filterMap f).Nodup)
    {a b : α} (ha : a ∈ l) (hb : b ∈ l) {m : β} (hfa : f a = some m) (hfb : f b = some m) :
    a = b := by
  have hle : l.countP (fun a => f a == some m) ≤ 1 :=
    countP_le_one_of_nodup h fun a _ ha => beq_iff_eq.mp ha
  exact eq_of_countP_le_one hle ha hb (beq_iff_eq.mpr hfa) (beq_iff_eq.mpr hfb)

end Counting

/-- Nothing but the definition of a tag, or an announcement of it at which the look-up from `scope`
ends, goes by the C name. -/
def Checked.NamedOnce (checked : Checked) (scope : ScopeId) (tag cName : String) : Prop :=
  (∀ q ∈ Stmt.partsAll checked.unit Checker.global, q.part.tag?.isSome = true →
      q.part.isProvided = false → q.part.typeCName? = some cName →
      q.part.tag? = some tag
        ∧ (q.part.definedTag? = none →
          checked.checker.foundIn? scope tag = some q.scope))
    ∧ cName ∉ (Stmt.filedAliases checked.unit).map TypeAlias.cName

instance (checked : Checked) (scope : ScopeId) (tag cName : String) :
    Decidable (checked.NamedOnce scope tag cName) :=
  inferInstanceAs (Decidable (_ ∧ _))

namespace Checked.NamedOnce

variable {checked : Checked} {scope : ScopeId} {tag cName : String} {q : Placed}

theorem of_forward (h : checked.NamedOnce scope tag cName)
    (hq : q ∈ Stmt.partsAll checked.unit Checker.global) {f : Forward} (hf : q.part = .forward f)
    (hcName : f.cName = cName) :
    f.tag = tag ∧ checked.checker.foundIn? scope tag = some q.scope := by
  obtain ⟨htag, hscope⟩ := h.1 q hq (by rw [hf]; rfl) (by rw [hf]; rfl) (by rw [hf, ← hcName]; rfl)
  rw [hf] at htag hscope
  exact ⟨Option.some.inj htag, hscope rfl⟩

theorem of_aggregate (h : checked.NamedOnce scope tag cName)
    (hq : q ∈ Stmt.partsAll checked.unit Checker.global) {e : Aggregate}
    (he : q.part = .aggregate e) (hext : e.isExternal = false)
    (hcName : q.part.typeCName? = some cName) : e.tag = tag := by
  obtain ⟨htag, -⟩ := h.1 q hq (by rw [he]; rfl) (by rw [he]; exact hext) hcName
  rw [he] at htag
  exact Option.some.inj htag

end Checked.NamedOnce

namespace Passes

variable {unit : List Stmt} {registry : Registry} {checked : Checked} {visits : List Visit}
  {middle : Checker}

section Aggregates

variable (h : Passes unit registry checked visits middle)
  (hfree : ∀ name ∈ Visit.typeNames visits, name ∉ Visit.definedTags visits) {p : Placed}
  (hp : p ∈ Stmt.partsAll checked.unit Checker.global) {d : Aggregate} (hd : p.part = .aggregate d)

include h hfree hp hd

/-- No type has the tag for a name. -/
theorem typeName?_ne_tag : ∀ v ∈ visits, v.part.typeName? ≠ some d.tag := by
  intro v hv hname
  obtain ⟨x, hx, -, rfl⟩ := h.exists_revisit hp
  obtain ⟨d₀, hpart, htag, -, -⟩ := Visit.aggregate_of_settle hd
  refine hfree d.tag (List.mem_filterMap.mpr ⟨v, hv, hname⟩) ?_
  refine List.mem_filterMap.mpr ⟨x.visit, (h.run.at_revisit middle hx).1, ?_⟩
  rw [hpart, htag]
  rfl

variable (hext : d.isExternal = false) {n : String} (hn : p.part.typeCName? = some n)

include hext hn

/-- The C name ends in the name of the structure or union, whoever has given it. -/
theorem suffix_typeCName? : '_' :: d.name.toList <:+ n.toList := by
  have hne := h.typeName?_ne_tag hfree hp hd
  obtain ⟨x, hx, hok, rfl⟩ := h.exists_revisit hp
  obtain ⟨d₀, hpart, htag, hext₀, -⟩ := Visit.aggregate_of_settle hd
  have hv := (h.run.at_revisit middle hx).1
  rw [Visit.settle, Part.typeCName?_rescan, Visit.typeCName?_of_aggregate hok hpart] at hn
  cases hn
  rw [AggregateKind.tag_inj htag]
  rw [htag] at hne
  exact h.suffix_typeName hv (hext₀.symm.trans hext) hne

/-- **When a structure or union leaves its typedef to an announcement**: one of its tag has its C
name, and stands where the look-up of the tag ends. -/
theorem isForwarded_iff :
    d.isForwarded n p.scope checked.checker = true
      ↔ ∃ q ∈ Stmt.partsAll checked.unit Checker.global, ∃ f, q.part = .forward f ∧ f.cName = n
          ∧ f.tag = d.tag ∧ checked.checker.foundIn? p.scope d.tag = some q.scope := by
  have hsuffix := h.suffix_typeCName? hfree hp hd hext hn
  rw [Aggregate.isForwarded, Checker.find?_eq_bind]
  cases hfound : checked.checker.foundIn? p.scope d.tag with
  | none => simp
  | some id =>
      rw [Option.bind_some]
      constructor
      · intro hforwarded
        cases he : checked.checker.entryIn? id d.tag with
        | none =>
            rw [he] at hforwarded
            cases hforwarded
        | some e =>
            rw [he] at hforwarded
            have hcName : e.cName = n := of_decide_eq_true hforwarded
            rw [← hcName] at hsuffix
            obtain ⟨q, hq, hscope, f, hf, hsame, htag⟩ :=
              h.exists_forward (h.typeName?_ne_tag hfree hp hd) he hsuffix
            exact ⟨q, hq, f, hf, hsame.trans hcName, htag, by rw [hscope]⟩
      · rintro ⟨q, hq, f, hf, hcName, htag, hid⟩
        obtain ⟨e, he, hsame⟩ := h.entryIn?_of_forward hq hf
        rw [htag, ← Option.some.inj hid] at he
        rw [he]
        exact decide_eq_true (hsame.trans hcName)

/-- The typedef is written by the structure or union itself, or by the announcement that it is left
to. -/
theorem exists_line :
    ∃ w ∈ Stmt.partsAll checked.unit Checker.global, w.part.tagName? checked.checker = some n
      ∧ (w = p ∨ ∃ f, w.part = .forward f ∧ f.tag = d.tag
        ∧ checked.checker.foundIn? p.scope d.tag = some w.scope) := by
  cases hforwarded : d.isForwarded n p.scope checked.checker with
  | true =>
      obtain ⟨q, hq, f, hf, hcName, htag, hfound⟩ :=
        (h.isForwarded_iff hfree hp hd hext hn).mp hforwarded
      exact ⟨q, hq, (h.tagName?_eq_some_iff hq).mpr (.inl ⟨f, hf, hcName⟩),
        .inr ⟨f, hf, htag, hfound⟩⟩
  | false =>
      exact ⟨p, hp, (h.tagName?_eq_some_iff hp).mpr (.inr ⟨d, hd, hext, hn, hforwarded⟩), .inl rfl⟩

/-- At most one part writes the C name, if all that goes by it is the structure or union and the
announcement that it is left to. -/
theorem countP_tagName?_le_one (htags : (Visit.definedTags visits).Nodup)
    (hone : checked.NamedOnce p.scope d.tag n) :
    (Stmt.partsAll checked.unit Checker.global).countP
      (fun q => q.part.tagName? checked.checker == some n) ≤ 1 := by
  have hmarks := h.nodup_marks htags
  have hpmark := Placed.mark?_aggregate hd
  -- a structure or union by the name is the one we look at, as its tag is defined once
  have hsame {q : Placed} (hq : q ∈ Stmt.partsAll checked.unit Checker.global) {e : Aggregate}
      (he : q.part = .aggregate e) (heext : e.isExternal = false)
      (hqn : q.part.typeCName? = some n) : q = p := by
    have hqmark := Placed.mark?_aggregate he
    rw [hone.of_aggregate hq he heext hqn] at hqmark
    exact eq_of_nodup_filterMap hmarks hq hp hqmark hpmark
  cases hforwarded : d.isForwarded n p.scope checked.checker with
  | true =>
      refine countP_le_one_of_nodup hmarks (b := (checked.checker.foundIn? p.scope d.tag, d.tag))
        fun q hq hwrites => ?_
      rcases (h.tagName?_eq_some_iff hq).mp (beq_iff_eq.mp hwrites) with
        ⟨f, hf, hqn⟩ | ⟨e, he, heext, hqn, hnot⟩
      · obtain ⟨htag, hscope⟩ := hone.of_forward hq hf hqn
        rw [Placed.mark?_forward hf, htag, hscope]
      · cases hsame hq he heext hqn
        cases hd.symm.trans he
        cases hforwarded.symm.trans hnot
  | false =>
      refine countP_le_one_of_nodup hmarks (b := (none, d.tag)) fun q hq hwrites => ?_
      rcases (h.tagName?_eq_some_iff hq).mp (beq_iff_eq.mp hwrites) with
        ⟨f, hf, hqn⟩ | ⟨e, he, heext, hqn, -⟩
      · obtain ⟨htag, hscope⟩ := hone.of_forward hq hf hqn
        have htrue := (h.isForwarded_iff hfree hp hd hext hn).mpr ⟨q, hq, f, hf, hqn, htag, hscope⟩
        cases hforwarded.symm.trans htrue
      · cases hsame hq he heext hqn
        exact hpmark

/-- If at most one part writes the C name, then nothing else goes by it. -/
theorem tag?_of_countP
    (hone : (Stmt.partsAll checked.unit Checker.global).countP
      (fun q => q.part.tagName? checked.checker == some n) ≤ 1) {q : Placed}
    (hq : q ∈ Stmt.partsAll checked.unit Checker.global) (htag : q.part.tag?.isSome = true)
    (hqext : q.part.isProvided = false) (hqn : q.part.typeCName? = some n) :
    q.part.tag? = some d.tag
      ∧ (q.part.definedTag? = none →
        checked.checker.foundIn? p.scope d.tag = some q.scope) := by
  obtain ⟨w, hw, hwrites, hline⟩ := h.exists_line hfree hp hd hext hn
  have hunique {q : Placed} (hq : q ∈ Stmt.partsAll checked.unit Checker.global)
      (hwrites' : q.part.tagName? checked.checker = some n) : q = w :=
    eq_of_countP_le_one hone hq hw (beq_iff_eq.mpr hwrites') (beq_iff_eq.mpr hwrites)
  cases hpart : q.part with
  | forward f =>
      rw [hpart] at hqn
      cases hunique hq ((h.tagName?_eq_some_iff hq).mpr (.inl ⟨f, hpart, Option.some.inj hqn⟩))
      rcases hline with rfl | ⟨f', hf', hsame, hfound⟩
      · cases hd.symm.trans hpart
      · cases hf'.symm.trans hpart
        exact ⟨congrArg some hsame, fun _ => hfound⟩
  | aggregate e =>
      rw [hpart] at hqext
      obtain ⟨w', hw', hwrites', hline'⟩ := h.exists_line hfree hq hpart hqext hqn
      cases hunique hw' hwrites'
      -- the line of the one is the line of the other
      refine ⟨congrArg some ?_, fun hnone => absurd hnone (by simp [Part.definedTag?])⟩
      rcases hline with rfl | ⟨f, hf, hsame, -⟩
      · rcases hline' with rfl | ⟨f', hf', -, -⟩
        · cases hd.symm.trans hpart
          rfl
        · cases hd.symm.trans hf'
      · rcases hline' with rfl | ⟨f', hf', hsame', -⟩
        · cases hf.symm.trans hpart
        · cases hf.symm.trans hf'
          exact hsame'.symm.trans hsame
  | _ =>
      rw [hpart] at htag
      cases htag

/-- **How many typedefs the C name of a structure or union has.** -/
theorem count_typedefs (htags : (Visit.definedTags visits).Nodup)
    (hfiled : Stmt.TagsFiled checked.unit) (target : String) :
    0 < (typedefsAll (file checked.unit checked.checker target)).count n
      ∧ ((typedefsAll (file checked.unit checked.checker target)).count n = 1
        ↔ checked.NamedOnce p.scope d.tag n) := by
  obtain ⟨w, hw, hwrites, -⟩ := h.exists_line hfree hp hd hext hn
  have hpos : 0 < (Stmt.partsAll checked.unit Checker.global).countP
      (fun q => q.part.tagName? checked.checker == some n) :=
    List.countP_pos_iff.mpr ⟨w, hw, beq_iff_eq.mpr hwrites⟩
  rw [h.typedefsAll_eq hfiled target, List.count_append, List.count_filterMap]
  refine ⟨by omega, fun hcount => ⟨?_, ?_⟩, fun hone => ?_⟩
  · intro q hq htag hqext hqn
    exact h.tag?_of_countP hfree hp hd hext hn (by omega) hq htag hqext hqn
  · exact List.count_eq_zero.mp (by omega)
  · have hle := h.countP_tagName?_le_one hfree hp hd hext hn htags hone
    have hzero := List.count_eq_zero.mpr hone.2
    omega

end Aggregates

end Passes

/-- **How often a typedef is written.** In a compiled unit each of whose tags is defined once, with
all structures, unions and announcements where the emission comes to them, and without types that
have a tag for a name, a structure or union that no header provides has a C name, and the file has a
typedef for it. There is exactly one just if nothing else goes by the C name but an announcement of
the tag at which its look-up ends, from the scope of the structure or union and in the last state.
-/
theorem Stmt.typedef_once_of_compile (unit : List Stmt) (registry : Registry) (options : Options)
    (compiled : Compiled) (h : compile unit registry options = .ok compiled)
    (htags : (definedTags unit).Nodup) (hfiled : TagsFiled unit)
    (hnames : ∀ name ∈ typeNames unit, name ∉ definedTags unit) :
    ∃ checked, check unit registry = .ok checked
      ∧ compiled.code = generate checked.unit checked.checker options
      ∧ ∀ p ∈ partsAll checked.unit Checker.global, ∀ tag, p.part.definedTag? = some tag →
        p.part.isProvided = false →
        ∃ cName, p.part.typeCName? = some cName
          ∧ 0 < (typedefsAll (file checked.unit checked.checker options.target)).count cName
          ∧ ((typedefsAll (file checked.unit checked.checker options.target)).count cName = 1
            ↔ checked.NamedOnce p.scope tag cName) := by
  obtain ⟨checked, hcheck, hcode, -⟩ := compile_ok h
  refine ⟨checked, hcheck, hcode, fun p hp tag htag hprovided => ?_⟩
  have hpasses := passes_of_check hcheck
  have hheads := map_part_visitsAll unit Checker.global (Checker.start registry)
  generalize visitsAll unit Checker.global _ = visits at hpasses hheads
  generalize (analyseAll unit Checker.global _).checker = middle at hpasses
  have hdefined : definedTags unit = Visit.definedTags visits := by
    rw [definedTags, ← hheads, List.filterMap_map]
    rfl
  have hintroduced : typeNames unit = Visit.typeNames visits := by
    rw [typeNames, ← hheads, List.filterMap_map]
    rfl
  rw [hdefined] at htags hnames
  rw [hintroduced] at hnames
  cases hpart : p.part with
  | aggregate d =>
      rw [hpart] at htag hprovided
      cases htag
      obtain ⟨cName, hcName, -⟩ := hpasses.tagName?_aggregate hp hpart
      rw [← hpart]
      refine ⟨cName, hcName, ?_⟩
      exact hpasses.count_typedefs hnames hp hpart hprovided hcName htags
        (hfiled.of_check hcheck) options.target
  | _ =>
      rw [hpart] at htag
      cases htag

namespace Stmt

def announcement (name : String) : Stmt := .forward { kind := .struct, name, position := .unknown }

/-- A structure with one member. -/
def smallStruct (name : String) : Stmt :=
  .aggregate { kind := .struct, name, position := .unknown }
    [.var
      { form := .plain, descriptor := .named "int", depth := 0, name := "x", value := none,
        position := .unknown }]

def classOf (name : String) (body : List Stmt) : Stmt :=
  .classDef { name, ancestor := none, position := .unknown } body

/-- A structure that an announcement outside the class names, and one that is announced after it. -/
def announcedInClassUnit : List Stmt :=
  [announcement "S", classOf "A" [smallStruct "S", smallStruct "T", announcement "T"],
    classOf "B" [announcement "T"]]

/-- The look-up of a tag ends at the announcement that has the C name, for either structure, and so
each has one typedef. -/
theorem announcedInClassUnit_once :
    ∃ checked, check announcedInClassUnit (announceAll announcedInClassUnit .empty) = .ok checked
      ∧ typedefsAll (file checked.unit checked.checker "extension")
        = ["__extc_t_Object_S", "__extc_t_A_T", "__extc_t_B_T"]
      ∧ definedTags checked.unit = ["struct S", "struct T"]
      ∧ ∀ p ∈ partsAll checked.unit Checker.global, ∀ tag, p.part.definedTag? = some tag →
        ∃ cName, p.part.typeCName? = some cName
          ∧ (typedefsAll (file checked.unit checked.checker "extension")).count cName = 1 := by
  have hrun : ∃ checked,
      check announcedInClassUnit (announceAll announcedInClassUnit .empty) = .ok checked
      ∧ typedefsAll (file checked.unit checked.checker "extension")
        = ["__extc_t_Object_S", "__extc_t_A_T", "__extc_t_B_T"]
      ∧ definedTags checked.unit = ["struct S", "struct T"]
      ∧ ∀ p ∈ partsAll checked.unit Checker.global, p.part.isProvided = false
        ∧ (p.part.definedTag?.isSome = true →
          checked.NamedOnce p.scope (p.part.definedTag?.getD "") (p.part.typeCName?.getD "")) :=
    exists_ok_of_decide (by decide +kernel)
  obtain ⟨checked, hcheck, hlines, htags, hparts⟩ := hrun
  refine ⟨checked, hcheck, hlines, htags, fun p hp tag htag => ?_⟩
  have hcompile : compile announcedInClassUnit (announceAll announcedInClassUnit .empty) {}
      = .ok ⟨generate checked.unit checked.checker {}, checked.checker⟩ := by
    rw [compile, hcheck]
  obtain ⟨checked', hcheck', -, honce⟩ := typedef_once_of_compile _ _ _ _ hcompile
    (by decide +kernel) (by decide +kernel) (by decide +kernel)
  cases hcheck.symm.trans hcheck'
  obtain ⟨hprovided, hnamed⟩ := hparts p hp
  obtain ⟨cName, hcName, -, hone⟩ := honce p hp tag htag hprovided
  refine ⟨cName, hcName, hone.mpr ?_⟩
  rw [htag, hcName] at hnamed
  exact hnamed rfl

/-- A structure that gets its name from an announcement outside both classes around it. The outer
class announces it again, but only after it. -/
def announcedBetweenUnit : List Stmt :=
  [announcement "S", classOf "A" [classOf "B" [smallStruct "S"], announcement "S"]]

/-- In the end the look-up finds the later announcement, which has another C name, and so the first
announcement and the structure both write a typedef for the same name. -/
theorem announcedBetweenUnit_twice :
    (definedTags announcedBetweenUnit).Nodup ∧ TagsFiled announcedBetweenUnit
      ∧ (∀ name ∈ typeNames announcedBetweenUnit, name ∉ definedTags announcedBetweenUnit)
      ∧ ∃ checked, check announcedBetweenUnit (announceAll announcedBetweenUnit .empty)
          = .ok checked
        ∧ (∃ p ∈ partsAll checked.unit Checker.global, p.part.definedTag? = some "struct S"
          ∧ p.part.isProvided = false ∧ p.part.typeCName? = some "__extc_t_Object_S")
        ∧ typedefsAll (file checked.unit checked.checker "extension")
          = ["__extc_t_Object_S", "__extc_t_Object_S", "__extc_t_A_S"] := by
  exact ⟨by decide +kernel, by decide +kernel, by decide +kernel,
    exists_ok_of_decide (by decide +kernel)⟩

end Stmt

end ExtensionCompiler

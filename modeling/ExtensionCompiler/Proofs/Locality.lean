import ExtensionCompiler.Proofs.Growth

set_option autoImplicit false

/-! # Where analysis makes its edits

Analysis in a scope edits that scope, and scopes that it has opened itself. `Checker.EditIn n own`
is an edit of that sort: `own` is the scope of the analysis, and `n` the number of scopes that were
there before. What a chain of them does to the old scopes is little (`EditsIn.growsIn`): all but
`own` are as they were, and `own` has got entries and temporaries behind those it had. -/

namespace ExtensionCompiler

namespace Checker

/-- An edit to the scope `own`, to a scope that is none of the first `n`, or to the registry. What
a scope returns is said of new scopes only. -/
inductive EditIn (n : Nat) (own : ScopeId) (binds : Bool) : Checker → Checker → Prop
  | temp (c : Checker) {id : ScopeId} :
      id = own ∨ n ≤ id → EditIn n own binds c (c.allocateTemp id .object).2
  | declare {c c' : Checker} {id : ScopeId} {entry : Entry} :
      id = own ∨ n ≤ id → c.declare id entry = .ok c' → entry.Linked →
      EditIn n own binds c c'
  | pushScope (c : Checker) (scope : Scope) :
      scope.entries = [] → scope.temps = [] → EditIn n own binds c (c.pushScope scope).2
  | setReturnType (c : Checker) {id : ScopeId} (type : Option Ty) :
      n ≤ id → EditIn n own binds c (c.setReturnType id type)
  | register (c : Checker) (name : String) (type : Ty) (position : Position) :
      binds = true → type.isNamed = true →
      EditIn n own binds c (c.register name type position)

/-- Any number of such changes, one after the other. -/
abbrev EditsIn (n : Nat) (own : ScopeId) (binds : Bool) : Checker → Checker → Prop :=
  Relation.ReflTransGen (EditIn n own binds)

variable {n : Nat} {own : ScopeId} {b : Bool} {c c' c'' : Checker}

theorem EditIn.edit (h : EditIn n own b c c') : Edit b c c' := by
  cases h with
  | @temp id _ => exact .temp c id
  | declare _ hdeclare hlinked => exact .declare hdeclare hlinked
  | pushScope scope hentries htemps => exact .pushScope c scope hentries htemps
  | @setReturnType id type _ => exact .setReturnType c id type
  | register name type position hbinds hnamed => exact .register c name type position hbinds hnamed

theorem EditsIn.edits (h : EditsIn n own b c c') : Edits b c c' :=
  Relation.ReflTransGen.mono (fun _ _ => EditIn.edit) _ _ h

theorem EditsIn.mono {inner : ScopeId} {b' : Bool}
    (hscopes : ∀ {id}, id = inner ∨ n ≤ id → id = own ∨ n ≤ id) (hb : b = true → b' = true)
    (h : EditsIn n inner b c c') : EditsIn n own b' c c' := by
  refine Relation.ReflTransGen.mono (fun c c' hstep => ?_) _ _ h
  cases hstep with
  | temp hid => exact .temp c (hscopes hid)
  | declare hid hdeclare hlinked => exact .declare (hscopes hid) hdeclare hlinked
  | pushScope scope hentries htemps => exact .pushScope c scope hentries htemps
  | setReturnType type hid => exact .setReturnType c type hid
  | register name type position hbinds hnamed =>
      exact .register c name type position (hb hbinds) hnamed

/-- Work in a scope that is new is work in new scopes, whatever scope it is done for. -/
theorem EditsIn.of_new {inner : ScopeId} (hinner : n ≤ inner) (h : EditsIn n inner b c c') :
    EditsIn n own b c c' :=
  h.mono (fun hid => .inr (hid.elim (fun heq => heq ▸ hinner) fun hle => hle)) id

theorem EditsIn.weaken (h : EditsIn n own b c c') : EditsIn n own true c c' :=
  h.mono id fun _ => rfl

/-- No edit closes a scope, so old scopes stay in range. -/
theorem EditsIn.length_le (h : EditsIn n own b c c') : c.scopes.length ≤ c'.scopes.length :=
  h.edits.grows.length_le

theorem TakesTemps.editsIn {id : ScopeId} (hid : id = own ∨ n ≤ id) (h : TakesTemps id c c') :
    EditsIn n own b c c' := by
  induction h with
  | none => exact .refl
  | more _ ih => exact ih.tail (.temp _ hid)

/-! ## What becomes of the old scopes -/

end Checker

/-- A scope with entries and temporaries added behind those it had, and no other change. -/
def Scope.Appends (s s' : Scope) : Prop :=
  ∃ entries temps, s' = { s with entries := s.entries ++ entries, temps := s.temps ++ temps }

theorem Scope.Appends.refl (s : Scope) : s.Appends s := ⟨[], [], by simp⟩

theorem Scope.Appends.trans {s s' s'' : Scope} (h : s.Appends s') (h' : s'.Appends s'') :
    s.Appends s'' := by
  obtain ⟨es, ts, rfl⟩ := h
  obtain ⟨es', ts', rfl⟩ := h'
  exact ⟨es ++ es', ts ++ ts', by simp⟩

namespace Checker

/-- Of the first `n` scopes, `own` has been added to, and the others are unchanged. -/
structure GrowsIn (n : Nat) (own : ScopeId) (c c' : Checker) : Prop where
  others : ∀ id < n, id ≠ own → ∀ s, c.scopes[id]? = some s → c'.scopes[id]? = some s
  own : own < n → ∀ s, c.scopes[own]? = some s →
    ∃ s', c'.scopes[own]? = some s' ∧ s.Appends s'

variable {n : Nat} {own : ScopeId} {b : Bool} {c c' c'' : Checker}

namespace GrowsIn

/-- Scopes that are all as they were. -/
theorem of_unchanged (h : ∀ id < n, ∀ s, c.scopes[id]? = some s → c'.scopes[id]? = some s) :
    GrowsIn n own c c' where
  others id hid _ s hs := h id hid s hs
  own hown s hs := ⟨s, h own hown s hs, .refl s⟩

theorem refl (c : Checker) : GrowsIn n own c c := of_unchanged fun _ _ _ hs => hs

theorem trans (h : GrowsIn n own c c') (h' : GrowsIn n own c' c'') :
    GrowsIn n own c c'' where
  others id hid hne s hs := h'.others id hid hne s (h.others id hid hne s hs)
  own hown s hs := by
    obtain ⟨s', hs', happends⟩ := h.own hown s hs
    obtain ⟨s'', hs'', happends'⟩ := h'.own hown s' hs'
    exact ⟨s'', hs'', happends.trans happends'⟩

end GrowsIn

/-- A scope that is `own` or new may be changed, if an old one is only added to. -/
theorem growsIn_modifyScope (c : Checker) {id : ScopeId} (hid : id = own ∨ n ≤ id)
    {f : Scope → Scope} (hf : id < n → ∀ s, c.scopes[id]? = some s → s.Appends (f s)) :
    GrowsIn n own c (c.modifyScope id f) where
  others j hj hne s hs := by
    have hidj : id ≠ j := by
      rintro rfl
      exact hid.elim hne (Nat.not_le_of_lt hj)
    rwa [getElem?_modifyScope_ne c hidj]
  own hown s hs := by
    by_cases heq : id = own
    · subst heq
      exact ⟨f s, by rw [getElem?_modifyScope_self, hs, Option.map_some], hf hown s hs⟩
    · exact ⟨s, by rwa [getElem?_modifyScope_ne c heq], .refl s⟩

theorem EditIn.growsIn (h : EditIn n own b c c') : GrowsIn n own c c' := by
  cases h with
  | temp hid =>
      have hgrows := growsIn_modifyScope c hid
        (f := fun s => { s with temps := s.temps ++ [(tempName c.tempCount, Ty.object)] })
        fun _ s _ => ⟨[], [(tempName c.tempCount, .object)], by simp⟩
      exact ⟨hgrows.others, hgrows.own⟩
  | @declare _ id entry hid hdeclare _ =>
      obtain ⟨-, rfl⟩ := declare_eq_ok hdeclare
      refine growsIn_modifyScope c hid fun _ s hs => ?_
      rw [scope_eq_of_getElem? hs]
      exact ⟨[entry], [], by simp⟩
  | pushScope scope _ _ =>
      refine .of_unchanged fun id _ s hs => ?_
      have hlt : id < c.scopes.length := (List.getElem?_eq_some_iff.mp hs).1
      rw [Checker.pushScope, List.getElem?_append_left hlt, hs]
  | setReturnType type hid =>
      exact growsIn_modifyScope c (.inr hid) fun hlt => absurd hid (Nat.not_le_of_lt hlt)
  | register name type position _ _ => exact .of_unchanged fun _ _ _ hs => hs

/-- **A chain of edits for a scope leaves the other old scopes alone and adds to its own.** -/
theorem EditsIn.growsIn (h : EditsIn n own b c c') : GrowsIn n own c c' := by
  induction h with
  | refl => exact .refl c
  | tail _ hlast ih => exact ih.trans hlast.growsIn

end Checker

end ExtensionCompiler

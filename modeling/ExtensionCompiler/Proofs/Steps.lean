import ExtensionCompiler.Proofs.Locality
import ExtensionCompiler.Proofs.Typing
import ExtensionCompiler.Stmt.Analysis

set_option autoImplicit false

/-! # What the kinds of statements do

For each kind of statement, two facts about the part of its analysis that does not go into other
statements. Whether it succeeds or not, it is a chain of edits for the scope that it stands in
(`_editsIn`). And if it succeeds, it has gone one way, which an inversion says step by step (`_ok`,
and `Function.Entered`): which values it has analysed for which slots, what it has registered and
declared, and what it has made of the node. -/

namespace ExtensionCompiler

/-! ## Analysis as a chain of edits -/

open Checker (Edits EditsIn TakesTemps)

variable {n : Nat} {own : ScopeId} {b : Bool}

theorem Outcome.editsIn_andThen {α β : Type} {c : Checker} {o : Outcome α} {stopped : α → β}
    {next : α → Checker → Outcome β} (h : EditsIn n own b c o.checker)
    (hnext : ∀ node, EditsIn n own b o.checker (next node o.checker).checker) :
    EditsIn n own b c (o.andThen stopped next).checker :=
  andThen_checker h fun _ => h.trans (hnext _)

theorem Outcome.editsIn_ofDeclare {α : Type} (c : Checker) {id : ScopeId}
    (hid : id = own ∨ n ≤ id) {entry : Entry} (h : entry.Linked) (node done : α) :
    EditsIn n own b c (ofDeclare (c.declare id entry) c node done).checker := by
  cases hd : c.declare id entry with
  | ok c' => exact .single (.declare hid hd h)
  | error e => exact .refl

namespace Scope

theorem linkageName_of_not_isType (scope : Scope) {kind : EntryKind} (h : kind.isType = false)
    (name : String) (isExternal : Bool) :
    scope.linkageName kind name isExternal
      = if isExternal then name else kind.lead ++ name := by
  simp [linkageName, h]

theorem linked_variableEntry (scope : Scope) (name : String) (type : Ty) (isExternal : Bool)
    (position : Position) : (scope.variableEntry name type isExternal position).Linked :=
  fun h => linkageName_of_not_isType scope h name isExternal

theorem linked_arrayEntry (scope : Scope) (name : String) (type : Ty) (initial : Option String)
    (isExternal : Bool) (position : Position) :
    (scope.arrayEntry name type initial isExternal position).Linked :=
  fun h => linkageName_of_not_isType scope h name isExternal

theorem linked_functionEntry (scope : Scope) (kind : EntryKind) (name : String) (params : List Ty)
    (result : Ty) (isExternal : Bool) (position : Position) :
    (scope.functionEntry kind name params result isExternal position).Linked :=
  fun h => linkageName_of_not_isType scope h name isExternal

theorem linked_typeEntry (scope : Scope) (name : String) (type : Ty) (isExternal : Bool)
    (position : Position) : (scope.typeEntry name type isExternal position).Linked :=
  fun h => nomatch h

theorem linked_aggregateEntry (scope : Scope) (name : String) (type : Ty) (isExternal : Bool)
    (position : Position) : (scope.aggregateEntry name type isExternal position).Linked :=
  fun h => nomatch h

theorem linked_classEntry (scope : Scope) (name : String) (position : Position) :
    (scope.classEntry name position).Linked :=
  fun h => linkageName_of_not_isType scope h name false

end Scope

namespace Expr

theorem analyseOptionInto_takesTemps (slot : Ty) (scope : ScopeId) (position : Position)
    (value : Option Expr) (c : Checker) :
    TakesTemps scope c (analyseOptionInto slot scope position value c).checker := by
  cases value with
  | none => exact .none
  | some value => exact analyseInto_takesTemps value slot scope position c

theorem analyseAllInto_takesTemps (slot : Ty) (scope : ScopeId) (position : Position)
    (values : List Expr) (c : Checker) :
    TakesTemps scope c (analyseAllInto slot scope position values c).checker := by
  induction values generalizing c with
  | nil => exact .none
  | cons e rest ih =>
      have he := analyseInto_takesTemps e slot scope position c
      exact Outcome.andThen_checker (P := TakesTemps scope c) he fun _ => he.trans (ih _)

theorem analyseCondition_takesTemps (e : Expr) (scope : ScopeId) (c : Checker) :
    TakesTemps scope c (e.analyseCondition scope c).checker := by
  refine Outcome.andThen_checker (P := TakesTemps scope c)
    (analyse_takesTemps e none scope c) fun _ => ?_
  have he := analyse_takesTemps e none scope c
  split <;> exact he

end Expr

theorem Print.analyseValues_takesTemps (position : Position) (scope : ScopeId) (values : List Expr)
    (c : Checker) :
    TakesTemps scope c (analyseValues position scope values c).checker := by
  induction values generalizing c with
  | nil => exact .none
  | cons value rest ih =>
      have hvalue := value.analyse_takesTemps none scope c
      refine Outcome.andThen_checker (P := TakesTemps scope c) hvalue fun _ => ?_
      split
      · exact hvalue.trans (ih _)
      · exact hvalue

variable {scope : ScopeId} {c c' : Checker} {α : Type} {declare : Bool} {d : ArrayVariable}

theorem Parameter.analyse_editsIn (declare : Bool) (hscope : scope = own ∨ n ≤ scope)
    (p : Parameter) (c : Checker) : EditsIn n own b c (p.analyse declare scope c).checker := by
  unfold analyse
  dsimp only
  split
  · exact Outcome.editsIn_ofDeclare c hscope (Scope.linked_variableEntry _ _ _ _ _) _ _
  · exact .refl

theorem Parameter.analyseAll_editsIn (declare : Bool)
    (hscope : scope = own ∨ n ≤ scope) (params : List Parameter) (c : Checker) :
    EditsIn n own b c (analyseAll declare scope params c).checker := by
  induction params generalizing c with
  | nil => exact .refl
  | cons p rest ih =>
      exact Outcome.editsIn_andThen (p.analyse_editsIn declare hscope c) fun _ => ih _

theorem Parameter.analyse_edits (declare : Bool) (scope : ScopeId) (p : Parameter) (c : Checker) :
    Edits b c (p.analyse declare scope c).checker := by
  have hedits : EditsIn 0 scope b c (p.analyse declare scope c).checker :=
    p.analyse_editsIn declare (.inl rfl) c
  exact hedits.edits

theorem Parameter.analyseAll_edits (declare : Bool) (scope : ScopeId) (params : List Parameter)
    (c : Checker) : Edits b c (analyseAll declare scope params c).checker := by
  have hedits : EditsIn 0 scope b c (analyseAll declare scope params c).checker :=
    analyseAll_editsIn declare (.inl rfl) params c
  exact hedits.edits

theorem Checker.edits_addScope (c : Checker) (name : String) (kind : ScopeKind)
    (parent : ScopeId) : Edits b c (c.addScope name kind parent).2 :=
  .single (.pushScope c _ rfl rfl)

theorem Variable.analyse_editsIn (d : Variable) (scope : ScopeId) (c : Checker) :
    EditsIn n scope b c (d.analyse scope c).checker :=
  Outcome.editsIn_andThen
    ((Expr.analyseOptionInto_takesTemps _ scope d.position d.value c).editsIn (.inl rfl))
    fun _ => Outcome.editsIn_ofDeclare _ (.inl rfl) (Scope.linked_variableEntry _ _ _ _ _) _ _

theorem ArrayVariable.declare_editsIn (d : ArrayVariable) (initial : Option String)
    (scope : ScopeId) (c : Checker) : EditsIn n scope b c (d.declare initial scope c).checker :=
  Outcome.editsIn_ofDeclare c (.inl rfl) (Scope.linked_arrayEntry _ _ _ _ _ _) _ _

theorem ArrayVariable.analyse_editsIn (d : ArrayVariable) (scope : ScopeId) (c : Checker) :
    EditsIn n scope b c (d.analyse scope c).checker := by
  refine Outcome.editsIn_andThen
    ((d.dimension.analyse_takesTemps none scope c).editsIn (.inl rfl)) fun dimension => ?_
  dsimp only
  cases size? dimension with
  | none => exact .refl
  | some size =>
      dsimp only
      cases d.elements with
      | none => exact declare_editsIn _ none scope _
      | some elements =>
          refine Outcome.editsIn_andThen
            ((Expr.analyseAllInto_takesTemps _ scope _ elements _).editsIn (.inl rfl))
            fun elements => ?_
          split
          · exact .refl
          · split <;> exact declare_editsIn _ _ scope _

theorem Assignment.declareTarget_editsIn {d : Assignment}
    (h : d.declareTarget scope c = .ok c') : EditsIn n scope b c c' := by
  unfold declareTarget at h
  split at h
  · cases h
    exact .refl
  · split at h
    · cases h
      exact .refl
    · exact .single (.declare (.inl rfl) h (Scope.linked_variableEntry _ _ _ _ _))

/-- What an assignment does after it has declared its target. -/
theorem Assignment.editsIn_of_declareTarget {d : Assignment}
    (h : d.declareTarget scope c = .ok c') : EditsIn n scope b c' (d.analyse scope c).checker := by
  unfold analyse
  rw [h]
  refine Outcome.editsIn_andThen
    ((d.target.analyse_takesTemps none scope c').editsIn (.inl rfl)) fun target => ?_
  dsimp only
  split
  · exact (d.value.analyseInto_takesTemps _ scope d.position _).editsIn (.inl rfl)
  · exact .refl

theorem Assignment.analyse_editsIn (d : Assignment) (scope : ScopeId) (c : Checker) :
    EditsIn n scope b c (d.analyse scope c).checker := by
  cases hd : d.declareTarget scope c with
  | error e =>
      unfold analyse
      rw [hd]
      exact .refl
  | ok c' => exact (declareTarget_editsIn hd).trans (editsIn_of_declareTarget hd)

theorem Return.analyse_editsIn (d : Return) (scope : ScopeId) (c : Checker) :
    EditsIn n scope b c (d.analyse scope c).checker := by
  unfold analyse
  cases c.enclosingFunction? scope with
  | none => exact .refl
  | some function =>
      dsimp only
      cases d.value with
      | none => dsimp only; split <;> exact .refl
      | some value =>
          dsimp only
          split
          · exact Outcome.editsIn_andThen
              ((value.analyse_takesTemps none scope c).editsIn (.inl rfl)) fun _ => .refl
          · exact (value.analyseInto_takesTemps _ scope d.position c).editsIn (.inl rfl)

theorem CountLoop.analyse_editsIn (d : CountLoop) (scope : ScopeId) (c : Checker) :
    EditsIn n scope b c (d.analyse scope c).checker := by
  unfold analyse
  split
  · cases c.lookup scope d.counter d.position with
    | error e => exact .refl
    | ok counter =>
        dsimp only
        split
        · exact Outcome.editsIn_andThen
            ((d.left.analyseInto_takesTemps _ scope d.position c).editsIn (.inl rfl)) fun _ =>
              (d.right.analyseInto_takesTemps _ scope d.position _).editsIn (.inl rfl)
        · exact .refl
  · exact .refl

/-- The scope of the members is opened before all else. -/
theorem Aggregate.editsIn_of_addScope (d : Aggregate) (scope : ScopeId) (c : Checker) :
    EditsIn n scope true (c.addScope d.name .aggregate scope).2 (d.declare scope c).checker := by
  refine .trans ?_
    (Outcome.editsIn_ofDeclare _ (.inl rfl) (Scope.linked_aggregateEntry _ _ _ _ _) _ _)
  exact .single (.register _ d.name _ d.position rfl rfl)

theorem Forward.analyse_editsIn (d : Forward) (scope : ScopeId) (c : Checker) :
    EditsIn n scope b c (d.analyse scope c).checker :=
  Outcome.editsIn_ofDeclare c (.inl rfl) (Scope.linked_typeEntry _ _ _ _ _) _ _

theorem TypeAlias.analyse_editsIn (d : TypeAlias) (scope : ScopeId) (c : Checker) :
    EditsIn n scope true c (d.analyse scope c).checker := by
  unfold analyse
  split
  · exact .refl
  · refine .trans ?_
      (Outcome.editsIn_ofDeclare _ (.inl rfl) (Scope.linked_typeEntry _ _ _ _ _) _ _)
    exact .single (.register c d.name _ d.position rfl rfl)

theorem Prototype.analyse_editsIn (d : Prototype) (scope : ScopeId) (c : Checker) :
    EditsIn n scope b c (d.analyse scope c).checker :=
  Outcome.editsIn_andThen (Parameter.analyseAll_editsIn false (.inl rfl) d.params c) fun _ =>
    Outcome.editsIn_ofDeclare _ (.inl rfl) (Scope.linked_functionEntry _ _ _ _ _ _ _) _ _

/-- The scope of the body is opened before all else. Parameters are declared there, in a scope that
is new. -/
theorem Function.editsIn_of_addScope (d : Function) (scope : ScopeId) (hn : n ≤ c.scopes.length) :
    EditsIn n scope b (c.addScope d.name .function scope).2 (d.enter scope c).checker := by
  refine Outcome.editsIn_andThen (Parameter.analyseAll_editsIn true (.inr hn) d.params _)
    fun params => ?_
  dsimp only
  split
  · exact .single (.setReturnType _ _ hn)
  · refine .trans ?_
      (Outcome.editsIn_ofDeclare _ (.inl rfl) (Scope.linked_functionEntry _ _ _ _ _ _ _) _ _)
    exact .single (.setReturnType _ _ hn)

theorem Method.editsIn_of_addScope (d : Method) (scope : ScopeId) (hn : n ≤ c.scopes.length) :
    EditsIn n scope b (c.addScope d.name .function scope).2 (d.enter scope c).checker := by
  refine .head (.setReturnType _ (some .object) hn) ?_
  refine Outcome.editsIn_andThen (Parameter.analyseAll_editsIn true (.inr hn) d.params _)
    fun params => ?_
  dsimp only
  split
  · exact .refl
  · exact Outcome.editsIn_ofDeclare _ (.inl rfl) (Scope.linked_functionEntry _ _ _ _ _ _ _) _ _

theorem ClassDef.enter_editsIn (d : ClassDef) (scope : ScopeId) (c : Checker) :
    EditsIn n scope b c (d.enter scope c).checker := by
  unfold enter
  cases d.ancestorName scope c with
  | error e => exact .refl
  | ok ancestor =>
      dsimp only
      cases hd : c.declare scope ((c.scope scope).classEntry d.name d.position) with
      | error e => exact .refl
      | ok c' =>
          exact .head (.declare (.inl rfl) hd (Scope.linked_classEntry _ _ _))
            (.single (.pushScope c' _ rfl rfl))

/-- A scope that was just opened is there after any further edits. -/
theorem Checker.length_lt_of_edits_addScope {name : String} {kind : ScopeKind} {parent : ScopeId}
    (h : Edits true (c.addScope name kind parent).2 c') : c.scopes.length < c'.scopes.length := by
  have hlen : (c.addScope name kind parent).2.scopes.length = c.scopes.length + 1 :=
    List.length_append
  have hle := h.grows.length_le
  rw [hlen] at hle
  exact hle

/-! ## Analysis that has succeeded -/

theorem Outcome.eq_ok {o : Outcome α} (h : o.error = none) : o = .ok o.node o.checker := by
  cases o
  cases h
  rfl

/-- A sequence that succeeds has gone on from a success. -/
theorem Outcome.andThen_inv {β : Type} {o : Outcome α} {stopped : α → β}
    {next : α → Checker → Outcome β} (h : (o.andThen stopped next).error = none) :
    ∃ node c, o = .ok node c ∧ o.andThen stopped next = next node c
      ∧ (next node c).error = none := by
  obtain ⟨ho, hnext⟩ := (andThen_error_eq_none_iff _ _ _).mp h
  exact ⟨o.node, o.checker, eq_ok ho, andThen_of_ok ho stopped next, hnext⟩

theorem Outcome.ofDeclare_ok {declared : Except Error Checker}
    {node done : α} (h : (ofDeclare declared c node done).error = none) :
    ∃ c', declared = .ok c' ∧ ofDeclare declared c node done = .ok done c' := by
  cases declared with
  | ok c' => exact ⟨c', rfl, rfl⟩
  | error e => cases h

/-- Parameters are analysed one after the other. -/
theorem Parameter.analyseAll_cons_ok {p : Parameter} {rest params' : List Parameter}
    (h : analyseAll declare scope (p :: rest) c = .ok params' c') :
    ∃ first c₁ others, p.analyse declare scope c = .ok first c₁
      ∧ analyseAll declare scope rest c₁ = .ok others c' ∧ params' = first :: others
      ∧ Edits false c c₁ ∧ Edits false c₁ c' := by
  have herror : (analyseAll declare scope (p :: rest) c).error = none := by rw [h]; rfl
  obtain ⟨first, c₁, hfirst, heq, hrest⟩ := Outcome.andThen_inv herror
  have hothers := Outcome.eq_ok (o := analyseAll declare scope rest c₁) hrest
  have hafter : c' = (analyseAll declare scope rest c₁).checker :=
    congrArg Outcome.checker (h.symm.trans heq)
  have hstep := p.analyse_edits (b := false) declare scope c
  rw [hfirst] at hstep
  rw [hafter]
  exact ⟨first, c₁, _, hfirst, hothers, congrArg Outcome.node (h.symm.trans heq), hstep,
    analyseAll_edits declare scope rest c₁⟩

theorem Parameter.type_of_analyse {p p' : Parameter} (h : p.analyse declare scope c = .ok p' c') :
    p'.type = Ty.resolve c.registry p.descriptor p.depth := by
  unfold analyse at h
  dsimp only at h
  split at h
  · obtain ⟨c₂, -, hok⟩ := Outcome.ofDeclare_ok (congrArg Outcome.error h)
    rw [hok] at h
    cases h
    rfl
  · cases h
    rfl

/-- Parameters are declared as they come, but nothing is registered, so that all their types are
resolved alike. -/
theorem Parameter.types_of_analyseAll {params params' : List Parameter}
    (h : analyseAll declare scope params c = .ok params' c') :
    types params' = params.map fun p => Ty.resolve c.registry p.descriptor p.depth := by
  induction params generalizing params' c c' with
  | nil =>
      cases h
      rfl
  | cons p rest ih =>
      obtain ⟨first, c₁, others, hfirst, hothers, rfl, hstep, -⟩ := analyseAll_cons_ok h
      have htypes := ih hothers
      rw [hstep.registry_eq] at htypes
      rw [List.map_cons, ← htypes, ← type_of_analyse hfirst]
      rfl

theorem Variable.analyse_ok {d : Variable} (h : (d.analyse scope c).error = none) :
    ∃ (type : Ty) (value : Option Expr) (c₁ c₂ : Checker) (entry : Entry),
      type = Ty.resolve c.registry d.descriptor d.depth
      ∧ Expr.analyseOptionInto type scope d.position d.value c = .ok value c₁
      ∧ entry = (c₁.scope scope).variableEntry d.name type d.isExternal d.position
      ∧ c₁.declare scope entry = .ok c₂
      ∧ d.analyse scope c = .ok { d with type, value, cName := entry.cName } c₂ := by
  obtain ⟨value, c₁, hvalue, heq, hrest⟩ := Outcome.andThen_inv h
  obtain ⟨c₂, hdeclare, hok⟩ := Outcome.ofDeclare_ok hrest
  exact ⟨_, value, c₁, c₂, _, rfl, hvalue, rfl, hdeclare, heq.trans hok⟩

theorem Scope.variableEntry_kind_ne (scope : Scope) (name : String) (type : Ty) (isExternal : Bool)
    (position : Position) :
    (scope.variableEntry name type isExternal position).kind ≠ .function := by
  show EntryKind.ofVariable type ≠ .function
  unfold EntryKind.ofVariable
  split <;> exact fun h => nomatch h

/-- The last thing that the analysis of a variable does is to declare it. -/
theorem Variable.declared_of_analyse {d : Variable} (h : (d.analyse scope c).error = none) :
    ∃ (c₁ : Checker) (entry : Entry), Edits true c c₁
      ∧ c₁.declare scope entry = .ok (d.analyse scope c).checker ∧ entry.kind ≠ .function
      ∧ entry.name = (d.analyse scope c).node.name
      ∧ entry.type = (d.analyse scope c).node.type := by
  obtain ⟨type, value, c₁, c₂, entry, -, hvalue, hentry, hdeclare, heq⟩ := analyse_ok h
  have hedits :=
    (Expr.analyseOptionInto_takesTemps type scope d.position d.value c).edits (b := true)
  rw [hvalue] at hedits
  rw [heq]
  refine ⟨c₁, entry, hedits, hdeclare, ?_, by rw [hentry]; rfl, by rw [hentry]; rfl⟩
  rw [hentry]
  exact Scope.variableEntry_kind_ne _ _ _ _ _

theorem ArrayVariable.declare_ok {initial : Option String}
    (h : (d.declare initial scope c).error = none) :
    ∃ (c' : Checker) (entry : Entry),
      entry = (c.scope scope).arrayEntry d.name d.type initial d.isExternal d.position
      ∧ c.declare scope entry = .ok c'
      ∧ d.declare initial scope c = .ok { d with cName := entry.cName } c' := by
  obtain ⟨c', hdeclare, hok⟩ := Outcome.ofDeclare_ok h
  exact ⟨c', _, rfl, hdeclare, hok⟩

/-- An array is declared with the type of its elements and its size, after its dimension and its
elements, if it has any, have been analysed. -/
theorem ArrayVariable.analyse_ok (h : (d.analyse scope c).error = none) :
    ∃ (base : Ty) (size : Nat) (dimension : Expr) (elements : Option (List Expr))
        (initial : Option String) (assigns : Bool) (c₁ c₂ c₃ : Checker) (entry : Entry),
      base = Ty.resolve c.registry d.descriptor 0
      ∧ d.dimension.analyse none scope c = .ok dimension c₁
      ∧ size? dimension = some size
      ∧ ((d.elements = none ∧ elements = none ∧ c₂ = c₁)
        ∨ ∃ before after, d.elements = some before ∧ elements = some after
          ∧ Expr.analyseAllInto base scope d.position before c₁ = .ok after c₂
          ∧ after.length ≤ size ∧ assigns = !after.all isConstant
          ∧ initial = if after.all isConstant then some (initialText after) else none)
      ∧ entry = (c₂.scope scope).arrayEntry d.name (.array base size) initial d.isExternal
          d.position
      ∧ c₂.declare scope entry = .ok c₃
      ∧ d.analyse scope c
        = .ok { d with dimension, elements, type := .array base size, cName := entry.cName,
                       assignsElements := assigns } c₃ := by
  obtain ⟨dimension, c₁, hdim, heq, hrest⟩ := Outcome.andThen_inv h
  change d.analyse scope c = _ at heq
  have hreg : c₁.registry = c.registry := by
    have htemps := d.dimension.analyse_takesTemps none scope c
    rw [hdim] at htemps
    exact htemps.edits.registry_eq
  dsimp only at hrest heq
  cases hsize : size? dimension with
  | none => rw [hsize] at hrest; cases hrest
  | some size =>
      rw [hsize] at hrest heq
      dsimp only at hrest heq
      rw [hreg] at hrest heq
      cases helems : d.elements with
      | none =>
          rw [helems] at hrest heq
          obtain ⟨c₃, entry, hentry, hdeclare, hok⟩ := declare_ok hrest
          exact ⟨_, size, dimension, none, none, false, c₁, c₁, c₃, entry, rfl, hdim,
            hsize, .inl ⟨rfl, rfl, rfl⟩, hentry, hdeclare, by rw [heq, hok]⟩
      | some before =>
          rw [helems] at hrest heq
          obtain ⟨after, c₂, hafter, heq', hrest'⟩ := Outcome.andThen_inv hrest
          replace heq := heq.trans heq'
          by_cases hlen : size < after.length
          · rw [if_pos hlen] at hrest'
            cases hrest'
          · rw [if_neg hlen] at hrest' heq
            -- constants go into the declaration, anything else is assigned after it
            by_cases hconst : after.all isConstant = true
            · rw [if_pos hconst] at hrest' heq
              obtain ⟨c₃, entry, hentry, hdeclare, hok⟩ := declare_ok hrest'
              exact ⟨_, size, dimension, some after, _, false, c₁, c₂, c₃, entry, rfl, hdim, hsize,
                .inr ⟨before, after, rfl, rfl, hafter, Nat.le_of_not_lt hlen, by rw [hconst]; rfl,
                  (if_pos hconst).symm⟩,
                hentry, hdeclare, by rw [heq, hok]⟩
            · rw [if_neg hconst] at hrest' heq
              obtain ⟨c₃, entry, hentry, hdeclare, hok⟩ := declare_ok hrest'
              exact ⟨_, size, dimension, some after, none, true, c₁, c₂, c₃, entry, rfl, hdim,
                hsize, .inr ⟨before, after, rfl, rfl, hafter, Nat.le_of_not_lt hlen,
                  by rw [eq_false_of_ne_true hconst]; rfl, (if_neg hconst).symm⟩,
                hentry, hdeclare, by rw [heq, hok]⟩

/-- An array is declared after the temporaries of its elements. -/
theorem ArrayVariable.declare_of_analyse (h : (d.analyse scope c).error = none) :
    ∃ (size : Nat) (initial : Option String) (c₁ : Checker), TakesTemps scope c c₁
      ∧ size? (d.analyse scope c).node.dimension = some size
      ∧ (d.analyse scope c).node.name = d.name
      ∧ (d.analyse scope c).node.type = .array (Ty.resolve c.registry d.descriptor 0) size
      ∧ c₁.declare scope ((c₁.scope scope).arrayEntry d.name
          (.array (Ty.resolve c.registry d.descriptor 0) size) initial d.isExternal d.position)
        = .ok (d.analyse scope c).checker := by
  obtain ⟨base, size, dimension, elements, initial, assigns, c₁, c₂, c₃, entry, rfl, hdim, hsize,
    helems, rfl, hdeclare, heq⟩ := analyse_ok h
  have hfirst := d.dimension.analyse_takesTemps none scope c
  rw [hdim] at hfirst
  rw [heq]
  refine ⟨size, initial, c₂, ?_, hsize, rfl, rfl, hdeclare⟩
  rcases helems with ⟨-, -, rfl⟩ | ⟨before, after, -, -, hafter, -⟩
  · exact hfirst
  · have hsecond := Expr.analyseAllInto_takesTemps (Ty.resolve c.registry d.descriptor 0) scope
      d.position before c₁
    rw [hafter] at hsecond
    exact hfirst.trans hsecond

/-- The last thing that the analysis of an array does is to declare it. -/
theorem ArrayVariable.declared_of_analyse (h : (d.analyse scope c).error = none) :
    ∃ (c₁ : Checker) (entry : Entry), Edits true c c₁
      ∧ c₁.declare scope entry = .ok (d.analyse scope c).checker ∧ entry.kind ≠ .function
      ∧ entry.name = (d.analyse scope c).node.name
      ∧ entry.type = (d.analyse scope c).node.type := by
  obtain ⟨size, initial, c₁, htemps, -, hname, htype, hdeclare⟩ := declare_of_analyse h
  exact ⟨c₁, _, htemps.edits, hdeclare, (by decide : EntryKind.array ≠ .function), hname.symm,
    htype.symm⟩

theorem Assignment.analyse_ok {d : Assignment} (h : (d.analyse scope c).error = none) :
    ∃ (target value : Expr) (c₁ c₂ c₃ : Checker),
      d.declareTarget scope c = .ok c₁
      ∧ d.target.analyse none scope c₁ = .ok target c₂
      ∧ target.isAssignable = true
      ∧ d.value.analyseInto target.type scope d.position c₂ = .ok value c₃
      ∧ d.analyse scope c = .ok { d with target, value } c₃ := by
  unfold analyse at h ⊢
  cases hd : d.declareTarget scope c with
  | error e => rw [hd] at h; cases h
  | ok c₁ =>
      rw [hd] at h
      obtain ⟨target, c₂, htarget, heq, hrest⟩ := Outcome.andThen_inv h
      dsimp only at hrest heq
      by_cases hassign : target.isAssignable = true
      · rw [if_pos hassign] at hrest heq
        have hvalue := Outcome.eq_ok
          (o := d.value.analyseInto target.type scope d.position c₂) hrest
        refine ⟨target, _, c₁, c₂, _, rfl, htarget, hassign, hvalue, ?_⟩
        rw [hvalue] at heq
        exact heq
      · rw [if_neg hassign] at hrest
        cases hrest

/-- A return that succeeds stands in a function, and its value is one for what that returns. -/
theorem Return.analyse_ok {d : Return} (h : (d.analyse scope c).error = none) :
    ∃ (function : ScopeId) (value : Option Expr) (c₁ : Checker),
      c.enclosingFunction? scope = some function
      ∧ Expr.analyseOptionInto (expected c function) scope d.position d.value c = .ok value c₁
      ∧ d.analyse scope c = .ok { d with returnType := expected c function, value } c₁ := by
  unfold analyse at h ⊢
  cases hf : c.enclosingFunction? scope with
  | none => rw [hf] at h; cases h
  | some function =>
      rw [hf] at h
      dsimp only at h ⊢
      cases hv : d.value with
      | none =>
          rw [hv] at h
          dsimp only at h ⊢
          by_cases hvoid : ((expected c function).isVoid || (expected c function).isObject) = true
          · rw [if_pos hvoid]
            refine ⟨function, none, c, rfl, rfl, ?_⟩
            rw [← hv]
          · rw [if_neg hvoid] at h
            cases h
      | some value =>
          rw [hv] at h
          dsimp only at h ⊢
          by_cases hvoid : (expected c function).isVoid = true
          · -- the value is analysed all the same, and then refused
            rw [if_pos hvoid] at h
            obtain ⟨v, c', -, -, hrest⟩ := Outcome.andThen_inv h
            cases hrest
          · rw [if_neg hvoid] at h ⊢
            have hok := Outcome.eq_ok
              (o := value.analyseInto (expected c function) scope d.position c) h
            rw [hok]
            refine ⟨function, _, _, rfl, ?_, rfl⟩
            rw [Expr.analyseOptionInto, hok]
            rfl

theorem CountLoop.analyse_ok {d : CountLoop} (h : (d.analyse scope c).error = none) :
    ∃ (counter : Entry) (left right : Expr) (c₁ c₂ : Checker),
      c.find? scope d.counter = some counter
      ∧ d.left.analyseInto counter.type scope d.position c = .ok left c₁
      ∧ d.right.analyseInto counter.type scope d.position c₁ = .ok right c₂
      ∧ d.analyse scope c = .ok { d with left, right, counterCName := counter.cName } c₂ := by
  unfold analyse at h ⊢
  by_cases hdir : d.isDirected = true
  · rw [if_pos hdir] at h ⊢
    cases hl : c.lookup scope d.counter d.position with
    | error e => rw [hl] at h; cases h
    | ok counter =>
        rw [hl] at h
        dsimp only at h ⊢
        by_cases hint : counter.type.isInteger = true
        · rw [if_pos hint] at h ⊢
          obtain ⟨left, c₁, hleft, heq, hrest⟩ := Outcome.andThen_inv h
          have hright := Outcome.eq_ok
            (o := d.right.analyseInto counter.type scope d.position c₁) hrest
          rw [heq]
          refine ⟨counter, left, _, c₁, _, Checker.lookup_eq_ok hl, hleft, hright, ?_⟩
          rw [hright]
          rfl
        · rw [if_neg hint] at h
          cases h
  · rw [if_neg hdir] at h
    cases h

/-- A structure is registered and declared, and the scope of its members is open. -/
theorem Aggregate.declare_ok {d : Aggregate} (h : (d.declare scope c).error = none) :
    ∃ (type : Ty) (c₁ c₂ : Checker) (entry : Entry),
      type = .aggregate d.kind d.name
        (d.typeName scope (c.addScope d.name .aggregate scope).2) c.scopes.length
      ∧ c₁ = (c.addScope d.name .aggregate scope).2.register d.name type d.position
      ∧ entry = (c₁.scope scope).aggregateEntry d.name type d.isExternal d.position
      ∧ c₁.declare scope entry = .ok c₂
      ∧ d.declare scope c = .ok type c₂ := by
  obtain ⟨c₂, hdeclare, hok⟩ := Outcome.ofDeclare_ok h
  exact ⟨_, _, c₂, _, rfl, rfl, rfl, hdeclare, hok⟩

theorem Forward.analyse_ok {d : Forward} (h : (d.analyse scope c).error = none) :
    ∃ (cName : String) (type : Ty) (c₁ : Checker) (entry : Entry),
      type = .aliased d.tag cName (d.target c.registry)
      ∧ entry = (c.scope scope).typeEntry d.tag type false d.position
      ∧ c.declare scope entry = .ok c₁
      ∧ d.analyse scope c = .ok { d with cName, type } c₁ := by
  obtain ⟨c₁, hdeclare, hok⟩ := Outcome.ofDeclare_ok h
  exact ⟨_, _, c₁, _, rfl, rfl, hdeclare, hok⟩

theorem TypeAlias.analyse_ok {d : TypeAlias}
    (h : (d.analyse scope c).error = none) (htag : d.isTagAlias = false) :
    ∃ (cName : String) (type : Ty) (c₁ : Checker) (entry : Entry),
      type = .aliased d.name cName (Ty.resolve c.registry d.descriptor d.depth)
      ∧ entry = ((c.register d.name type d.position).scope scope).typeEntry d.name type d.isExternal
          d.position
      ∧ (c.register d.name type d.position).declare scope entry = .ok c₁
      ∧ d.analyse scope c = .ok { d with cName, type } c₁ := by
  unfold analyse at h ⊢
  rw [if_neg (by simp [htag])] at h ⊢
  obtain ⟨c₁, hdeclare, hok⟩ := Outcome.ofDeclare_ok h
  exact ⟨_, _, c₁, _, rfl, rfl, hdeclare, hok⟩

theorem Prototype.analyse_ok {d : Prototype} (h : (d.analyse scope c).error = none) :
    ∃ (params : List Parameter) (c₁ c₂ : Checker) (entry : Entry),
      Parameter.analyseAll false scope d.params c = .ok params c₁
      ∧ entry = (c₁.scope scope).functionEntry .function d.name (Parameter.types params)
          (Ty.resolve c₁.registry d.descriptor d.depth) d.isExternal d.position
      ∧ c₁.declare scope entry = .ok c₂
      ∧ d.analyse scope c
        = .ok { d with params, cName := entry.cName, type := some entry.type } c₂ := by
  obtain ⟨params, c₁, hparams, heq, hrest⟩ := Outcome.andThen_inv h
  obtain ⟨c₂, hdeclare, hok⟩ := Outcome.ofDeclare_ok hrest
  exact ⟨params, c₁, c₂, _, hparams, rfl, hdeclare, heq.trans hok⟩

/-! ## Definitions that were entered -/

/-- What entering a function has done: the parameters are declared in the scope of the body, and
the function completes a prototype of its scope or is declared there. -/
inductive Function.Entered (d : Function) (scope : ScopeId) (c : Checker) :
    Function → Checker → Prop
  | completes {params : List Parameter} {c₁ : Checker} {returnType : Ty} {cName : String} :
      Parameter.analyseAll true c.scopes.length d.params (c.addScope d.name .function scope).2
        = .ok params c₁ →
      returnType = Ty.resolve c₁.registry d.descriptor d.depth →
      prototype? d.name (Parameter.types params) returnType
        ((c₁.setReturnType c.scopes.length (some returnType)).scope scope) = some cName →
      Entered d scope c { d with params, returnType, cName, scope := some c.scopes.length }
        (c₁.setReturnType c.scopes.length (some returnType))
  | declares {params : List Parameter} {c₁ c₂ : Checker} {returnType : Ty} {entry : Entry} :
      Parameter.analyseAll true c.scopes.length d.params (c.addScope d.name .function scope).2
        = .ok params c₁ →
      returnType = Ty.resolve c₁.registry d.descriptor d.depth →
      entry = ((c₁.setReturnType c.scopes.length (some returnType)).scope scope).functionEntry
        .function d.name (Parameter.types params) returnType false d.position →
      (c₁.setReturnType c.scopes.length (some returnType)).declare scope entry = .ok c₂ →
      Entered d scope c
        { d with params, returnType, cName := entry.cName, scope := some c.scopes.length } c₂

/-- Entering a function after its parameters are declared in the scope `inner`. -/
def Function.finish (d : Function) (inner scope : ScopeId) (params : List Parameter) (c : Checker) :
    Outcome Function :=
  let d := { d with params, returnType := Ty.resolve c.registry d.descriptor d.depth }
  let c := c.setReturnType inner (some d.returnType)
  match prototype? d.name (Parameter.types params) d.returnType (c.scope scope) with
  | some cName => .ok { d with cName, scope := some inner } c
  | none =>
    let entry := (c.scope scope).functionEntry .function d.name (Parameter.types params)
      d.returnType false d.position
    .ofDeclare (c.declare scope entry) c d { d with cName := entry.cName, scope := some inner }

theorem Function.enter_eq (d : Function) (scope : ScopeId) (c : Checker) :
    d.enter scope c
      = (Parameter.analyseAll true c.scopes.length d.params
          (c.addScope d.name .function scope).2).andThen (fun params => { d with params })
            (d.finish c.scopes.length scope) := rfl

theorem Function.enter_entered {d : Function} (h : (d.enter scope c).error = none) :
    Entered d scope c (d.enter scope c).node (d.enter scope c).checker := by
  rw [enter_eq] at h ⊢
  obtain ⟨hparams, hrest⟩ := (Outcome.andThen_error_eq_none_iff _ _ _).mp h
  rw [Outcome.andThen_of_ok hparams]
  unfold finish at hrest ⊢
  dsimp only at hrest ⊢
  -- the scope has a prototype to complete, or the function is declared in it
  split
  · rename_i hproto
    exact .completes (Outcome.eq_ok hparams) rfl hproto
  · rename_i hproto
    rw [hproto] at hrest
    obtain ⟨c₂, hdeclare, hok⟩ := Outcome.ofDeclare_ok hrest
    rw [hok]
    exact .declares (Outcome.eq_ok hparams) rfl rfl hdeclare

theorem Function.Entered.scope_eq {d d' : Function}
    (h : Entered d scope c d' c') : d'.scope = some c.scopes.length := by
  cases h <;> rfl

/-- The parameters of a function are declared before the function itself. -/
theorem Function.analyseAll_of_enter {d : Function} (h : (d.enter scope c).error = none) :
    ∃ c₁, Parameter.analyseAll true c.scopes.length d.params (c.addScope d.name .function scope).2
        = .ok (d.enter scope c).node.params c₁
      ∧ c₁.Grows (d.enter scope c).checker := by
  have hentered := Function.enter_entered h
  generalize (d.enter scope c).node = node at hentered
  generalize (d.enter scope c).checker = after at hentered
  have hreturn (c₁ : Checker) (type : Ty) :
      Edits true c₁ (c₁.setReturnType c.scopes.length (some type)) :=
    .single (.setReturnType _ _ _)
  cases hentered with
  | completes hparams _ _ => exact ⟨_, hparams, (hreturn _ _).grows⟩
  | declares hparams _ hentry hdeclare =>
      refine ⟨_, hparams, Checker.Edits.grows ((hreturn _ _).tail (.declare hdeclare ?_))⟩
      rw [hentry]
      exact Scope.linked_functionEntry _ _ _ _ _ _ _

/-- Entering a method after its parameters are declared in the scope `inner`. -/
def Method.finish (d : Method) (inner scope : ScopeId) (params : List Parameter) (c : Checker) :
    Outcome Method :=
  let d := { d with params }
  match nativeParam? params with
  | some p => .fail (mismatch p.type.describe Ty.object.describe p.position) d c
  | none =>
    let entry := (c.scope scope).functionEntry .method d.name (Parameter.types params) .object
      false d.position
    .ofDeclare (c.declare scope entry) c d
      { d with
        cName := entry.cName
        classCName := (c.scope scope).classCName
        scope := some inner }

theorem Method.enter_eq (d : Method) (scope : ScopeId) (c : Checker) :
    d.enter scope c
      = (Parameter.analyseAll true c.scopes.length d.params
          ((c.addScope d.name .function scope).2.setReturnType c.scopes.length
            (some .object))).andThen (fun params => { d with params })
            (d.finish c.scopes.length scope) := rfl

theorem Method.enter_ok {d : Method} (h : (d.enter scope c).error = none) :
    ∃ (params : List Parameter) (c₁ : Checker) (entry : Entry),
      Parameter.analyseAll true c.scopes.length d.params
          ((c.addScope d.name .function scope).2.setReturnType c.scopes.length (some .object))
        = .ok params c₁
      ∧ entry = (c₁.scope scope).functionEntry .method d.name (Parameter.types params) .object
          false d.position
      ∧ c₁.declare scope entry = .ok (d.enter scope c).checker
      ∧ (d.enter scope c).node
        = { d with params, cName := entry.cName, classCName := (c₁.scope scope).classCName,
                   scope := some c.scopes.length } := by
  rw [enter_eq] at h ⊢
  obtain ⟨hparams, hrest⟩ := (Outcome.andThen_error_eq_none_iff _ _ _).mp h
  rw [Outcome.andThen_of_ok hparams]
  refine ⟨_, _, _, Outcome.eq_ok hparams, rfl, ?_⟩
  unfold finish at hrest ⊢
  dsimp only at hrest ⊢
  split
  · rename_i hnative
    rw [hnative] at hrest
    cases hrest
  · rename_i hnative
    rw [hnative] at hrest
    obtain ⟨c₂, hdeclare, hok⟩ := Outcome.ofDeclare_ok hrest
    rw [hok]
    exact ⟨hdeclare, rfl⟩

/-- A class is declared, and then the scope of its body is opened. -/
theorem ClassDef.enter_ok {d : ClassDef} (h : (d.enter scope c).error = none) :
    (d.enter scope c).node.scope = some c.scopes.length
      ∧ (d.enter scope c).checker.scopes.length = c.scopes.length + 1
      ∧ ∃ c₁ inner, c.declare scope ((c.scope scope).classEntry d.name d.position) = .ok c₁
        ∧ inner.entries = [] ∧ inner.temps = []
        ∧ (d.enter scope c).checker = (c₁.pushScope inner).2 := by
  unfold enter at h ⊢
  cases ha : d.ancestorName scope c with
  | error e => rw [ha] at h; cases h
  | ok ancestor =>
      rw [ha] at h
      dsimp only at h ⊢
      cases hd : c.declare scope ((c.scope scope).classEntry d.name d.position) with
      | error e => rw [hd] at h; cases h
      | ok c' =>
          have hlen := Checker.length_of_declare hd
          dsimp only [Outcome.ok, Checker.addClassScope, Checker.pushScope]
          rw [List.length_append, hlen]
          exact ⟨rfl, rfl, c', _, rfl, rfl, rfl, rfl⟩

end ExtensionCompiler

import ExtensionCompiler.Proofs.Written

set_option autoImplicit false

/-! # What the passes keep

Both passes do their work part by part. So what is kept of parts and of states by the work on one
part is kept by a pass over a unit. That is `Stmt.analyseAll_leaves` for analysis, also where it
stops at an error, and `Stmt.rescanAll_leaves` for the second pass. `Stmt.visitsAll_before` is about
the states that analysis meets on its way, and `Stmt.Sequences` about the changes that it makes to
them. -/

namespace ExtensionCompiler

/-! ## Outcomes -/

/-- The node that was left has `P` and the state has `K`, whether there was an error or not. -/
structure Outcome.Leaves {α : Type} (P : α → Prop) (K : Checker → Prop) (o : Outcome α) : Prop where
  node : P o.node
  checker : K o.checker

namespace Outcome.Leaves

variable {α β : Type} {P : α → Prop} {Q : β → Prop} {K : Checker → Prop} {o : Outcome α}

theorem map {f : α → β} (h : o.Leaves P K) (hf : ∀ a, P a → Q (f a)) : (o.map f).Leaves Q K :=
  ⟨hf _ h.node, h.checker⟩

/-- A sequence leaves what its first part leaves, or what both leave. -/
theorem andThen {stopped : α → β} {next : α → Checker → Outcome β} (h : o.Leaves P K)
    (hstop : ∀ a, P a → Q (stopped a))
    (hnext : ∀ a c, P a → K c → (next a c).Leaves Q K) : (o.andThen stopped next).Leaves Q K := by
  unfold Outcome.andThen
  split
  · exact ⟨hstop _ h.node, h.checker⟩
  · exact hnext _ _ h.node h.checker

end Outcome.Leaves

/-! ## Steps -/

namespace Part

/-- Analysis of any part keeps `P` of parts and `K` of states, whether it succeeds or not. -/
def AnalysisKeeps (P : Part → Prop) (K : Checker → Prop) : Prop :=
  ∀ (p : Part) (scope : ScopeId) (c : Checker), P p → K c → (p.analyse scope c).Leaves P K

/-- The second pass takes any part with `P` to one with `Q`, and keeps `K` of states. -/
structure RescanTakes (P Q : Part → Prop) (K : Checker → Prop) : Prop where
  /-- Some parts are left as they are. -/
  kept : ∀ p, P p → Q p
  settled : ∀ (p : Part) (scope : ScopeId) (c : Checker), P p → K c →
    Q (p.rescan scope c).1 ∧ K (p.rescan scope c).2

end Part

namespace Stmt

variable {P Q : Part → Prop} {K : Checker → Prop}

/-! ## Analysis -/

/-- The node of a statement with others inside it has its head in front of their heads. -/
theorem leaves_of_head (hstep : Part.AnalysisKeeps P K) {p : Part} {scope inner : ScopeId}
    {c : Checker} {α : Type} {o : Outcome α} {f : α → List Stmt → Stmt} {g : α → Part}
    {body : List Stmt} (h : ∀ q ∈ p :: headsAll body, P q) (hc : K c)
    (hpart : p.analyse scope c = o.map g)
    (hheads : ∀ a body, (f a body).heads = g a :: headsAll body)
    (hinner : ∀ c, (∀ q ∈ headsAll body, P q) → K c →
      (analyseAll body inner c).Leaves (fun body => ∀ p ∈ headsAll body, P p) K) :
    (o.andThen (fun a => f a body)
        fun a c => (analyseAll body inner c).map fun body => f a body).Leaves
      (fun stmt => ∀ p ∈ stmt.heads, P p) K := by
  obtain ⟨hp, hbody⟩ := List.forall_mem_cons.mp h
  have hleft := hstep p scope c hp hc
  rw [hpart] at hleft
  have ho : o.Leaves (fun a => P (g a)) K := ⟨hleft.node, hleft.checker⟩
  have hnode : ∀ a body, P (g a) → (∀ p ∈ headsAll body, P p) → ∀ p ∈ (f a body).heads, P p := by
    intro a body ha hbody
    rw [hheads]
    exact List.forall_mem_cons.mpr ⟨ha, hbody⟩
  exact ho.andThen (fun a ha => hnode a body ha hbody)
    fun a c ha hc => (hinner c hbody hc).map fun body hbody => hnode a body ha hbody

/-- A statement with nothing inside it is its one part. -/
theorem leaves_of_part (hstep : Part.AnalysisKeeps P K) {o : Outcome Stmt} {p : Part}
    {scope : ScopeId} {c : Checker} (h : ∀ q ∈ [p], P q) (hc : K c)
    (hnode : o.node.heads = [(p.analyse scope c).node])
    (hchecker : o.checker = (p.analyse scope c).checker) :
    o.Leaves (fun stmt => ∀ p ∈ stmt.heads, P p) K := by
  have hpart := hstep p scope c (List.forall_mem_singleton.mp h) hc
  refine ⟨?_, hchecker ▸ hpart.checker⟩
  rw [hnode]
  exact List.forall_mem_singleton.mpr hpart.node

mutual

theorem analyse_leaves (hstep : Part.AnalysisKeeps P K) : (stmt : Stmt) →
    (scope : ScopeId) → (c : Checker) →
    (∀ p ∈ stmt.heads, P p) → K c →
    (stmt.analyse scope c).Leaves (fun stmt => ∀ p ∈ stmt.heads, P p) K
  | .var _, _, _, h, hc | .array _, _, _, h, hc | .assign _, _, _, h, hc | .ret _, _, _, h, hc
  | .print _, _, _, h, hc | .evaluation _, _, _, h, hc | .forward _, _, _, h, hc
  | .typeAlias _, _, _, h, hc | .prototype _, _, _, h, hc => leaves_of_part hstep h hc rfl rfl
  | .aggregate d members, scope, c, h, hc => by
      obtain ⟨hd, hmembers⟩ := List.forall_mem_cons.mp h
      have hpart := hstep (.aggregate d) scope c hd hc
      have hdeclare : (d.declare scope c).Leaves
          (fun type => P (.aggregate
            { d with type := some type, scope := some scope, memberScope := some c.scopes.length }))
          K := ⟨hpart.node, hpart.checker⟩
      rw [analyse]
      -- up to the end of the members, the node is the one that was there before
      refine hdeclare.andThen (fun _ _ => List.forall_mem_cons.mpr ⟨hd, hmembers⟩)
        fun type c' htype hc' => ?_
      exact (analyseAll_leaves hstep members c.scopes.length c' hmembers hc').andThen
        (fun _ hmembers => List.forall_mem_cons.mpr ⟨hd, hmembers⟩)
        fun _ _ hmembers hc => ⟨List.forall_mem_cons.mpr ⟨htype, hmembers⟩, hc⟩
  | .library header declarations position, scope, c, h, hc => by
      have hinside := analyseAll_leaves hstep declarations scope c h hc
      exact ⟨hinside.node, hinside.checker⟩
  | .conditional chain position, scope, c, h, hc => by
      have hinside := analyseChain_leaves hstep chain scope c h hc
      exact ⟨hinside.node, hinside.checker⟩
  | .count _ body, scope, _, h, hc =>
      leaves_of_head hstep h hc rfl (fun _ _ => rfl) (analyseAll_leaves hstep body scope)
  | .loop _ body position, scope, _, h, hc =>
      leaves_of_head hstep (f := fun condition body => .loop condition body position) h hc rfl
        (fun _ _ => rfl) (analyseAll_leaves hstep body scope)
  | .function _ body, _, c, h, hc | .method _ body, _, c, h, hc | .classDef _ body, _, c, h, hc =>
      leaves_of_head hstep h hc rfl (fun _ _ => rfl)
        (analyseAll_leaves hstep body c.scopes.length)

theorem analyseChain_leaves (hstep : Part.AnalysisKeeps P K) : (chain : Chain) →
    (scope : ScopeId) → (c : Checker) →
    (∀ p ∈ headsChain chain, P p) → K c →
    (analyseChain chain scope c).Leaves (fun chain => ∀ p ∈ headsChain chain, P p) K
  | .done, scope, c, h, hc => ⟨h, hc⟩
  | .otherwise body, scope, c, h, hc => by
      have hinside := analyseAll_leaves hstep body scope c h hc
      exact ⟨hinside.node, hinside.checker⟩
  | .test condition body rest, scope, c, h, hc => by
      obtain ⟨hcondition, hothers⟩ := List.forall_mem_cons.mp h
      obtain ⟨hbody, hrest⟩ := List.forall_mem_append.mp hothers
      have hnode : ∀ condition body rest, P (.condition condition) →
          (∀ p ∈ headsAll body, P p) → (∀ p ∈ headsChain rest, P p) →
          ∀ p ∈ headsChain (.test condition body rest), P p :=
        fun _ _ _ h h' h'' => List.forall_mem_cons.mpr ⟨h, List.forall_mem_append.mpr ⟨h', h''⟩⟩
      have hpart := hstep (.condition condition) scope c hcondition hc
      have htested : (condition.analyseCondition scope c).Leaves (fun e => P (.condition e)) K :=
        ⟨hpart.node, hpart.checker⟩
      refine htested.andThen (fun e he => hnode e body rest he hbody hrest) fun e c he hc => ?_
      refine (analyseAll_leaves hstep body scope c hbody hc).andThen
        (fun body hbody => hnode e body rest he hbody hrest) fun body c hbody hc => ?_
      exact (analyseChain_leaves hstep rest scope c hrest hc).map
        fun rest hrest => hnode e body rest he hbody hrest

/-- **What analysis of a part keeps, analysis of a unit keeps**, also where it stops at an error. -/
theorem analyseAll_leaves (hstep : Part.AnalysisKeeps P K) : (stmts : List Stmt) →
    (scope : ScopeId) → (c : Checker) →
    (∀ p ∈ headsAll stmts, P p) → K c →
    (analyseAll stmts scope c).Leaves (fun stmts => ∀ p ∈ headsAll stmts, P p) K
  | [], scope, c, h, hc => ⟨h, hc⟩
  | stmt :: rest, scope, c, h, hc => by
      obtain ⟨hstmt, hrest⟩ := List.forall_mem_append.mp h
      exact (analyse_leaves hstep stmt scope c hstmt hc).andThen
        (fun _ hstmt => List.forall_mem_append.mpr ⟨hstmt, hrest⟩)
        fun stmt c hstmt hc => (analyseAll_leaves hstep rest scope c hrest hc).map
          fun _ hrest => List.forall_mem_append.mpr ⟨hstmt, hrest⟩

end

/-! ### The states on the way -/

theorem before_of_head (hstep : Part.AnalysisKeeps P K) {p : Part} {scope : ScopeId} {c : Checker}
    {body : List Stmt} {visits : Checker → List Visit} (h : ∀ q ∈ p :: headsAll body, P q)
    (hc : K c)
    (hinner : ∀ c, (∀ q ∈ headsAll body, P q) → K c → ∀ v ∈ visits c, K v.before) :
    ∀ v ∈ ⟨scope, c, p⟩ :: visits (p.analyse scope c).checker, K v.before := by
  obtain ⟨hp, hbody⟩ := List.forall_mem_cons.mp h
  exact List.forall_mem_cons.mpr ⟨hc, hinner _ hbody (hstep p scope c hp hc).checker⟩

mutual

theorem visits_before (hstep : Part.AnalysisKeeps P K) : (stmt : Stmt) →
    (scope : ScopeId) → (c : Checker) →
    (∀ p ∈ stmt.heads, P p) → K c → ∀ v ∈ stmt.visits scope c, K v.before
  | .var _, _, _, _, hc | .array _, _, _, _, hc | .assign _, _, _, _, hc | .ret _, _, _, _, hc
  | .print _, _, _, _, hc | .evaluation _, _, _, _, hc | .forward _, _, _, _, hc
  | .typeAlias _, _, _, _, hc | .prototype _, _, _, _, hc => List.forall_mem_singleton.mpr hc
  | .library _ declarations _, scope, c, h, hc => visitsAll_before hstep declarations scope c h hc
  | .conditional chain _, scope, c, h, hc => visitsChain_before hstep chain scope c h hc
  | .count _ body, scope, _, h, hc | .loop _ body _, scope, _, h, hc =>
      before_of_head hstep h hc (visitsAll_before hstep body scope)
  | .aggregate _ body, _, c, h, hc | .function _ body, _, c, h, hc | .method _ body, _, c, h, hc
  | .classDef _ body, _, c, h, hc =>
      before_of_head hstep h hc (visitsAll_before hstep body c.scopes.length)

theorem visitsChain_before (hstep : Part.AnalysisKeeps P K) : (chain : Chain) →
    (scope : ScopeId) → (c : Checker) →
    (∀ p ∈ headsChain chain, P p) → K c → ∀ v ∈ visitsChain chain scope c, K v.before
  | .done, scope, c, _, _ => List.forall_mem_nil _
  | .otherwise body, scope, c, h, hc => visitsAll_before hstep body scope c h hc
  | .test condition body rest, scope, c, h, hc => by
      obtain ⟨hcondition, hothers⟩ := List.forall_mem_cons.mp h
      obtain ⟨hbody, hrest⟩ := List.forall_mem_append.mp hothers
      have htested : K (condition.analyseCondition scope c).checker :=
        (hstep (.condition condition) scope c hcondition hc).checker
      have hleft := (analyseAll_leaves hstep body scope _ hbody htested).checker
      exact List.forall_mem_cons.mpr ⟨hc, List.forall_mem_append.mpr
        ⟨visitsAll_before hstep body scope _ hbody htested,
          visitsChain_before hstep rest scope _ hrest hleft⟩⟩

/-- What analysis of a part keeps of the state is there at every visit. -/
theorem visitsAll_before (hstep : Part.AnalysisKeeps P K) : (stmts : List Stmt) →
    (scope : ScopeId) → (c : Checker) →
    (∀ p ∈ headsAll stmts, P p) → K c → ∀ v ∈ visitsAll stmts scope c, K v.before
  | [], scope, c, _, _ => List.forall_mem_nil _
  | stmt :: rest, scope, c, h, hc => by
      obtain ⟨hstmt, hrest⟩ := List.forall_mem_append.mp h
      have hleft := (analyse_leaves hstep stmt scope c hstmt hc).checker
      exact List.forall_mem_append.mpr
        ⟨visits_before hstep stmt scope c hstmt hc, visitsAll_before hstep rest scope _ hrest hleft⟩

end

/-! ## The second pass -/

theorem rescan_part_leaves (hstep : Part.RescanTakes P Q K) {p : Part} {scope : ScopeId}
    {c : Checker} (h : ∀ q ∈ [p], P q) (hc : K c) :
    (∀ q ∈ [(p.rescan scope c).1], Q q) ∧ K (p.rescan scope c).2 := by
  obtain ⟨hp, hc'⟩ := hstep.settled p scope c (List.forall_mem_singleton.mp h) hc
  exact ⟨List.forall_mem_singleton.mpr hp, hc'⟩

mutual

theorem rescan_leaves (hstep : Part.RescanTakes P Q K) : (stmt : Stmt) →
    (scope : ScopeId) → (c : Checker) →
    (∀ p ∈ stmt.heads, P p) → K c →
    (∀ p ∈ (stmt.rescan scope c).1.heads, Q p) ∧ K (stmt.rescan scope c).2
  | .var _, _, _, h, hc | .array _, _, _, h, hc | .forward _, _, _, h, hc
  | .typeAlias _, _, _, h, hc | .prototype _, _, _, h, hc => rescan_part_leaves hstep h hc
  | .assign _, _, _, h, hc | .ret _, _, _, h, hc | .print _, _, _, h, hc
  | .evaluation _, _, _, h, hc => ⟨fun p hp => hstep.kept p (h p hp), hc⟩
  | .aggregate _ body, _, c, h, hc | .classDef _ body, _, c, h, hc => by
      obtain ⟨hd, hbody⟩ := List.forall_mem_cons.mp h
      rw [rescan]
      split
      · rename_i inner _
        obtain ⟨hinside, hc'⟩ := rescanAll_leaves hstep body inner c hbody hc
        exact ⟨List.forall_mem_cons.mpr ⟨hstep.kept _ hd, hinside⟩, hc'⟩
      · exact ⟨fun p hp => hstep.kept p (h p hp), hc⟩
  | .library header declarations position, scope, c, h, hc =>
      rescanAll_leaves hstep declarations scope c h hc
  | .conditional chain position, scope, c, h, hc => rescanChain_leaves hstep chain scope c h hc
  | .count _ body, scope, c, h, hc | .loop _ body _, scope, c, h, hc => by
      obtain ⟨hd, hbody⟩ := List.forall_mem_cons.mp h
      obtain ⟨hinside, hc'⟩ := rescanAll_leaves hstep body scope c hbody hc
      exact ⟨List.forall_mem_cons.mpr ⟨hstep.kept _ hd, hinside⟩, hc'⟩
  | .function _ body, scope, c, h, hc | .method _ body, scope, c, h, hc => by
      obtain ⟨hd, hbody⟩ := List.forall_mem_cons.mp h
      have hpart := hstep.settled _ scope c hd hc
      rw [Part.rescan] at hpart
      rw [rescan]
      split
      · rename_i inner hinner
        rw [hinner] at hpart
        obtain ⟨hinside, hc'⟩ := rescanAll_leaves hstep body inner _ hbody hpart.2
        exact ⟨List.forall_mem_cons.mpr ⟨hpart.1, hinside⟩, hc'⟩
      · exact ⟨fun p hp => hstep.kept p (h p hp), hc⟩

theorem rescanChain_leaves (hstep : Part.RescanTakes P Q K) : (chain : Chain) →
    (scope : ScopeId) → (c : Checker) →
    (∀ p ∈ headsChain chain, P p) → K c →
    (∀ p ∈ headsChain (rescanChain chain scope c).1, Q p) ∧ K (rescanChain chain scope c).2
  | .done, scope, c, h, hc => ⟨fun p hp => hstep.kept p (h p hp), hc⟩
  | .otherwise body, scope, c, h, hc => rescanAll_leaves hstep body scope c h hc
  | .test condition body rest, scope, c, h, hc => by
      obtain ⟨hcondition, hothers⟩ := List.forall_mem_cons.mp h
      obtain ⟨hbody, hrest⟩ := List.forall_mem_append.mp hothers
      obtain ⟨hbody', hc'⟩ := rescanAll_leaves hstep body scope c hbody hc
      obtain ⟨hrest', hc''⟩ := rescanChain_leaves hstep rest scope _ hrest hc'
      exact ⟨List.forall_mem_cons.mpr
        ⟨hstep.kept _ hcondition, List.forall_mem_append.mpr ⟨hbody', hrest'⟩⟩, hc''⟩

/-- **What the second pass does at every part, it does over a unit.** -/
theorem rescanAll_leaves (hstep : Part.RescanTakes P Q K) : (stmts : List Stmt) →
    (scope : ScopeId) → (c : Checker) →
    (∀ p ∈ headsAll stmts, P p) → K c →
    (∀ p ∈ headsAll (rescanAll stmts scope c).1, Q p) ∧ K (rescanAll stmts scope c).2
  | [], scope, c, h, hc => ⟨fun p hp => hstep.kept p (h p hp), hc⟩
  | stmt :: rest, scope, c, h, hc => by
      obtain ⟨hstmt, hrest⟩ := List.forall_mem_append.mp h
      obtain ⟨hstmt', hc'⟩ := rescan_leaves hstep stmt scope c hstmt hc
      obtain ⟨hrest', hc''⟩ := rescanAll_leaves hstep rest scope _ hrest hc'
      exact ⟨List.forall_mem_append.mpr ⟨hstmt', hrest'⟩, hc''⟩

end

end Stmt

/-! ## From state to state -/

/-- What analysis of a part does to the state, and errors with it, is of a kind that sequences are
of as well. The statements inside a definition come after it, in the next scope that there was not.
-/
structure Stmt.Sequences (Ok : Part → Prop)
    (R : ScopeId → Checker → Option Error → Checker → Prop) : Prop where
  done : ∀ scope c, R scope c none c
  part : ∀ p scope c, Ok p → R scope c (p.analyse scope c).error (p.analyse scope c).checker
  next : ∀ {scope c c' e c''}, R scope c none c' → R scope c' e c'' → R scope c e c''
  inside : ∀ {scope c c' e c''}, R scope c none c' → R c.scopes.length c' e c'' → R scope c e c''

namespace Stmt.Sequences

variable {Ok : Part → Prop} {R : ScopeId → Checker → Option Error → Checker → Prop}
  {scope : ScopeId} {c : Checker} {α β : Type} {o : Outcome α}

/-- A sequence ends where its first part does, or where its second does. -/
theorem andThen {stopped : α → β} {next : α → Checker → Outcome β}
    (ho : R scope c o.error o.checker)
    (hnext : R scope c none o.checker → ∀ node,
      R scope c (next node o.checker).error (next node o.checker).checker) :
    R scope c (o.andThen stopped next).error (o.andThen stopped next).checker := by
  unfold Outcome.andThen
  split
  · rename_i e he
    rw [he] at ho
    exact ho
  · rename_i he
    rw [he] at ho
    exact hnext ho _

mutual

theorem analyse (h : Sequences Ok R) : (stmt : Stmt) → (∀ p ∈ stmt.heads, Ok p) →
    (scope : ScopeId) → (c : Checker) →
    R scope c (stmt.analyse scope c).error (stmt.analyse scope c).checker
  | .var _, hp, scope, c | .array _, hp, scope, c | .assign _, hp, scope, c
  | .ret _, hp, scope, c | .print _, hp, scope, c | .evaluation _, hp, scope, c
  | .forward _, hp, scope, c | .typeAlias _, hp, scope, c | .prototype _, hp, scope, c =>
      h.part _ scope c (hp _ List.mem_cons_self)
  | .aggregate d members, hp, scope, c => by
      obtain ⟨hd, hmembers⟩ := List.forall_mem_cons.mp hp
      refine andThen (h.part (.aggregate d) scope c hd) fun hhead _ => ?_
      exact andThen (h.inside hhead (analyseAll h members hmembers _ _))
        fun hinside _ => hinside
  | .library _ declarations _, hp, scope, c => analyseAll h declarations hp scope c
  | .conditional chain _, hp, scope, c => analyseChain h chain hp scope c
  | .count _ body, hp, scope, c | .loop _ body _, hp, scope, c => by
      obtain ⟨hd, hbody⟩ := List.forall_mem_cons.mp hp
      exact andThen (h.part _ scope c hd)
        fun hhead _ => h.next hhead (analyseAll h body hbody scope _)
  | .function _ body, hp, scope, c | .method _ body, hp, scope, c
  | .classDef _ body, hp, scope, c => by
      obtain ⟨hd, hbody⟩ := List.forall_mem_cons.mp hp
      exact andThen (h.part _ scope c hd)
        fun hhead _ => h.inside hhead (analyseAll h body hbody _ _)

theorem analyseChain (h : Sequences Ok R) : (chain : Chain) → (∀ p ∈ headsChain chain, Ok p) →
    (scope : ScopeId) → (c : Checker) →
    R scope c (Stmt.analyseChain chain scope c).error (Stmt.analyseChain chain scope c).checker
  | .done, _, scope, c => h.done scope c
  | .otherwise body, hp, scope, c => analyseAll h body hp scope c
  | .test condition body rest, hp, scope, c => by
      obtain ⟨hd, hothers⟩ := List.forall_mem_cons.mp hp
      obtain ⟨hbody, hrest⟩ := List.forall_mem_append.mp hothers
      refine andThen (h.part (.condition condition) scope c hd) fun hhead _ => ?_
      exact andThen (h.next hhead (analyseAll h body hbody scope _))
        fun hinside _ => h.next hinside (analyseChain h rest hrest scope _)

/-- **What is true of analysis of one part is true of analysis of a unit.** -/
theorem analyseAll (h : Sequences Ok R) : (stmts : List Stmt) → (∀ p ∈ headsAll stmts, Ok p) →
    (scope : ScopeId) → (c : Checker) →
    R scope c (Stmt.analyseAll stmts scope c).error (Stmt.analyseAll stmts scope c).checker
  | [], _, scope, c => h.done scope c
  | stmt :: rest, hp, scope, c => by
      obtain ⟨hstmt, hrest⟩ := List.forall_mem_append.mp hp
      exact andThen (analyse h stmt hstmt scope c)
        fun hfirst _ => h.next hfirst (analyseAll h rest hrest scope _)

end

end Stmt.Sequences

end ExtensionCompiler

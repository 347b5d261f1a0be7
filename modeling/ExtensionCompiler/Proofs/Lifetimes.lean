import ExtensionCompiler.Proofs.Hoisting
import ExtensionCompiler.Proofs.Temporaries

set_option autoImplicit false

/-! # Lifetimes of temporaries

The lines before a value, the value itself and the lines after it have to agree on the temporaries.

`C.Code.track` follows the temporaries through lines of C: which of them hold an object. A line that
breaks the rules has no result: one that reads a temporary that holds nothing, assigns to one that
holds an object already, or drops one that holds nothing. The lines of a value that was analysed
keep the rules (`Expr.Prepared.trackAll_evaluate`, `Expr.trackAll_dispose`), unless a header
provides a name that is also that of a temporary. -/

namespace ExtensionCompiler

open Checker (tempName tempsFrom)

/-! ## Following temporaries through lines of C -/

namespace C

namespace Term

mutual

/-- The names that a term reads, those of functions among them. -/
def idents : Term → List String
  | ident name => [name]
  | int _ => []
  | float _ => []
  | char _ => []
  | text _ => []
  | verbatim _ => []
  | index base position => base :: position.idents
  | unary _ operand => operand.idents
  | binary left _ right => left.idents ++ right.idents
  | plain left _ right => left.idents ++ right.idents
  | refuted condition => condition.idents
  | call function args => function :: identsAll args
  | choice condition first second => condition.idents ++ first.idents ++ second.idents

def identsAll : List Term → List String
  | [] => []
  | term :: rest => term.idents ++ identsAll rest

end

end Term

namespace Code

/-- The temporaries that hold an object after a line, given those that do before it. A line gives a
temporary the result of a call to the host, or drops what it holds. It has no result if it breaks
the rules: `temps` are read while they hold an object, assigned to while they do not, and dropped
while they do. -/
def track (temps live : List String) : Code → Option (List String)
  | .assign (.ident temp) (.call called args) =>
    if called = "rb_funcall" ∧ temp ∉ live ∧ ∀ x ∈ Term.identsAll args, x ∈ temps → x ∈ live then
      some (live ++ [temp])
    else none
  | .assign (.ident temp) (.ident value) =>
    if value = "Qnil" ∧ temp ∈ live then some (live.erase temp) else none
  | _ => none

def trackAll (temps : List String) : List String → List Code → Option (List String)
  | live, [] => some live
  | live, line :: rest => (track temps live line).bind fun live => trackAll temps live rest

theorem trackAll_append {temps live live' : List String} {xs : List Code}
    (h : trackAll temps live xs = some live') (ys : List Code) :
    trackAll temps live (xs ++ ys) = trackAll temps live' ys := by
  induction xs generalizing live with
  | nil =>
      cases h
      rfl
  | cons line rest ih =>
      obtain ⟨next, hline, hrest⟩ := Option.bind_eq_some_iff.mp h
      rw [List.cons_append, trackAll, hline]
      exact ih hrest

/-- The lines that drop temporaries one after the other. -/
def drops (temps : List String) : List Code := temps.map fun temp => .assign (.ident temp) .nil

theorem drops_append (xs ys : List String) : drops (xs ++ ys) = drops xs ++ drops ys :=
  List.map_append

/-- Temporaries that hold an object can be dropped in order. -/
theorem trackAll_drops (temps before dropped after : List String)
    (hnew : ∀ t ∈ dropped, t ∉ before) :
    trackAll temps (before ++ dropped ++ after) (drops dropped) = some (before ++ after) := by
  induction dropped with
  | nil => rw [List.append_nil]; rfl
  | cons t rest ih =>
      have hlive : t ∈ before ++ t :: rest ++ after := by simp
      have herase : (before ++ t :: rest ++ after).erase t = before ++ rest ++ after := by
        rw [List.append_assoc, List.erase_append_right _ (hnew t List.mem_cons_self),
          List.cons_append, List.erase_cons_head, List.append_assoc]
      show (track temps _ (.assign (.ident t) .nil)).bind _ = _
      rw [Term.nil, track, if_pos ⟨rfl, hlive⟩, herase]
      exact ih fun u hu => hnew u (List.mem_cons_of_mem t hu)

/-- A call to the host whose operands are there gives its temporary an object. -/
theorem track_dispatch {temps live : List String} {temp method : String} {receiver : Term}
    {args : List Term} (hnew : temp ∉ live) (hintern : "rb_intern" ∉ temps)
    (hreads : ∀ x ∈ receiver.idents ++ Term.identsAll args, x ∈ temps → x ∈ live) :
    track temps live (.assign (.ident temp) (.dispatch receiver method args))
      = some (live ++ [temp]) := by
  refine if_pos ⟨rfl, hnew, fun x hx hx' => ?_⟩
  have hcases : x ∈ receiver.idents ∨ x = "rb_intern" ∨ x ∈ Term.identsAll args := by
    simpa [Term.identsAll, Term.idents, Term.methodName] using hx
  rcases hcases with hreceiver | rfl | hargs
  · exact hreads x (List.mem_append_left _ hreceiver) hx'
  · exact absurd hx' hintern
  · exact hreads x (List.mem_append_right _ hargs) hx'

end Code

end C

open C.Code (trackAll drops)

/-- A list of names of temporaries. -/
def AreTemps (temps : List String) : Prop := ∀ t ∈ temps, ∃ n, tempName n = t

/-- No temporary has a name that begins like those of the host. -/
theorem AreTemps.ne {temps : List String} (h : AreTemps temps) {t : String} (ht : t ∈ temps)
    {name : String} (hname : name.toList.head? ≠ some '_') : t ≠ name := by
  obtain ⟨n, rfl⟩ := h t ht
  exact Checker.tempName_ne hname n

theorem Info.Clean.mem_convert {info : Info} (h : info.Clean) {temps : List String}
    (htemps : AreTemps temps) {value : C.Term} {t : String} (ht : t ∈ temps) :
    t ∈ (info.convert value).idents ↔ t ∈ value.idents := by
  unfold convert
  cases hconversion : info.conversion with
  | none => rfl
  | some conversion =>
      obtain ⟨n, rfl⟩ := htemps t ht
      simp [C.Term.idents, C.Term.identsAll, h conversion hconversion n]

namespace Expr

variable {temps : List String}

mutual

/-- The temporaries that a value reads are those that are held for it. -/
theorem Prepared.mem_idents_term (htemps : AreTemps temps) {t : String} (ht : t ∈ temps) :
    {e : Expr} → {m n : Nat} → Prepared m e n → (∀ o ∈ e.occurrences, o.cName ∉ temps) →
    (t ∈ e.term.idents ↔ t ∈ e.held)
  | .literal _ value, _, _, h, _ => by
      have hyes : t ≠ "Qtrue" := htemps.ne ht (by decide)
      have hno : t ≠ "Qfalse" := htemps.ne ht (by decide)
      have hnil : t ≠ "Qnil" := htemps.ne ht (by decide)
      cases h with
      | literal hclean =>
          rw [term, hclean.mem_convert htemps ht]
          cases value <;> simp [Literal.term, C.Term.yes, C.Term.no, C.Term.nil, C.Term.idents,
            held, hyes, hno, hnil]
  | .name _ _ cName _, _, _, h, hnames => by
      have hname : t ≠ cName := fun heq => hnames _ List.mem_cons_self (heq ▸ ht)
      cases h with
      | name hclean =>
          rw [term, hclean.mem_convert htemps ht]
          simp [C.Term.idents, held, hname]
  | .element _ _ cName index, _, _, h, hnames => by
      have hname : t ≠ cName := fun heq => hnames _ List.mem_cons_self (heq ▸ ht)
      cases h with
      | element hclean hindex =>
          have hiff := hindex.mem_idents_term htemps ht
            fun o ho => hnames o (List.mem_cons_of_mem _ ho)
          rw [term, hclean.mem_convert htemps ht]
          simp [C.Term.idents, held, hname, hiff]
  | .unary info operator operand _, _, _, h, hnames => by
      cases h with
      | hostUnary hclean _ _ =>
          rw [term, hclean.mem_convert htemps ht]
          rfl
      | unary hclean hop _ =>
          have hiff := hop.mem_idents_term htemps ht hnames
          have hyes : t ≠ "Qtrue" := htemps.ne ht (by decide)
          have hno : t ≠ "Qfalse" := htemps.ne ht (by decide)
          have htest : t ≠ "RTEST" := htemps.ne ht (by decide)
          rw [term, hclean.mem_convert htemps ht, unaryTerm, held]
          split <;> simp [C.Term.truth, C.Term.yes, C.Term.no, C.Term.idents, C.Term.identsAll,
            hyes, hno, htest, hiff]
  | .binary _ left _ right _, _, _, h, hnames => by
      cases h with
      | hostBinary hclean _ _ _ _ =>
          rw [term, hclean.mem_convert htemps ht]
          rfl
      | binary hclean hl hr _ =>
          obtain ⟨hln, hrn⟩ := List.forall_mem_append.mp hnames
          have hleft := hl.mem_idents_term htemps ht hln
          have hright := hr.mem_idents_term htemps ht hrn
          have hyes : t ≠ "Qtrue" := htemps.ne ht (by decide)
          have hno : t ≠ "Qfalse" := htemps.ne ht (by decide)
          have htest : t ≠ "RTEST" := htemps.ne ht (by decide)
          rw [term, hclean.mem_convert htemps ht, binaryTerm, held]
          split <;> simp [C.Term.truth, C.Term.yes, C.Term.no, C.Term.idents, C.Term.identsAll,
            hyes, hno, htest, hleft, hright]
  | .call _ _ cName args, _, _, h, hnames => by
      have hname : t ≠ cName := fun heq => hnames _ List.mem_cons_self (heq ▸ ht)
      cases h with
      | call hclean hargs =>
          have hiff := hargs.mem_idents_terms htemps ht
            fun o ho => hnames o (List.mem_cons_of_mem _ ho)
          rw [term, hclean.mem_convert htemps ht]
          simp [C.Term.idents, held, hname, hiff]

theorem PreparedAll.mem_idents_terms (htemps : AreTemps temps) {t : String} (ht : t ∈ temps) :
    {args : List Expr} → {m n : Nat} → PreparedAll m args n →
    (∀ o ∈ occurrencesAll args, o.cName ∉ temps) →
    (t ∈ C.Term.identsAll (terms args) ↔ t ∈ heldAll args)
  | [], _, _, _, _ => Iff.rfl
  | e :: rest, _, _, h, hnames => by
      cases h with
      | cons he hrest =>
          obtain ⟨hen, hrn⟩ := List.forall_mem_append.mp hnames
          have hfirst := he.mem_idents_term htemps ht hen
          have hothers := hrest.mem_idents_terms htemps ht hrn
          rw [terms, C.Term.identsAll, heldAll, List.mem_append, List.mem_append, hfirst, hothers]

end

/-! ## The lines before and after a value -/

mutual

/-- What is held for a value is dropped after it. -/
theorem dispose_eq : (e : Expr) → e.dispose = drops e.held
  | .literal _ _ => rfl
  | .name _ _ _ _ => rfl
  | .element _ _ _ index => dispose_eq index
  | .unary _ _ _ (some _) => rfl
  | .unary _ _ operand none => dispose_eq operand
  | .binary _ _ _ _ (some _) => rfl
  | .binary _ left _ right none => by
      rw [held, C.Code.drops_append, dispose, disposal, List.map_append]
      exact congrArg₂ (· ++ ·) (dispose_eq left) (dispose_eq right)
  | .call _ _ _ args => disposeAll_eq args

theorem disposeAll_eq : (args : List Expr) →
    (disposalAll args).map Step.code = drops (heldAll args)
  | [] => rfl
  | e :: rest => by
      rw [disposalAll, heldAll, C.Code.drops_append, List.map_append]
      exact congrArg₂ (· ++ ·) (dispose_eq e) (disposeAll_eq rest)

end

/-- The lines of a call to the host after those of its operands. -/
def hostLines (temp : String) (receiver : C.Term) (method : String) (args : List C.Term)
    (operands : List String) : List C.Code :=
  .assign (.ident temp) (.dispatch receiver method args) :: drops operands

theorem evaluate_hostUnary (info : Info) (operator : String) (operand : Expr) (temp : String) :
    (Expr.unary info operator operand (some temp)).evaluate
      = operand.evaluate
        ++ hostLines temp operand.term (Operator.unaryMethod operator) [] operand.held := by
  rw [evaluate, evaluation, List.map_append, hostLines, ← dispose_eq]
  rfl

theorem evaluate_hostBinary (info : Info) (left : Expr) (operator : String) (right : Expr)
    (temp : String) :
    (Expr.binary info left operator right (some temp)).evaluate
      = left.evaluate ++ right.evaluate
        ++ hostLines temp left.term operator [right.term] (left.held ++ right.held) := by
  rw [hostLines, C.Code.drops_append, ← dispose_eq, ← dispose_eq]
  simp only [evaluate, evaluation, dispose, List.map_append, List.map_cons, Step.code]

theorem trackAll_hostLines (htemps : AreTemps temps) {live operands : List String} {temp : String}
    {receiver : C.Term} {method : String} {args : List C.Term}
    (hnew : temp ∉ live ++ operands) (hoperands : ∀ t ∈ operands, t ∉ live)
    (hreads : ∀ x ∈ receiver.idents ++ C.Term.identsAll args, x ∈ temps → x ∈ operands) :
    trackAll temps (live ++ operands) (hostLines temp receiver method args operands)
      = some (live ++ [temp]) := by
  have hintern : "rb_intern" ∉ temps := fun hmem => htemps.ne hmem (by decide) rfl
  have hfirst : C.Code.track temps (live ++ operands)
      (.assign (.ident temp) (.dispatch receiver method args))
        = some (live ++ operands ++ [temp]) :=
    C.Code.track_dispatch hnew hintern fun x hx hx' =>
      List.mem_append_right live (hreads x hx hx')
  rw [hostLines, trackAll, hfirst]
  exact C.Code.trackAll_drops temps live operands [temp] hoperands

/-- What comes second has not been given an object by what comes first. -/
theorem not_mem_live {first second held live : List String} (hdistinct : (first ++ second).Nodup)
    (hheld : held ⊆ first) (hnew : ∀ t ∈ first ++ second, t ∉ live) :
    ∀ t ∈ second, t ∉ live ++ held := by
  intro t ht hmem
  rcases List.mem_append.mp hmem with hlive | hmem
  · exact hnew t (List.mem_append_right _ ht) hlive
  · exact (List.nodup_append.mp hdistinct).2.2 t (hheld hmem) t ht rfl

mutual

/-- **The lines before a value keep the rules**, and leave an object in the temporaries that the
value reads. -/
theorem Prepared.trackAll_evaluate (htemps : AreTemps temps) : {e : Expr} → {m n : Nat} →
    Prepared m e n → (∀ o ∈ e.occurrences, o.cName ∉ temps) → (live : List String) →
    (∀ t ∈ e.temps, t ∉ live) → trackAll temps live e.evaluate = some (live ++ e.held)
  | .literal _ _, _, _, _, _, live, _ | .name _ _ _ _, _, _, _, _, live, _ =>
      congrArg some (List.append_nil live).symm
  | .element _ _ _ index, _, _, h, hnames, live, hnew => by
      cases h with
      | element _ hindex =>
          exact hindex.trackAll_evaluate htemps
            (fun o ho => hnames o (List.mem_cons_of_mem _ ho)) live hnew
  | .unary info operator operand _, _, _, h, hnames, live, hnew => by
      have hdistinct := h.nodup_temps
      -- the lines of the operand come first, with or without a call to the host after them
      have hfirst {m n : Nat} (hop : Prepared m operand n) :
          trackAll temps live operand.evaluate = some (live ++ operand.held) :=
        hop.trackAll_evaluate htemps hnames live fun t ht => hnew t (List.mem_append_left _ ht)
      cases h with
      | unary _ hop _ =>
          rw [evaluate, evaluation, List.append_nil]
          exact hfirst hop
      | @hostUnary _ n _ _ _ _ hop _ =>
          rw [evaluate_hostUnary, C.Code.trackAll_append (hfirst hop)]
          refine trackAll_hostLines htemps ?_ ?_ ?_
          · exact not_mem_live hdistinct (held_subset operand) hnew _ (List.mem_singleton_self _)
          · intro t ht
            exact hnew t (List.mem_append_left _ (held_subset operand ht))
          · intro x hx hx'
            rw [C.Term.identsAll, List.append_nil] at hx
            exact (hop.mem_idents_term htemps hx' hnames).mp hx
  | .binary info left operator right _, _, _, h, hnames, live, hnew => by
      have hdistinct := h.nodup_temps
      obtain ⟨hnamesLeft, hnamesRight⟩ := List.forall_mem_append.mp hnames
      have hnewLeft := fun t ht => hnew t (List.mem_append_left _ ht)
      have hheld : left.held ++ right.held ⊆ left.temps ++ right.temps :=
        List.append_subset.mpr ⟨List.subset_append_of_subset_left _ (held_subset left),
          List.subset_append_of_subset_right _ (held_subset right)⟩
      -- the lines of both operands, one after the other
      have hfirst {l m m' n : Nat} (hl : Prepared l left m) (hr : Prepared m' right n) :
          trackAll temps live (left.evaluate ++ right.evaluate)
            = some (live ++ (left.held ++ right.held)) := by
        rw [C.Code.trackAll_append (hl.trackAll_evaluate htemps hnamesLeft live
          fun t ht => hnewLeft t (List.mem_append_left _ ht)), ← List.append_assoc]
        refine hr.trackAll_evaluate htemps hnamesRight _ ?_
        exact not_mem_live (List.nodup_append.mp hdistinct).1 (held_subset left) hnewLeft
      cases h with
      | binary _ hl hr _ =>
          rw [evaluate, evaluation, List.append_nil, List.map_append]
          exact hfirst hl hr
      | hostBinary _ hl hr _ _ =>
          rw [evaluate_hostBinary, C.Code.trackAll_append (hfirst hl hr)]
          refine trackAll_hostLines htemps ?_ ?_ ?_
          · exact not_mem_live hdistinct hheld hnew _ (List.mem_singleton_self _)
          · exact fun t ht => hnewLeft t (hheld ht)
          · intro x hx hx'
            rw [C.Term.identsAll, C.Term.identsAll, List.append_nil] at hx
            rcases List.mem_append.mp hx with hleft | hright
            · exact List.mem_append_left _ ((hl.mem_idents_term htemps hx' hnamesLeft).mp hleft)
            · exact List.mem_append_right _ ((hr.mem_idents_term htemps hx' hnamesRight).mp hright)
  | .call _ _ _ args, _, _, h, hnames, live, hnew => by
      cases h with
      | call _ hargs =>
          exact hargs.trackAll_evaluate htemps
            (fun o ho => hnames o (List.mem_cons_of_mem _ ho)) live hnew

theorem PreparedAll.trackAll_evaluate (htemps : AreTemps temps) : {args : List Expr} →
    {m n : Nat} → PreparedAll m args n → (∀ o ∈ occurrencesAll args, o.cName ∉ temps) →
    (live : List String) → (∀ t ∈ tempsAll args, t ∉ live) →
    trackAll temps live ((evaluationAll args).map Step.code) = some (live ++ heldAll args)
  | [], _, _, _, _, live, _ => congrArg some (List.append_nil live).symm
  | e :: rest, _, _, h, hnames, live, hnew => by
      have hdistinct := h.nodup_temps
      cases h with
      | cons he hrest =>
          obtain ⟨hen, hrn⟩ := List.forall_mem_append.mp hnames
          have hfirst := he.trackAll_evaluate htemps hen live (List.forall_mem_append.mp hnew).1
          rw [evaluationAll, List.map_append, ← evaluate, C.Code.trackAll_append hfirst, heldAll,
            ← List.append_assoc]
          refine hrest.trackAll_evaluate htemps hrn _ ?_
          exact not_mem_live hdistinct (held_subset e) hnew

end

/-- The lines after a value keep the rules, and leave no temporary with an object. -/
theorem trackAll_dispose (temps : List String) (e : Expr) :
    trackAll temps e.held e.dispose = some [] := by
  have hdrops := C.Code.trackAll_drops temps [] e.held [] fun t _ => List.not_mem_nil
  rw [List.nil_append, List.append_nil] at hdrops
  rw [dispose_eq]
  exact hdrops

end Expr

end ExtensionCompiler

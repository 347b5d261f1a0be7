import ExtensionCompiler.Proofs.Tokens

set_option autoImplicit false

/-! # Expressions of C, read from tokens

A reader for the expressions of C, with a function for each kind of expression in the grammar of the
language, from sequences down to names and numbers. The ten levels of binary operators are one
function over a table (`levels`). Names stand for values here, so a name in parentheses is an
expression and not the head of a cast. What takes the name of a type is left out: casts, `sizeof`,
compound literals and generic selections.

A number bounds the depth of the recursion; `parse` gives enough of it. The lemmas say what the
functions make of an expression when they know what they make of its parts. -/

namespace ExtensionCompiler.C

/-- An expression of C. -/
inductive Tree where
  | name (spelling : List Char)
  | number (spelling : List Char)
  | char (encoding value : List Char)
  | text (encoding value : List Char)
  | index (base position : Tree)
  | call (function : Tree) (args : List Tree)
  /-- A member of a structure, behind a point or an arrow. -/
  | member (base : Tree) (mark field : List Char)
  /-- An operator behind its operand. -/
  | suffixed (base : Tree) (mark : List Char)
  | unary (operator : List Char) (operand : Tree)
  | binary (left : Tree) (operator : List Char) (right : Tree)
  | conditional (condition yes no : Tree)
  | assign (target : Tree) (operator : List Char) (value : Tree)
  | comma (first second : Tree)

namespace Grammar

/-! ## Tables -/

def keywords : List String :=
  ["auto", "break", "case", "char", "const", "continue", "default", "do", "double", "else",
    "enum", "extern", "float", "for", "goto", "if", "inline", "int", "long", "register",
    "restrict", "return", "short", "signed", "sizeof", "static", "struct", "switch", "typedef",
    "union", "unsigned", "void", "volatile", "while", "_Alignas", "_Alignof", "_Atomic", "_Bool",
    "_Complex", "_Generic", "_Imaginary", "_Noreturn", "_Static_assert", "_Thread_local"]

/-- The operators before an operand. -/
def leading : List (List Char) :=
  [['+', '+'], ['-', '-'], ['&'], ['*'], ['+'], ['-'], ['~'], ['!']]

/-- What may follow an operand and belong to it. -/
def trailing : List (List Char) := [['['], ['('], ['.'], ['-', '>'], ['+', '+'], ['-', '-']]

/-- The binary operators, level by level, those that bind most weakly first. -/
def levels : List (List (List Char)) :=
  [[['|', '|']], [['&', '&']], [['|']], [['^']], [['&']], [['=', '='], ['!', '=']],
    [['<'], ['>'], ['<', '='], ['>', '=']], [['<', '<'], ['>', '>']], [['+'], ['-']],
    [['*'], ['/'], ['%']]]

def assignments : List (List Char) :=
  [['='], ['*', '='], ['/', '='], ['%', '='], ['+', '='], ['-', '='], ['<', '<', '='],
    ['>', '>', '='], ['&', '='], ['^', '='], ['|', '=']]

/-- One of some marks, at the front. -/
def mark? (marks : List (List Char)) : List Token → Option (List Char × List Token)
  | .mark m :: rest => if marks.contains m then some (m, rest) else none
  | _ => none

/-! ## The reader -/

mutual

/-- Expressions separated by commas. -/
def expression : Nat → List Token → Option (Tree × List Token)
  | 0, _ => none
  | n + 1, ts => (assignment n ts).bind fun r => commas n r.1 r.2

def commas : Nat → Tree → List Token → Option (Tree × List Token)
  | 0, _, _ => none
  | n + 1, t, ts =>
    match mark? [[',']] ts with
    | some (_, rest) => (assignment n rest).bind fun r => commas n (.comma t r.1) r.2
    | none => some (t, ts)

/-- An assignment to a unary expression, or a conditional expression. -/
def assignment : Nat → List Token → Option (Tree × List Token)
  | 0, _ => none
  | n + 1, ts =>
    match (unary n ts).bind fun r => (mark? assignments r.2).map (r.1, ·) with
    | some (target, operator, rest) =>
      (assignment n rest).map fun r => (.assign target operator r.1, r.2)
    | none => conditional n ts

def conditional : Nat → List Token → Option (Tree × List Token)
  | 0, _ => none
  | n + 1, ts =>
    (binary n levels ts).bind fun r =>
      match mark? [['?']] r.2 with
      | none => some r
      | some (_, rest) =>
        (expression n rest).bind fun yes =>
          (mark? [[':']] yes.2).bind fun colon =>
            (conditional n colon.2).map fun no => (.conditional r.1 yes.1 no.1, no.2)

/-- Operands between operators of the first level given, which are read at the levels above. -/
def binary : Nat → List (List (List Char)) → List Token → Option (Tree × List Token)
  | 0, _, _ => none
  | n + 1, [], ts => unary n ts
  | n + 1, operators :: higher, ts =>
    (binary n higher ts).bind fun r => operands n operators higher r.1 r.2

def operands : Nat → List (List Char) → List (List (List Char)) → Tree → List Token →
    Option (Tree × List Token)
  | 0, _, _, _, _ => none
  | n + 1, operators, higher, t, ts =>
    match mark? operators ts with
    | some (operator, rest) =>
      (binary n higher rest).bind fun r => operands n operators higher (.binary t operator r.1) r.2
    | none => some (t, ts)

def unary : Nat → List Token → Option (Tree × List Token)
  | 0, _ => none
  | n + 1, ts =>
    match mark? leading ts with
    | some (operator, rest) => (unary n rest).map fun r => (.unary operator r.1, r.2)
    | none => (primary n ts).bind fun r => suffixes n r.1 r.2

def suffixes : Nat → Tree → List Token → Option (Tree × List Token)
  | 0, _, _ => none
  | n + 1, t, ts =>
    match mark? trailing ts with
    | none => some (t, ts)
    | some (m, rest) =>
      if m = ['['] then
        (expression n rest).bind fun r =>
          (mark? [[']']] r.2).bind fun close => suffixes n (.index t r.1) close.2
      else if m = ['('] then
        (arguments n rest).bind fun r => suffixes n (.call t r.1) r.2
      else if m = ['.'] ∨ m = ['-', '>'] then
        match rest with
        | .word field :: rest => suffixes n (.member t m field) rest
        | _ => none
      else suffixes n (.suffixed t m) rest

/-- What stands between the parentheses of a call. -/
def arguments : Nat → List Token → Option (List Tree × List Token)
  | 0, _ => none
  | n + 1, ts =>
    match mark? [[')']] ts with
    | some (_, rest) => some ([], rest)
    | none => argumentList n ts

def argumentList : Nat → List Token → Option (List Tree × List Token)
  | 0, _ => none
  | n + 1, ts =>
    (assignment n ts).bind fun r =>
      match mark? [[',']] r.2 with
      | some (_, rest) => (argumentList n rest).map fun q => (r.1 :: q.1, q.2)
      | none => (mark? [[')']] r.2).map fun close => ([r.1], close.2)

def primary : Nat → List Token → Option (Tree × List Token)
  | 0, _ => none
  | n + 1, ts =>
    match ts with
    | [] => none
    | .word spelling :: rest =>
      if keywords.contains (String.ofList spelling) then none else some (.name spelling, rest)
    | .number spelling :: rest => some (.number spelling, rest)
    | .char encoding body :: rest =>
      (unescape .plain body).map fun value => (.char encoding value, rest)
    | .text encoding body :: rest =>
      (unescape .plain body).map fun value => (.text encoding value, rest)
    | .mark m :: rest =>
      if m = ['('] then
        (expression n rest).bind fun r => (mark? [[')']] r.2).map fun close => (r.1, close.2)
      else none

end

/-- The expression that the tokens are. -/
def parse (ts : List Token) : Option Tree :=
  match expression (20 * (ts.length + 1)) ts with
  | some (t, []) => some t
  | _ => none

/-! ## From a part to a whole

What is read does not depend on the bound, from some bound on. -/

/-- From the bound `cost` on, the function reads `t` from the tokens and leaves `rest`. -/
def Reads {α : Type} (read : Nat → List Token → Option (α × List Token)) (cost : Nat)
    (ts : List Token) (t : α) (rest : List Token) : Prop :=
  ∀ n, cost ≤ n → read n ts = some (t, rest)

section

variable {α : Type} {read : Nat → List Token → Option (α × List Token)} {cost : Nat}
  {ts rest : List Token}

theorem Reads.mono {t : α} (h : Reads read cost ts t rest) {more : Nat} (hle : cost ≤ more) :
    Reads read more ts t rest :=
  fun n hn => h n (Nat.le_trans hle hn)

/-- It is enough to look at bounds that are not zero. -/
theorem Reads.of_succ {t : α} (h : ∀ n, cost ≤ n → read (n + 1) ts = some (t, rest)) :
    Reads read (cost + 1) ts t rest := by
  intro n hn
  obtain ⟨n, rfl⟩ : ∃ m, n = m + 1 := ⟨n - 1, by omega⟩
  exact h n (by omega)

end

section

variable {cost : Nat} {ts rest rest' : List Token} {t u : Tree}

variable {marks : List (List Char)} {m operator : List Char} {ts' : List Token}

theorem mark?_of_mem (h : m ∈ marks)
    (rest : List Token) : mark? marks (.mark m :: rest) = some (m, rest) := by
  simp [mark?, h]

theorem mark?_of_not_mem (h : m ∉ marks)
    (rest : List Token) : mark? marks (.mark m :: rest) = none := by
  simp [mark?, h]

/-- What is read at some levels of binary operators is read at weaker ones too, if none of their
operators follows. -/
theorem Reads.binary_append {lower higher : List (List (List Char))}
    (h : Reads (binary · higher) (cost + 1) ts t rest)
    (hrest : ∀ operators ∈ lower, mark? operators rest = none) :
    Reads (binary · (lower ++ higher)) (cost + 1 + lower.length) ts t rest := by
  induction lower with
  | nil => exact h
  | cons operators lower ih =>
      have hlower := ih fun ops hops => hrest ops (List.mem_cons_of_mem _ hops)
      rw [List.length_cons, ← Nat.add_assoc]
      refine .of_succ fun n hn => ?_
      obtain ⟨n, rfl⟩ : ∃ m, n = m + 1 := ⟨n - 1, by omega⟩
      have hoperand : binary (n + 1) (lower ++ higher) ts = some (t, rest) := hlower _ hn
      simp only [List.cons_append, binary, hoperand, Option.bind_some, operands,
        hrest operators List.mem_cons_self]

/-- A unary expression with no operator behind it is an expression at all levels. -/
theorem Reads.binary (h : Reads unary cost ts t rest) {table : List (List (List Char))}
    (hrest : ∀ operators ∈ table, mark? operators rest = none) :
    Reads (binary · table) (cost + 1 + table.length) ts t rest := by
  have hunary : Reads (Grammar.binary · []) (cost + 1) ts t rest :=
    .of_succ fun n hn => by simpa only [Grammar.binary] using h n hn
  have htable := hunary.binary_append hrest
  rwa [List.append_nil] at htable

/-- One operation on unary operands, at the levels up to its own. -/
theorem Reads.operation {table lower higher : List (List (List Char))}
    {operators : List (List Char)} (htable : table = lower ++ operators :: higher)
    (hmem : operator ∈ operators) (hhigher : ∀ ops ∈ higher, operator ∉ ops)
    (hleft : Reads unary cost ts t (.mark operator :: ts')) (hright : Reads unary cost ts' u rest)
    (hrest : ∀ ops ∈ table, mark? ops rest = none) :
    Reads (Grammar.binary · table) (cost + 3 + table.length) ts (.binary t operator u) rest := by
  subst htable
  have hl := hleft.binary fun ops hops => mark?_of_not_mem (hhigher ops hops) ts'
  have hr := hright.binary fun ops hops =>
    hrest ops (List.mem_append_right _ (List.mem_cons_of_mem _ hops))
  have hown : Reads (Grammar.binary · (operators :: higher)) (cost + 1 + higher.length + 2 + 1) ts
      (.binary t operator u) rest := by
    refine .of_succ fun n hn => ?_
    obtain ⟨n, rfl⟩ : ∃ m, n = m + 2 := ⟨n - 2, by omega⟩
    have h₁ : Grammar.binary (n + 2) higher ts = some (t, .mark operator :: ts') := hl _ (by omega)
    have h₂ : Grammar.binary (n + 1) higher ts' = some (u, rest) := hr _ (by omega)
    simp only [Grammar.binary, h₁, h₂, Option.bind_some, operands, mark?_of_mem hmem,
      hrest operators (List.mem_append_right _ List.mem_cons_self)]
  refine (hown.binary_append fun ops hops => hrest ops (List.mem_append_left _ hops)).mono ?_
  simp only [List.length_append, List.length_cons]
  omega

/-- The binary operators have one level each. -/
theorem levels_split : ∀ operator ∈ Token.operators, ∃ lower operators higher,
    levels = lower ++ operators :: higher ∧ operator ∈ operators
      ∧ ∀ ops ∈ higher, operator ∉ ops := by
  intro operator hmem
  have hlevel : ∃ k < levels.length, operator ∈ levels.getD k []
      ∧ ∀ ops ∈ levels.drop (k + 1), operator ∉ ops := by
    revert operator
    decide
  obtain ⟨k, hk, hown, hhigher⟩ := hlevel
  refine ⟨levels.take k, levels.getD k [], levels.drop (k + 1), ?_, hown, hhigher⟩
  have hget : levels.getD k [] = levels[k] := (List.getElem_eq_getD []).symm
  rw [hget, List.getElem_cons_drop hk, List.take_append_drop]

theorem Reads.conditional (h : Reads (Grammar.binary · levels) cost ts t rest)
    (hrest : mark? [['?']] rest = none) : Reads conditional (cost + 1) ts t rest :=
  .of_succ fun n hn => by
    have hread : Grammar.binary n levels ts = some (t, rest) := h n hn
    simp only [Grammar.conditional, hread, Option.bind_some, hrest]

/-- What starts with a unary expression that is not assigned to is no assignment. -/
theorem Reads.assignment (h : Reads Grammar.conditional cost ts t rest)
    (hunary : Reads unary cost ts u rest') (hrest : mark? assignments rest' = none) :
    Reads assignment (cost + 1) ts t rest :=
  .of_succ fun n hn => by
    simp only [Grammar.assignment, hunary n hn, Option.bind_some, hrest, Option.map_none, h n hn]

theorem Reads.expression (h : Reads Grammar.assignment (cost + 1) ts t rest)
    (hrest : mark? [[',']] rest = none) : Reads expression (cost + 2) ts t rest :=
  .of_succ fun n hn => by
    obtain ⟨n, rfl⟩ : ∃ m, n = m + 1 := ⟨n - 1, by omega⟩
    simp only [Grammar.expression, h _ hn, Option.bind_some, commas, hrest]

/-! ## Operands

What follows an operand here is the end, or a mark that no operand goes on with. -/

/-- The marks behind an operand that are no part of an operation on it. -/
def closers : List (List Char) := [[')'], [']'], [','], [':'], ['?']]

def Closed (rest : List Token) : Prop :=
  rest = [] ∨ ∃ m ∈ closers, ∃ tail, rest = .mark m :: tail

theorem Closed.mark (h : m ∈ closers) (tail : List Token) : Closed (.mark m :: tail) :=
  .inr ⟨m, h, tail, rfl⟩

theorem Closed.mark?_eq_none (h : Closed rest)
    (hmarks : ∀ m ∈ closers, m ∉ marks) : mark? marks rest = none := by
  rcases h with rfl | ⟨m, hm, tail, rfl⟩
  · rfl
  · exact mark?_of_not_mem (hmarks m hm) tail

theorem Closed.levels (h : Closed rest) : ∀ ops ∈ levels, mark? ops rest = none :=
  fun ops hops => h.mark?_eq_none
    ((by decide : ∀ ops ∈ Grammar.levels, ∀ m ∈ closers, m ∉ ops) ops hops)

/-- An operand alone is an expression of every kind. -/
theorem Reads.conditional_of_unary (h : Reads unary cost ts t rest) (hclosed : Closed rest)
    (hrest : mark? [['?']] rest = none) : Reads Grammar.conditional (cost + 12) ts t rest :=
  (h.binary hclosed.levels).conditional hrest

theorem Reads.assignment_of_unary (h : Reads unary cost ts t rest) (hclosed : Closed rest)
    (hrest : mark? [['?']] rest = none) : Reads Grammar.assignment (cost + 13) ts t rest :=
  (h.conditional_of_unary hclosed hrest).assignment (h.mono (by omega))
    (hclosed.mark?_eq_none (by decide))

theorem Reads.expression_of_unary (h : Reads unary cost ts t rest) (hclosed : Closed rest)
    (hquestion : mark? [['?']] rest = none) (hcomma : mark? [[',']] rest = none) :
    Reads Grammar.expression (cost + 14) ts t rest :=
  (h.assignment_of_unary hclosed hquestion).expression hcomma

/-- A token that is an operand by itself. -/
theorem Reads.unary_of_primary {token : Token}
    (h : Reads primary 1 (token :: rest) t rest) (hlead : mark? leading (token :: rest) = none)
    (hrest : mark? trailing rest = none) : Reads unary 2 (token :: rest) t rest :=
  .of_succ fun n hn => by
    obtain ⟨n, rfl⟩ : ∃ m, n = m + 1 := ⟨n - 1, by omega⟩
    simp only [Grammar.unary, hlead, h _ hn, Option.bind_some, suffixes, hrest]

theorem reads_name {spelling : List Char} (h : keywords.contains (String.ofList spelling) = false)
    (rest : List Token) : Reads primary 1 (.word spelling :: rest) (.name spelling) rest :=
  .of_succ fun n _ => by simp only [primary, h, Bool.false_eq_true, if_false]

theorem reads_number (spelling : List Char) (rest : List Token) :
    Reads primary 1 (.number spelling :: rest) (.number spelling) rest :=
  .of_succ fun n _ => by simp only [primary]

theorem reads_char {body value : List Char} (h : unescape .plain body = some value)
    (rest : List Token) : Reads primary 1 (.char [] body :: rest) (.char [] value) rest :=
  .of_succ fun n _ => by simp only [primary, h, Option.map_some]

theorem reads_text {body value : List Char} (h : unescape .plain body = some value)
    (rest : List Token) : Reads primary 1 (.text [] body :: rest) (.text [] value) rest :=
  .of_succ fun n _ => by simp only [primary, h, Option.map_some]

theorem Reads.unary_operator (hop : operator ∈ leading) (h : Reads unary cost ts t rest) :
    Reads unary (cost + 1) (.mark operator :: ts) (.unary operator t) rest :=
  .of_succ fun n hn => by simp only [Grammar.unary, mark?_of_mem hop, h n hn, Option.map_some]

theorem Reads.parentheses (h : Reads Grammar.expression cost ts t (.mark [')'] :: rest))
    (hrest : mark? trailing rest = none) : Reads unary (cost + 2) (.mark ['('] :: ts) t rest :=
  .of_succ fun n hn => by
    obtain ⟨n, rfl⟩ : ∃ m, n = m + 1 := ⟨n - 1, by omega⟩
    have hlead : mark? leading (.mark ['('] :: ts) = none := mark?_of_not_mem (by decide) ts
    have hclose : mark? [[')']] (.mark [')'] :: rest) = some ([')'], rest) := rfl
    simp only [Grammar.unary, hlead, primary, h n (by omega), Option.bind_some, if_true, hclose,
      Option.map_some, suffixes, hrest]

/-- An operation in parentheses. -/
theorem Reads.operation_in_parentheses (hop : operator ∈ Token.operators)
    (hleft : Reads unary cost ts t (.mark operator :: ts'))
    (hright : Reads unary cost ts' u (.mark [')'] :: rest)) (hrest : mark? trailing rest = none) :
    Reads unary (cost + 18) (.mark ['('] :: ts) (.binary t operator u) rest := by
  obtain ⟨lower, operators, higher, hlevels, hmem, hhigher⟩ := levels_split operator hop
  have hclosed : Closed (.mark [')'] :: rest) := .mark (by decide) rest
  have hbinary := Reads.operation hlevels hmem hhigher hleft hright hclosed.levels
  have hassign : mark? assignments (.mark operator :: ts') = none :=
    mark?_of_not_mem ((by decide : ∀ op ∈ Token.operators, op ∉ assignments) operator hop) ts'
  have hwhole := (hbinary.conditional rfl).assignment (hleft.mono (by omega)) hassign
  exact (hwhole.expression rfl).parentheses hrest

/-- A choice in parentheses. -/
theorem Reads.choice_in_parentheses {ts'' : List Token} {condition yes no : Tree}
    (hcondition : Reads unary cost ts condition (.mark ['?'] :: ts'))
    (hyes : Reads unary cost ts' yes (.mark [':'] :: ts''))
    (hno : Reads unary cost ts'' no (.mark [')'] :: rest)) (hrest : mark? trailing rest = none) :
    Reads unary (cost + 19) (.mark ['('] :: ts) (.conditional condition yes no) rest := by
  have hquestion : Closed (.mark ['?'] :: ts') := .mark (by decide) ts'
  have hbinary := hcondition.binary hquestion.levels
  have hthen := hyes.expression_of_unary (.mark (by decide) ts'') rfl rfl
  have helse := hno.conditional_of_unary (.mark (by decide) rest) rfl
  have hchoice : Reads Grammar.conditional (cost + 14 + 1) ts (.conditional condition yes no)
      (.mark [')'] :: rest) := by
    refine .of_succ fun n hn => ?_
    have h₁ : Grammar.binary n levels ts = some (condition, .mark ['?'] :: ts') :=
      hbinary n (Nat.le_trans (Nat.add_le_add_left (by decide : 1 + levels.length ≤ 14) cost) hn)
    have h₂ : mark? [['?']] (.mark ['?'] :: ts') = some (['?'], ts') := rfl
    have h₃ : mark? [[':']] (.mark [':'] :: ts'') = some ([':'], ts'') := rfl
    simp only [Grammar.conditional, h₁, Option.bind_some, h₂, hthen n hn, h₃,
      helse n (by omega), Option.map_some]
  have hwhole := hchoice.assignment (hcondition.mono (by omega))
    (hquestion.mark?_eq_none (by decide))
  exact (hwhole.expression rfl).parentheses hrest

/-- An element of what a name stands for. -/
theorem Reads.element {base : List Char} (hbase : keywords.contains (String.ofList base) = false)
    (h : Reads unary cost ts t (.mark [']'] :: rest)) (hrest : mark? trailing rest = none) :
    Reads unary (cost + 16) (.word base :: .mark ['['] :: ts) (.index (.name base) t) rest :=
  .of_succ fun n hn => by
    obtain ⟨n, rfl⟩ : ∃ m, n = m + 1 := ⟨n - 1, by omega⟩
    have hposition := h.expression_of_unary (.mark (by decide) rest) rfl rfl
    have hopen : mark? trailing (.mark ['['] :: ts) = some (['['], ts) := rfl
    have hclose : mark? [[']']] (.mark [']'] :: rest) = some ([']'], rest) := rfl
    have hname := reads_name hbase (.mark ['['] :: ts) (n + 1) (by omega)
    obtain ⟨n, rfl⟩ : ∃ m, n = m + 1 := ⟨n - 1, by omega⟩
    simp only [Grammar.unary, mark?, hname, Option.bind_some]
    simp only [suffixes, hopen, if_true, hposition (n + 1) (by omega), Option.bind_some, hclose,
      hrest]

/-! ## Calls -/

theorem Reads.argument_last (h : Reads unary cost ts t (.mark [')'] :: rest)) :
    Reads argumentList (cost + 14) ts [t] rest :=
  .of_succ fun n hn => by
    have harg := h.assignment_of_unary (.mark (by decide) rest) rfl n hn
    have hcomma : mark? [[',']] (.mark [')'] :: rest) = none := rfl
    have hclose : mark? [[')']] (.mark [')'] :: rest) = some ([')'], rest) := rfl
    simp only [argumentList, harg, Option.bind_some, hcomma, hclose, Option.map_some]

theorem Reads.argument_cons {args : List Tree} (h : Reads unary cost ts t (.mark [','] :: ts'))
    (hargs : Reads argumentList (cost + 13) ts' args rest) :
    Reads argumentList (cost + 14) ts (t :: args) rest :=
  .of_succ fun n hn => by
    have harg := h.assignment_of_unary (.mark (by decide) ts') rfl n hn
    have hcomma : mark? [[',']] (.mark [','] :: ts') = some ([','], ts') := rfl
    simp only [argumentList, harg, Option.bind_some, hcomma, hargs n hn, Option.map_some]

/-- No operand begins with a closing parenthesis. -/
theorem Reads.mark?_close (h : Reads unary cost ts t rest) : mark? [[')']] ts = none := by
  have hclose (tail : List Token) (n : Nat) : unary (n + 2) (.mark [')'] :: tail) = none := by
    have hlead : mark? leading (.mark [')'] :: tail) = none := mark?_of_not_mem (by decide) tail
    simp only [unary, hlead, primary, if_neg (by decide : ¬ [')'] = ['(']), Option.bind_none]
  cases ts with
  | nil => rfl
  | cons token tail =>
      cases token with
      | mark m =>
          refine mark?_of_not_mem ?_ tail
          rw [List.mem_singleton]
          rintro rfl
          have hread := h (cost + 2) (Nat.le_add_right cost 2)
          rw [hclose] at hread
          cases hread
      | _ => rfl

/-- A call of what a name stands for. -/
theorem Reads.call {function : List Char}
    (hname : keywords.contains (String.ofList function) = false) {args : List Tree}
    (h : Reads arguments (cost + 1) ts args rest) (hrest : mark? trailing rest = none) :
    Reads unary (cost + 3) (.word function :: .mark ['('] :: ts) (.call (.name function) args)
      rest :=
  .of_succ fun n hn => by
    obtain ⟨n, rfl⟩ : ∃ m, n = m + 2 := ⟨n - 2, by omega⟩
    have hopen : mark? trailing (.mark ['('] :: ts) = some (['('], ts) := rfl
    have hfunction := reads_name hname (.mark ['('] :: ts) (n + 2) (by omega)
    simp only [Grammar.unary, mark?, hfunction, Option.bind_some]
    rw [suffixes, hopen]
    simp only [if_neg (by decide : ¬ ['('] = ['[']), if_true, h (n + 1) (by omega),
      Option.bind_some, suffixes, hrest]

end

end Grammar

end ExtensionCompiler.C

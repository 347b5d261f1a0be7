import ExtensionCompiler.Proofs.Grammar

set_option autoImplicit false

/-! # Terms, read back from their text

The text of a term is split into tokens and read as an expression of C (`readExpression`). Two
things may come back as something else: a minus sign before a negative number, since the two signs
make one token, and a text in which a zero stands before an octal digit. `Reading` keeps what is
meant there and what is read apart. `Regular.readExpression_render` says that nothing else is
lost. -/

namespace ExtensionCompiler.C

open Token (Splits Apart)
open Grammar (Reads mark? trailing)

/-- A name that C can have: a word that is no keyword. -/
def isIdentifier (ext : Char → Bool) (name : String) : Bool :=
  Token.isWord ext name.toList && !Grammar.keywords.contains name

/-- The expression of C that a text is. -/
def readExpression (ext : Char → Bool) (text : String) : Option Tree :=
  (Token.split ext text.toList).bind Grammar.parse

/-! ## The trees of terms -/

namespace Tree

/-- A number without a sign. -/
def ofNat (n : Nat) : Tree := .number (Nat.toDigits 10 n)

/-- A negative number is a number with a minus sign before it. -/
def ofInt : Int → Tree
  | .ofNat n => ofNat n
  | .negSucc n => .unary ['-'] (ofNat (n + 1))

end Tree

/-- What is made of the two things whose reading is in doubt. -/
structure Reading where
  /-- A minus sign before a negative number, which is given without its own sign. -/
  minus : Nat → Tree
  /-- The characters of a text. -/
  text : List Char → List Char

namespace Reading

def meant : Reading where
  minus n := .unary ['-'] (.unary ['-'] (.ofNat n))
  text cs := cs

/-- Two minus signs are one operator, and a text has the characters that its literal stands for. -/
def read : Reading where
  minus n := .unary ['-', '-'] (.ofNat n)
  text cs := (unescape .plain (escape '"' cs)).getD []

end Reading

namespace Term

/-- The number without its sign, if the operation is a minus sign before a negative number. -/
def doubled? (operator : String) : Term → Option Nat
  | int (.negSucc n) => if operator = "-" then some (n + 1) else none
  | _ => none

mutual

/-- The tree that a term stands for. -/
def tree (r : Reading) : Term → Tree
  | ident name => .name name.toList
  | int value => .ofInt value
  | float value => .number value.render.toList
  | char value => .char [] [value]
  | text value => .text [] (r.text value.toList)
  | verbatim value => .text [] value.toList
  | index base position => .index (.name base.toList) (position.tree r)
  | unary operator operand =>
    match doubled? operator operand with
    | some n => r.minus n
    | none => .unary operator.toList (operand.tree r)
  | binary left operator right => .binary (left.tree r) operator.toList (right.tree r)
  | plain left operator right => .binary (left.tree r) operator.toList (right.tree r)
  | refuted condition => .unary ['!'] (condition.tree r)
  | call function args => .call (.name function.toList) (trees r args)
  | choice condition yes no => .conditional (condition.tree r) (yes.tree r) (no.tree r)

def trees (r : Reading) : List Term → List Tree
  | [] => []
  | term :: rest => term.tree r :: trees r rest

end

mutual

/-- No minus sign stands before a negative number, and no zero before an octal digit of a text. -/
def isFaithful : Term → Bool
  | text value => !zeroRuns value.toList
  | index _ position => position.isFaithful
  | unary operator operand => (doubled? operator operand).isNone && operand.isFaithful
  | binary left _ right => left.isFaithful && right.isFaithful
  | plain left _ right => left.isFaithful && right.isFaithful
  | refuted condition => condition.isFaithful
  | call _ args => allFaithful args
  | choice condition yes no => condition.isFaithful && yes.isFaithful && no.isFaithful
  | ident _ | int _ | float _ | char _ | verbatim _ => true

def allFaithful : List Term → Bool
  | [] => true
  | term :: rest => term.isFaithful && allFaithful rest

end

theorem doubled?_eq_some {operator : String} {operand : Term} {k : Nat}
    (h : doubled? operator operand = some k) :
    ∃ n, operator = "-" ∧ operand = int (.negSucc n) ∧ k = n + 1 := by
  unfold doubled? at h
  split at h
  · next n =>
      split at h
      · next hop =>
          cases h
          exact ⟨n, hop, rfl, rfl⟩
      · cases h
  · cases h

/-- As it is meant, an operator is applied to its operand, whatever that is. -/
theorem tree_meant_unary (operator : String) (operand : Term) :
    (unary operator operand).tree .meant = .unary operator.toList (operand.tree .meant) := by
  rw [tree]
  cases h : doubled? operator operand with
  | none => rfl
  | some k =>
      obtain ⟨n, rfl, rfl, rfl⟩ := doubled?_eq_some h
      rw [tree]
      rfl

theorem getD_unescape_eq_iff (cs : List Char) :
    (unescape .plain (escape '"' cs)).getD [] = cs ↔ zeroRuns cs = false := by
  have hquote : '"' = '"' ∨ '"' = '\'' := .inl rfl
  obtain ⟨r, hr, -⟩ := (unescape_escape_length hquote cs).1
  rw [← unescape_escape_iff hquote, hr, Option.getD_some, Option.some.injEq]

mutual

/-- **What is read is what was meant, just for the faithful terms.** -/
theorem tree_read_eq_iff : (t : Term) → (t.tree .read = t.tree .meant ↔ t.isFaithful = true)
  | ident _ | int _ | float _ | char _ | verbatim _ => by simp [tree, isFaithful]
  | text value => by
      simp only [tree, isFaithful, Tree.text.injEq, true_and, Bool.not_eq_true']
      exact getD_unescape_eq_iff value.toList
  | index base position => by
      simp only [tree, isFaithful, Tree.index.injEq, true_and]
      exact tree_read_eq_iff position
  | unary operator operand => by
      rw [tree_meant_unary, tree, isFaithful]
      cases h : doubled? operator operand with
      | none => simpa using tree_read_eq_iff operand
      | some k =>
          obtain ⟨n, rfl, rfl, rfl⟩ := doubled?_eq_some h
          simp [Reading.read]
  | binary left _ right | plain left _ right => by
      simp only [tree, isFaithful, Tree.binary.injEq, true_and, Bool.and_eq_true]
      rw [tree_read_eq_iff left, tree_read_eq_iff right]
  | refuted condition => by
      simp only [tree, isFaithful, Tree.unary.injEq, true_and]
      exact tree_read_eq_iff condition
  | call function args => by
      simp only [tree, isFaithful, Tree.call.injEq, true_and]
      exact trees_read_eq_iff args
  | choice condition yes no => by
      simp only [tree, isFaithful, Tree.conditional.injEq, Bool.and_eq_true]
      rw [tree_read_eq_iff condition, tree_read_eq_iff yes, tree_read_eq_iff no, and_assoc]

theorem trees_read_eq_iff : (terms : List Term) →
    (trees .read terms = trees .meant terms ↔ allFaithful terms = true)
  | [] => by simp [trees, allFaithful]
  | term :: rest => by
      simp only [trees, allFaithful, List.cons.injEq, Bool.and_eq_true]
      rw [tree_read_eq_iff term, trees_read_eq_iff rest]

end

/-! ## Terms and their tokens -/

/-- The operators before an operand. -/
def signs : List Char := ['-', '~', '!', '&', '*']

/-- The terms that values are made of. -/
inductive Regular (ext : Char → Bool) : Term → Prop
  | ident {name : String} : isIdentifier ext name = true → Regular ext (ident name)
  | int {value : Int} : Regular ext (int value)
  | char {value : Char} : Regular ext (char value)
  | text {value : String} : Regular ext (text value)
  | index {base : String} {position : Term} : isIdentifier ext base = true →
      Regular ext position → Regular ext (index base position)
  | unary {sign : Char} {operand : Term} : sign ∈ signs → Regular ext operand →
      Regular ext (unary (String.singleton sign) operand)
  | binary {left right : Term} {operator : String} : operator.toList ∈ Token.operators →
      Regular ext left → Regular ext right → Regular ext (binary left operator right)
  | call {function : String} {args : List Term} : isIdentifier ext function = true →
      (∀ arg ∈ args, Regular ext arg) → Regular ext (call function args)
  | choice {condition yes no : Term} : Regular ext condition → Regular ext yes → Regular ext no →
      Regular ext (choice condition yes no)

/-- The text of the term falls into the tokens, and they are read as the tree: as an operand,
whatever stands behind it. -/
structure Spells (ext : Char → Bool) (text : String) (tokens : List Token) (tree : Tree) :
    Prop where
  splits {rest : List Char} {ts : List Token} : Splits ext rest ts → Apart ext rest →
    Splits ext (text.toList ++ rest) (tokens ++ ts)
  reads (rest : List Token) : mark? trailing rest = none →
    Reads Grammar.unary (20 * tokens.length) (tokens ++ rest) tree rest

section

variable {ext : Char → Bool}

variable {name : String} {rest : List Char} {ts tokens : List Token} {d : Char} {tree : Tree}
  {args : List Term} {t : Term}

theorem isWord_of_isIdentifier (h : isIdentifier ext name = true) :
    Token.isWord ext name.toList = true := by
  rw [isIdentifier, Bool.and_eq_true] at h
  exact h.1

theorem not_keyword_of_isIdentifier (h : isIdentifier ext name = true) :
    Grammar.keywords.contains (String.ofList name.toList) = false := by
  rw [isIdentifier, Bool.and_eq_true, Bool.not_eq_true'] at h
  rw [String.ofList_toList]
  exact h.2

theorem splits_identifier (h : isIdentifier ext name = true) (hrest : Splits ext rest ts)
    (hapart : Apart ext rest) : Splits ext (name.toList ++ rest) (.word name.toList :: ts) := by
  have hword := isWord_of_isIdentifier h
  refine hrest.token ?_ (Token.scan_word hword hapart)
  intro hnil
  rw [hnil] at hword
  cases hword

theorem spells_ident (h : isIdentifier ext name = true) :
    Spells ext name [.word name.toList] (.name name.toList) where
  splits := splits_identifier h
  reads _ hrest := ((Grammar.reads_name (not_keyword_of_isIdentifier h) _).unary_of_primary rfl
    hrest).mono (by simp)

/-! ### Numbers -/

theorem toList_repr (n : Nat) : (Nat.repr n).toList = Nat.toDigits 10 n := by
  rw [Nat.repr_eq_ofList_toDigits, String.toList_ofList]

theorem all_isDigit (n : Nat) : (Nat.toDigits 10 n).all Char.isDigit = true := by
  rw [List.all_eq_true]
  exact fun c hc => Nat.isDigit_of_mem_toDigits (by decide) (by decide) hc

theorem splits_number (n : Nat) (hrest : Splits ext rest ts) (hapart : Apart ext rest) :
    Splits ext (Nat.toDigits 10 n ++ rest) (.number (Nat.toDigits 10 n) :: ts) :=
  hrest.token Nat.toDigits_ne_nil (Token.scan_number Nat.toDigits_ne_nil (all_isDigit n) hapart)

theorem reads_ofNat (n : Nat) (rest : List Token) (hrest : mark? trailing rest = none) :
    Reads Grammar.unary 2 (.number (Nat.toDigits 10 n) :: rest) (.ofNat n) rest :=
  (Grammar.reads_number _ rest).unary_of_primary rfl hrest

/-- A character cannot go on a mark if it is of a kind that no second character of a mark has. -/
theorem fuses_eq_false (kind : Char → Bool)
    (hmarks : (Token.longMarks.filterMap (·[1]?)).all (!kind ·) = true) (c : Char)
    (hd : kind d = true) : Token.fuses c d = false := by
  rw [Token.fuses, List.any_eq_false]
  intro m hm heq
  have htake : m.take 2 = [c, d] := by simpa using heq
  have hsecond : m[1]? = some d := by
    calc m[1]? = (m.take 2)[1]? := by rw [List.getElem?_take_of_lt (by decide)]
      _ = some d := by rw [htake]; rfl
  have hkind := List.all_eq_true.mp hmarks d (List.mem_filterMap.mpr ⟨m, hm, hsecond⟩)
  rw [hd] at hkind
  cases hkind

theorem fuses_of_isDigit (c : Char) (hd : d.isDigit = true) : Token.fuses c d = false :=
  fuses_eq_false Char.isDigit (by decide) c hd

theorem fuses_of_isWordStart (c : Char) (hd : Token.isWordStart ext d = true) :
    Token.fuses c d = false := by
  refine fuses_eq_false (fun x => x.isAlpha || x == '_' || decide (128 ≤ x.toNat)) (by decide) c ?_
  simp only [Token.isWordStart, Bool.or_eq_true, Bool.and_eq_true] at hd ⊢
  exact hd.imp_right And.left

theorem spells_ofNat (n : Nat) :
    Spells ext (int (.ofNat n)).render [.number (Nat.toDigits 10 n)] (.ofNat n) where
  splits hrest hapart := by
    rw [render, Int.repr, toList_repr]
    exact splits_number n hrest hapart
  reads _ hrest := (reads_ofNat n _ hrest).mono (by simp)

/-- A minus sign before a number, with what stands behind it. -/
theorem splits_minus (n : Nat) (hrest : Splits ext rest ts) (hapart : Apart ext rest) :
    Splits ext ('-' :: (Nat.toDigits 10 n ++ rest))
      (.mark ['-'] :: .number (Nat.toDigits 10 n) :: ts) := by
  have hnumber := splits_number n hrest hapart
  cases hdigits : Nat.toDigits 10 n with
  | nil => exact absurd hdigits Nat.toDigits_ne_nil
  | cons d ds =>
      have hall := all_isDigit n
      rw [hdigits] at hall hnumber
      have hd : d.isDigit = true := by
        simp only [List.all_cons, Bool.and_eq_true] at hall
        exact hall.1
      exact hnumber.mark
        (Token.scan_operator (by decide) (fuses_of_isDigit '-' hd) (ds ++ rest))

theorem toList_render_negSucc (n : Nat) :
    (int (.negSucc n)).render.toList = '-' :: Nat.toDigits 10 (n + 1) := by
  rw [render, Int.repr, String.toList_append, toList_repr]
  rfl

theorem spells_negSucc (n : Nat) :
    Spells ext (int (.negSucc n)).render [.mark ['-'], .number (Nat.toDigits 10 (n + 1))]
      (.ofInt (.negSucc n)) where
  splits hrest hapart := by
    rw [toList_render_negSucc]
    exact splits_minus (n + 1) hrest hapart
  reads _ hrest := ((reads_ofNat (n + 1) _ hrest).unary_operator (by decide)).mono (by simp)

/-! ### Literals -/

theorem spells_char (c : Char) :
    Spells ext (char c).render [.char [] (escapeChar '\'' c)] (.char [] [c]) where
  splits {rest ts} hrest _ := by
    have htext : (char c).render.toList ++ rest
        = ('\'' :: (escapeChar '\'' c ++ ['\''])) ++ rest := by
      rw [render, charLiteral, String.toList_ofList]
      rfl
    rw [htext]
    refine hrest.token (List.cons_ne_nil _ _) ?_
    simpa using Token.scan_char c rest
  reads _ hrest := by
    have hread : unescape .plain (escapeChar '\'' c) = some [c] := by
      have h := (unescape_escape_iff (.inr rfl) [c]).mpr (by simp [zeroRuns])
      rwa [escape, List.flatMap_singleton] at h
    exact ((Grammar.reads_char hread _).unary_of_primary rfl hrest).mono (by simp)

theorem spells_text (value : String) :
    Spells ext (text value).render [.text [] (escape '"' value.toList)]
      (.text [] (Reading.read.text value.toList)) where
  splits {rest ts} hrest _ := by
    have htext : (text value).render.toList ++ rest
        = ('"' :: (escape '"' value.toList ++ ['"'])) ++ rest := by
      rw [render, textLiteral, String.toList_ofList]
      rfl
    rw [htext]
    refine hrest.token (List.cons_ne_nil _ _) ?_
    simpa using Token.scan_text value.toList rest
  reads _ hrest := by
    have hquote : '"' = '"' ∨ '"' = '\'' := .inl rfl
    obtain ⟨r, hr, -⟩ := (unescape_escape_length hquote value.toList).1
    have hread : Reading.read.text value.toList = r := by
      simp only [Reading.read, hr, Option.getD_some]
    rw [hread]
    exact ((Grammar.reads_text hr _).unary_of_primary rfl hrest).mono (by simp)

/-! ### Operations -/

/-- What stands between parentheses ends before the second one. -/
theorem splits_parentheses (inner : List Char) (tokens : List Token)
    (h : Splits ext (')' :: rest) (.mark [')'] :: ts) → Apart ext (')' :: rest) →
      Splits ext (inner ++ ')' :: rest) (tokens ++ .mark [')'] :: ts))
    (hrest : Splits ext rest ts) :
    Splits ext ('(' :: (inner ++ ')' :: rest)) (.mark ['('] :: (tokens ++ .mark [')'] :: ts)) :=
  (h (hrest.bracket (by decide)) (Token.apart_of_mem (by decide) rest)).bracket (by decide)

theorem spells_unary {sign : Char} {operand : Term}
    {cs : List Char} (hsign : sign ∈ signs) (h : Spells ext operand.render tokens tree)
    (hstart : operand.render.toList = d :: cs) (hfuses : Token.fuses sign d = false) :
    Spells ext (unary (String.singleton sign) operand).render
      (.mark ['('] :: .mark [sign] :: (tokens ++ [.mark [')']])) (.unary [sign] tree) where
  splits {rest ts} hrest _ := by
    have htext : (unary (String.singleton sign) operand).render.toList ++ rest
        = '(' :: (sign :: operand.render.toList ++ ')' :: rest) := by
      simp [render, String.toList_append]
    have hinner := splits_parentheses (sign :: operand.render.toList) (.mark [sign] :: tokens)
      (fun hclose hapart => ?_) hrest
    · rw [htext]
      simpa using hinner
    · have hoperand := h.splits hclose hapart
      rw [hstart] at hoperand ⊢
      exact hoperand.mark (Token.scan_operator hsign hfuses (cs ++ ')' :: rest))
  reads rest hrest := by
    have hsigns : signs.all (Grammar.leading.contains [·]) = true := by decide
    have hlead := List.contains_iff_mem.mp (List.all_eq_true.mp hsigns sign hsign)
    have hoperand := (h.reads (.mark [')'] :: rest) rfl).unary_operator hlead
    have hwhole := (hoperand.expression_of_unary (.mark (by decide) rest) rfl rfl).parentheses hrest
    simp only [List.cons_append, List.append_assoc, List.nil_append]
    refine hwhole.mono ?_
    simp only [List.length_cons, List.length_append, List.length_nil]
    omega

/-- The two minus signs are one token. -/
theorem spells_doubled (n : Nat) :
    Spells ext (unary "-" (int (.negSucc n))).render
      [.mark ['('], .mark ['-', '-'], .number (Nat.toDigits 10 (n + 1)), .mark [')']]
      (.unary ['-', '-'] (.ofNat (n + 1))) where
  splits {rest ts} hrest _ := by
    have htext : (unary "-" (int (.negSucc n))).render.toList ++ rest
        = '(' :: (['-', '-'] ++ Nat.toDigits 10 (n + 1) ++ ')' :: rest) := by
      rw [render, String.toList_append, String.toList_append, String.toList_append,
        toList_render_negSucc]
      simp
    rw [htext]
    refine splits_parentheses (['-', '-'] ++ Nat.toDigits 10 (n + 1))
      [.mark ['-', '-'], .number (Nat.toDigits 10 (n + 1))] (fun hclose hapart => ?_) hrest
    rw [List.append_assoc]
    exact (splits_number (n + 1) hclose hapart).token (List.cons_ne_nil _ _) rfl
  reads rest hrest := by
    have hnumber := reads_ofNat (n + 1) (.mark [')'] :: rest) rfl
    have hoperand := hnumber.unary_operator (by decide : ['-', '-'] ∈ Grammar.leading)
    have hwhole := (hoperand.expression_of_unary (.mark (by decide) rest) rfl rfl).parentheses hrest
    exact hwhole.mono (by simp)

/-- An operator between blanks. -/
theorem splits_operator {operator : List Char} (hop : operator ∈ Token.operators)
    (hrest : Splits ext rest ts) :
    Splits ext (' ' :: (operator ++ ' ' :: rest)) (.mark operator :: ts) := by
  refine (hrest.blank.token ?_ (Token.scan_spaced hop rest)).blank
  rintro rfl
  exact absurd hop (by decide)

theorem spells_binary {left right : Term} {operator : String} {ls rs : List Token} {l r : Tree}
    (hop : operator.toList ∈ Token.operators) (hl : Spells ext left.render ls l)
    (hr : Spells ext right.render rs r) :
    Spells ext (binary left operator right).render
      (.mark ['('] :: (ls ++ .mark operator.toList :: (rs ++ [.mark [')']])))
      (.binary l operator.toList r) where
  splits {rest ts} hrest _ := by
    have htext : (binary left operator right).render.toList ++ rest
        = '(' :: ((left.render.toList ++ ' ' :: (operator.toList ++ ' ' :: right.render.toList))
          ++ ')' :: rest) := by
      simp [render, String.toList_append]
    have hinner := splits_parentheses
      (left.render.toList ++ ' ' :: (operator.toList ++ ' ' :: right.render.toList))
      (ls ++ .mark operator.toList :: rs) (fun hclose hapart => ?_) hrest
    · rw [htext]
      simpa using hinner
    · have hright := splits_operator hop (hr.splits hclose hapart)
      have hleft := hl.splits hright (Token.apart_of_mem (by decide) _)
      simpa using hleft
  reads rest hrest := by
    have htrail : operator.toList ∉ trailing :=
      (by decide : ∀ op ∈ Token.operators, op ∉ trailing) _ hop
    have hleft := hl.reads (.mark operator.toList :: (rs ++ .mark [')'] :: rest))
      (Grammar.mark?_of_not_mem htrail _)
    have hright := hr.reads (.mark [')'] :: rest) rfl
    have hwhole := Reads.operation_in_parentheses hop
      (hleft.mono (Nat.le_add_right _ (20 * rs.length)))
      (hright.mono (Nat.le_add_left _ (20 * ls.length))) hrest
    simp only [List.cons_append, List.append_assoc, List.nil_append]
    refine hwhole.mono ?_
    simp only [List.length_cons, List.length_append, List.length_nil]
    omega

theorem spells_choice {condition yes no : Term} {cs ys ns : List Token} {c y n : Tree}
    (hc : Spells ext condition.render cs c) (hy : Spells ext yes.render ys y)
    (hn : Spells ext no.render ns n) :
    Spells ext (choice condition yes no).render
      (.mark ['('] :: (cs ++ .mark ['?'] :: (ys ++ .mark [':'] :: (ns ++ [.mark [')']]))))
      (.conditional c y n) where
  splits {rest ts} hrest _ := by
    let inner := condition.render.toList ++ ' ' :: '?' :: ' ' :: (yes.render.toList
      ++ ' ' :: ':' :: ' ' :: no.render.toList)
    have htext : (choice condition yes no).render.toList ++ rest
        = '(' :: (inner ++ ')' :: rest) := by
      simp [inner, render, String.toList_append]
    have hinner := splits_parentheses inner (cs ++ .mark ['?'] :: (ys ++ .mark [':'] :: ns))
      (fun hclose hapart => ?_) hrest
    · rw [htext]
      simpa using hinner
    · have hno := (hn.splits hclose hapart).blank
      have hyes := hy.splits (hno.mark (c := ':') rfl).blank (Token.apart_of_mem (by decide) _)
      have hcondition := hc.splits (hyes.blank.mark (c := '?') rfl).blank
        (Token.apart_of_mem (by decide) _)
      simpa [inner] using hcondition
  reads rest hrest := by
    have hcondition := hc.reads
      (.mark ['?'] :: (ys ++ .mark [':'] :: (ns ++ .mark [')'] :: rest))) rfl
    have hyes := hy.reads (.mark [':'] :: (ns ++ .mark [')'] :: rest)) rfl
    have hno := hn.reads (.mark [')'] :: rest) rfl
    let cost := 20 * (cs.length + ys.length + ns.length)
    have hwhole := Reads.choice_in_parentheses (hcondition.mono (by omega : _ ≤ cost))
      (hyes.mono (by omega)) (hno.mono (by omega)) hrest
    simp only [List.cons_append, List.append_assoc, List.nil_append]
    refine hwhole.mono ?_
    simp only [List.length_cons, List.length_append, List.length_nil]
    omega

/-! ### Elements and calls -/

theorem spells_index {base : String} {position : Term}
    (hbase : isIdentifier ext base = true) (h : Spells ext position.render tokens tree) :
    Spells ext (index base position).render
      (.word base.toList :: .mark ['['] :: (tokens ++ [.mark [']']]))
      (.index (.name base.toList) tree) where
  splits {rest ts} hrest _ := by
    have htext : (index base position).render.toList ++ rest
        = base.toList ++ '[' :: (position.render.toList ++ ']' :: rest) := by
      simp [render, String.toList_append]
    have hclose := hrest.bracket (by decide : ']' ∈ Token.brackets)
    have hposition := h.splits hclose (Token.apart_of_mem (by decide) rest)
    have hwhole := splits_identifier hbase (hposition.bracket (by decide : '[' ∈ Token.brackets))
      (Token.apart_of_mem (by decide) _)
    rw [htext]
    simpa using hwhole
  reads rest hrest := by
    have hwhole := (h.reads (.mark [']'] :: rest) rfl).element (not_keyword_of_isIdentifier hbase)
      hrest
    simp only [List.cons_append, List.append_assoc, List.nil_append]
    refine hwhole.mono ?_
    simp only [List.length_cons, List.length_append, List.length_nil]
    omega

/-- The texts of arguments, with commas between them. -/
structure SpellsArgs (ext : Char → Bool) (args : List Term) (tokens : List Token)
    (trees : List Tree) : Prop where
  splits {rest : List Char} {ts : List Token} : Splits ext rest ts →
    Splits ext ((Text.commas (renderAll args)).toList ++ ')' :: rest)
      (tokens ++ .mark [')'] :: ts)
  reads (rest : List Token) : Reads Grammar.argumentList (20 * tokens.length + 14)
    (tokens ++ .mark [')'] :: rest) trees rest
  /-- They do not look like the end of the arguments. -/
  start (rest : List Token) : mark? [[')']] (tokens ++ .mark [')'] :: rest) = none

theorem SpellsArgs.last {arg : Term}
    (h : Spells ext arg.render tokens tree) : SpellsArgs ext [arg] tokens [tree] where
  splits {rest ts} hrest :=
    h.splits (hrest.bracket (by decide)) (Token.apart_of_mem (by decide) rest)
  reads rest := (h.reads (.mark [')'] :: rest) rfl).argument_last
  start rest := (h.reads (.mark [')'] :: rest) rfl).mark?_close

theorem SpellsArgs.cons {arg next : Term} {more : List Token} {trees : List Tree}
    (h : Spells ext arg.render tokens tree) (hargs : SpellsArgs ext (next :: args) more trees) :
    SpellsArgs ext (arg :: next :: args) (tokens ++ .mark [','] :: more) (tree :: trees) where
  splits {rest ts} hrest := by
    have htext : (Text.commas (renderAll (arg :: next :: args))).toList
        = arg.render.toList ++ ',' :: ' ' :: (Text.commas (renderAll (next :: args))).toList := by
      simp [renderAll, Text.commas, String.toList_append]
    have hmore := (hargs.splits hrest).blank
    have hcomma := hmore.bracket (by decide : ',' ∈ Token.brackets)
    rw [htext]
    simpa using h.splits hcomma (Token.apart_of_mem (by decide) _)
  reads rest := by
    have harg := h.reads (.mark [','] :: (more ++ .mark [')'] :: rest)) rfl
    let cost := 20 * (tokens.length + more.length + 1)
    have hwhole := (harg.mono (by omega : _ ≤ cost)).argument_cons
      ((hargs.reads rest).mono (by omega))
    simp only [List.cons_append, List.append_assoc]
    refine hwhole.mono ?_
    simp only [List.length_cons, List.length_append]
    omega
  start rest := by
    have harg := h.reads (.mark [','] :: (more ++ .mark [')'] :: rest)) rfl
    simpa using harg.mark?_close

theorem exists_spellsArgs {r : Reading} (hne : args ≠ [])
    (h : ∀ arg ∈ args, ∃ tokens, Spells ext arg.render tokens (arg.tree r)) :
    ∃ tokens, SpellsArgs ext args tokens (trees r args) := by
  induction args with
  | nil => exact absurd rfl hne
  | cons arg args ih =>
      obtain ⟨tokens, hfirst⟩ := h arg List.mem_cons_self
      cases args with
      | nil => exact ⟨tokens, .last hfirst⟩
      | cons next args =>
          obtain ⟨more, hmore⟩ := ih (List.cons_ne_nil _ _)
            fun a ha => h a (List.mem_cons_of_mem _ ha)
          exact ⟨_, .cons hfirst hmore⟩

theorem spells_call {function : String} {trees : List Tree}
    (hname : isIdentifier ext function = true) (h : SpellsArgs ext args tokens trees) :
    Spells ext (call function args).render
      (.word function.toList :: .mark ['('] :: (tokens ++ [.mark [')']]))
      (.call (.name function.toList) trees) where
  splits {rest ts} hrest _ := by
    have htext : (call function args).render.toList ++ rest = function.toList
        ++ '(' :: ((Text.commas (renderAll args)).toList ++ ')' :: rest) := by
      simp [render, String.toList_append]
    have hopen := (h.splits hrest).bracket (by decide : '(' ∈ Token.brackets)
    rw [htext]
    simpa using splits_identifier hname hopen (Token.apart_of_mem (by decide) _)
  reads rest hrest := by
    have hargs : Reads Grammar.arguments (20 * tokens.length + 14 + 1)
        (tokens ++ .mark [')'] :: rest) trees rest :=
      .of_succ fun n hn => by simp only [Grammar.arguments, h.start, h.reads rest n hn]
    have hwhole := Reads.call (not_keyword_of_isIdentifier hname) hargs hrest
    simp only [List.cons_append, List.append_assoc, List.nil_append]
    refine hwhole.mono ?_
    simp only [List.length_cons, List.length_append, List.length_nil]
    omega

theorem spells_call_nil {function : String} (hname : isIdentifier ext function = true) :
    Spells ext (call function []).render [.word function.toList, .mark ['('], .mark [')']]
      (.call (.name function.toList) []) where
  splits {rest ts} hrest _ := by
    have htext : (call function []).render.toList ++ rest
        = function.toList ++ '(' :: ')' :: rest := by
      simp [render, renderAll, Text.commas, String.toList_append]
    have hclose := hrest.bracket (by decide : ')' ∈ Token.brackets)
    rw [htext]
    exact splits_identifier hname (hclose.bracket (by decide)) (Token.apart_of_mem (by decide) _)
  reads rest hrest := by
    have hargs : Reads Grammar.arguments (0 + 1) (.mark [')'] :: rest) [] rest :=
      .of_succ fun n _ => by
        simp only [Grammar.arguments, Grammar.mark?_of_mem (List.mem_singleton_self [')'])]
    exact (Reads.call (not_keyword_of_isIdentifier hname) hargs hrest).mono (by simp)

/-! ## Every regular term -/

/-- Only the sign of a number can make one token with an operator before the term. -/
theorem Regular.start (h : Regular ext t) : ∃ d, t.render.toList.head? = some d
    ∧ ((∀ c, Token.fuses c d = false) ∨ d = '-' ∧ ∃ n, t = .int (.negSucc n)) := by
  have hword {name : String} (hname : isIdentifier ext name = true) (rest : List Char) :
      ∃ d, (name.toList ++ rest).head? = some d ∧ ∀ c, Token.fuses c d = false := by
    have hisWord := isWord_of_isIdentifier hname
    cases hlist : name.toList with
    | nil => rw [hlist] at hisWord; cases hisWord
    | cons d cs =>
        rw [hlist, Token.isWord, Bool.and_eq_true] at hisWord
        exact ⟨d, rfl, fun c => fuses_of_isWordStart c hisWord.1⟩
  have hmark {d : Char} (hd : d ∈ ['(', '"', '\'']) (c : Char) : Token.fuses c d = false :=
    fuses_eq_false (['(', '"', '\''].contains ·) (by decide) c (List.contains_iff_mem.mpr hd)
  cases h with
  | ident hname =>
      obtain ⟨d, hhead, hd⟩ := hword hname []
      exact ⟨d, by simpa [render] using hhead, .inl hd⟩
  | @int value =>
      cases value with
      | ofNat n =>
          cases hdigits : Nat.toDigits 10 n with
          | nil => exact absurd hdigits Nat.toDigits_ne_nil
          | cons d ds =>
              have hall := all_isDigit n
              rw [hdigits, List.all_cons, Bool.and_eq_true] at hall
              refine ⟨d, ?_, .inl fun c => fuses_of_isDigit c hall.1⟩
              rw [render, Int.repr, toList_repr, hdigits, List.head?_cons]
      | negSucc n =>
          refine ⟨'-', ?_, .inr ⟨rfl, n, rfl⟩⟩
          rw [toList_render_negSucc, List.head?_cons]
  | char => exact ⟨'\'', by simp [render, charLiteral], .inl (hmark (by decide))⟩
  | text => exact ⟨'"', by simp [render, textLiteral], .inl (hmark (by decide))⟩
  | @index base position hbase _ =>
      obtain ⟨d, hhead, hd⟩ := hword hbase ('[' :: position.render.toList ++ [']'])
      exact ⟨d, by simpa [render, String.toList_append] using hhead, .inl hd⟩
  | @call function args hname _ =>
      obtain ⟨d, hhead, hd⟩ := hword hname ('(' :: (Text.commas (renderAll args)).toList ++ [')'])
      exact ⟨d, by simpa [render, String.toList_append] using hhead, .inl hd⟩
  | unary _ _ | binary _ _ _ | choice _ _ _ =>
      exact ⟨'(', by simp [render, String.toList_append], .inl (hmark (by decide))⟩

/-- By induction on the term: its parts are operands, whatever stands around them. -/
theorem Regular.spells (h : Regular ext t) :
    ∃ tokens, Spells ext t.render tokens (t.tree .read) := by
  induction h with
  | ident hname => exact ⟨_, spells_ident hname⟩
  | @int value =>
      cases value with
      | ofNat n => exact ⟨_, spells_ofNat n⟩
      | negSucc n => exact ⟨_, spells_negSucc n⟩
  | char => exact ⟨_, spells_char _⟩
  | text => exact ⟨_, spells_text _⟩
  | index hbase _ ih =>
      obtain ⟨tokens, hposition⟩ := ih
      exact ⟨_, spells_index hbase hposition⟩
  | @unary sign operand hsign hregular ih =>
      rw [tree]
      cases hdoubled : doubled? (String.singleton sign) operand with
      | some k =>
          obtain ⟨n, hop, rfl, rfl⟩ := doubled?_eq_some hdoubled
          rw [hop]
          exact ⟨_, spells_doubled n⟩
      | none =>
          obtain ⟨tokens, hoperand⟩ := ih
          obtain ⟨d, hhead, hd⟩ := hregular.start
          obtain ⟨cs, hstart⟩ := List.head?_eq_some_iff.mp hhead
          have hfuses : Token.fuses sign d = false := by
            rcases hd with hd | ⟨rfl, n, rfl⟩
            · exact hd sign
            · have hne : sign ≠ '-' := by
                rintro rfl
                cases hdoubled
              have hsigns : signs.all (fun c => c == '-' || !Token.fuses c '-') = true := by decide
              simpa [hne] using List.all_eq_true.mp hsigns sign hsign
          rw [String.toList_singleton]
          exact ⟨_, spells_unary hsign hoperand hstart hfuses⟩
  | binary hop _ _ ihl ihr =>
      obtain ⟨ls, hl⟩ := ihl
      obtain ⟨rs, hr⟩ := ihr
      exact ⟨_, spells_binary hop hl hr⟩
  | @call function args hname _ ih =>
      by_cases hne : args = []
      · subst hne
        exact ⟨_, spells_call_nil hname⟩
      · obtain ⟨tokens, hargs⟩ := exists_spellsArgs hne ih
        exact ⟨_, spells_call hname hargs⟩
  | choice _ _ _ ihc ihy ihn =>
      obtain ⟨cs, hc⟩ := ihc
      obtain ⟨ys, hy⟩ := ihy
      obtain ⟨ns, hn⟩ := ihn
      exact ⟨_, spells_choice hc hy hn⟩

/-- **The text of a regular term is read as its tree.** -/
theorem Regular.readExpression_render (h : Regular ext t) :
    readExpression ext t.render = some (t.tree .read) := by
  obtain ⟨tokens, hspells⟩ := h.spells
  have hsplit := (hspells.splits Splits.nil fun c hc => nomatch hc).split_eq
  rw [List.append_nil, List.append_nil] at hsplit
  have hread := (hspells.reads [] rfl).expression_of_unary (.inl rfl) rfl rfl
    (20 * (tokens.length + 1)) (by omega)
  rw [List.append_nil] at hread
  rw [readExpression, hsplit, Option.bind_some, Grammar.parse, hread]

end

end Term

end ExtensionCompiler.C

import ExtensionCompiler.C.Term

set_option autoImplicit false

/-! # Tokens of C

The text of C code is a sequence of tokens, each of them the longest that the text begins with.
`Token.scan` takes a token, a blank or a comment from the front of a text, and `Token.split` goes on
to its end. Beside the characters of ASCII a name may have others; which ones is left open (`ext`).

A literal is kept as it is written. `unescape` gives the characters that it stands for, by the rules
for escapes, in which an octal number takes up to three digits. -/

namespace ExtensionCompiler.C

inductive Token where
  | word (spelling : List Char)
  | number (spelling : List Char)
  /-- A character between quotes, with the letters before it. -/
  | char (encoding body : List Char)
  | text (encoding body : List Char)
  /-- An operator or another mark. -/
  | mark (spelling : List Char)
deriving DecidableEq, Repr

namespace Token

/-! ## Characters -/

section

variable (ext : Char → Bool)

def isWordStart (c : Char) : Bool := c.isAlpha || c == '_' || decide (128 ≤ c.toNat) && ext c

def isWordChar (c : Char) : Bool := isWordStart ext c || c.isDigit

end

def isBlank (c : Char) : Bool := [' ', '\t', '\n', '\r', '\x0b', '\x0c'].contains c

/-! ## Marks -/

/-- The marks of more than one character, the longest first. -/
def longMarks : List (List Char) :=
  [['%', ':', '%', ':'], ['.', '.', '.'], ['<', '<', '='], ['>', '>', '='],
    ['-', '>'], ['+', '+'], ['-', '-'], ['<', '<'], ['>', '>'], ['<', '='], ['>', '='], ['=', '='],
    ['!', '='], ['&', '&'], ['|', '|'], ['*', '='], ['/', '='], ['%', '='], ['+', '='], ['-', '='],
    ['&', '='], ['^', '='], ['|', '='], ['#', '#'], ['<', ':'], [':', '>'], ['<', '%'], ['%', '>'],
    ['%', ':']]

def shortMarks : List Char :=
  ['[', ']', '(', ')', '\x7b', '\x7d', '.', '&', '*', '+', '-', '~', '!', '/', '%', '<', '>', '^',
    '|', '?', ':', ';', '=', ',', '#']

/-- The longest mark that the text begins with. -/
def mark? (cs : List Char) : Option (List Char) :=
  (longMarks ++ shortMarks.map ([·])).find? (·.isPrefixOf cs)

/-! ## Literals, numbers and comments -/

/-- The text up to a quote that is not escaped, and what follows it. -/
def body? (quote : Char) : Bool → List Char → Option (List Char × List Char)
  | _, [] => none
  | escaped, c :: rest =>
    if c == '\n' then none
    else if !escaped && c == quote then some ([], rest)
    else (body? quote (!escaped && c == '\\') rest).map fun r => (c :: r.1, r.2)

/-- The rest of a number: digits, letters, points, and a sign after the letter of an exponent. -/
def digits (ext : Char → Bool) : Bool → List Char → List Char × List Char
  | _, [] => ([], [])
  | exponent, c :: rest =>
    if isWordChar ext c || c == '.' || exponent && (c == '+' || c == '-') then
      let r := digits ext (['e', 'E', 'p', 'P'].contains c) rest
      (c :: r.1, r.2)
    else ([], c :: rest)

/-- What follows a comment. -/
def comment? : List Char → Option (List Char)
  | '*' :: '/' :: rest => some rest
  | _ :: rest => comment? rest
  | [] => none

/-! ## Splitting a text -/

section

variable (ext : Char → Bool)

/-- A word, or the letters before a quote. -/
def wordOr (word rest : List Char) : Option (Option Token × List Char) :=
  match rest with
  | '"' :: rest =>
    if [['L'], ['u'], ['U'], ['u', '8']].contains word then
      (body? '"' false rest).map fun r => (some (.text word r.1), r.2)
    else some (some (.word word), '"' :: rest)
  | '\'' :: rest =>
    if [['L'], ['u'], ['U']].contains word then
      (body? '\'' false rest).map fun r => (some (.char word r.1), r.2)
    else some (some (.word word), '\'' :: rest)
  | rest => some (some (.word word), rest)

/-- Takes a token from the front of a text, or a blank or a comment. -/
def scan (cs : List Char) : Option (Option Token × List Char) :=
  match cs with
  | [] => none
  | c :: rest =>
    if isBlank c then some (none, rest)
    else if c == '/' && rest.head? == some '/' then some (none, rest.dropWhile (· != '\n'))
    else if c == '/' && rest.head? == some '*' then (comment? rest.tail).map (none, ·)
    else if c == '"' then (body? '"' false rest).map fun r => (some (.text [] r.1), r.2)
    else if c == '\'' then (body? '\'' false rest).map fun r => (some (.char [] r.1), r.2)
    else if isWordStart ext c then
      wordOr (c :: rest.takeWhile (isWordChar ext)) (rest.dropWhile (isWordChar ext))
    else if c.isDigit || c == '.' && rest.head?.any Char.isDigit then
      some (some (.number (digits ext false cs).1), (digits ext false cs).2)
    else (mark? cs).map fun m => (some (.mark m), cs.drop m.length)

def splitFrom : Nat → List Char → Option (List Token)
  | _, [] => some []
  | 0, _ :: _ => none
  | n + 1, c :: rest =>
    (scan ext (c :: rest)).bind fun r => (splitFrom n r.2).map (r.1.toList ++ ·)

/-- The tokens of a text. -/
def split (cs : List Char) : Option (List Token) := splitFrom ext cs.length cs

/-- The text falls into the tokens. There is a step for each token and each blank, so any number
that is not less than the length will do. -/
def Splits (cs : List Char) (ts : List Token) : Prop :=
  ∀ n, cs.length ≤ n → splitFrom ext n cs = some ts

end

section

variable {ext : Char → Bool} {cs rest : List Char} {ts : List Token}

theorem Splits.split_eq (h : Splits ext cs ts) : split ext cs = some ts := h _ (Nat.le_refl _)

theorem Splits.nil : Splits ext [] [] := fun n _ => by cases n <;> rfl

theorem Splits.step {piece : List Char} {t : Option Token} (hpiece : piece ≠ [])
    (hscan : scan ext (piece ++ rest) = some (t, rest)) (h : Splits ext rest ts) :
    Splits ext (piece ++ rest) (t.toList ++ ts) := by
  intro n hn
  obtain ⟨c, piece, rfl⟩ := List.exists_cons_of_ne_nil hpiece
  cases n with
  | zero => simp at hn
  | succ n =>
      have hrest := h n (by simp at hn; omega)
      rw [List.cons_append] at hscan ⊢
      rw [splitFrom, hscan, Option.bind_some, hrest]
      rfl

theorem Splits.token {piece : List Char} {t : Token} (hpiece : piece ≠ [])
    (hscan : scan ext (piece ++ rest) = some (some t, rest)) (h : Splits ext rest ts) :
    Splits ext (piece ++ rest) (t :: ts) :=
  h.step hpiece hscan

theorem Splits.mark {c : Char} (hscan : scan ext (c :: rest) = some (some (.mark [c]), rest))
    (h : Splits ext rest ts) : Splits ext (c :: rest) (.mark [c] :: ts) :=
  h.token (List.cons_ne_nil c []) hscan

theorem Splits.blank (h : Splits ext rest ts) : Splits ext (' ' :: rest) ts :=
  h.step (List.cons_ne_nil ' ' []) rfl

end

/-! ## Names and numbers -/

section

variable (ext : Char → Bool)

/-- Nothing at the front of a text can belong to a name or a number before it. -/
def Apart (rest : List Char) : Prop :=
  ∀ c, rest.head? = some c → isWordChar ext c = false ∧ c ≠ '.' ∧ c ≠ '"' ∧ c ≠ '\''

def isWord (cs : List Char) : Bool :=
  match cs with
  | [] => false
  | c :: cs => isWordStart ext c && cs.all (isWordChar ext)

end

section

variable {ext : Char → Bool} {rest : List Char}

theorem takeWhile_append_of_apart {cs : List Char} (hcs : cs.all (isWordChar ext) = true)
    (hrest : Apart ext rest) : (cs ++ rest).takeWhile (isWordChar ext) = cs
      ∧ (cs ++ rest).dropWhile (isWordChar ext) = rest := by
  have hall : ∀ c ∈ cs, isWordChar ext c = true := by simpa using hcs
  rw [List.takeWhile_append_of_pos hall, List.dropWhile_append_of_pos hall]
  cases rest with
  | nil => simp
  | cons c rest => simp [(hrest c rfl).1]

variable {c : Char}

/-- What begins a name begins nothing else. -/
theorem isWordStart_ne (h : isWordStart ext c = true) :
    isBlank c = false ∧ c ≠ '/' ∧ c ≠ '"' ∧ c ≠ '\'' := by
  have hne (d : Char) (hd : isWordStart ext d = false) : c ≠ d := by
    rintro rfl
    rw [h] at hd
    cases hd
  refine ⟨?_, hne _ rfl, hne _ rfl, hne _ rfl⟩
  simp [isBlank, hne ' ' rfl, hne '\t' rfl, hne '\n' rfl, hne '\r' rfl, hne '\x0b' rfl,
    hne '\x0c' rfl]

theorem scan_word {cs : List Char} (hcs : isWord ext cs = true) (hrest : Apart ext rest) :
    scan ext (cs ++ rest) = some (some (.word cs), rest) := by
  cases cs with
  | nil => cases hcs
  | cons c cs =>
      obtain ⟨hstart, hall⟩ : isWordStart ext c = true ∧ cs.all (isWordChar ext) = true := by
        simpa [isWord] using hcs
      obtain ⟨hblank, hslash, hquote, hquote'⟩ := isWordStart_ne hstart
      obtain ⟨htake, hdrop⟩ := takeWhile_append_of_apart hall hrest
      simp only [List.cons_append, scan, hblank, beq_false_of_ne hslash, beq_false_of_ne hquote,
        beq_false_of_ne hquote', hstart, Bool.false_and, if_true, htake, hdrop]
      -- what follows is not a quote
      cases rest with
      | nil => rfl
      | cons d rest =>
          obtain ⟨-, -, hd, hd'⟩ := hrest d rfl
          simp [wordOr, hd, hd']

theorem digits_append {cs : List Char} (hcs : cs.all Char.isDigit = true) (hrest : Apart ext rest) :
    digits ext false (cs ++ rest) = (cs, rest) := by
  induction cs with
  | nil =>
      cases rest with
      | nil => rfl
      | cons c rest =>
          obtain ⟨hword, hpoint, -⟩ := hrest c rfl
          simp [digits, hword, hpoint]
  | cons c cs ih =>
      obtain ⟨hdigit, hall⟩ : c.isDigit = true ∧ cs.all Char.isDigit = true := by
        simpa using hcs
      have hne (d : Char) (hd : d.isDigit = false) : c ≠ d := by
        rintro rfl
        rw [hdigit] at hd
        cases hd
      have hletter : ['e', 'E', 'p', 'P'].contains c = false := by
        simp [hne 'e' rfl, hne 'E' rfl, hne 'p' rfl, hne 'P' rfl]
      simp only [List.cons_append, digits, isWordChar, hdigit, Bool.or_true, Bool.true_or, if_true,
        hletter, ih hall]

/-- What begins a number begins nothing else. -/
theorem isDigit_ne (ext : Char → Bool) (h : c.isDigit = true) :
    isBlank c = false ∧ c ≠ '/' ∧ c ≠ '"' ∧ c ≠ '\'' ∧ isWordStart ext c = false := by
  have hne (d : Char) (hd : d.isDigit = false) : c ≠ d := by
    rintro rfl
    rw [h] at hd
    cases hd
  have hcode : 48 ≤ c.toNat ∧ c.toNat ≤ 57 := by
    simpa [Char.isDigit, UInt32.le_iff_toNat_le] using h
  have halpha : c.isAlpha = false := by
    rw [Bool.eq_false_iff]
    intro hletter
    have hrange : 65 ≤ c.toNat ∧ c.toNat ≤ 90 ∨ 97 ≤ c.toNat ∧ c.toNat ≤ 122 := by
      have hcases : (decide (c.val ≥ 'A'.val ∧ c.val ≤ 'Z'.val)
          || decide (c.val ≥ 'a'.val) && decide (c.val ≤ 'z'.val)) = true := hletter
      simpa [UInt32.le_iff_toNat_le] using hcases
    omega
  refine ⟨?_, hne _ rfl, hne _ rfl, hne _ rfl, ?_⟩
  · simp [isBlank, hne ' ' rfl, hne '\t' rfl, hne '\n' rfl, hne '\r' rfl, hne '\x0b' rfl,
      hne '\x0c' rfl]
  · have hhigh : ¬ 128 ≤ c.toNat := by omega
    simp [isWordStart, halpha, hne '_' rfl, hhigh]

theorem scan_number {cs : List Char} (hne : cs ≠ []) (hcs : cs.all Char.isDigit = true)
    (hrest : Apart ext rest) : scan ext (cs ++ rest) = some (some (.number cs), rest) := by
  have hdigits := digits_append hcs hrest
  cases cs with
  | nil => exact absurd rfl hne
  | cons c cs =>
      have hdigit : c.isDigit = true := by simp at hcs; exact hcs.1
      obtain ⟨hblank, hslash, hquote, hquote', hstart⟩ := isDigit_ne ext hdigit
      simp only [List.cons_append] at hdigits ⊢
      simp [scan, hblank, hslash, hquote, hquote', hstart, hdigit, hdigits]

/-! ## Operators -/

/-- Whether two characters are the beginning of a long mark. -/
def fuses (c d : Char) : Bool := longMarks.any fun m => m.take 2 == [c, d]

/-- An operator of one character before an operand that does not lengthen it. -/
theorem scan_operator {d : Char} (hc : c ∈ ['-', '~', '!', '&', '*']) (hd : fuses c d = false)
    (rest : List Char) : scan ext (c :: d :: rest) = some (some (.mark [c]), d :: rest) := by
  have hlong : longMarks.find? (·.isPrefixOf (c :: d :: rest)) = none := by
    rw [List.find?_eq_none]
    intro m hm hfront
    have hlength : 2 ≤ m.length := (by decide : ∀ m ∈ longMarks, 2 ≤ m.length) m hm
    have htake : m.take 2 = [c, d] := by
      obtain ⟨tail, htail⟩ : m <+: c :: d :: rest := by simpa using hfront
      have h := congrArg (List.take 2) htail
      rwa [List.take_append_of_le_length hlength] at h
    have hnone := List.any_eq_false.mp hd m hm
    exact hnone (by simp [htake])
  have hmark : mark? (c :: d :: rest) = some [c] := by
    rw [mark?, List.find?_append, hlong]
    simp only [List.mem_cons, List.not_mem_nil, or_false] at hc
    rcases hc with rfl | rfl | rfl | rfl | rfl <;> rfl
  simp only [List.mem_cons, List.not_mem_nil, or_false] at hc
  rcases hc with rfl | rfl | rfl | rfl | rfl <;> simp only [scan, hmark] <;> rfl

/-- The binary operators that are written between blanks. -/
def operators : List (List Char) :=
  [['|', '|'], ['&', '&'], ['|'], ['^'], ['&'], ['=', '='], ['!', '='], ['<'], ['>'], ['<', '='],
    ['>', '='], ['<', '<'], ['>', '>'], ['+'], ['-'], ['*'], ['/'], ['%']]

theorem scan_spaced {op : List Char} (hop : op ∈ operators) (rest : List Char) :
    scan ext (op ++ ' ' :: rest) = some (some (.mark op), ' ' :: rest) := by
  simp only [operators, List.mem_cons, List.not_mem_nil, or_false] at hop
  rcases hop with rfl | rfl | rfl | rfl | rfl | rfl | rfl | rfl | rfl | rfl | rfl | rfl | rfl | rfl
    | rfl | rfl | rfl | rfl <;> rfl

/-- The marks that are never part of a longer one. -/
def brackets : List Char := ['(', ')', '[', ']', ',']

theorem scan_bracket (hc : c ∈ brackets) (rest : List Char) :
    scan ext (c :: rest) = some (some (.mark [c]), rest) := by
  simp only [brackets, List.mem_cons, List.not_mem_nil, or_false] at hc
  rcases hc with rfl | rfl | rfl | rfl | rfl <;> rfl

theorem Splits.bracket (hc : c ∈ brackets) {ts : List Token} (h : Splits ext rest ts) :
    Splits ext (c :: rest) (.mark [c] :: ts) :=
  h.mark (scan_bracket hc rest)

theorem apart_of_mem (hc : c ∈ ' ' :: brackets) (rest : List Char) : Apart ext (c :: rest) := by
  rintro d hd
  cases hd
  simp only [brackets, List.mem_cons, List.not_mem_nil, or_false] at hc
  rcases hc with rfl | rfl | rfl | rfl | rfl | rfl <;> exact ⟨rfl, by decide, by decide, by decide⟩

/-! ## Literals -/

theorem body?_escapeChar {quote : Char} (hquote : quote = '"' ∨ quote = '\'') (c : Char)
    (rest : List Char) :
    body? quote false (escapeChar quote c ++ rest)
      = (body? quote false rest).map fun r => (escapeChar quote c ++ r.1, r.2) := by
  have hescaped (d : Char) (hd : d ≠ '\n') : body? quote false ('\\' :: d :: rest)
      = (body? quote false rest).map fun r => ('\\' :: d :: r.1, r.2) := by
    have hback : ('\\' == quote) = false := by rcases hquote with rfl | rfl <;> rfl
    simp [body?, hback, hd, Function.comp_def]
  unfold escapeChar
  split
  · exact hescaped '\\' (by decide)
  split
  · exact hescaped 'n' (by decide)
  split
  · exact hescaped 't' (by decide)
  split
  · exact hescaped 'r' (by decide)
  split
  · exact hescaped '0' (by decide)
  split
  · next h => exact hescaped c (by rcases hquote with rfl | rfl <;> subst h <;> decide)
  · next hback hline _ _ _ hne => simp [body?, beq_false_of_ne hback, hline, hne]

theorem body?_escape {quote : Char} (hquote : quote = '"' ∨ quote = '\'') (cs rest : List Char) :
    body? quote false (escape quote cs ++ quote :: rest) = some (escape quote cs, rest) := by
  induction cs with
  | nil => rcases hquote with rfl | rfl <;> rfl
  | cons c cs ih =>
      rw [escape, List.flatMap_cons, List.append_assoc, body?_escapeChar hquote, ← escape, ih]
      rfl

theorem scan_text (cs rest : List Char) :
    scan ext ('"' :: (escape '"' cs ++ '"' :: rest))
      = some (some (.text [] (escape '"' cs)), rest) := by
  have hscan : scan ext ('"' :: (escape '"' cs ++ '"' :: rest))
      = (body? '"' false (escape '"' cs ++ '"' :: rest)).map fun r => (some (.text [] r.1), r.2) :=
    rfl
  rw [hscan, body?_escape (.inl rfl)]
  rfl

theorem scan_char (c : Char) (rest : List Char) :
    scan ext ('\'' :: (escapeChar '\'' c ++ '\'' :: rest))
      = some (some (.char [] (escapeChar '\'' c)), rest) := by
  have hbody := body?_escape (.inr rfl) [c] rest
  rw [escape, List.flatMap_singleton] at hbody
  have hscan : scan ext ('\'' :: (escapeChar '\'' c ++ '\'' :: rest))
      = (body? '\'' false (escapeChar '\'' c ++ '\'' :: rest)).map
        fun r => (some (.char [] r.1), r.2) :=
    rfl
  rw [hscan, hbody]
  rfl

end

end Token

/-! ## The characters of a literal -/

/-- Where the reader of a literal stands. -/
inductive Reader where
  | plain
  | escaped
  /-- After some digits of an octal number, with their value. -/
  | octal (count value : Nat)
  /-- After some digits of a hexadecimal number. -/
  | hexadecimal (value : Nat)

def isOctal (c : Char) : Bool := decide ('0' ≤ c) && decide (c ≤ '7')

/-- The value of a hexadecimal digit. -/
def hexDigit? (c : Char) : Option Nat :=
  if c.isDigit then some (c.toNat - '0'.toNat)
  else if 'a' ≤ c ∧ c ≤ 'f' then some (c.toNat - 'a'.toNat + 10)
  else if 'A' ≤ c ∧ c ≤ 'F' then some (c.toNat - 'A'.toNat + 10)
  else none

/-- What a letter after a backslash stands for. -/
def simpleEscape? (c : Char) : Option Char :=
  match c with
  | 'n' => some '\n'
  | 't' => some '\t'
  | 'r' => some '\r'
  | 'a' => some '\x07'
  | 'b' => some '\x08'
  | 'f' => some '\x0c'
  | 'v' => some '\x0b'
  | '\\' => some '\\'
  | '\'' => some '\''
  | '"' => some '"'
  | '?' => some '?'
  | _ => none

/-- The characters that the text of a literal stands for. -/
def unescape : Reader → List Char → Option (List Char)
  | .plain, [] => some []
  | .escaped, [] => none
  | .octal _ value, [] => some [Char.ofNat value]
  | .hexadecimal value, [] => some [Char.ofNat value]
  | .plain, c :: rest =>
    if c = '\\' then unescape .escaped rest else (unescape .plain rest).map (c :: ·)
  | .escaped, c :: rest =>
    if isOctal c then unescape (.octal 1 (c.toNat - '0'.toNat)) rest
    else if c = 'x' then unescape (.hexadecimal 0) rest
    else
      match simpleEscape? c with
      | some d => (unescape .plain rest).map (d :: ·)
      | none => none
  | .octal count value, c :: rest =>
    if count < 3 ∧ isOctal c then
      unescape (.octal (count + 1) (8 * value + (c.toNat - '0'.toNat))) rest
    else if c = '\\' then (unescape .escaped rest).map (Char.ofNat value :: ·)
    else (unescape .plain rest).map fun cs => Char.ofNat value :: c :: cs
  | .hexadecimal value, c :: rest =>
    match hexDigit? c with
    | some d => unescape (.hexadecimal (16 * value + d)) rest
    | none =>
      if c = '\\' then (unescape .escaped rest).map (Char.ofNat value :: ·)
      else (unescape .plain rest).map fun cs => Char.ofNat value :: c :: cs

/-- Whether a zero stands before an octal digit. -/
def zeroRuns : List Char → Bool
  | [] => false
  | c :: cs => c == '\x00' && cs.head?.any isOctal || zeroRuns cs

section

variable {quote : Char} (hquote : quote = '"' ∨ quote = '\'')

/-- An octal number ends where no digit follows. -/
theorem unescape_octal {cs : List Char} {count : Nat} (value : Nat)
    (h : ∀ c, cs.head? = some c → ¬ (count < 3 ∧ isOctal c = true)) :
    unescape (.octal count value) cs
      = (unescape .plain cs).map (Char.ofNat value :: ·) := by
  cases cs with
  | nil => rfl
  | cons c cs =>
      rw [unescape, unescape, if_neg (h c rfl)]
      split
      · rfl
      · rw [Option.map_map]
        rfl

include hquote

theorem escapeChar_of_isOctal {c : Char} (h : isOctal c = true) : escapeChar quote c = [c] := by
  have hne (d : Char) (hd : isOctal d = false) : c ≠ d := by
    rintro rfl
    rw [h] at hd
    cases hd
  have hquoted : c ≠ quote := by rcases hquote with rfl | rfl <;> exact hne _ rfl
  simp [escapeChar, hne '\\' rfl, hne '\n' rfl, hne '\t' rfl, hne '\r' rfl, hne '\x00' rfl, hquoted]

/-- Any character but zero is read back. -/
theorem unescape_escapeChar {c : Char} (hc : c ≠ '\x00') (rest : List Char) :
    unescape .plain (escapeChar quote c ++ rest) = (unescape .plain rest).map (c :: ·) := by
  unfold escapeChar
  split
  · next h => subst h; rfl
  split
  · next h => subst h; rfl
  split
  · next h => subst h; rfl
  split
  · next h => subst h; rfl
  split
  · next h =>
      subst h
      rcases hquote with rfl | rfl <;> rfl
  · next hback _ _ _ _ => simp [unescape, hback]

omit hquote in
/-- What begins an escaped text is an octal digit just if the text begins with it. -/
theorem head?_escape {cs : List Char} (h : cs.head?.any isOctal = false) (c : Char)
    (hc : (escape quote cs).head? = some c) : isOctal c = false := by
  cases cs with
  | nil => cases hc
  | cons d cs =>
      have hd : isOctal d = false := h
      rw [escape, List.flatMap_cons] at hc
      unfold escapeChar at hc
      repeat' split at hc
      all_goals cases hc
      all_goals first | rfl | exact hd

/-- A zero is written as an octal number. -/
theorem unescape_zero (rest : List Char) :
    unescape .plain (escapeChar quote '\x00' ++ rest) = unescape (.octal 1 0) rest := by
  rcases hquote with rfl | rfl <;> rfl

theorem unescape_cons {c : Char} (hc : c ≠ '\x00') (cs : List Char) :
    unescape .plain (escape quote (c :: cs))
      = (unescape .plain (escape quote cs)).map (c :: ·) := by
  rw [escape, List.flatMap_cons, unescape_escapeChar hquote hc, escape]

theorem unescape_zero_cons (cs : List Char) :
    unescape .plain (escape quote ('\x00' :: cs)) = unescape (.octal 1 0) (escape quote cs) := by
  rw [escape, List.flatMap_cons, unescape_zero hquote, escape]

/-- A text that was escaped can be read, and does not get longer, also after an octal number. -/
theorem unescape_escape_length (cs : List Char) :
    (∃ r, unescape .plain (escape quote cs) = some r ∧ r.length ≤ cs.length)
      ∧ ∀ count value, ∃ r, unescape (.octal count value) (escape quote cs) = some r
        ∧ r.length ≤ cs.length + 1 := by
  induction cs with
  | nil => exact ⟨⟨[], rfl, Nat.le_refl 0⟩, fun _ value => ⟨[Char.ofNat value], rfl, Nat.le_refl 1⟩⟩
  | cons c cs ih =>
      obtain ⟨⟨r, hr, hlength⟩, hoctal⟩ := ih
      have hplain : ∃ r, unescape .plain (escape quote (c :: cs)) = some r
          ∧ r.length ≤ (c :: cs).length := by
        by_cases hc : c = '\x00'
        · subst hc
          rw [unescape_zero_cons hquote]
          exact hoctal 1 0
        · rw [unescape_cons hquote hc, hr]
          exact ⟨c :: r, rfl, Nat.succ_le_succ hlength⟩
      refine ⟨hplain, fun count value => ?_⟩
      by_cases hgoes : count < 3 ∧ isOctal c = true
      · -- the digit is taken for one of the number
        rw [escape, List.flatMap_cons, escapeChar_of_isOctal hquote hgoes.2, List.singleton_append,
          unescape, if_pos hgoes, ← escape]
        obtain ⟨r, hr, hlength⟩ := hoctal (count + 1) (8 * value + (c.toNat - '0'.toNat))
        exact ⟨r, hr, Nat.le_trans hlength (Nat.le_succ _)⟩
      · obtain ⟨r, hr, hlength⟩ := hplain
        rw [unescape_octal, hr]
        · exact ⟨Char.ofNat value :: r, rfl, Nat.succ_le_succ hlength⟩
        · intro d hd hdigit
          apply hgoes
          refine ⟨hdigit.1, ?_⟩
          rw [← Bool.not_eq_false]
          intro hnot
          rw [head?_escape (by simpa using hnot) d hd] at hdigit
          cases hdigit.2

/-- **A text is read back just if no zero in it stands before an octal digit.** -/
theorem unescape_escape_iff (cs : List Char) :
    unescape .plain (escape quote cs) = some cs ↔ zeroRuns cs = false := by
  induction cs with
  | nil => simp [escape, unescape, zeroRuns]
  | cons c cs ih =>
      by_cases hc : c = '\x00'
      · subst hc
        rw [unescape_zero_cons hquote, zeroRuns]
        cases hdigit : cs.head?.any isOctal with
        | true =>
            -- the digit is lost, so the text gets shorter
            obtain ⟨d, cs, rfl⟩ : ∃ d tail, cs = d :: tail := by
              cases cs with
              | nil => cases hdigit
              | cons d cs => exact ⟨d, cs, rfl⟩
            have hd : isOctal d = true := hdigit
            have hlength := (unescape_escape_length hquote cs).2 2 (8 * 0 + (d.toNat - '0'.toNat))
            obtain ⟨r, hr, hshort⟩ := hlength
            rw [escape, List.flatMap_cons, escapeChar_of_isOctal hquote hd, List.singleton_append,
              unescape, if_pos ⟨by decide, hd⟩, ← escape, hr]
            simp only [Option.some.injEq, BEq.rfl, Bool.and_self, Bool.true_or, Bool.true_eq_false,
              iff_false]
            rintro rfl
            simp only [List.length_cons] at hshort
            omega
        | false =>
            have hoctal : unescape (.octal 1 0) (escape quote cs)
                = (unescape .plain (escape quote cs)).map ('\x00' :: ·) :=
              unescape_octal 0 fun d hd hgoes => by
                rw [head?_escape hdigit d hd] at hgoes
                cases hgoes.2
            rw [hoctal, Bool.and_false, Bool.false_or, ← ih]
            simp
      · have hzero : zeroRuns (c :: cs) = zeroRuns cs := by
          rw [zeroRuns, beq_false_of_ne hc, Bool.false_and, Bool.false_or]
        rw [unescape_cons hquote hc, hzero, ← ih]
        simp

end

/-! ## Texts as literals -/

/-- What may stand between two quotes: characters other than the quote, the backslash and the end of
a line, and any character but the end of a line behind a backslash. -/
inductive LiteralBody (quote : Char) : List Char → Prop
  | nil : LiteralBody quote []
  | plain {c : Char} {cs : List Char} : c ≠ quote → c ≠ '\\' → c ≠ '\n' → LiteralBody quote cs →
      LiteralBody quote (c :: cs)
  | escaped {c : Char} {cs : List Char} : c ≠ '\n' → LiteralBody quote cs →
      LiteralBody quote ('\\' :: c :: cs)

section

variable {quote : Char}

theorem LiteralBody.escapeChar {cs : List Char} (h : LiteralBody quote cs) (c : Char) :
    LiteralBody quote (escapeChar quote c ++ cs) := by
  unfold C.escapeChar
  split
  · exact .escaped (by decide) h
  split
  · exact .escaped (by decide) h
  split
  · exact .escaped (by decide) h
  split
  · exact .escaped (by decide) h
  split
  · exact .escaped (by decide) h
  split
  · next hline _ _ _ _ => exact .escaped hline h
  · next hback hline _ _ _ hne => exact .plain hne hback hline h

theorem literalBody_escape (cs : List Char) : LiteralBody quote (escape quote cs) := by
  induction cs with
  | nil => exact .nil
  | cons c cs ih =>
      rw [escape, List.flatMap_cons]
      exact ih.escapeChar c

end

theorem toList_textLiteral (s : String) :
    (textLiteral s).toList = '"' :: (escape '"' s.toList ++ ['"']) := by
  rw [textLiteral, String.toList_ofList]
  rfl

end ExtensionCompiler.C

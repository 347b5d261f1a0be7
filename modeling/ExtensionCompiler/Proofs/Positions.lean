import ExtensionCompiler.Position

set_option autoImplicit false

/-! # Positions, read back from their text

The text of a position is `file:line`, with any white space around it. `Position.IsWritten` says so
by the parts of the text, and `Position.parse?` reads just these texts
(`Position.parse?_eq_some_iff`). No digit is a colon, so the last colon is the one at which the
pattern divides file and line, whatever colons and digits a path has
(`Position.match?_eq_some_iff`). The digits of other scripts, which the pattern lets pass, are no
number (`Position.line?_eq_some_iff`).

A position whose file can be read at all is read back from the text that it is shown as. -/

namespace ExtensionCompiler

/-! ## White space around a text -/

namespace Text

/-- The text neither begins nor ends with white space. -/
structure IsTrimmed (cs : List Char) : Prop where
  head : ∀ c ∈ cs.head?, isBlank c = false
  last : ∀ c ∈ cs.getLast?, isBlank c = false

theorem dropWhile_eq_self {cs : List Char} (h : ∀ c ∈ cs.head?, isBlank c = false) :
    cs.dropWhile isBlank = cs := by
  cases cs with
  | nil => rfl
  | cons c rest => simp [h c rfl]

theorem dropWhile_append_eq {blank cs : List Char} (hblank : blank.all isBlank = true)
    (h : ∀ c ∈ cs.head?, isBlank c = false) : (blank ++ cs).dropWhile isBlank = cs := by
  rw [List.dropWhile_append_of_pos (List.all_eq_true.mp hblank), dropWhile_eq_self h]

/-- White space around a text is dropped. -/
theorem trim_append {before cs after : List Char} (hcs : IsTrimmed cs) (hne : cs ≠ [])
    (hbefore : before.all isBlank = true) (hafter : after.all isBlank = true) :
    trim (before ++ cs ++ after) = cs := by
  have hhead : ∀ c ∈ (cs ++ after).head?, isBlank c = false := by
    obtain ⟨first, rest, rfl⟩ := List.exists_cons_of_ne_nil hne
    exact hcs.head
  have hlast : ∀ c ∈ cs.reverse.head?, isBlank c = false := by
    rw [List.head?_reverse]
    exact hcs.last
  rw [trim, List.append_assoc, dropWhile_append_eq hbefore hhead, trimEnd, List.reverse_append,
    dropWhile_append_eq (by rw [List.all_reverse, hafter]) hlast, List.reverse_reverse]

theorem not_isBlank_head_dropWhile (cs : List Char) :
    ∀ c ∈ (cs.dropWhile isBlank).head?, isBlank c = false := by
  intro c hc
  have hnot := List.head?_dropWhile_not isBlank cs
  rw [Option.mem_def.mp hc] at hnot
  simpa using hnot

theorem exists_eq_trimEnd_append (cs : List Char) :
    ∃ after, cs = trimEnd cs ++ after ∧ after.all isBlank = true := by
  refine ⟨(cs.reverse.takeWhile isBlank).reverse, ?_, ?_⟩
  · rw [trimEnd, ← List.reverse_append, List.takeWhile_append_dropWhile, List.reverse_reverse]
  · rw [List.all_reverse]
    exact List.all_takeWhile

/-- A text is its trimmed form with white space around it. -/
theorem exists_eq_trim (cs : List Char) :
    ∃ before after, cs = before ++ trim cs ++ after ∧ before.all isBlank = true
      ∧ after.all isBlank = true ∧ IsTrimmed (trim cs) := by
  obtain ⟨after, hafter, hblank⟩ := exists_eq_trimEnd_append (cs.dropWhile isBlank)
  refine ⟨cs.takeWhile isBlank, after, ?_, List.all_takeWhile, hblank, ?_, ?_⟩
  · rw [trim, List.append_assoc, ← hafter, List.takeWhile_append_dropWhile]
  · -- what is dropped at the end does not change the beginning
    intro c hc
    apply not_isBlank_head_dropWhile cs c
    rw [hafter, List.head?_append]
    rw [trim, Option.mem_def] at hc
    rw [hc]
    rfl
  · intro c hc
    apply not_isBlank_head_dropWhile (cs.dropWhile isBlank).reverse c
    rwa [trim, trimEnd, List.getLast?_reverse] at hc

end Text

namespace Position

/-! ## The line -/

/-- The digits are a decimal number, perhaps with zeros before it. -/
structure IsNumber (digits : List Char) (n : Nat) : Prop where
  ne_nil : digits ≠ []
  isDigit : digits.all Char.isDigit = true
  value : Nat.ofDigitChars 10 digits 0 = n

variable {cs digits file : List Char} {n : Nat}

theorem number?_eq_some_iff {m : Nat} :
    number? m cs = some n ↔ cs.all Char.isDigit = true ∧ Nat.ofDigitChars 10 cs m = n := by
  induction cs generalizing m with
  | nil => simp [number?]
  | cons c rest ih =>
      by_cases hc : c.isDigit = true
      · simp [number?, digit?, hc, ih, Nat.ofDigitChars_cons]
      · simp [number?, digit?, hc]

theorem line?_eq_some_iff : line? cs = some n ↔ IsNumber cs n ∧ n ≤ 4294967295 := by
  have hmax : maxLine = 4294967295 := by decide
  constructor
  · intro h
    rw [line?] at h
    split at h
    · cases h
    · next hne =>
        obtain ⟨k, hk, hle⟩ := Option.bind_eq_some_iff.mp h
        split at hle
        · next hmaxLine =>
            cases hle
            obtain ⟨hdigits, hvalue⟩ := number?_eq_some_iff.mp hk
            refine ⟨⟨?_, hdigits, hvalue⟩, by omega⟩
            simpa using hne
        · cases hle
  · rintro ⟨⟨hne, hdigits, hvalue⟩, hle⟩
    have hempty : cs.isEmpty = false := by simpa using hne
    rw [line?, hempty, if_neg Bool.false_ne_true, number?_eq_some_iff.mpr ⟨hdigits, hvalue⟩,
      Option.bind_some, if_pos (by omega)]

theorem toNat_of_isDigit {c : Char} (h : c.isDigit = true) : 48 ≤ c.toNat ∧ c.toNat ≤ 57 := by
  rw [Char.isDigit, Bool.and_eq_true, decide_eq_true_eq, decide_eq_true_eq] at h
  exact ⟨UInt32.le_iff_toNat_le.mp h.1, UInt32.le_iff_toNat_le.mp h.2⟩

theorem not_isBlank_of_isDigit {c : Char} (h : c.isDigit = true) : Text.isBlank c = false := by
  have hrange := toNat_of_isDigit h
  simp [Text.isBlank, Text.blanks, Text.CharClass.contains]
  omega

theorem isNumber_repr (n : Nat) : IsNumber (Nat.repr n).toList n where
  ne_nil := by
    rw [Nat.repr_eq_ofList_toDigits, String.toList_ofList]
    exact Nat.toDigits_ne_nil
  isDigit := by
    rw [Nat.repr_eq_ofList_toDigits, String.toList_ofList, List.all_eq_true]
    exact fun c hc => Nat.isDigit_of_mem_toDigits (by decide) (by decide) hc
  value := by
    rw [Nat.repr_eq_ofList_toDigits, String.toList_ofList, Nat.ofDigitChars_ten_toDigits]

/-! ## The file -/

/-- What can stand before the colon of a position. -/
structure IsFile (file : List Char) : Prop where
  ne_nil : file ≠ []
  oneLine : '\n' ∉ file
  head : ∀ c ∈ file.head?, Text.isBlank c = false

/-- Some decimal digits, of any script. -/
structure IsDecimals (digits : List Char) : Prop where
  ne_nil : digits ≠ []
  isDecimal : digits.all Text.isDecimal = true

theorem IsNumber.isDecimals (h : IsNumber digits n) : IsDecimals digits := by
  refine ⟨h.ne_nil, List.all_eq_true.mpr fun c hc => ?_⟩
  obtain ⟨hlow, hhigh⟩ := toNat_of_isDigit (List.all_eq_true.mp h.isDigit c hc)
  exact (Text.CharClass.contains_iff _ c).mpr ⟨(48, 57), List.mem_cons_self, hlow, hhigh⟩

theorem IsDecimals.colon_notMem (h : IsDecimals digits) : ':' ∉ digits :=
  fun hmem => absurd (List.all_eq_true.mp h.isDecimal ':' hmem) (by decide)

theorem matchRest?_eq_none (h : ':' ∉ cs) : matchRest? cs = none := by
  induction cs with
  | nil => rfl
  | cons c rest ih =>
      have hc := List.ne_of_not_mem_cons h
      simp [matchRest?, ih (List.not_mem_of_not_mem_cons h), Ne.symm hc]

theorem matchRest?_eq_some_iff {line : List Char} :
    matchRest? cs = some (file, line)
      ↔ cs = file ++ ':' :: line ∧ '\n' ∉ file ∧ IsDecimals line := by
  constructor
  · intro h
    induction cs generalizing file with
    | nil => cases h
    | cons c rest ih =>
        rw [matchRest?, Option.or_eq_some_iff] at h
        rcases h with hlonger | ⟨-, hhere⟩
        · obtain ⟨⟨before, after⟩, hrest, heq⟩ := Option.map_eq_some_iff.mp hlonger
          split at hrest
          · cases hrest
          · rename_i hc
            cases heq
            obtain ⟨htext, hfile, hline⟩ := ih hrest
            exact ⟨by rw [htext, List.cons_append],
              List.not_mem_cons_of_ne_of_not_mem (Ne.symm hc) hfile, hline⟩
        · split at hhere
          · rename_i hends
            cases hhere
            simp only [Bool.and_eq_true, decide_eq_true_eq, Bool.not_eq_true',
              List.isEmpty_eq_false_iff] at hends
            exact ⟨by rw [hends.1.1, List.nil_append], List.not_mem_nil, hends.1.2, hends.2⟩
          · cases hhere
  · rintro ⟨rfl, hfile, hline⟩
    induction file with
    | nil => simp [matchRest?, matchRest?_eq_none hline.colon_notMem, hline.ne_nil, hline.isDecimal]
    | cons c rest ih =>
        have hc := List.ne_of_not_mem_cons hfile
        simp [matchRest?, ih (List.not_mem_of_not_mem_cons hfile), Ne.symm hc]

/-- **The pattern divides a text at its last colon**, if one line stands before it and digits after
it. -/
theorem match?_eq_some_iff {line : List Char} :
    match? cs = some (file, line)
      ↔ cs = file ++ ':' :: line ∧ file ≠ [] ∧ '\n' ∉ file ∧ IsDecimals line := by
  cases cs with
  | nil => simp [match?]
  | cons c rest =>
      constructor
      · intro h
        rw [match?] at h
        split at h
        · cases h
        · rename_i hc
          obtain ⟨⟨before, after⟩, hrest, heq⟩ := Option.map_eq_some_iff.mp h
          cases heq
          obtain ⟨htext, hfile, hline⟩ := matchRest?_eq_some_iff.mp hrest
          exact ⟨by rw [htext, List.cons_append], List.cons_ne_nil _ _,
            List.not_mem_cons_of_ne_of_not_mem (Ne.symm hc) hfile, hline⟩
      · rintro ⟨htext, hne, hfile, hline⟩
        obtain ⟨first, before, rfl⟩ := List.exists_cons_of_ne_nil hne
        have hbefore := List.not_mem_of_not_mem_cons hfile
        rw [List.cons_append] at htext
        cases htext
        rw [match?, if_neg (Ne.symm (List.ne_of_not_mem_cons hfile)),
          matchRest?_eq_some_iff.mpr ⟨rfl, hbefore, hline⟩]
        rfl

/-- The digits of another script match, but they are not read. -/
example : match? "a:\u0661".toList = some (['a'], ['\u0661']) ∧ parse? "a:\u0661" = none := by
  decide

/-! ## The whole text -/

/-- The text is one of the position: white space, the file, a colon, the line, and white space. -/
def IsWritten (p : Position) (s : String) : Prop :=
  ∃ before digits after : List Char,
    s.toList = before ++ (p.file.toList ++ ':' :: digits) ++ after
      ∧ before.all Text.isBlank = true ∧ after.all Text.isBlank = true
      ∧ IsFile p.file.toList ∧ IsNumber digits p.line ∧ p.line ≤ 4294967295

/-- The file and the line of a position, with the colon between them, need no trimming. -/
theorem isTrimmed_of_parts (hfile : IsFile file)
    (hdigits : IsNumber digits n) : Text.IsTrimmed (file ++ ':' :: digits) where
  head := by
    obtain ⟨first, rest, rfl⟩ := List.exists_cons_of_ne_nil hfile.ne_nil
    exact hfile.head
  last := by
    intro c hc
    have hlast : c ∈ digits.getLast? := by
      obtain ⟨first, rest, rfl⟩ := List.exists_cons_of_ne_nil hdigits.ne_nil
      simpa using hc
    have hdigit := List.all_eq_true.mp hdigits.isDigit c (List.mem_of_getLast? hlast)
    exact not_isBlank_of_isDigit hdigit

theorem parse?_eq_some_iff (s : String) (p : Position) : parse? s = some p ↔ p.IsWritten s := by
  constructor
  · intro h
    obtain ⟨⟨file, digits⟩, hmatch, hparts⟩ := Option.bind_eq_some_iff.mp h
    obtain ⟨before, after, htext, hbefore, hafter, htrimmed⟩ := Text.exists_eq_trim s.toList
    obtain ⟨hsplit, hne, honeLine, -⟩ := match?_eq_some_iff.mp hmatch
    rw [hsplit] at htext htrimmed
    obtain ⟨line, hline, rfl⟩ := Option.map_eq_some_iff.mp hparts
    obtain ⟨hnumber, hle⟩ := line?_eq_some_iff.mp hline
    refine ⟨before, digits, after, ?_, hbefore, hafter, ?_, hnumber, hle⟩
    · rw [htext, String.toList_ofList]
    · rw [String.toList_ofList]
      refine ⟨hne, honeLine, ?_⟩
      obtain ⟨first, rest, rfl⟩ := List.exists_cons_of_ne_nil hne
      exact htrimmed.head
  · rintro ⟨before, digits, after, htext, hbefore, hafter, hfile, hnumber, hle⟩
    have htrim := Text.trim_append (isTrimmed_of_parts hfile hnumber) (by simp) hbefore hafter
    have hmatch := match?_eq_some_iff.mpr
      ⟨rfl, hfile.ne_nil, hfile.oneLine, hnumber.isDecimals⟩
    rw [parse?, htext, htrim, hmatch, Option.bind_some]
    simp only [line?_eq_some_iff.mpr ⟨hnumber, hle⟩, String.ofList_toList]
    rfl

theorem isWritten_render {p : Position} (hfile : IsFile p.file.toList)
    (hline : p.line ≤ 4294967295) : p.IsWritten p.render := by
  refine ⟨[], (Nat.repr p.line).toList, [], ?_, rfl, rfl, hfile, isNumber_repr p.line, hline⟩
  simp [render]

/-- **Positions are read from just the texts that are written for them**, whatever the text, and
the text that a position is shown as is one of these: a position whose file can stand before a
colon comes back from it. -/
theorem parse_iff_isWritten_and_parse_render :
    (∀ (s : String) (p : Position), parse? s = some p ↔ p.IsWritten s)
      ∧ ∀ p : Position, IsFile p.file.toList → p.line ≤ 4294967295 → parse? p.render = some p := by
  refine ⟨parse?_eq_some_iff, ?_⟩
  intro p hfile hline
  exact (parse?_eq_some_iff p.render p).mpr (isWritten_render hfile hline)

/-- A path with a colon, a digit after it, and a blank at its end, which the colon keeps. -/
def inDrive : Position := ⟨"C:2 ", 4294967295⟩

/-- The path is read back, and zeros before the line and white space around the text do not
matter. -/
theorem inDrive_parse :
    IsFile inDrive.file.toList ∧ parse? inDrive.render = some inDrive
      ∧ inDrive.IsWritten "\u3000 C:2 :004294967295\n"
      ∧ parse? "\u3000 C:2 :004294967295\n" = some inDrive := by
  have hfile : IsFile inDrive.file.toList := by
    refine ⟨by decide, by decide, ?_⟩
    intro c hc
    cases hc
    decide
  have hwritten : inDrive.IsWritten "\u3000 C:2 :004294967295\n" :=
    ⟨['\u3000', ' '], "004294967295".toList, ['\n'], by decide, by decide, by decide, hfile,
      ⟨by decide, by decide, by decide⟩, by decide⟩
  exact ⟨hfile, parse_iff_isWritten_and_parse_render.2 inDrive hfile (by decide), hwritten,
    (parse_iff_isWritten_and_parse_render.1 _ inDrive).mpr hwritten⟩

end Position

end ExtensionCompiler

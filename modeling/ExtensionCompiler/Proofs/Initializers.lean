import ExtensionCompiler.Proofs.ReadBack
import ExtensionCompiler.Stmt.Analysis

set_option autoImplicit false

/-! # Initial values in braces

The declaration of an array can give values to its first elements, in braces and separated by
commas. A comma inside a literal separates nothing, so a reader has to know where literals begin and
end (`C.Place`). It finds the elements again that stand in the initial value of an array
(`ArrayVariable.readInitial_initialText`). -/

namespace ExtensionCompiler

namespace C

/-- Where the next character stands: outside of literals, in one that ends with `quote`, or there
behind a backslash. -/
inductive Place where
  | outside
  | within (quote : Char)
  | escaped (quote : Char)
deriving DecidableEq

namespace Place

def next : Place → Char → Place
  | outside, c => if c = '"' ∨ c = '\'' then within c else outside
  | within quote, c =>
    if c = '\\' then escaped quote else if c = quote then outside else within quote
  | escaped quote, _ => within quote

/-- The place after a text, if it has no comma outside of literals. -/
def after? : Place → List Char → Option Place
  | place, [] => some place
  | place, c :: rest =>
    if place = outside ∧ c = ',' then none else after? (place.next c) rest

end Place

/-- The texts between the commas that stand outside of literals. -/
def pieces : Place → List Char → List (List Char)
  | _, [] => [[]]
  | place, c :: rest =>
    if place = .outside ∧ c = ',' then [] :: pieces .outside rest
    else (pieces (place.next c) rest).modifyHead (c :: ·)

/-- The texts of the elements that an initial value lists. -/
def readInitial (text : String) : Option (List String) :=
  let inner := text.toList.tail.dropLast
  if text.toList.head? = some '\x7b' ∧ text.toList.getLast? = some '\x7d' then
    if inner.isEmpty then some []
    else some ((pieces .outside inner).map fun p => String.ofList (p.dropWhile (· == ' ')))
  else none

/-! ## Texts without a comma of their own -/

variable {cs : List Char}

theorem pieces_append {place place' : Place} (h : place.after? cs = some place')
    (rest : List Char) :
    pieces place (cs ++ rest) = (pieces place' rest).modifyHead (cs ++ ·) := by
  induction cs generalizing place with
  | nil =>
      cases h
      rw [List.nil_append]
      cases pieces place' rest <;> rfl
  | cons c cs ih =>
      rw [Place.after?] at h
      by_cases hcomma : place = .outside ∧ c = ','
      · rw [if_pos hcomma] at h
        cases h
      · rw [if_neg hcomma] at h
        rw [List.cons_append, pieces, if_neg hcomma, ih h, List.modifyHead_modifyHead]
        rfl

theorem Place.after?_append {place place' : Place} (h : place.after? cs = some place')
    (rest : List Char) : place.after? (cs ++ rest) = place'.after? rest := by
  induction cs generalizing place with
  | nil =>
      cases h
      rfl
  | cons c cs ih =>
      rw [after?] at h
      by_cases hcomma : place = .outside ∧ c = ','
      · rw [if_pos hcomma] at h
        cases h
      · rw [if_neg hcomma] at h
        rw [List.cons_append, after?, if_neg hcomma]
        exact ih h

/-- The text is one piece: it begins with no blank, and outside of literals it has no comma. -/
structure IsPiece (cs : List Char) : Prop where
  after : Place.outside.after? cs = some .outside
  start : ∃ c, cs.head? = some c ∧ c ≠ ' '

theorem IsPiece.dropWhile (h : IsPiece cs) : cs.dropWhile (· == ' ') = cs := by
  obtain ⟨c, hc, hne⟩ := h.start
  obtain ⟨rest, rfl⟩ := List.head?_eq_some_iff.mp hc
  rw [List.dropWhile_cons_of_neg (by simpa using hne)]

/-- Pieces with commas between them are found again. -/
theorem map_pieces_commas {texts : List String} (hne : texts ≠ [])
    (h : ∀ t ∈ texts, IsPiece t.toList) :
    (pieces .outside (Text.commas texts).toList).map (fun p =>
      String.ofList (p.dropWhile (· == ' '))) = texts := by
  induction texts with
  | nil => exact absurd rfl hne
  | cons t rest ih =>
      obtain ⟨ht, hrest⟩ := List.forall_mem_cons.mp h
      cases rest with
      | nil =>
          have hpieces := pieces_append ht.after []
          rw [List.append_nil] at hpieces
          simp [Text.commas, hpieces, pieces, ht.dropWhile]
      | cons next rest =>
          have htext : (Text.commas (t :: next :: rest)).toList
              = t.toList ++ ',' :: ' ' :: (Text.commas (next :: rest)).toList := by
            simp [Text.commas, String.toList_append]
          -- the blank after the comma is dropped
          have hblank (cs : List Char) : (pieces .outside (' ' :: cs)).map (fun p =>
              String.ofList (p.dropWhile (· == ' ')))
                = (pieces .outside cs).map fun p => String.ofList (p.dropWhile (· == ' ')) := by
            rw [pieces, if_neg (by decide), show Place.outside.next ' ' = .outside from rfl]
            cases pieces .outside cs <;> simp
          rw [htext, pieces_append ht.after, pieces, if_pos ⟨rfl, rfl⟩, List.modifyHead_cons,
            List.map_cons, hblank, ih (List.cons_ne_nil _ _) hrest, List.append_nil, ht.dropWhile,
            String.ofList_toList]

/-- The elements of an initial value are found again. -/
theorem readInitial_commas {texts : List String} (h : ∀ t ∈ texts, IsPiece t.toList) :
    readInitial ("\x7b" ++ Text.commas texts ++ "\x7d") = some texts := by
  have htext : ("\x7b" ++ Text.commas texts ++ "\x7d").toList
      = '\x7b' :: ((Text.commas texts).toList ++ ['\x7d']) := by
    simp [String.toList_append]
  rw [readInitial, htext, if_pos (by simp [List.getLast?_cons]), List.tail_cons,
    List.dropLast_concat]
  cases texts with
  | nil => rfl
  | cons t rest =>
      have hne : (Text.commas (t :: rest)).toList.isEmpty = false := by
        obtain ⟨c, hc, -⟩ := (h t List.mem_cons_self).start
        obtain ⟨cs, hcs⟩ := List.head?_eq_some_iff.mp hc
        cases rest <;> simp [Text.commas, String.toList_append, hcs]
      rw [hne, if_neg Bool.false_ne_true, map_pieces_commas (List.cons_ne_nil _ _) h]

/-! ## The texts of literals -/

/-- The characters of names and numbers. -/
def isPlain (c : Char) : Bool := c.isAlphanum || c == '.' || c == '-'

def isPlainText (s : String) : Bool := s.toList.all isPlain

theorem isPlainText_append (s t : String) :
    isPlainText (s ++ t) = (isPlainText s && isPlainText t) := by
  simp [isPlainText, String.toList_append]

theorem after?_of_isPlain (h : cs.all isPlain = true) :
    Place.outside.after? cs = some .outside := by
  induction cs with
  | nil => rfl
  | cons c cs ih =>
      rw [List.all_cons, Bool.and_eq_true] at h
      have hne (d : Char) (hd : isPlain d = false) : c ≠ d := by
        rintro rfl
        rw [h.1] at hd
        cases hd
      have hnext : Place.outside.next c = .outside := by
        rw [Place.next, if_neg (not_or.mpr ⟨hne _ (by decide), hne _ (by decide)⟩)]
      rw [Place.after?, if_neg fun hcomma => hne ',' (by decide) hcomma.2, hnext]
      exact ih h.2

theorem isPiece_of_isPlainText {s : String} (hne : s ≠ "") (h : isPlainText s = true) :
    IsPiece s.toList := by
  refine ⟨after?_of_isPlain h, ?_⟩
  cases hs : s.toList with
  | nil => exact absurd (String.toList_eq_nil_iff.mp hs) hne
  | cons c cs =>
      refine ⟨c, rfl, ?_⟩
      rintro rfl
      rw [isPlainText, hs, List.all_cons, Bool.and_eq_true] at h
      exact absurd h.1 (by decide)

theorem isPlain_of_isDigit {c : Char} (h : c.isDigit = true) : isPlain c = true := by
  simp [isPlain, Char.isAlphanum, h]

theorem isPlainText_repr (n : Nat) : isPlainText (Nat.repr n) = true := by
  rw [isPlainText, Term.toList_repr, List.all_eq_true]
  intro c hc
  exact isPlain_of_isDigit (List.all_eq_true.mp (Term.all_isDigit n) c hc)

theorem isPlainText_int (n : Int) : isPlainText (Int.repr n) = true := by
  cases n with
  | ofNat n => exact isPlainText_repr n
  | negSucc n =>
      rw [Int.repr, isPlainText_append, isPlainText_repr]
      rfl

/-- What stands between two quotes does not end the literal. -/
theorem LiteralBody.after? {quote : Char} {body : List Char} (h : LiteralBody quote body) :
    (Place.within quote).after? body = some (.within quote) := by
  induction h with
  | nil => rfl
  | plain hquote hback _ _ ih =>
      rw [Place.after?, if_neg (by simp), Place.next, if_neg hback, if_neg hquote]
      exact ih
  | escaped _ _ ih =>
      rw [Place.after?, if_neg (by simp), Place.next, if_pos rfl, Place.after?, if_neg (by simp)]
      exact ih

/-- A literal between quotes is one piece. -/
theorem isPiece_quoted {quote : Char} (hquote : quote = '"' ∨ quote = '\'') (cs : List Char) :
    IsPiece (quote :: escape quote cs ++ [quote]) where
  after := by
    have hopen : Place.outside.next quote = .within quote := by
      rw [Place.next, if_pos hquote]
    have hplain : quote ≠ '\\' ∧ quote ≠ ',' := by
      rcases hquote with rfl | rfl <;> decide
    have hclose : (Place.within quote).after? [quote] = some .outside := by
      simp [Place.after?, Place.next, hplain.1]
    rw [List.cons_append, Place.after?, if_neg fun hcomma => hplain.2 hcomma.2, hopen,
      Place.after?_append (literalBody_escape cs).after?, hclose]
  start := by
    refine ⟨quote, rfl, ?_⟩
    rcases hquote with rfl | rfl <;> decide

end C

namespace Decimal.Binary64

open C (isPlain isPlainText isPlainText_append isPlainText_repr isPlainText_int)

theorem isPlainText_ofList_sublist {s : String} (h : isPlainText s = true) {cs : List Char}
    (hcs : cs.Sublist s.toList) : isPlainText (String.ofList cs) = true := by
  rw [isPlainText, String.toList_ofList, List.all_eq_true]
  exact fun c hc => List.all_eq_true.mp h c (hcs.subset hc)

theorem isPlainText_positional (d : Numeral) : isPlainText (positional d) = true := by
  have hdigits := isPlainText_repr d.digits
  have hzeros (n : Nat) : isPlainText (Text.repeated n '0') = true := by
    simp [isPlainText, Text.repeated, isPlain]
  have hstart (n : Nat) := isPlainText_ofList_sublist hdigits (List.take_sublist n _)
  have hend (n : Nat) := isPlainText_ofList_sublist hdigits (List.drop_sublist n _)
  unfold positional
  dsimp only
  split
  · rw [isPlainText_append, isPlainText_append, hdigits, hzeros]
    rfl
  · split
    · rw [isPlainText_append, isPlainText_append, hstart, hend]
      rfl
    · rw [isPlainText_append, isPlainText_append, hdigits, hzeros]
      rfl

theorem isPlainText_scientific (d : Numeral) : isPlainText (scientific d) = true := by
  have hdigits := isPlainText_repr d.digits
  have hstart := isPlainText_ofList_sublist hdigits (List.take_sublist 1 _)
  have hend := isPlainText_ofList_sublist hdigits (List.drop_sublist 1 _)
  unfold scientific
  dsimp only
  rw [isPlainText_append, isPlainText_append, isPlainText_append, hstart, isPlainText_int]
  split
  · rfl
  · rw [isPlainText_append, hend]
    rfl

theorem isPlainText_render (x : Binary64) : isPlainText x.render = true := by
  unfold render
  split
  · split
    · split <;> rfl
    · rfl
  · rw [isPlainText_append, Bool.and_eq_true]
    constructor
    · split <;> rfl
    · unfold unsignedText decimalText
      dsimp only
      split
      · rfl
      · split
        · exact isPlainText_positional _
        · exact isPlainText_scientific _

theorem unsignedText_ne_empty (x : Binary64) : x.unsignedText ≠ "" := by
  unfold unsignedText decimalText
  dsimp only
  split
  · decide
  · split
    · unfold positional
      dsimp only
      split
      · simp
      · split <;> simp
    · simp [scientific]

theorem render_ne_empty (x : Binary64) : x.render ≠ "" := by
  unfold render
  split
  · split
    · split <;> decide
    · decide
  · simp [unsignedText_ne_empty]

end Decimal.Binary64

/-! ## The initial value of an array -/

theorem Literal.isPiece (value : Literal) : C.IsPiece value.term.render.toList := by
  cases value with
  | int n =>
      refine C.isPiece_of_isPlainText ?_ (C.isPlainText_int n)
      show Int.repr n ≠ ""
      cases n with
      | ofNat n =>
          intro hempty
          have hnil := String.toList_eq_nil_iff.mpr hempty
          exact Nat.toDigits_ne_nil ((C.Term.toList_repr n).symm.trans hnil)
      | negSucc n => simp [Int.repr]
  | float x => exact C.isPiece_of_isPlainText x.render_ne_empty x.isPlainText_render
  | char c =>
      have hquoted := C.isPiece_quoted (.inr rfl) [c]
      rw [C.escape, List.flatMap_singleton] at hquoted
      rwa [term, C.Term.render, C.charLiteral, String.toList_ofList]
  | text s =>
      rw [term, C.Term.render, C.textLiteral, String.toList_ofList]
      exact C.isPiece_quoted (.inl rfl) s.toList
  | yes | no | nil => exact C.isPiece_of_isPlainText (by decide) (by decide)

namespace ArrayVariable

/-- A constant element is a literal that stands as it is. -/
theorem term_of_isConstant {e : Expr} (h : isConstant e = true) :
    ∃ value : Literal, e.term = value.term := by
  cases e with
  | literal info value =>
      have hnone : info.conversion = none := by
        simpa [isConstant, Expr.isLiteral, Expr.conversion?, Expr.info] using h
      exact ⟨value, by rw [Expr.term, Info.convert, hnone]⟩
  | _ => cases h

/-- The elements that an array lists are those of its initial value. -/
theorem readInitial_initialText {elements : List Expr} (h : elements.all isConstant = true) :
    C.readInitial (initialText elements) = some (elements.map fun e => e.term.render) := by
  apply C.readInitial_commas
  intro text htext
  obtain ⟨e, he, rfl⟩ := List.mem_map.mp htext
  obtain ⟨value, hvalue⟩ := term_of_isConstant (List.all_eq_true.mp h e he)
  rw [hvalue]
  exact value.isPiece

end ArrayVariable

end ExtensionCompiler

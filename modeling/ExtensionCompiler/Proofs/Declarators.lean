import ExtensionCompiler.Proofs.ReadBack

set_option autoImplicit false

/-! # Declarations of C, read from tokens

A declaration of C has the name of a type and then a declarator, which shows the declared name in
use: stars before it, a dimension or parameters behind it, and parentheses where a star is to come
first. A parameter has a declarator too, mostly without a name. `Declarator.declares` turns one
inside out and gives the type of the name.

Which words are names of types is no matter of grammar (`Typedefs`). Parameters are read by the
rules for them: empty parentheses say nothing about the parameters, and a lone `void` without a name
says that there are none. Qualifiers, enumerations and dimensions other than numbers are left out.

The second half puts texts together from pieces. Of each piece it says both which tokens the text
falls into and what the reader makes of them. -/

namespace ExtensionCompiler.C

open Token (Splits Apart)
open Grammar (Reads mark?)

/-! ## Types and declarators -/

/-- A type of C. -/
inductive TypeTree where
  | base (spelling : List Char)
  | pointer (target : TypeTree)
  | array (element : TypeTree) (size : List Char)
  /-- A function, whose parameters are not always known. -/
  | function (params : Option (List TypeTree)) (result : TypeTree)

/-- A type behind some levels of indirection. -/
def TypeTree.pointers (t : TypeTree) : Nat → TypeTree
  | 0 => t
  | depth + 1 => (TypeTree.pointer t).pointers depth

/-- What stands around a declared name, from the outside in. -/
inductive Declarator where
  | name (spelling : Option (List Char))
  | pointer (inner : Declarator)
  | array (inner : Declarator) (size : List Char)
  | function (inner : Declarator) (params : Option (List TypeTree))

namespace Declarator

/-- The name that is declared, and its type. -/
def declares : Declarator → TypeTree → Option (List Char) × TypeTree
  | name spelling, t => (spelling, t)
  | pointer inner, t => inner.declares (.pointer t)
  | array inner size, t => inner.declares (.array t size)
  | function inner params, t => inner.declares (.function params t)

/-- A declarator behind some stars. -/
def pointers (d : Declarator) : Nat → Declarator
  | 0 => d
  | depth + 1 => .pointer (d.pointers depth)

theorem declares_pointers (d : Declarator) (depth : Nat) (t : TypeTree) :
    (d.pointers depth).declares t = d.declares (t.pointers depth) := by
  induction depth generalizing t with
  | zero => rfl
  | succ depth ih => exact ih (.pointer t)

end Declarator

/-! ## Names of types -/

/-- What a file knows of the words that are names of types. -/
structure Typedefs where
  isType : List Char → Bool
  /-- Whether the name stands for `void`. -/
  isVoid : List Char → Bool

namespace Typedefs

/-- The names of types that the headers of every file provide. -/
def hostTypes : List String :=
  ["VALUE", "int8_t", "int16_t", "int32_t", "int64_t", "uint8_t", "uint16_t", "uint32_t",
    "uint64_t"]

/-- The keywords that names of types are made of. -/
def typeKeywords : List String :=
  ["void", "char", "short", "int", "long", "float", "double", "signed", "unsigned", "_Bool",
    "_Complex"]

def tagKeywords : List String := ["struct", "union"]

section

variable (env : Typedefs)

def isTypeName (w : List Char) : Bool := hostTypes.contains (String.ofList w) || env.isType w

/-- The text is a name that stands for a type: one of its own, or a tag. -/
def Names (ext : Char → Bool) (name : String) : Prop :=
  isIdentifier ext name = true ∧ env.isTypeName name.toList = true
    ∨ ∃ keyword ∈ tagKeywords, ∃ tag, name = keyword ++ " " ++ tag ∧ isIdentifier ext tag = true

/-- Whether a name is one that the file itself has given to a type. -/
def isOwnName (w : List Char) : Bool :=
  !w.contains ' ' && !(typeKeywords ++ hostTypes).contains (String.ofList w)

/-- Whether an unnamed parameter of the type, alone, says that there are no parameters. -/
def standsForVoid : TypeTree → Bool
  | .base spelling =>
    String.ofList spelling == "void" || isOwnName spelling && env.isVoid spelling
  | _ => false

/-- Whether a word is the first of the name of a type. -/
def beginsType : List Token → Bool
  | .word w :: _ =>
    typeKeywords.contains (String.ofList w) || tagKeywords.contains (String.ofList w)
      || env.isTypeName w
  | _ => false

/-! ## The reader -/

/-- The keywords at the front that are part of the name of a type. -/
def keywordRun : List Token → List (List Char) × List Token
  | .word w :: rest =>
    if typeKeywords.contains (String.ofList w) then
      let r := keywordRun rest
      (w :: r.1, r.2)
    else ([], .word w :: rest)
  | ts => ([], ts)

/-- The name of a type: some keywords, a tag, or a name of its own. -/
def specifiers : List Token → Option (List Char × List Token)
  | .word w :: rest =>
    if typeKeywords.contains (String.ofList w) then
      let r := keywordRun rest
      some ([' '].intercalate (w :: r.1), r.2)
    else if tagKeywords.contains (String.ofList w) then
      match rest with
      | .word tag :: rest =>
        if Grammar.keywords.contains (String.ofList tag) then none
        else some (w ++ ' ' :: tag, rest)
      | _ => none
    else if env.isTypeName w then some (w, rest)
    else none
  | _ => none

/-- Whether the parenthesis before the tokens opens a list of parameters. -/
def opensParams (ts : List Token) : Bool := (mark? [[')']] ts).isSome || env.beginsType ts

/-- What a list of parameters says: a lone `void` without a name stands for none. -/
def parameters : List (Option (List Char) × TypeTree) → List TypeTree
  | [(none, t)] => if env.standsForVoid t then [] else [t]
  | list => list.map (·.2)

mutual

def declarator : Nat → List Token → Option (Declarator × List Token)
  | 0, _ => none
  | n + 1, ts =>
    match mark? [['*']] ts with
    | some (_, rest) => (declarator n rest).map fun r => (.pointer r.1, r.2)
    | none => (direct n ts).bind fun r => suffixes n r.1 r.2

/-- A name, a declarator in parentheses, or nothing. -/
def direct : Nat → List Token → Option (Declarator × List Token)
  | 0, _ => none
  | n + 1, ts =>
    match ts with
    | .word w :: rest =>
      if Grammar.keywords.contains (String.ofList w) then none else some (.name (some w), rest)
    | ts =>
      match mark? [['(']] ts with
      | none => some (.name none, ts)
      | some (_, rest) =>
        if env.opensParams rest then some (.name none, ts)
        else
          (declarator n rest).bind fun r => (mark? [[')']] r.2).map fun close => (r.1, close.2)

/-- Dimensions and parameters behind a declarator. -/
def suffixes : Nat → Declarator → List Token → Option (Declarator × List Token)
  | 0, _, _ => none
  | n + 1, d, ts =>
    match mark? [['['], ['(']] ts with
    | none => some (d, ts)
    | some (m, rest) =>
      if m = ['['] then
        match rest with
        | .number size :: rest =>
          (mark? [[']']] rest).bind fun close => suffixes n (.array d size) close.2
        | _ => none
      else (params n rest).bind fun r => suffixes n (.function d r.1) r.2

/-- What stands between the parentheses of a function. -/
def params : Nat → List Token → Option (Option (List TypeTree) × List Token)
  | 0, _ => none
  | n + 1, ts =>
    match mark? [[')']] ts with
    | some (_, rest) => some (none, rest)
    | none => (paramList n ts).map fun r => (some (env.parameters r.1), r.2)

def paramList : Nat → List Token → Option (List (Option (List Char) × TypeTree) × List Token)
  | 0, _ => none
  | n + 1, ts =>
    (parameter n ts).bind fun r =>
      match mark? [[',']] r.2 with
      | some (_, rest) => (paramList n rest).map fun q => (r.1 :: q.1, q.2)
      | none => (mark? [[')']] r.2).map fun close => ([r.1], close.2)

/-- The name of a type and a declarator. -/
def parameter : Nat → List Token → Option ((Option (List Char) × TypeTree) × List Token)
  | 0, _ => none
  | n + 1, ts =>
    (env.specifiers ts).bind fun s =>
      (declarator n s.2).map fun r => (r.1.declares (.base s.1), r.2)

end

/-- The name that the tokens declare, and its type. There may be `static` before the declaration and
a semicolon behind it. -/
def parse (ts : List Token) : Option (List Char × TypeTree) :=
  let body :=
    match ts with
    | .word w :: rest => if w = "static".toList then rest else .word w :: rest
    | ts => ts
  match parameter env (4 * body.length + 4) body with
  | some ((some name, t), []) => some (name, t)
  | some ((some name, t), [.mark [';']]) => some (name, t)
  | _ => none

end

end Typedefs

/-- The name that a text declares, and its type. -/
def readDeclaration (ext : Char → Bool) (env : Typedefs) (text : String) :
    Option (List Char × TypeTree) :=
  (Token.split ext text.toList).bind env.parse

/-! ## What may follow a piece -/

/-- The characters that may stand right behind a piece. -/
def enders : List Char := [' ', '(', ')', '[', ',', ';']

def Ends (rest : List Char) : Prop := ∀ c, rest.head? = some c → c ∈ enders

theorem Ends.nil : Ends [] := fun _ h => nomatch h

theorem Ends.cons {c : Char} (h : c ∈ enders) (rest : List Char) : Ends (c :: rest) := by
  rintro _ ⟨⟩
  exact h

section

variable {ext : Char → Bool}

theorem Ends.apart {rest : List Char} (h : Ends rest) : Apart ext rest := by
  intro c hc
  have hmem := h c hc
  simp only [enders, List.mem_cons, List.not_mem_nil, or_false] at hmem
  rcases hmem with rfl | rfl | rfl | rfl | rfl | rfl
    <;> exact ⟨rfl, by decide, by decide, by decide⟩

/-- A star that no equals sign follows is a token. -/
theorem splits_star {rest : List Char} {ts : List Token} (hrest : Splits ext rest ts)
    (h : rest.head? ≠ some '=') : Splits ext ('*' :: rest) (.mark ['*'] :: ts) := by
  cases rest with
  | nil => exact hrest.mark rfl
  | cons d rest =>
      refine hrest.mark (Token.scan_operator (by decide) ?_ rest)
      have hd : '=' ≠ d := fun heq => h (congrArg some heq.symm)
      simp [Token.fuses, Token.longMarks, hd]

end

/-- Nothing that a declarator goes on with behind its name. -/
def Closed (rest : List Token) : Prop := mark? [['['], ['(']] rest = none

/-- The end of a parameter. -/
def Closing (rest : List Token) : Prop := ∃ m ∈ [[')'], [',']], ∃ tail, rest = .mark m :: tail

theorem Closing.closed {rest : List Token} (h : Closing rest) : Closed rest := by
  obtain ⟨m, hm, tail, rfl⟩ := h
  exact Grammar.mark?_of_not_mem
    ((by decide : ∀ m ∈ [[')'], [',']], m ∉ [['['], ['(']]) m hm) tail

/-- No keyword at the front. -/
def Stops (rest : List Token) : Prop :=
  ∀ w tail, rest = .word w :: tail → Grammar.keywords.contains (String.ofList w) = false

theorem stops_mark (m : List Char) (rest : List Token) : Stops (.mark m :: rest) :=
  fun _ _ h => nomatch h

/-! ## Pieces of declarations -/

section

variable (ext : Char → Bool) (env : Typedefs)

/-- A name of a type: words between blanks, which the reader takes for one. -/
structure Specifies (text : List Char) (words : List (List Char)) : Prop where
  text_eq : text = [' '].intercalate words
  ne_nil : words ≠ []
  isWord : ∀ w ∈ words, Token.isWord ext w = true
  head_ne : words.head? ≠ some "static".toList
  reads {rest : List Token} : Stops rest →
    env.specifiers (words.map .word ++ rest) = some (text, rest)

/-- A declarator without stars before it. What stands behind it may go on with it. -/
structure Direct (text : List Char) (tokens : List Token) (d : Declarator) : Prop where
  splits {rest : List Char} {ts : List Token} : Splits ext rest ts → Ends rest →
    Splits ext (text ++ rest) (tokens ++ ts)
  reads {rest rest' : List Token} {d' : Declarator} {cost : Nat} :
    Reads (fun n => env.suffixes n d) (cost + 1) rest d' rest' →
    Reads env.declarator (cost + 1 + 4 * tokens.length) (tokens ++ rest) d' rest'
  stops (rest : List Token) : Stops (tokens ++ rest)
  ne_equals (rest : List Char) : (text ++ rest).head? ≠ some '='

/-- A declarator before tokens with the property `P`. -/
structure Piece (P : List Token → Prop) (text : List Char) (tokens : List Token) (d : Declarator) :
    Prop where
  splits {rest : List Char} {ts : List Token} : Splits ext rest ts → Ends rest →
    Splits ext (text ++ rest) (tokens ++ ts)
  reads {rest : List Token} : P rest →
    Reads env.declarator (4 * tokens.length + 3) (tokens ++ rest) d rest
  stops {rest : List Token} : P rest → Stops (tokens ++ rest)
  ne_equals {rest : List Char} : Ends rest → (text ++ rest).head? ≠ some '='

/-- A declaration before tokens with the property `P`. -/
structure Declares (P : List Token → Prop) (text : List Char) (tokens : List Token)
    (declared : Option (List Char) × TypeTree) : Prop where
  splits {rest : List Char} {ts : List Token} : Splits ext rest ts → Ends rest →
    Splits ext (text ++ rest) (tokens ++ ts)
  reads {rest : List Token} : P rest →
    Reads env.parameter (4 * tokens.length) (tokens ++ rest) declared rest
  word : ∃ w tail, tokens = .word w :: tail ∧ w ≠ "static".toList

/-- What stands between the parentheses of a function. -/
structure Lists (text : List Char) (tokens : List Token) (params : Option (List TypeTree)) :
    Prop where
  splits {rest : List Char} {ts : List Token} : Splits ext rest ts →
    Splits ext (text ++ ')' :: rest) (tokens ++ .mark [')'] :: ts)
  reads (rest : List Token) :
    Reads env.params (4 * tokens.length + 3) (tokens ++ .mark [')'] :: rest) params rest

end

section

variable {ext : Char → Bool} {env : Typedefs} {P : List Token → Prop} {text : List Char}
  {tokens : List Token} {d : Declarator}

/-! ### Names of types -/

/-- A word of letters of ASCII, digits and underscores. -/
def isPlainWord : List Char → Bool
  | [] => false
  | c :: cs => (c.isAlpha || c == '_') && cs.all fun d => d.isAlpha || d == '_' || d.isDigit

theorem isWord_of_isPlainWord {w : List Char} (h : isPlainWord w = true) :
    Token.isWord ext w = true := by
  cases w with
  | nil => cases h
  | cons c cs =>
      obtain ⟨hstart, hall⟩ := Bool.and_eq_true_iff.mp h
      rw [Token.isWord, Bool.and_eq_true, List.all_eq_true]
      refine ⟨?_, fun d hd => ?_⟩
      · rw [Token.isWordStart, hstart, Bool.true_or]
      · have hchar := List.all_eq_true.mp hall d hd
        simp only [Token.isWordChar, Token.isWordStart, Bool.or_eq_true] at hchar ⊢
        rcases hchar with hletter | hdigit
        · exact .inl (.inl hletter)
        · exact .inr hdigit

theorem contains_of_isIdentifier {name : String} (h : isIdentifier ext name = true)
    {list : List String} (hlist : list.all Grammar.keywords.contains = true) :
    list.contains (String.ofList name.toList) = false := by
  rw [Bool.eq_false_iff]
  intro hmem
  have hkeyword := List.all_eq_true.mp hlist _ (List.contains_iff_mem.mp hmem)
  rw [Term.not_keyword_of_isIdentifier h] at hkeyword
  cases hkeyword

/-- A name that the file or its headers have given to a type. -/
theorem specifies_name {name : String} (hname : isIdentifier ext name = true)
    (htype : env.isTypeName name.toList = true) :
    Specifies ext env name.toList [name.toList] where
  text_eq := by simp
  ne_nil := List.cons_ne_nil _ _
  isWord := List.forall_mem_singleton.mpr (Term.isWord_of_isIdentifier hname)
  head_ne := by
    intro h
    have hstatic : ["static"].contains (String.ofList name.toList) = false :=
      contains_of_isIdentifier hname (by decide)
    rw [Option.some.inj h] at hstatic
    exact absurd hstatic (by decide)
  reads {rest} _ := by
    have hkeywords : Typedefs.typeKeywords.contains (String.ofList name.toList) = false :=
      contains_of_isIdentifier hname (by decide)
    have htags : Typedefs.tagKeywords.contains (String.ofList name.toList) = false :=
      contains_of_isIdentifier hname (by decide)
    simp only [List.map_cons, List.map_nil, List.cons_append, List.nil_append, Typedefs.specifiers,
      hkeywords, htags, htype, Bool.false_eq_true, if_false, if_true]

/-- A type of the headers. -/
theorem specifies_host {name : String} (h : name ∈ Typedefs.hostTypes) :
    Specifies ext env name.toList [name.toList] := by
  have hplain : Typedefs.hostTypes.all
      (fun k => isPlainWord k.toList && !Grammar.keywords.contains k) = true := by decide
  obtain ⟨hword, hfree⟩ := Bool.and_eq_true_iff.mp (List.all_eq_true.mp hplain name h)
  refine specifies_name ?_ ?_
  · rw [isIdentifier, isWord_of_isPlainWord hword, hfree]
    rfl
  · rw [Typedefs.isTypeName, String.ofList_toList, List.contains_iff_mem.mpr h, Bool.true_or]

/-- The tag of a structure or union. -/
theorem specifies_tag {keyword tag : String} (hkeyword : keyword ∈ Typedefs.tagKeywords)
    (htag : isIdentifier ext tag = true) :
    Specifies ext env (keyword ++ " " ++ tag).toList [keyword.toList, tag.toList] where
  text_eq := by simp [String.toList_append, List.intercalate_cons_cons]
  ne_nil := List.cons_ne_nil _ _
  isWord := by
    have hplain : Typedefs.tagKeywords.all (fun k => isPlainWord k.toList) = true := by decide
    refine List.forall_mem_cons.mpr ⟨?_, List.forall_mem_singleton.mpr ?_⟩
    · exact isWord_of_isPlainWord (List.all_eq_true.mp hplain keyword hkeyword)
    · exact Term.isWord_of_isIdentifier htag
  head_ne := by
    intro h
    rw [List.head?_cons, Option.some.injEq, String.toList_inj] at h
    subst h
    exact absurd hkeyword (by decide)
  reads {rest} _ := by
    have hnot : Typedefs.tagKeywords.all (!Typedefs.typeKeywords.contains ·) = true := by decide
    have hkeywords := List.all_eq_true.mp hnot keyword hkeyword
    rw [Bool.not_eq_true'] at hkeywords
    have htags := List.contains_iff_mem.mpr hkeyword
    have hfree := Term.not_keyword_of_isIdentifier htag
    rw [String.ofList_toList] at hfree
    simp only [List.map_cons, List.map_nil, List.cons_append, List.nil_append, Typedefs.specifiers,
      String.ofList_toList, hkeywords, htags, hfree, Bool.false_eq_true, if_false, if_true]
    simp [String.toList_append]

theorem Typedefs.Names.specifies {name : String} (h : env.Names ext name) :
    ∃ words, Specifies ext env name.toList words := by
  rcases h with ⟨hname, htype⟩ | ⟨keyword, hkeyword, tag, rfl, htag⟩
  · exact ⟨_, specifies_name hname htype⟩
  · exact ⟨_, specifies_tag hkeyword htag⟩

/-- The keywords end where none follows. -/
theorem Typedefs.keywordRun_append {rest : List Token} (h : Stops rest) {words : List String}
    (hwords : words.all typeKeywords.contains = true) :
    keywordRun ((words.map String.toList).map .word ++ rest) = (words.map String.toList, rest) := by
  induction words with
  | nil =>
      cases rest with
      | nil => rfl
      | cons t rest =>
          cases t with
          | word w =>
              have hsub : typeKeywords.all Grammar.keywords.contains = true := by decide
              have hnot : typeKeywords.contains (String.ofList w) = false := by
                rw [Bool.eq_false_iff]
                intro hmem
                have hkeyword := List.all_eq_true.mp hsub _ (List.contains_iff_mem.mp hmem)
                rw [h w rest rfl] at hkeyword
                cases hkeyword
              simp only [List.map_nil, List.nil_append, keywordRun, hnot, Bool.false_eq_true,
                if_false]
          | _ => rfl
  | cons w words ih =>
      obtain ⟨hw, hothers⟩ := Bool.and_eq_true_iff.mp hwords
      simp only [List.map_cons, List.cons_append, keywordRun, String.ofList_toList, hw, if_true,
        ih hothers]

/-- A name that is made of keywords. -/
theorem specifies_keywords {name first : String} {words : List String}
    (hname : name.toList = [' '].intercalate ((first :: words).map String.toList))
    (hwords : (first :: words).all Typedefs.typeKeywords.contains = true) :
    Specifies ext env name.toList ((first :: words).map String.toList) where
  text_eq := hname
  ne_nil := List.cons_ne_nil _ _
  isWord := by
    have hplain : Typedefs.typeKeywords.all (fun k => isPlainWord k.toList) = true := by decide
    intro w hw
    obtain ⟨k, hk, rfl⟩ := List.mem_map.mp hw
    have hmem := List.contains_iff_mem.mp (List.all_eq_true.mp hwords k hk)
    exact isWord_of_isPlainWord (List.all_eq_true.mp hplain k hmem)
  head_ne := by
    intro h
    rw [List.map_cons, List.head?_cons, Option.some.injEq, String.toList_inj] at h
    subst h
    exact absurd (Bool.and_eq_true_iff.mp hwords).1 (by decide)
  reads {rest} hrest := by
    obtain ⟨hfirst, hothers⟩ := Bool.and_eq_true_iff.mp hwords
    have hrun := Typedefs.keywordRun_append hrest hothers
    rw [List.map_cons] at hname
    simp only [List.map_cons, List.cons_append, Typedefs.specifiers, String.ofList_toList, hfirst,
      if_true, hrun, hname]

/-! ### Names and suffixes -/

theorem reads_suffixes_of_closed {rest : List Token} (h : Closed rest) (d : Declarator) :
    Reads (fun n => env.suffixes n d) 1 rest d rest :=
  .of_succ fun n _ => by
    rw [Closed] at h
    simp only [Typedefs.suffixes, h]

theorem Direct.name {x : String} (hx : isIdentifier ext x = true) :
    Direct ext env x.toList [.word x.toList] (.name (some x.toList)) where
  splits hrest hends := Term.splits_identifier hx hrest hends.apart
  reads {rest rest' d' cost} h := by
    have hread : Reads env.declarator (cost + 1 + 1) (.word x.toList :: rest) d' rest' := by
      refine .of_succ fun n hn => ?_
      obtain ⟨n, rfl⟩ : ∃ m, n = m + 1 := ⟨n - 1, by omega⟩
      have hsuffixes : env.suffixes (n + 1) (.name (some x.toList)) rest = some (d', rest') :=
        h _ hn
      simp only [Typedefs.declarator, mark?, Typedefs.direct,
        Term.not_keyword_of_isIdentifier hx, Bool.false_eq_true, if_false, Option.bind_some,
        hsuffixes]
    exact hread.mono (by simp)
  stops rest := by
    rintro w tail ⟨⟩
    exact Term.not_keyword_of_isIdentifier hx
  ne_equals rest := by
    have hword := Term.isWord_of_isIdentifier hx
    cases hname : x.toList with
    | nil =>
        rw [hname] at hword
        cases hword
    | cons c cs =>
        rw [hname] at hword
        rintro ⟨⟩
        simp [Token.isWord, Token.isWordStart] at hword

/-- A dimension behind a declarator. -/
theorem Direct.array (h : Direct ext env text tokens d) (size : Nat) :
    Direct ext env (text ++ '[' :: (Nat.toDigits 10 size ++ [']']))
      (tokens ++ [.mark ['['], .number (Nat.toDigits 10 size), .mark [']']])
      (.array d (Nat.toDigits 10 size)) where
  splits {rest ts} hrest hends := by
    have hclose : Splits ext (']' :: rest) (.mark [']'] :: ts) := hrest.bracket (by decide)
    have hnumber := Term.splits_number size hclose (Token.apart_of_mem (by decide) rest)
    have hopen := hnumber.bracket (c := '[') (by decide)
    simpa using h.splits hopen (.cons (by decide) _)
  reads {rest rest' d' cost} hread := by
    have hsuffix : Reads (fun n => env.suffixes n d) (cost + 1 + 1)
        (.mark ['['] :: .number (Nat.toDigits 10 size) :: .mark [']'] :: rest) d' rest' := by
      refine .of_succ fun n hn => ?_
      have hopen (ts : List Token) :
          mark? [['['], ['(']] (.mark ['['] :: ts) = some (['['], ts) :=
        Grammar.mark?_of_mem (by decide) ts
      have hclose (ts : List Token) : mark? [[']']] (.mark [']'] :: ts) = some ([']'], ts) :=
        Grammar.mark?_of_mem (by decide) ts
      simp only [Typedefs.suffixes, hopen, hclose, if_true, Option.bind_some, hread n hn]
    have hwhole := h.reads hsuffix
    rw [List.append_assoc]
    exact hwhole.mono (by simp only [List.length_append, List.length_cons, List.length_nil]; omega)
  stops rest := by
    rw [List.append_assoc]
    exact h.stops _
  ne_equals rest := by
    rw [List.append_assoc]
    exact h.ne_equals _

/-- Parameters behind a declarator. -/
theorem Direct.function (h : Direct ext env text tokens d) {inner : List Char}
    {between : List Token} {params : Option (List TypeTree)}
    (hparams : Lists ext env inner between params) :
    Direct ext env (text ++ '(' :: (inner ++ [')']))
      (tokens ++ .mark ['('] :: (between ++ [.mark [')']])) (.function d params) where
  splits {rest ts} hrest hends := by
    have hopen := (hparams.splits hrest).bracket (c := '(') (by decide)
    simpa using h.splits hopen (.cons (by decide) _)
  reads {rest rest' d' cost} hread := by
    have hsuffix : Reads (fun n => env.suffixes n d) (cost + 4 * between.length + 3 + 1 + 1)
        (.mark ['('] :: (between ++ .mark [')'] :: rest)) d' rest' := by
      refine .of_succ fun n hn => ?_
      have hopen (ts : List Token) :
          mark? [['['], ['(']] (.mark ['('] :: ts) = some (['('], ts) :=
        Grammar.mark?_of_mem (by decide) ts
      have hlist := hparams.reads rest n (by omega)
      have hrest := hread n (by omega)
      simp only [Typedefs.suffixes, hopen, (by decide : ['('] ≠ ['[']), if_false, hlist,
        Option.bind_some, hrest]
    have hwhole := h.reads hsuffix
    have htokens : tokens ++ .mark ['('] :: (between ++ [.mark [')']]) ++ rest
        = tokens ++ .mark ['('] :: (between ++ .mark [')'] :: rest) := by simp
    rw [htokens]
    exact hwhole.mono (by simp only [List.length_append, List.length_cons, List.length_nil]; omega)
  stops rest := by
    rw [List.append_assoc]
    exact h.stops _
  ne_equals rest := by
    rw [List.append_assoc]
    exact h.ne_equals _

theorem Direct.piece (h : Direct ext env text tokens d) : Piece ext env Closed text tokens d where
  splits := h.splits
  reads hrest := (h.reads (reads_suffixes_of_closed hrest d)).mono (by omega)
  stops _ := h.stops _
  ne_equals _ := h.ne_equals _

/-! ### Stars, blanks and parentheses -/

/-- Nothing, before the end of a parameter. -/
theorem Piece.empty : Piece ext env Closing [] [] (.name none) where
  splits hrest _ := hrest
  reads {rest} h := by
    refine .of_succ fun n hn => ?_
    obtain ⟨n, rfl⟩ : ∃ m, n = m + 1 := ⟨n - 1, by omega⟩
    have hsuffixes : env.suffixes (n + 1) (.name none) rest = some (.name none, rest) :=
      reads_suffixes_of_closed h.closed (.name none) (n + 1) (by omega)
    obtain ⟨m, hm, tail, rfl⟩ := h
    have hnone (c : List Char) (hc : c ∈ [['*'], ['(']]) : mark? [c] (.mark m :: tail) = none :=
      Grammar.mark?_of_not_mem
        ((by decide : ∀ m ∈ [[')'], [',']], ∀ c ∈ [['*'], ['(']], m ∉ [c]) m hm c hc) tail
    simp only [List.nil_append, Typedefs.declarator, Typedefs.direct,
      hnone ['*'] (by decide), hnone ['('] (by decide), Option.bind_some, hsuffixes]
  stops h := by
    obtain ⟨m, -, tail, rfl⟩ := h
    exact stops_mark m tail
  ne_equals hends heq := by
    have hmem := hends '=' heq
    simp [enders] at hmem

theorem Piece.star (h : Piece ext env P text tokens d) :
    Piece ext env P ('*' :: text) (.mark ['*'] :: tokens) (.pointer d) where
  splits hrest hends := splits_star (h.splits hrest hends) (h.ne_equals hends)
  reads {rest} hrest := by
    have hread : Reads env.declarator (4 * tokens.length + 3 + 1) (.mark ['*'] :: (tokens ++ rest))
        (.pointer d) rest := by
      refine .of_succ fun n hn => ?_
      have hstar : mark? [['*']] (.mark ['*'] :: (tokens ++ rest)) = some (['*'], tokens ++ rest) :=
        Grammar.mark?_of_mem (by decide) _
      simp only [Typedefs.declarator, hstar, h.reads hrest n hn, Option.map_some]
    exact hread.mono (by rw [List.length_cons]; omega)
  stops _ := stops_mark _ _
  ne_equals _ := by simp

theorem Piece.stars (h : Piece ext env P text tokens d) (depth : Nat) :
    Piece ext env P (List.replicate depth '*' ++ text)
      (List.replicate depth (.mark ['*']) ++ tokens) (d.pointers depth) := by
  induction depth with
  | zero => exact h
  | succ depth ih => exact ih.star

theorem Piece.blank (h : Piece ext env P text tokens d) :
    Piece ext env P (' ' :: text) tokens d where
  splits hrest hends := (h.splits hrest hends).blank
  reads := h.reads
  stops := h.stops
  ne_equals _ := by simp

theorem Piece.mono {Q : List Token → Prop} (h : Piece ext env P text tokens d)
    (himp : ∀ rest, Q rest → P rest) : Piece ext env Q text tokens d where
  splits := h.splits
  reads hrest := h.reads (himp _ hrest)
  stops hrest := h.stops (himp _ hrest)
  ne_equals := h.ne_equals

/-- A declarator in parentheses, which begins with a star and so is no list of parameters. -/
theorem Direct.parentheses (h : Piece ext env Closing text (.mark ['*'] :: tokens) d) :
    Direct ext env ('(' :: (text ++ [')']))
      (.mark ['('] :: (.mark ['*'] :: tokens ++ [.mark [')']]))
      d where
  splits {rest ts} hrest _ := by
    have hclose : Splits ext (')' :: rest) (.mark [')'] :: ts) := hrest.bracket (by decide)
    have hinner := (h.splits hclose (.cons (by decide) _)).bracket (c := '(') (by decide)
    simpa using hinner
  reads {rest rest' d' cost} hread := by
    let inside := .mark ['*'] :: (tokens ++ .mark [')'] :: rest)
    have hwhole : Reads env.declarator (cost + 4 * tokens.length + 9) (.mark ['('] :: inside) d'
        rest' := by
      refine .of_succ fun n hn => ?_
      obtain ⟨n, rfl⟩ : ∃ m, n = m + 1 := ⟨n - 1, by omega⟩
      have hdeclarator : env.declarator n inside = some (d, .mark [')'] :: rest) :=
        h.reads ⟨[')'], by decide, rest, rfl⟩ n (by rw [List.length_cons]; omega)
      have hstar : mark? [['*']] (.mark ['('] :: inside) = none :=
        Grammar.mark?_of_not_mem (by decide) _
      have hopen : mark? [['(']] (.mark ['('] :: inside) = some (['('], inside) :=
        Grammar.mark?_of_mem (by decide) _
      have hclose : mark? [[')']] (.mark [')'] :: rest) = some ([')'], rest) :=
        Grammar.mark?_of_mem (by decide) _
      have hparams : env.opensParams inside = false := by
        simp [Typedefs.opensParams, inside, mark?, Typedefs.beginsType]
      simp only [Typedefs.declarator, hstar, Typedefs.direct, hopen, hparams, Bool.false_eq_true,
        if_false, hdeclarator, Option.bind_some, hclose, Option.map_some]
      exact hread (n + 1) (by omega)
    simp only [List.cons_append, List.append_assoc, List.nil_append]
    refine hwhole.mono ?_
    simp only [List.length_cons, List.length_append, List.length_nil]
    omega
  stops _ := stops_mark _ _
  ne_equals _ := by simp

/-! ### Declarations -/

theorem splits_words {words : List (List Char)} (hne : words ≠ [])
    (hwords : ∀ w ∈ words, Token.isWord ext w = true) {rest : List Char} {ts : List Token}
    (hrest : Splits ext rest ts) (hapart : Apart ext rest) :
    Splits ext ([' '].intercalate words ++ rest) (words.map .word ++ ts) := by
  have hword {w : List Char} (hw : Token.isWord ext w = true) {rest : List Char} {ts : List Token}
      (hrest : Splits ext rest ts) (hapart : Apart ext rest) :
      Splits ext (w ++ rest) (.word w :: ts) := by
    refine hrest.token ?_ (Token.scan_word hw hapart)
    rintro rfl
    cases hw
  induction words with
  | nil => exact absurd rfl hne
  | cons w words ih =>
      obtain ⟨hw, hothers⟩ := List.forall_mem_cons.mp hwords
      cases words with
      | nil => simpa using hword hw hrest hapart
      | cons next words =>
          have hmore := (ih (List.cons_ne_nil _ _) hothers).blank
          simpa [List.intercalate_cons_cons] using
            hword hw hmore (Token.apart_of_mem (by decide) _)

/-- The name of a type and a declarator that does not look like a part of it. -/
theorem Declares.of {name : List Char} {words : List (List Char)}
    (hname : Specifies ext env name words) (h : Piece ext env P text tokens d)
    (hapart : ∀ rest, Ends rest → Apart ext (text ++ rest)) :
    Declares ext env P (name ++ text) (words.map .word ++ tokens) (d.declares (.base name)) where
  splits {rest ts} hrest hends := by
    rw [List.append_assoc, List.append_assoc, hname.text_eq]
    exact splits_words hname.ne_nil hname.isWord (h.splits hrest hends) (hapart rest hends)
  reads {rest} hrest := by
    have hread : Reads env.parameter (4 * tokens.length + 3 + 1)
        (words.map .word ++ (tokens ++ rest)) (d.declares (.base name)) rest := by
      refine .of_succ fun n hn => ?_
      simp only [Typedefs.parameter, hname.reads (h.stops hrest), Option.bind_some,
        h.reads hrest n hn, Option.map_some]
    have hlength : 0 < words.length := List.length_pos_iff.mpr hname.ne_nil
    rw [List.append_assoc]
    refine hread.mono ?_
    simp only [List.length_append, List.length_map]
    omega
  word := by
    obtain ⟨w, more, hwords⟩ := List.exists_cons_of_ne_nil hname.ne_nil
    refine ⟨w, more.map .word ++ tokens, by rw [hwords]; rfl, ?_⟩
    rintro rfl
    exact hname.head_ne (congrArg List.head? hwords)

theorem Declares.mono {Q : List Token → Prop} {declared : Option (List Char) × TypeTree}
    (h : Declares ext env P text tokens declared) (himp : ∀ rest, Q rest → P rest) :
    Declares ext env Q text tokens declared where
  splits := h.splits
  reads hrest := h.reads (himp _ hrest)
  word := h.word

/-! ### Parameters -/

/-- Empty parentheses. -/
theorem Lists.empty : Lists ext env [] [] none where
  splits hrest := hrest.bracket (by decide)
  reads rest := by
    refine .of_succ fun n _ => ?_
    have hclose : mark? [[')']] (.mark [')'] :: rest) = some ([')'], rest) :=
      Grammar.mark?_of_mem (by decide) _
    simp only [List.nil_append, Typedefs.params, hclose]

variable {declared : Option (List Char) × TypeTree} {texts : List String}
  {list : List (Option (List Char) × TypeTree)}

/-- Parameters with commas between them. -/
structure Series (ext : Char → Bool) (env : Typedefs) (texts : List String) (tokens : List Token)
    (list : List (Option (List Char) × TypeTree)) : Prop where
  splits {rest : List Char} {ts : List Token} : Splits ext rest ts →
    Splits ext ((Text.commas texts).toList ++ ')' :: rest) (tokens ++ .mark [')'] :: ts)
  reads (rest : List Token) :
    Reads env.paramList (4 * tokens.length + 1) (tokens ++ .mark [')'] :: rest) list rest
  word : ∃ w tail, tokens = .word w :: tail

theorem Series.last {last : String} (h : Declares ext env Closing last.toList tokens declared) :
    Series ext env [last] tokens [declared] where
  splits hrest := h.splits (hrest.bracket (by decide)) (.cons (by decide) _)
  reads rest := by
    refine .of_succ fun n hn => ?_
    have hparam : env.parameter n (tokens ++ .mark [')'] :: rest)
        = some (declared, .mark [')'] :: rest) := h.reads ⟨[')'], by decide, rest, rfl⟩ n hn
    have hcomma : mark? [[',']] (.mark [')'] :: rest) = none :=
      Grammar.mark?_of_not_mem (by decide) _
    have hclose : mark? [[')']] (.mark [')'] :: rest) = some ([')'], rest) :=
      Grammar.mark?_of_mem (by decide) _
    simp only [Typedefs.paramList, hparam, Option.bind_some, hcomma, hclose, Option.map_some]
  word := by
    obtain ⟨w, tail, rfl, -⟩ := h.word
    exact ⟨w, tail, rfl⟩

theorem Series.cons {first next : String} {more : List Token}
    (h : Declares ext env Closing first.toList tokens declared)
    (hothers : Series ext env (next :: texts) more list) :
    Series ext env (first :: next :: texts) (tokens ++ .mark [','] :: more) (declared :: list) where
  splits {rest ts} hrest := by
    have htext : (Text.commas (first :: next :: texts)).toList
        = first.toList ++ ',' :: ' ' :: (Text.commas (next :: texts)).toList := by
      simp [Text.commas, String.toList_append]
    have hcomma := (hothers.splits hrest).blank.bracket (by decide : ',' ∈ Token.brackets)
    rw [htext]
    simpa using h.splits hcomma (.cons (by decide) _)
  reads rest := by
    have hread : Reads env.paramList (4 * tokens.length + 4 * more.length + 1 + 1)
        (tokens ++ .mark [','] :: (more ++ .mark [')'] :: rest)) (declared :: list) rest := by
      refine .of_succ fun n hn => ?_
      have hparam : env.parameter n (tokens ++ .mark [','] :: (more ++ .mark [')'] :: rest))
          = some (declared, .mark [','] :: (more ++ .mark [')'] :: rest)) :=
        h.reads ⟨[','], by decide, _, rfl⟩ n (by omega)
      have hcomma (ts : List Token) : mark? [[',']] (.mark [','] :: ts) = some ([','], ts) :=
        Grammar.mark?_of_mem (by decide) _
      simp only [Typedefs.paramList, hparam, Option.bind_some, hcomma,
        hothers.reads rest n (by omega), Option.map_some]
    simp only [List.append_assoc, List.cons_append]
    refine hread.mono ?_
    simp only [List.length_append, List.length_cons]
    omega
  word := by
    obtain ⟨w, tail, rfl, -⟩ := h.word
    exact ⟨w, _, rfl⟩

/-- Declarations with commas between them. -/
theorem Series.of_forall {α : Type} {text : α → String}
    {said : α → Option (List Char) × TypeTree} {params : List α} (hne : params ≠ [])
    (h : ∀ a ∈ params, ∃ tokens, Declares ext env Closing (text a).toList tokens (said a)) :
    ∃ tokens, Series ext env (params.map text) tokens (params.map said) := by
  induction params with
  | nil => exact absurd rfl hne
  | cons first rest ih =>
      obtain ⟨tokens, hfirst⟩ := h first List.mem_cons_self
      cases rest with
      | nil => exact ⟨tokens, Series.last hfirst⟩
      | cons next rest =>
          obtain ⟨more, hmore⟩ := ih (List.cons_ne_nil _ _) fun a ha =>
            h a (List.mem_cons_of_mem _ ha)
          exact ⟨_, Series.cons hfirst hmore⟩

theorem Series.lists (h : Series ext env texts tokens list) :
    Lists ext env (Text.commas texts).toList tokens (some (env.parameters list)) where
  splits := h.splits
  reads rest := by
    have hread : Reads env.params (4 * tokens.length + 1 + 1) (tokens ++ .mark [')'] :: rest)
        (some (env.parameters list)) rest := by
      refine .of_succ fun n hn => ?_
      have hclose : mark? [[')']] (tokens ++ .mark [')'] :: rest) = none := by
        obtain ⟨w, tail, rfl⟩ := h.word
        rfl
      simp only [Typedefs.params, hclose, h.reads rest n hn, Option.map_some]
    exact hread.mono (by omega)

/-! ### Whole declarations -/

/-- What may follow a declaration. -/
def endings : List (List Token) := [[], [.mark [';']]]

theorem Typedefs.parse_static (ts : List Token) :
    env.parse (.word "static".toList :: ts)
      = match env.parameter (4 * ts.length + 4) ts with
        | some ((some name, t), []) => some (name, t)
        | some ((some name, t), [.mark [';']]) => some (name, t)
        | _ => none := rfl

theorem Typedefs.parse_cons {w : List Char} (h : w ≠ "static".toList) (ts : List Token) :
    env.parse (.word w :: ts)
      = match env.parameter (4 * (.word w :: ts : List Token).length + 4) (.word w :: ts) with
        | some ((some name, t), []) => some (name, t)
        | some ((some name, t), [.mark [';']]) => some (name, t)
        | _ => none := by
  simp only [Typedefs.parse, if_neg h]

/-- A declaration with a name is read as it stands, behind `static`, and before a semicolon. -/
theorem Declares.parse {name : List Char} {t : TypeTree}
    (h : Declares ext env Closed text tokens (some name, t)) {stop : List Token}
    (hstop : stop ∈ endings) :
    env.parse (tokens ++ stop) = some (name, t)
      ∧ env.parse (.word "static".toList :: (tokens ++ stop)) = some (name, t) := by
  have hclosed : Closed stop := by
    simp only [endings, List.mem_cons, List.not_mem_nil, or_false] at hstop
    rcases hstop with rfl | rfl <;> rfl
  have hparam := h.reads hclosed (4 * (tokens ++ stop).length + 4)
    (by rw [List.length_append]; omega)
  have hresult : env.parse (.word "static".toList :: (tokens ++ stop)) = some (name, t) := by
    rw [Typedefs.parse_static, hparam]
    simp only [endings, List.mem_cons, List.not_mem_nil, or_false] at hstop
    rcases hstop with rfl | rfl <;> rfl
  obtain ⟨w, tail, rfl, hw⟩ := h.word
  refine ⟨?_, hresult⟩
  rw [Typedefs.parse_static] at hresult
  rw [List.cons_append, Typedefs.parse_cons hw]
  exact hresult

end

end ExtensionCompiler.C

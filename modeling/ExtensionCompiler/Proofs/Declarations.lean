import ExtensionCompiler.Proofs.Declarators
import ExtensionCompiler.Proofs.Pending
import ExtensionCompiler.Ty.Spelling

set_option autoImplicit false

/-! # Declarations, read back from their text

The text that declares a name with a type is read by the rules of C (`C.readDeclaration`). Types
that descriptors resolve to have a simple shape: names behind levels of indirection, and pointers to
functions of such types (`Ty.Shaped`). For these the text is always a declaration of the name.

The type that is read may differ in one thing. Parameters of a function that has none are written as
empty parentheses, which say nothing about them; and a lone parameter of type `void` says that there
are none. `Ty.tree` keeps what is meant and what is said apart, and `Ty.isFaithful` tells where they
agree. -/

namespace ExtensionCompiler

open C (Typedefs TypeTree Declarator Specifies Direct Piece Declares Lists Series Closed Closing
  Ends)

open C.Token (Apart Splits)

/-! ## Types of C -/

/-- What unnamed parameters say by the rules of C. -/
def C.Typedefs.told (env : Typedefs) (params : List TypeTree) : Option (List TypeTree) :=
  if params.isEmpty then none else some (env.parameters (params.map fun t => (none, t)))

namespace Ty

mutual

/-- The type of C that a type stands for, if its parameters say what they do by `told`. -/
def tree (told : List TypeTree → Option (List TypeTree)) : Ty → TypeTree
  | primitive kind => .base kind.cName.toList
  | pointer base depth => (base.tree told).pointers depth
  | array base size => .array (base.tree told) (Nat.toDigits 10 size)
  | aggregate _ _ cName _ => .base cName.toList
  | aliased _ cName _ => .base cName.toList
  | function _ _ params result => .function (told (trees told params)) (result.tree told)
  | object => .base "VALUE".toList
  | pending name => .base name.toList

def trees (told : List TypeTree → Option (List TypeTree)) : List Ty → List TypeTree
  | [] => []
  | ty :: rest => ty.tree told :: trees told rest

end

theorem trees_eq_map (told : List TypeTree → Option (List TypeTree)) (tys : List Ty) :
    trees told tys = tys.map (tree told) := by
  induction tys with
  | nil => rfl
  | cons ty rest ih => rw [trees, ih, List.map_cons]

/-- Whether parameters are not just `void` without a name, which says that there are none. -/
def areTold : List (Option (List Char) × Ty) → Bool
  | [(none, ty)] => !ty.isVoid
  | _ => true

mutual

/-- Whether all lists of parameters in the type say what they are. Empty ones say nothing. -/
def isFaithful : Ty → Bool
  | pointer base _ => base.isFaithful
  | array base _ => base.isFaithful
  | function _ _ params result =>
    !params.isEmpty && areTold (params.map fun p => (none, p)) && allFaithful params
      && result.isFaithful
  | _ => true

def allFaithful : List Ty → Bool
  | [] => true
  | ty :: rest => ty.isFaithful && allFaithful rest

end

theorem allFaithful_iff (tys : List Ty) :
    allFaithful tys = true ↔ ∀ ty ∈ tys, ty.isFaithful = true := by
  induction tys with
  | nil => simp [allFaithful]
  | cons ty rest ih => simp [allFaithful, ih]

/-! ## Shapes -/

/-- Whether the type is written by a name. -/
def isAtom : Ty → Bool
  | pointer _ _ | array _ _ | function _ _ _ _ => false
  | _ => true

/-- Whether the type is a name, or a pointer to one. -/
def isSimple : Ty → Bool
  | pointer base depth => base.isAtom && decide (0 < depth)
  | ty => ty.isAtom

theorem isSimple_cases {ty : Ty} (h : ty.isSimple = true) :
    ty.isAtom = true ∨ ∃ base depth, ty = pointer base (depth + 1) ∧ base.isAtom = true := by
  cases ty with
  | pointer base depth =>
      rw [isSimple, Bool.and_eq_true, decide_eq_true_eq] at h
      exact .inr ⟨base, depth - 1, by rw [Nat.sub_add_cancel h.2], h.1⟩
  | _ => exact .inl h

/-- The types that descriptors resolve to. -/
inductive Shaped : Ty → Prop
  | simple {ty : Ty} : ty.isSimple = true → Shaped ty
  | callback {name cName : Option String} {params : List Ty} {result : Ty} {depth : Nat} :
      (∀ p ∈ params, Shaped p) → result.isSimple = true →
      Shaped (pointer (function name cName params result) (depth + 1))

mutual

/-- The names that the text of a type is made of. -/
def atoms : Ty → List Ty
  | pointer base _ => base.atoms
  | array base _ => base.atoms
  | function _ _ params result => atomsIn params ++ result.atoms
  | ty => [ty]

def atomsIn : List Ty → List Ty
  | [] => []
  | ty :: rest => ty.atoms ++ atomsIn rest

end

theorem atomsIn_eq_flatMap (tys : List Ty) : atomsIn tys = tys.flatMap atoms := by
  induction tys with
  | nil => rfl
  | cons ty rest ih => rw [atomsIn, ih, List.flatMap_cons]

theorem atoms_of_isAtom {ty : Ty} (h : ty.isAtom = true) : ty.atoms = [ty] := by
  cases ty with
  | pointer _ _ => cases h
  | array _ _ => cases h
  | function _ _ _ _ => cases h
  | _ => rfl

/-- A file knows the name of a type: it is the name or the tag of a type, and the file knows whether
it stands for `void`. -/
def KnownTo (ext : Char → Bool) (env : Typedefs) : Ty → Prop
  | aggregate _ _ cName _ =>
    env.Names ext cName ∧ env.standsForVoid (.base cName.toList) = false
  | aliased _ cName target =>
    env.Names ext cName ∧ env.standsForVoid (.base cName.toList) = target.isVoid
  | pending _ => False
  | _ => True

section

variable {ext : Char → Bool} {env : Typedefs}

/-! ## Names -/

theorem specifies_primitive (kind : Primitive) :
    ∃ words, Specifies ext env kind.cName.toList words := by
  have hhost {name : String} (h : name ∈ Typedefs.hostTypes) :
      ∃ words, Specifies ext env name.toList words := ⟨_, C.specifies_host h⟩
  have hkeywords (first : String) (words : List String) {name : String}
      (hname : name.toList = [' '].intercalate ((first :: words).map String.toList))
      (hwords : (first :: words).all Typedefs.typeKeywords.contains = true) :
      ∃ words, Specifies ext env name.toList words := ⟨_, C.specifies_keywords hname hwords⟩
  cases kind with
  | int8 | int16 | int32 | int64 | uint8 | uint16 | uint32 | uint64 => exact hhost (by decide)
  | char => exact hkeywords "char" [] rfl rfl
  | uchar => exact hkeywords "unsigned" ["char"] rfl rfl
  | short => exact hkeywords "short" [] rfl rfl
  | ushort => exact hkeywords "unsigned" ["short"] rfl rfl
  | int => exact hkeywords "int" [] rfl rfl
  | uint => exact hkeywords "unsigned" ["int"] rfl rfl
  | long => exact hkeywords "long" [] rfl rfl
  | ulong => exact hkeywords "unsigned" ["long"] rfl rfl
  | longLong => exact hkeywords "long" ["long"] rfl rfl
  | ulongLong => exact hkeywords "unsigned" ["long", "long"] rfl rfl
  | float => exact hkeywords "float" [] rfl rfl
  | double => exact hkeywords "double" [] rfl rfl
  | longDouble => exact hkeywords "long" ["double"] rfl rfl
  | void => exact hkeywords "void" [] rfl rfl

/-- A name that the file knows is read as a type, and as `void` if it stands for it. -/
theorem specifies_atom {ty : Ty} (h : ty.isAtom = true) (hknown : ty.KnownTo ext env) :
    (∃ words, Specifies ext env ty.cType.toList words)
      ∧ env.standsForVoid (.base ty.cType.toList) = ty.isVoid := by
  cases ty with
  | primitive kind =>
      refine ⟨specifies_primitive kind, ?_⟩
      cases kind <;> rfl
  | object =>
      have hvalue : "VALUE" ∈ Typedefs.hostTypes := by decide
      exact ⟨⟨_, C.specifies_host hvalue⟩, rfl⟩
  | aggregate kind name cName scope | aliased name cName target =>
      exact ⟨hknown.1.specifies, hknown.2⟩
  | pending name => cases hknown
  | pointer _ _ => cases h
  | array _ _ => cases h
  | function _ _ _ _ => cases h

/-! ## Names behind levels of indirection -/

theorem toList_stars (depth : Nat) : (stars depth).toList = List.replicate depth '*' :=
  String.toList_ofList

theorem apart_star (rest : List Char) : Apart ext ('*' :: rest) := by
  rintro _ ⟨⟩
  exact ⟨rfl, by decide, by decide, by decide⟩

/-- The type is written as a name and some stars, and stands for what that says. -/
structure Simple (ty : Ty) (name : String) (depth : Nat) : Prop where
  cType_eq : ty.cType = name ++ stars depth
  cDeclaration_eq (declared : String) :
    ty.cDeclaration declared = name ++ " " ++ (stars depth ++ declared)
  tree_eq (told : List TypeTree → Option (List TypeTree)) :
    ty.tree told = (TypeTree.base name.toList).pointers depth
  isFaithful : ty.isFaithful = true

theorem simple_atom {ty : Ty} (h : ty.isAtom = true) : Simple ty ty.cType 0 := by
  have hempty : stars 0 = "" := rfl
  cases ty with
  | pointer _ _ => cases h
  | array _ _ => cases h
  | function _ _ _ _ => cases h
  | _ =>
      refine ⟨?_, fun declared => ?_, fun told => rfl, rfl⟩
      · rw [hempty, String.append_empty]
      · rw [hempty, String.empty_append]
        rfl

theorem simple_pointer {base : Ty} (h : base.isAtom = true) (depth : Nat) :
    Simple (pointer base depth) base.cType depth := by
  cases base with
  | pointer _ _ => cases h
  | array _ _ => cases h
  | function _ _ _ _ => cases h
  | _ =>
      refine ⟨rfl, fun declared => ?_, fun told => rfl, rfl⟩
      rw [cDeclaration, String.append_assoc, String.append_assoc]
      rintro _ _ _ _ ⟨⟩

theorem standsForVoid_pointers (t : TypeTree) (depth : Nat) :
    env.standsForVoid ((TypeTree.pointer t).pointers depth) = false := by
  induction depth generalizing t with
  | zero => rfl
  | succ depth ih => exact ih (.pointer t)

/-- Stars set off what stands behind a name, if that does so itself. -/
theorem apart_stars {text : List Char} (h : ∀ rest, Ends rest → Apart ext (text ++ rest))
    (depth : Nat) : ∀ rest, Ends rest → Apart ext (List.replicate depth '*' ++ text ++ rest) := by
  cases depth with
  | zero => exact h
  | succ depth => exact fun rest _ => apart_star _

section

variable {ty : Ty} {name : String} {depth : Nat} {words : List (List Char)}
  {P : List C.Token → Prop} {declared : String} {tokens : List C.Token} {d : Declarator}

theorem Simple.declares_cDeclaration (h : Simple ty name depth)
    (hname : Specifies ext env name.toList words)
    (hpiece : Piece ext env P declared.toList tokens d) :
    ∃ tokens, Declares ext env P (ty.cDeclaration declared).toList tokens
      (d.declares (ty.tree env.told)) := by
  have hdeclares := Declares.of hname (hpiece.stars depth).blank
    fun rest _ => C.Token.apart_of_mem (by decide) _
  rw [Declarator.declares_pointers, ← h.tree_eq env.told] at hdeclares
  have htext : (ty.cDeclaration declared).toList
      = name.toList ++ ' ' :: (List.replicate depth '*' ++ declared.toList) := by
    simp [h.cDeclaration_eq, String.toList_append, toList_stars]
  rw [← htext] at hdeclares
  exact ⟨_, hdeclares⟩

/-- What stands behind the name and the stars of a simple type declares something of the type. -/
theorem Simple.declares (h : Simple ty name depth) (hname : Specifies ext env name.toList words)
    {behind : List Char} (hpiece : Piece ext env P behind tokens d)
    (hapart : ∀ rest, Ends rest → Apart ext (behind ++ rest)) (text : String)
    (htext : text.toList = name.toList ++ (List.replicate depth '*' ++ behind)) :
    ∃ tokens, Declares ext env P text.toList tokens (d.declares (ty.tree env.told)) := by
  have hdeclares := Declares.of hname (hpiece.stars depth) (apart_stars hapart depth)
  rw [Declarator.declares_pointers, ← h.tree_eq env.told, ← htext] at hdeclares
  exact ⟨_, hdeclares⟩

theorem Simple.declares_cType (h : Simple ty name depth)
    (hname : Specifies ext env name.toList words) :
    ∃ tokens, Declares ext env Closing ty.cType.toList tokens (none, ty.tree env.told) :=
  h.declares hname Piece.empty (fun rest hends => hends.apart) ty.cType
    (by simp [h.cType_eq, String.toList_append, toList_stars])

/-- A pointer to a function with a simple result. -/
theorem Simple.declares_callback (h : Simple ty name depth)
    (hname : Specifies ext env name.toList words)
    (hpiece : Piece ext env Closing declared.toList tokens d) (levels : Nat) {texts : List String}
    {between : List C.Token} {params : Option (List TypeTree)}
    (hparams : Lists ext env (Text.commas texts).toList between params) :
    ∃ tokens, Declares ext env Closed
      (functionDeclarator ty.cType (levels + 1) declared texts).toList tokens
      (d.declares ((TypeTree.function params (ty.tree env.told)).pointers (levels + 1))) := by
  have hinner := Direct.parentheses (hpiece.stars (levels + 1))
  have hdeclares := h.declares hname (hinner.function hparams).piece.blank
    (fun rest _ => C.Token.apart_of_mem (by decide) _)
    (functionDeclarator ty.cType (levels + 1) declared texts)
    (by simp [functionDeclarator, h.cType_eq, String.toList_append, toList_stars])
  rwa [Declarator.declares, Declarator.declares_pointers] at hdeclares

end

/-- A simple type of known names is written as a name and some stars. -/
theorem simple_of_isSimple {ty : Ty} (h : ty.isSimple = true)
    (hknown : ∀ atom ∈ ty.atoms, atom.KnownTo ext env) :
    ∃ name depth words, Simple ty name depth ∧ Specifies ext env name.toList words
      ∧ env.standsForVoid (ty.tree env.told) = ty.isVoid := by
  have hatom {ty : Ty} (h : ty.isAtom = true) (hknown : ∀ atom ∈ ty.atoms, atom.KnownTo ext env) :
      (∃ words, Specifies ext env ty.cType.toList words)
        ∧ env.standsForVoid (.base ty.cType.toList) = ty.isVoid := by
    refine specifies_atom h (hknown ty ?_)
    rw [atoms_of_isAtom h]
    exact List.mem_singleton_self ty
  rcases isSimple_cases h with hself | ⟨base, depth, rfl, hbase⟩
  · obtain ⟨⟨words, hwords⟩, hvoid⟩ := hatom hself hknown
    have hsimple := simple_atom hself
    exact ⟨_, 0, words, hsimple, hwords, hsimple.tree_eq _ ▸ hvoid⟩
  · obtain ⟨⟨words, hwords⟩, -⟩ := hatom hbase hknown
    have hsimple := simple_pointer hbase (depth + 1)
    refine ⟨_, depth + 1, words, hsimple, hwords, ?_⟩
    rw [hsimple.tree_eq]
    exact standsForVoid_pointers _ depth

/-! ## Whole types -/

/-- Types with commas between them are read as parameters without names. -/
theorem lists_cTypes {tys : List Ty}
    (h : ∀ ty ∈ tys, ∃ tokens, Declares ext env Closing ty.cType.toList tokens
      (none, ty.tree env.told)) :
    ∃ tokens, Lists ext env (Text.commas (cTypes tys)).toList tokens
      (env.told (trees env.told tys)) := by
  rw [cTypes_eq_map, trees_eq_map]
  cases tys with
  | nil => exact ⟨_, Lists.empty⟩
  | cons ty rest =>
      obtain ⟨tokens, hseries⟩ := Series.of_forall (List.cons_ne_nil _ _) h
      rw [Typedefs.told, List.map_map]
      exact ⟨tokens, hseries.lists⟩

theorem knownTo_of_function {params : List Ty} {result : Ty}
    (h : ∀ atom ∈ atomsIn params ++ result.atoms, atom.KnownTo ext env) :
    (∀ p ∈ params, ∀ atom ∈ p.atoms, atom.KnownTo ext env)
      ∧ ∀ atom ∈ result.atoms, atom.KnownTo ext env := by
  rw [atomsIn_eq_flatMap] at h
  exact ⟨fun p hp atom hatom =>
      h atom (List.mem_append_left _ (List.mem_flatMap.mpr ⟨p, hp, hatom⟩)),
    fun atom hatom => h atom (List.mem_append_right _ hatom)⟩

/-- The type alone is read as a parameter without a name. -/
theorem Shaped.declares_cType {ty : Ty} (h : Shaped ty)
    (hknown : ∀ atom ∈ ty.atoms, atom.KnownTo ext env) :
    ∃ tokens, Declares ext env Closing ty.cType.toList tokens (none, ty.tree env.told) := by
  induction h with
  | simple h =>
      obtain ⟨name, depth, words, hsimple, hwords, -⟩ := simple_of_isSimple h hknown
      exact hsimple.declares_cType hwords
  | callback _ hresult ih =>
      obtain ⟨hknownParams, hknownResult⟩ := knownTo_of_function hknown
      obtain ⟨name, depth, words, hsimple, hwords, -⟩ := simple_of_isSimple hresult hknownResult
      obtain ⟨between, hparams⟩ := lists_cTypes fun p hp => ih p hp (hknownParams p hp)
      have hempty : Piece ext env Closing "".toList [] (.name none) := Piece.empty
      obtain ⟨tokens, hdeclares⟩ := hsimple.declares_callback hwords hempty _ hparams
      rw [cType, tree, tree]
      exact ⟨tokens, hdeclares.mono fun _ => Closing.closed⟩

/-- The type around a declarator is read as what the declarator makes of it. -/
theorem Shaped.declares_cDeclaration {ty : Ty} (h : Shaped ty)
    (hknown : ∀ atom ∈ ty.atoms, atom.KnownTo ext env) {P : List C.Token → Prop}
    (hclosing : ∀ rest, Closing rest → P rest) (hclosed : ∀ rest, P rest → Closed rest)
    {declared : String} {tokens : List C.Token} {d : Declarator}
    (hpiece : Piece ext env P declared.toList tokens d) :
    ∃ tokens, Declares ext env P (ty.cDeclaration declared).toList tokens
      (d.declares (ty.tree env.told)) := by
  cases h with
  | simple h =>
      obtain ⟨name, depth, words, hsimple, hwords, -⟩ := simple_of_isSimple h hknown
      exact hsimple.declares_cDeclaration hwords hpiece
  | callback hparams hresult =>
      obtain ⟨hknownParams, hknownResult⟩ := knownTo_of_function hknown
      obtain ⟨name, depth, words, hsimple, hwords, -⟩ := simple_of_isSimple hresult hknownResult
      obtain ⟨between, hlists⟩ :=
        lists_cTypes fun p hp => (hparams p hp).declares_cType (hknownParams p hp)
      obtain ⟨tokens, hdeclares⟩ :=
        hsimple.declares_callback hwords (hpiece.mono hclosing) _ hlists
      rw [cDeclaration, tree, tree]
      exact ⟨tokens, hdeclares.mono hclosed⟩

/-- A declaration is read as one of its name with the type that it says. -/
theorem Shaped.readDeclaration {ty : Ty} (h : Shaped ty)
    (hknown : ∀ atom ∈ ty.atoms, atom.KnownTo ext env) {declared : String}
    {tokens : List C.Token} {d : Declarator} (hdirect : Direct ext env declared.toList tokens d)
    {x : List Char} {t : TypeTree} (hd : d.declares (ty.tree env.told) = (some x, t)) :
    C.readDeclaration ext env (ty.cDeclaration declared) = some (x, t) := by
  obtain ⟨tokens, hdeclares⟩ :=
    h.declares_cDeclaration hknown (fun _ => Closing.closed) (fun _ hrest => hrest) hdirect.piece
  rw [hd] at hdeclares
  have hsplit := (hdeclares.splits .nil .nil).split_eq
  rw [List.append_nil, List.append_nil] at hsplit
  have hparse := (hdeclares.parse (List.mem_cons_self : [] ∈ C.endings)).1
  rw [List.append_nil] at hparse
  rw [C.readDeclaration, hsplit, Option.bind_some, hparse]

theorem knownTo_of_isAtom {ty : Ty} (h : ty.isAtom = true) (hsettled : ty.exposed = [])
    (hnamed : ty.isNamed = true → ty.KnownTo ext env) : ty.KnownTo ext env := by
  cases ty with
  | aggregate _ _ _ _ | aliased _ _ _ => exact hnamed rfl
  | pending _ => cases hsettled
  | primitive _ | object => exact trivial
  | pointer _ _ => cases h
  | array _ _ => cases h
  | function _ _ _ _ => cases h

/-- The names in the text of a settled type are known if those are that are no keywords. -/
theorem Shaped.knownTo_atoms {ty : Ty} (h : Shaped ty) (hsettled : ty.exposed = [])
    (hnamed : ∀ atom ∈ ty.atoms, atom.isNamed = true → atom.KnownTo ext env) :
    ∀ atom ∈ ty.atoms, atom.KnownTo ext env := by
  have hsimple {ty : Ty} (h : ty.isSimple = true) (hsettled : ty.exposed = [])
      (hnamed : ∀ atom ∈ ty.atoms, atom.isNamed = true → atom.KnownTo ext env) :
      ∀ atom ∈ ty.atoms, atom.KnownTo ext env := by
    rcases isSimple_cases h with hself | ⟨base, depth, rfl, hbase⟩
    · rw [atoms_of_isAtom hself, List.forall_mem_singleton] at hnamed ⊢
      exact knownTo_of_isAtom hself hsettled hnamed
    · rw [atoms, atoms_of_isAtom hbase, List.forall_mem_singleton] at hnamed ⊢
      exact knownTo_of_isAtom hbase hsettled hnamed
  induction h with
  | simple h => exact hsimple h hsettled hnamed
  | @callback _ _ params result _ hparams hresult ih =>
      obtain ⟨hshown, hlast⟩ : waitingIn false params = [] ∧ result.exposed = [] :=
        List.append_eq_nil_iff.mp hsettled
      rw [waitingIn_eq_flatMap, List.flatMap_eq_nil_iff] at hshown
      rw [atoms, atoms, atomsIn_eq_flatMap, List.forall_mem_append] at hnamed ⊢
      refine ⟨fun atom hatom => ?_, hsimple hresult hlast hnamed.2⟩
      obtain ⟨p, hp, hinside⟩ := List.mem_flatMap.mp hatom
      exact ih p hp (hshown p hp)
        (fun a ha => hnamed.1 a (List.mem_flatMap.mpr ⟨p, hp, ha⟩)) atom hinside

/-! ## What is said and what is meant -/

theorem Shaped.standsForVoid_tree {ty : Ty} (h : Shaped ty)
    (hknown : ∀ atom ∈ ty.atoms, atom.KnownTo ext env) :
    env.standsForVoid (ty.tree env.told) = ty.isVoid := by
  cases h with
  | simple h =>
      obtain ⟨_, _, _, -, -, hvoid⟩ := simple_of_isSimple h hknown
      exact hvoid
  | callback _ _ => exact standsForVoid_pointers _ _

/-- Parameters are read as what they are if each of them is, and they are not just `void`. -/
theorem parameters_iff {params : List (Option (List Char) × Ty)}
    (hvoid : ∀ p ∈ params, env.standsForVoid (p.2.tree env.told) = p.2.isVoid)
    (h : ∀ p ∈ params, p.2.tree env.told = p.2.tree some ↔ p.2.isFaithful = true) :
    env.parameters (params.map fun p => (p.1, p.2.tree env.told))
        = trees some (params.map (·.2))
      ↔ (areTold params && allFaithful (params.map (·.2))) = true := by
  have hall : params.map (fun p => p.2.tree env.told) = trees some (params.map (·.2))
      ↔ allFaithful (params.map (·.2)) = true := by
    rw [trees_eq_map, List.map_map, List.map_inj_left, allFaithful_iff, List.forall_mem_map]
    exact forall₂_congr h
  -- only a lone parameter without a name can be taken for none
  match params, hvoid, hall with
  | [(none, ty)], hvoid, hall =>
      have hlone := hvoid (none, ty) List.mem_cons_self
      simp only [List.map_cons, List.map_nil, Typedefs.parameters, areTold] at hlone hall ⊢
      rw [hlone]
      cases ty.isVoid with
      | true => simp [trees]
      | false => simpa using hall
  | [], _, hall | [(some name, ty)], _, hall => simpa [Typedefs.parameters, areTold] using hall
  | first :: next :: rest, _, hall =>
      simpa [Typedefs.parameters, areTold, Function.comp_def] using hall

/-- Unnamed parameters of a function say what they are if there are some, and they do. -/
theorem told_trees_iff {tys : List Ty}
    (hvoid : ∀ ty ∈ tys, env.standsForVoid (ty.tree env.told) = ty.isVoid)
    (h : ∀ ty ∈ tys, ty.tree env.told = ty.tree some ↔ ty.isFaithful = true) :
    env.told (trees env.told tys) = some (trees some tys)
      ↔ (!tys.isEmpty && areTold (tys.map fun ty => (none, ty)) && allFaithful tys) = true := by
  cases tys with
  | nil => simp [Typedefs.told, trees]
  | cons first rest =>
      have hparams := @parameters_iff env ((first :: rest).map fun ty => (none, ty))
        (List.forall_mem_map.mpr hvoid) (List.forall_mem_map.mpr h)
      simp only [List.map_map, Function.comp_def, List.map_id'] at hparams
      rw [List.isEmpty_cons, Bool.not_false, Bool.true_and, ← hparams, trees_eq_map,
        Typedefs.told, List.map_map]
      exact Option.some_inj

theorem pointers_inj {t t' : TypeTree} {depth : Nat} :
    t.pointers depth = t'.pointers depth ↔ t = t' := by
  induction depth generalizing t t' with
  | zero => exact Iff.rfl
  | succ depth ih => exact ih.trans ⟨fun h => by injection h, fun h => h ▸ rfl⟩

theorem Shaped.tree_told_iff {ty : Ty} (h : Shaped ty)
    (hknown : ∀ atom ∈ ty.atoms, atom.KnownTo ext env) :
    ty.tree env.told = ty.tree some ↔ ty.isFaithful = true := by
  induction h with
  | simple h =>
      obtain ⟨name, depth, words, hsimple, -⟩ := simple_of_isSimple h hknown
      exact iff_of_true ((hsimple.tree_eq _).trans (hsimple.tree_eq _).symm) hsimple.isFaithful
  | callback hparams hresult ih =>
      obtain ⟨hknownParams, hknownResult⟩ := knownTo_of_function hknown
      obtain ⟨name, depth, words, hsimple, -⟩ := simple_of_isSimple hresult hknownResult
      have hlist := told_trees_iff
        (fun p hp => (hparams p hp).standsForVoid_tree (hknownParams p hp))
        (fun p hp => ih p hp (hknownParams p hp))
      rw [tree, tree, tree, tree, pointers_inj, isFaithful, isFaithful, hsimple.isFaithful,
        hsimple.tree_eq, hsimple.tree_eq, Bool.and_true, ← hlist, TypeTree.function.injEq]
      exact and_iff_left rfl

/-! ## The types that descriptors resolve to -/

theorem isSimple_pointerTo {base : Ty} (h : base.isAtom = true) (depth : Nat) :
    (pointerTo base depth).isSimple = true := by
  by_cases hd : depth = 0
  · subst hd
    rw [pointerTo_zero]
    cases base with
    | pointer _ _ => cases h
    | _ => exact h
  · cases base with
    | pointer _ _ => cases h
    | array _ _ => cases h
    | function _ _ _ _ => cases h
    | _ => simp [pointerTo, hd, isSimple, isAtom, Nat.pos_iff_ne_zero]

theorem atoms_pointerTo (base : Ty) (depth : Nat) : (pointerTo base depth).atoms = base.atoms := by
  unfold pointerTo
  split
  · rfl
  · split <;> rfl

variable {registry : Registry}

theorem isAtom_resolveName (h : ∀ key, (registry.meaning key).isAtom = true) (name : String) :
    (resolveName registry name).isAtom = true := by
  rw [resolveName_eq]
  cases hkeyword : Descriptor.keyword? name with
  | none => exact h _
  | some ty =>
      rcases Descriptor.type_of_keyword? hkeyword with ⟨kind, rfl⟩ | rfl
      · rfl
      · rfl

mutual

theorem shaped_resolve (h : ∀ key, (registry.meaning key).isAtom = true) :
    (d : Descriptor) → (depth : Nat) → Shaped (resolve registry d depth)
  | .named name, depth => by
      rw [resolve]
      exact .simple (isSimple_pointerTo (isAtom_resolveName h name) depth)
  | .signature base params resultDepth, depth => by
      obtain ⟨levels, hlevels⟩ : ∃ n, max depth 1 = n + 1 := ⟨max depth 1 - 1, by omega⟩
      rw [resolve, hlevels]
      exact .callback (shaped_resolveParams h params)
        (isSimple_pointerTo (isAtom_resolveName h base) resultDepth)

theorem shaped_resolveParams (h : ∀ key, (registry.meaning key).isAtom = true) :
    (params : List (Descriptor × Nat)) → ∀ ty ∈ resolveParams registry params, Shaped ty
  | [] => List.forall_mem_nil _
  | (d, depth) :: rest => by
      exact List.forall_mem_cons.mpr ⟨shaped_resolve h d depth, shaped_resolveParams h rest⟩

end

mutual

/-- The names in the text of a type are what names of the descriptor stand for. -/
theorem mem_atoms_resolve (h : ∀ key, (registry.meaning key).isAtom = true) :
    (d : Descriptor) → (depth : Nat) → ∀ atom ∈ (resolve registry d depth).atoms,
      ∃ name, atom = resolveName registry name
  | .named name, depth, atom, hatom => by
      rw [resolve, atoms_pointerTo, atoms_of_isAtom (isAtom_resolveName h name),
        List.mem_singleton] at hatom
      exact ⟨name, hatom⟩
  | .signature base params resultDepth, depth, atom, hatom => by
      rw [resolve, atoms_pointerTo, atoms, atoms_pointerTo,
        atoms_of_isAtom (isAtom_resolveName h base), List.mem_append, List.mem_singleton] at hatom
      rcases hatom with hparam | hresult
      · exact mem_atoms_resolveParams h params atom hparam
      · exact ⟨base, hresult⟩

theorem mem_atoms_resolveParams (h : ∀ key, (registry.meaning key).isAtom = true) :
    (params : List (Descriptor × Nat)) → ∀ atom ∈ atomsIn (resolveParams registry params),
      ∃ name, atom = resolveName registry name
  | [], atom, hatom => absurd hatom List.not_mem_nil
  | (d, depth) :: rest, atom, hatom => by
      rw [resolveParams, atomsIn, List.mem_append] at hatom
      rcases hatom with hfirst | hrest
      · exact mem_atoms_resolve h d depth atom hfirst
      · exact mem_atoms_resolveParams h rest atom hrest

end

theorem isAtom_of_isNamed {ty : Ty} (h : ty.isNamed = true) : ty.isAtom = true := by
  cases ty with
  | aggregate _ _ _ _ => rfl
  | aliased _ _ _ => rfl
  | _ => cases h

theorem isAtom_meaning (h : ∀ b ∈ registry.bindings, b.type.isAtom = true) (key : String) :
    (registry.meaning key).isAtom = true := by
  rw [Registry.meaning]
  cases hget : registry.get? key with
  | none => rfl
  | some ty =>
      obtain ⟨b, hfind, rfl⟩ := Option.map_eq_some_iff.mp hget
      exact h b (List.mem_of_find?_eq_some hfind)

/-- A type with a name of its own is bound if a name stands for it. -/
theorem exists_binding {ty : Ty} {name : String} (hty : ty = resolveName registry name)
    (hnamed : ty.isNamed = true) : ∃ b ∈ registry.bindings, b.type = ty := by
  rw [resolveName_eq] at hty
  cases hkeyword : Descriptor.keyword? name with
  | some found =>
      rw [hkeyword, Option.getD_some] at hty
      subst hty
      rcases Descriptor.type_of_keyword? hkeyword with ⟨kind, rfl⟩ | rfl
      · cases hnamed
      · cases hnamed
  | none =>
      rw [hkeyword, Option.getD_none, Registry.meaning] at hty
      cases hget : registry.get? (Descriptor.key name) with
      | none =>
          rw [hty, hget] at hnamed
          cases hnamed
      | some found =>
          obtain ⟨b, hfind, hb⟩ := Option.map_eq_some_iff.mp hget
          rw [hget, Option.getD_some] at hty
          exact ⟨b, List.mem_of_find?_eq_some hfind, hb.trans hty.symm⟩

/-! ## Declarations of variables -/

/-- The type, or arrays of it. -/
def dimensioned (ty : Ty) : Option Nat → Ty
  | none => ty
  | some size => array ty size

/-- A declaration is read as one of its name, with the type that it says. -/
theorem Shaped.readDeclaration_dimensioned {ty : Ty} (h : Shaped ty)
    (hknown : ∀ atom ∈ ty.atoms, atom.KnownTo ext env) (dimension : Option Nat) {x : String}
    (hx : C.isIdentifier ext x = true) :
    C.readDeclaration ext env ((ty.dimensioned dimension).cDeclaration x)
      = some (x.toList, (ty.dimensioned dimension).tree env.told) := by
  have hname : Direct ext env x.toList [.word x.toList] (.name (some x.toList)) := .name hx
  cases dimension with
  | none => exact h.readDeclaration hknown hname rfl
  | some size =>
      have htext : (x ++ "[" ++ Nat.repr size ++ "]").toList
          = x.toList ++ '[' :: (Nat.toDigits 10 size ++ [']']) := by
        simp [String.toList_append, Nat.repr, String.toList_ofList]
      have harray := hname.array size
      rw [← htext] at harray
      exact h.readDeclaration hknown harray rfl

theorem Shaped.tree_dimensioned_iff {ty : Ty} (h : Shaped ty)
    (hknown : ∀ atom ∈ ty.atoms, atom.KnownTo ext env) (dimension : Option Nat) :
    (ty.dimensioned dimension).tree env.told = (ty.dimensioned dimension).tree some
      ↔ (ty.dimensioned dimension).isFaithful = true := by
  cases dimension with
  | none => exact h.tree_told_iff hknown
  | some size =>
      rw [dimensioned, tree, tree, TypeTree.array.injEq, isFaithful, and_iff_left rfl]
      exact h.tree_told_iff hknown

end

/-- **Declarations of variables are declarations of C.** The text that declares a name with a
settled type, or with an array of it, is read as a declaration of that name with the type that its
parameters say. It is the type itself if and only if all lists of parameters in it say what they
are. -/
theorem readDeclaration_resolve {ext : Char → Bool} {env : Typedefs} {registry : Registry}
    (hregistry : ∀ b ∈ registry.bindings, b.type.isNamed = true ∧ b.type.KnownTo ext env)
    (descriptor : Descriptor) (depth : Nat) (dimension : Option Nat) {x : String}
    (hx : C.isIdentifier ext x = true)
    (hsettled : (resolve registry descriptor depth).exposed = []) :
    let ty := (resolve registry descriptor depth).dimensioned dimension
    C.readDeclaration ext env (ty.cDeclaration x) = some (x.toList, ty.tree env.told)
      ∧ (C.readDeclaration ext env (ty.cDeclaration x) = some (x.toList, ty.tree some)
          ↔ ty.isFaithful = true) := by
  have hatom := isAtom_meaning fun b hb => isAtom_of_isNamed (hregistry b hb).1
  have hshaped := shaped_resolve hatom descriptor depth
  have hknown := hshaped.knownTo_atoms hsettled fun atom hmem hnamed => by
    obtain ⟨name, hname⟩ := mem_atoms_resolve hatom descriptor depth atom hmem
    obtain ⟨b, hb, rfl⟩ := exists_binding hname hnamed
    exact (hregistry b hb).2
  have hread := hshaped.readDeclaration_dimensioned hknown dimension hx
  refine ⟨hread, ?_⟩
  rw [hread, Option.some_inj, Prod.mk.injEq, and_iff_right rfl]
  exact hshaped.tree_dimensioned_iff hknown dimension

/-- A structure of a header, and an alias. -/
def sampleRegistry : Registry :=
  ⟨[⟨"Point", .aggregate .struct "Point" "struct Point" 0, .unknown⟩,
    ⟨"Row", .aliased "Row" "row_t" (.primitive .void), .unknown⟩]⟩

/-- The file that has the alias. -/
def sampleFile : Typedefs where
  isType w := w == "row_t".toList
  isVoid w := w == "row_t".toList

/-- Three pointers to functions that take a function, and return a pointer to an alias. -/
def sampleDescriptor : Descriptor :=
  .signature "Row" [(.signature "Point" [(.named "Row", 1), (.named "unsigned int", 0)] 2, 0)] 1

theorem readDeclaration_sampleDescriptor :
    C.readDeclaration (fun _ => false) sampleFile
        (((resolve sampleRegistry sampleDescriptor 1).dimensioned (some 3)).cDeclaration "table")
      = some ("table".toList, .array
          (.pointer (.function
            (some [.pointer (.function
              (some [.pointer (.base "row_t".toList), .base "unsigned int".toList])
              (.pointer (.pointer (.base "struct Point".toList))))])
            (.pointer (.base "row_t".toList))))
          ['3']) := by
  have hregistry : ∀ b ∈ sampleRegistry.bindings,
      b.type.isNamed = true ∧ b.type.KnownTo (fun _ => false) sampleFile := by
    rw [sampleRegistry, List.forall_mem_cons, List.forall_mem_singleton]
    exact ⟨⟨rfl, .inr ⟨"struct", by decide, "Point", rfl, by decide⟩, by decide⟩,
      rfl, .inl (by decide), by decide⟩
  exact (readDeclaration_resolve hregistry sampleDescriptor 1 (some 3) (by decide)
    (by decide)).2.mpr (by decide)

/-- Empty parentheses do not say that there are no parameters. -/
theorem readDeclaration_no_parameters :
    let ty := resolve .empty (.signature "int" [] 0) 1
    ty.cDeclaration "x" = "int (*x)()"
      ∧ C.readDeclaration (fun _ => false) sampleFile (ty.cDeclaration "x")
          = some ("x".toList, .pointer (.function none (.base "int".toList)))
      ∧ ty.tree some = .pointer (.function (some []) (.base "int".toList)) := by
  have hatom : ∀ key, (Registry.empty.meaning key).isAtom = true := fun key => rfl
  have hshaped := shaped_resolve hatom (.signature "int" [] 0) 1
  have hatoms : (resolve .empty (.signature "int" [] 0) 1).atoms = [primitive .int] := by decide
  have hknown : ∀ atom ∈ (resolve .empty (.signature "int" [] 0) 1).atoms,
      atom.KnownTo (fun _ => false) sampleFile := by
    rw [hatoms, List.forall_mem_singleton]
    exact trivial
  exact ⟨by decide, hshaped.readDeclaration_dimensioned hknown none (by decide), rfl⟩

end Ty

end ExtensionCompiler

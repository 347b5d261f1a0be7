import ExtensionCompiler.Proofs.Callables
import ExtensionCompiler.Proofs.NormalForm
import ExtensionCompiler.Proofs.TypedefOrder
import ExtensionCompiler.Proofs.ValueNames

set_option autoImplicit false

/-! # Functions as values

The name of a function stands for its address, and so does the name of a method: analysis gives it
the type of a pointer to what the entry says (`Entry.valueType`). In C, what the name means is
settled by a prototype at the top of the file. This module compares the two.

For a function the prototype has the types of the entry, as far as they were known. A name that was
pending shows in the type of the value, while the prototype has what it turned out to mean; where
none shows, the two are spelled alike (`Ty.cType_rescan`). For a method the prototype has the
parameters that the host passes, whatever parameters the method has, and these never agree
(`Visit.sameAll_hostTypes`). -/

namespace ExtensionCompiler

/-! ## Spellings after the second pass -/

namespace Ty

theorem cType_pointer {base : Ty} (h : ∀ name cName params result,
    base ≠ function name cName params result) (depth : Nat) :
    (pointer base depth).cType = base.cType ++ stars depth := by
  rw [cType]
  exact h

/-- Nothing but a pending name can turn out to be a pointer or a function. -/
theorem rescan_of_exposed (registry : Registry) {ty : Ty} (h : ty.exposed = [])
    (hbare : ty.isBarePointer = false) :
    (ty.rescan registry).isBarePointer = false
      ∧ ((∀ name cName params result, ty ≠ function name cName params result) →
        ∀ name cName params result, ty.rescan registry ≠ function name cName params result) := by
  cases ty with
  | pending name => cases h
  | pointer base depth => cases hbare
  | function name cName params result =>
      exact ⟨rfl, fun hne => absurd rfl (hne name cName params result)⟩
  | _ => exact ⟨rfl, fun _ _ _ _ _ heq => by rw [rescan] at heq; cases heq⟩

mutual

/-- A type in normal form is spelled as before if its spelling shows no pending name. An alias is
spelled by its own name, whatever its target waits for. -/
theorem cType_rescan {registry : Registry} : (ty : Ty) → ty.Normal → ty.exposed = [] →
    (ty.rescan registry).cType = ty.cType
  | pending name, _, hexposed => by cases hexposed
  | pointer base depth, hnormal, hexposed => by
      obtain ⟨⟨hpos, hbare⟩, hbase⟩ := hasDepths_pointer.mp hnormal
      have hshown : base.exposed = [] := hexposed
      obtain ⟨hlater, hplain⟩ := rescan_of_exposed registry hshown hbare
      rw [rescan, pointerTo_of_not_isBarePointer hlater (by omega)]
      -- a pointer to a function is spelled around its name
      by_cases hfunction : ∃ name cName params result, base = function name cName params result
      · obtain ⟨name, cName, params, result, rfl⟩ := hfunction
        obtain ⟨hparams, hresult⟩ := hasDepths_function.mp hbase
        obtain ⟨hp, hr⟩ := List.append_eq_nil_iff.mp hshown
        rw [rescan, cType, cType, cTypes_rescanAll params hparams hp,
          cType_rescan result hresult hr]
      · have hne : ∀ name cName params result, base ≠ function name cName params result :=
          fun name cName params result heq => hfunction ⟨name, cName, params, result, heq⟩
        rw [cType_pointer hne, cType_pointer (hplain hne), cType_rescan base hbase hshown]
  | array base size, hnormal, hexposed => by
      rw [rescan, cType, cType, cType_rescan base (hasDepths_array.mp hnormal) hexposed]
  | aliased name cName target, _, _ => by rw [rescan, cType, cType]
  | function name cName params result, hnormal, hexposed => by
      have hresult := (List.append_eq_nil_iff.mp hexposed).2
      rw [rescan, cType, cType, cType_rescan result (hasDepths_function.mp hnormal).2 hresult]
  | primitive kind, _, _ | aggregate kind name cName scope, _, _ | object, _, _ => by rw [rescan]

theorem cTypes_rescanAll {registry : Registry} : (tys : List Ty) → (∀ ty ∈ tys, ty.Normal) →
    waitingIn false tys = [] → cTypes (rescanAll registry tys) = cTypes tys
  | [], _, _ => rfl
  | ty :: rest, hnormal, hexposed => by
      obtain ⟨hty, hrest⟩ := List.forall_mem_cons.mp hnormal
      obtain ⟨hfirst, hothers⟩ := List.append_eq_nil_iff.mp hexposed
      rw [rescanAll, cTypes, cTypes, cType_rescan ty hty hfirst,
        cTypes_rescanAll rest hrest hothers]

end

theorem cType_settle {registry : Registry} {ty : Ty} (hnormal : ty.Normal)
    (hexposed : ty.exposed = []) : (ty.settle registry).cType = ty.cType := by
  unfold settle
  split
  · exact cType_rescan ty hnormal hexposed
  · rfl

end Ty

/-! ## What the host passes to a method -/

namespace C

/-- The types of the parameters that the host passes to a method. -/
def Params.hostTypes : List Ty := [.primitive .int, .pointer .object 1, .object]

/-- They are those in the heading of a method. -/
theorem Params.hostText_eq :
    hostText = Text.commas (List.zipWith (fun ty name => Ty.cType ty ++ " " ++ name) hostTypes
      ["argc", "argv", selfName]) := by
  decide +kernel

/-- What is written of a heading: the result, the name, and what stands between the parentheses. -/
def Heading.spelling (h : Heading) : String × String × String :=
  (h.result.cType, h.name, h.params.render)

end C

/-- There is no object that stands for an array of objects. -/
theorem Conversion.between_of_same_objects {ty : Ty}
    (h : (Ty.pointer .object 1).same ty = true) : between .object ty = .impossible := by
  rw [Ty.same] at h
  split at h
  · rename_i base depth hty
    rw [Bool.and_eq_true, decide_eq_true_eq] at h
    obtain ⟨rfl, hbase⟩ := h
    have hobject : ty.isObject = false := by rw [Ty.isObject, hty]
    have hunbox : ty.unboxFunction? = none := by
      rw [Ty.same, Ty.isObject] at hbase
      rw [Ty.unboxFunction?, hty]
      simp only [Ty.isText, hty]
      split at hbase
      · rename_i heq
        rw [heq]
        rfl
      · cases hbase
    rw [between, hobject, hunbox]
    rfl
  · cases h

variable {v : Visit} {e : Entry} {name cName : Option String} {params : List Ty} {result : Ty}
  {registry : Registry}

/-- A method cannot have the parameters that the host passes: the second of them is no object and
cannot be made of one. -/
theorem Visit.sameAll_hostTypes (hok : v.outcome.error = none)
    (h : v.result.part.callable? = some e) (hkind : e.kind = .method)
    (htype : e.type = .function name cName params result) :
    Ty.sameAll C.Params.hostTypes params = false := by
  obtain ⟨scope, c, p⟩ := v
  cases p with
  | method d =>
      change (d.enter scope c).error = none at hok
      cases h
      cases htype
      have hbetween := Method.between_params hok
      -- only the second parameter matters
      rcases hparams : (d.enter scope c).node.params with _ | ⟨first, _ | ⟨second, rest⟩⟩
      · rfl
      · show (Ty.same _ first.type && false) = false
        exact Bool.and_false _
      · have hsecond : (Ty.pointer .object 1).same second.type = false := by
          by_contra hsame
          refine hbetween second ?_ (Conversion.between_of_same_objects (by simpa using hsame))
          rw [hparams]
          exact List.mem_cons_of_mem _ List.mem_cons_self
        show (Ty.same _ first.type && (Ty.same _ second.type && _)) = false
        rw [hsecond, Bool.false_and, Bool.and_false]
  | prototype d =>
      change (Part.prototype (d.analyse scope c).node).callable? = some e at h
      rw [Part.callable?] at h
      split at h
      · cases h
        cases hkind
      · cases h
  | function d =>
      cases h
      cases hkind
  | _ => cases h

/-! ## Values and prototypes -/

/-- A name that stands for a value, what is written for it, and the type that analysis gives it. -/
structure NamedValue where
  written : String
  cName : String
  type : Ty
deriving DecidableEq

def Expr.namedValue? : Expr → Option NamedValue
  | .name info written cName _ => some ⟨written, cName, info.type⟩
  | _ => none

/-- The names that stand for values in the expressions of a part. -/
def Part.namedValues (p : Part) : List NamedValue :=
  p.exprs.flatMap fun e => e.subtrees.filterMap Expr.namedValue?

/-- The heading of the C function that the type of the value points to. -/
def NamedValue.heading? (value : NamedValue) : Option C.Heading :=
  match value.type with
  | .pointer (.function _ _ params result) 1 => some ⟨result, value.cName, .types params⟩
  | _ => none

theorem NamedValue.heading?_of_type {value : NamedValue}
    (h : value.type = .pointer (.function name cName params result) 1) :
    value.heading? = some ⟨result, value.cName, .types params⟩ := by
  rw [heading?, h]
  rfl

theorem Entry.valueType_of_isCallable (h : e.kind.isCallable = true) :
    e.valueType = e.type.addressOf := by
  unfold valueType
  cases hkind : e.kind with
  | function => rfl
  | method => rfl
  | _ =>
      rw [hkind] at h
      cases h

/-- A name that was looked up is written as its entry says and has the type of a value of it. -/
theorem Visit.type_of_namedValue (hok : v.outcome.error = none) {value : NamedValue}
    (hvalue : value ∈ v.result.part.namedValues) {entry : Entry}
    (hfind : v.reading.find? v.scope value.written = some entry) :
    value.cName = entry.cName ∧ value.type = entry.valueType := by
  obtain ⟨e, he, hinside⟩ := List.mem_flatMap.mp hvalue
  obtain ⟨n, hn, hname⟩ := List.mem_filterMap.mp hinside
  have htyped := ((v.part.analyse_typed v.scope v.before hok).1 e he).subtrees n hn
  cases htyped with
  | name hfound _ htype =>
      cases hname
      cases hfound.symm.trans hfind
      exact ⟨rfl, htype⟩
  | _ => cases hname

/-- The functions and methods that the look-ups of a visit find are those of nodes visited
before. -/
theorem Run.exists_callable_of_find? {c : Checker} {vs ws : List Visit}
    (h : Run (Checker.start registry) (vs ++ v :: ws) c)
    (hscope : ∀ u ∈ vs ++ v :: ws, u.scope < u.before.scopes.length) {name : String}
    (he : v.reading.find? v.scope name = some e) (hkind : e.kind.isCallable = true) :
    ∃ u ∈ vs, u.result.part.callable? = some e := by
  rcases h.makes_of_find? hscope he with ⟨u, hu, _, -, hheads⟩ | hnew
  · exact ⟨u, hu, hheads hkind⟩
  · rw [hnew, EntryKind.isCallable_ofVariable] at hkind
    cases hkind

/-- The node is what the passes have made of the node of the entry, and the heading is what it
writes among the prototypes. -/
structure Revisit.Announces (x : Revisit) (e : Entry) (n : Node) (c : Checker)
    (heading : C.Heading) : Prop where
  entry : x.visit.result.part.callable? = some e
  node : n.stmt.part? = some (x.visit.settle x.state).1
  line : n.stmt.alone.header .prototypes c = [.prototype heading]

/-- Every function or method that no header provides is announced by its node, with the types that
the second pass has settled. -/
theorem Passes.exists_announces {unit : List Stmt} {checked : Checked} {visits : List Visit}
    {middle : Checker} (h : Passes unit registry checked visits middle) (hv : v ∈ visits)
    (he : v.result.part.callable? = some e) (hext : e.isExternal = false) :
    ∃ x ∈ Visit.revisits visits middle, ∃ n ∈ Stmt.nodesAll [] checked.unit,
      ∃ name cName params result heading, e.type = .function name cName params result
        ∧ Entry.heading? { e with type := .function name cName
                                    (params.map (Ty.settle x.state.registry))
                                    (result.rescan x.state.registry) } = some heading
        ∧ x.Announces e n checked.checker heading := by
  rw [← Visit.map_visit_revisits visits middle] at hv
  obtain ⟨x, hx, rfl⟩ := List.mem_map.mp hv
  obtain ⟨-, hok, -⟩ := h.run.at_revisit middle hx
  obtain ⟨name, cName, params, result, htype, hsettled⟩ :=
    Part.callable?_rescan he (Visit.isEntered_result hok) x.visit.scope x.state
  have hother (condition : Expr) : (x.visit.settle x.state).1 ≠ .condition condition :=
    fun heq => Option.some_ne_none _ (hsettled.symm.trans (congrArg Part.callable? heq))
  obtain ⟨n, hn, hnode, -⟩ := Stmt.node_of_mem_partsAll hother [] checked.unit (h.mem_parts hx)
  obtain ⟨heading, hheading, hline⟩ :=
    Stmt.header_of_callable hnode hsettled hext checked.checker
  exact ⟨x, hx, n, hn, name, cName, params, result, heading, htype, hheading, he, hnode, hline⟩

/-- What a node writes at the top of the file stands there if the request gets to it. -/
theorem Stmt.mem_file_of_header {unit : List Stmt} {c : Checker} {n : Node}
    (hn : n ∈ nodesAll [] unit) (hwithin : n.isWithin Enclosure.filesInside = true)
    {part : HeaderSection} {line : C.Code} (hline : line ∈ n.stmt.alone.header part c)
    (target : String) : line ∈ file unit c target := by
  have hsection : line ∈ sectionLines unit c part := by
    refine List.mem_append_right _ ?_
    rw [headerAll_eq part c unit [] rfl]
    exact List.mem_flatMap.mpr ⟨n, List.mem_filter.mpr ⟨hn, hwithin⟩, hline⟩
  have hall : part ∈ HeaderSection.all := by cases part <;> decide
  have hcode : line ∈ sectionCode unit c part := by
    obtain ⟨gap, heq, -⟩ := sectionCode_eq unit c part
    rw [heq]
    exact List.mem_append_left gap hsection
  exact List.mem_append_left _ (List.mem_append_left _
    (List.mem_append_right _ (List.mem_flatMap.mpr ⟨part, hall, hcode⟩)))

theorem C.Params.render_types {tys tys' : List Ty} (h : tys.map Ty.cType = tys'.map Ty.cType) :
    (types tys).render = (types tys').render := by
  cases tys with
  | nil =>
      cases tys' with
      | nil => rfl
      | cons ty rest => cases h
  | cons ty rest =>
      cases tys' with
      | nil => cases h
      | cons ty' rest' => exact congrArg Text.commas h

/-- A heading with the settled types of a function is spelled as one with the types it had, if these
show no pending name. -/
theorem C.Heading.spelling_settled (hnormal : (Ty.function name cName params result).Normal)
    (hexposed : (Ty.function name cName params result).exposed = []) (head : String) :
    (Heading.mk (result.rescan registry) head (.types (params.map (Ty.settle registry)))).spelling
      = (Heading.mk result head (.types params)).spelling := by
  obtain ⟨hparams, hresult⟩ := Ty.hasDepths_function.mp hnormal
  obtain ⟨hshown, hlast⟩ := List.append_eq_nil_iff.mp hexposed
  rw [Ty.waitingIn_eq_flatMap, List.flatMap_eq_nil_iff] at hshown
  have hspelled : (params.map (Ty.settle registry)).map Ty.cType = params.map Ty.cType := by
    rw [List.map_map]
    exact List.map_congr_left fun ty hty => Ty.cType_settle (hparams ty hty) (hshown ty hty)
  dsimp only [spelling]
  rw [Ty.cType_rescan result hresult hlast, C.Params.render_types hspelled]

/-- **The prototype of a function that is used as a value.** Let a unit compile, and let a name in
one of its expressions stand for a function or a method that no header provides. The type of the
name is a pointer to a function, and a node of the unit announces the entry under the C name that is
written, in a line of the file unless the node stands where the file does not ask.

For a function the prototype has the types that the second pass has settled. It is spelled with the
parameters and the result of the type of the name, if this shows no pending name. For a method the
prototype has the parameters that the host passes, and these are not those of the type. -/
theorem Stmt.functionValues_of_compile (unit : List Stmt) (registry : Registry) (options : Options)
    (compiled : Compiled) (h : compile unit registry options = .ok compiled) :
    ∃ checked, check unit registry = .ok checked
      ∧ compiled.code = generate checked.unit checked.checker options
      ∧ ∀ v ∈ visitsAll unit Checker.global (Checker.start registry),
          ∀ value ∈ v.result.part.namedValues, ∀ entry,
          v.reading.find? v.scope value.written = some entry →
          entry.kind.isCallable = true → entry.isExternal = false →
          ∃ params result,
            value.heading? = some ⟨result, value.cName, .types params⟩
            ∧ ∃ x ∈ Visit.revisits (visitsAll unit Checker.global (Checker.start registry))
                (analyseAll unit Checker.global (Checker.start registry)).checker,
              ∃ n ∈ nodesAll [] checked.unit, ∃ heading,
              x.Announces entry n checked.checker heading
              ∧ (n.isWithin Enclosure.filesInside = true →
                .prototype heading ∈ file checked.unit checked.checker options.target)
              ∧ (entry.kind = .method → heading = ⟨.object, value.cName, .host⟩
                ∧ Ty.sameAll C.Params.hostTypes params = false)
              ∧ (entry.kind = .function →
                heading = ⟨result.rescan x.state.registry, value.cName,
                  .types (params.map (Ty.settle x.state.registry))⟩
                ∧ ((headsAll unit).map Part.outline = headsAll unit → registry.Normal →
                  value.type.exposed = [] →
                  heading.spelling
                    = (C.Heading.mk result value.cName (.types params)).spelling)) := by
  obtain ⟨checked, hcheck, hcode, -⟩ := compile_ok h
  have hpasses := passes_of_check hcheck
  refine ⟨checked, hcheck, hcode, ?_⟩
  intro v hv value hvalue entry hfind hkind hext
  obtain ⟨vs, ws, hsplit⟩ := List.append_of_mem hv
  have hrun := hpasses.run
  rw [hsplit] at hrun
  obtain ⟨u, hu, hcallable⟩ := hrun.exists_callable_of_find? (hsplit ▸ hpasses.inRange) hfind hkind
  obtain ⟨hwritten, htype⟩ := Visit.type_of_namedValue hrun.split.2.1 hvalue hfind
  obtain ⟨x, hx, n, hn, name, cName, params, result, heading, hentry, hheading, hannounces⟩ :=
    hpasses.exists_announces (hsplit ▸ List.mem_append_left _ hu) hcallable hext
  have hpointer : value.type = .pointer (.function name cName params result) 1 := by
    rw [htype, Entry.valueType_of_isCallable hkind, hentry]
    rfl
  refine ⟨params, result, NamedValue.heading?_of_type hpointer, x, hx, n, hn, heading, hannounces,
    ?_, ?_, ?_⟩
  · intro hwithin
    exact mem_file_of_header hn hwithin (hannounces.line ▸ List.mem_singleton_self _) _
  · intro hmethod
    obtain ⟨-, hok, -⟩ := hpasses.run.at_revisit _ hx
    rw [Entry.heading?, hmethod] at hheading
    cases hheading
    exact ⟨congrArg (C.Heading.mk .object · .host) hwritten.symm,
      Visit.sameAll_hostTypes hok hannounces.entry hmethod hentry⟩
  · intro hfunction
    rw [Entry.heading?, hfunction] at hheading
    cases hheading
    rw [← hwritten]
    refine ⟨rfl, ?_⟩
    intro houtline hregistry hexposed
    have hbefore := visitsAll_before Part.analyse_bounded unit Checker.global _
      (bounded_of_outline houtline) (within_levels hregistry) v hv
    have hnormal := ((v.part.within_reading v.scope hbefore).find hfind).normal
    rw [hpointer] at hexposed
    rw [hentry] at hnormal
    exact C.Heading.spelling_settled hnormal hexposed value.cName

/-- A function whose name is used in a function that is defined after it. -/
def Stmt.handlerUnit : List Stmt :=
  let here := Position.unknown
  let param (type name : String) (depth : Nat) : Parameter :=
    { descriptor := .named type, depth, name := some name, position := here }
  [.function
      { descriptor := .named "int", depth := 0, name := "handler",
        params := [param "char" "line" 1, param "double" "weight" 0], position := here }
      [],
    .function
      { descriptor := .named "void", depth := 0, name := "install", params := [],
        position := here }
      [.evaluation ⟨.ofName "handler" here, here⟩]]

/-- The prototype of the function is the one that its value asks for. -/
theorem Stmt.handlerUnit_agrees :
    ∃ checked, check handlerUnit .empty = .ok checked
      ∧ ∃ heading, .prototype heading ∈ file checked.unit checked.checker "extension"
        ∧ heading.spelling = ("int", "__extc_c_f_handler", "char*, double") := by
  have hfiled : ∃ checked, check handlerUnit .empty = .ok checked
      ∧ ∀ n ∈ nodesAll [] checked.unit, n.isWithin Enclosure.filesInside = true :=
    exists_ok_of_decide (by decide +kernel)
  have huse : ∃ v ∈ visitsAll handlerUnit Checker.global (Checker.start .empty),
      ∃ value ∈ v.result.part.namedValues,
        ((v.reading.find? v.scope value.written).any fun entry =>
          entry.kind = .function && !entry.isExternal) = true
        ∧ value.type.exposed = []
        ∧ value.heading?.map C.Heading.spelling
          = some ("int", "__extc_c_f_handler", "char*, double") := by decide +kernel
  obtain ⟨checked, hcheck, hwithin⟩ := hfiled
  obtain ⟨compiled, hcompile⟩ : ∃ compiled, compile handlerUnit .empty {} = .ok compiled := by
    rw [compile, hcheck]
    exact ⟨_, rfl⟩
  obtain ⟨v, hv, value, hvalue, hentry, hexposed, hasked⟩ := huse
  obtain ⟨entry, hfind, hsort⟩ := (Option.any_eq_true _ _).mp hentry
  obtain ⟨hkind, hext⟩ : entry.kind = .function ∧ entry.isExternal = false := by simpa using hsort
  obtain ⟨checked', hcheck', -, hvalues⟩ :=
    functionValues_of_compile handlerUnit .empty {} compiled hcompile
  obtain rfl : checked = checked' := Except.ok.inj (hcheck.symm.trans hcheck')
  obtain ⟨params, result, hheading, x, -, n, hn, heading, -, hmem, -, hspelled⟩ :=
    hvalues v hv value hvalue entry hfind (hkind ▸ rfl) hext
  refine ⟨checked, hcheck, heading, hmem (hwithin n hn), ?_⟩
  rw [hheading] at hasked
  rw [(hspelled hkind).2 rfl (by decide) hexposed]
  exact Option.some.inj hasked

/-- A method, a function with a parameter whose type comes later, and a function in a branch. All
of them are used as values. -/
def Stmt.addressesUnit : List Stmt :=
  let here := Position.unknown
  let param (type name : String) (depth : Nat) : Parameter :=
    { descriptor := .named type, depth, name := some name, position := here }
  let function (name : String) (params : List Parameter) : Stmt :=
    .function { descriptor := .named "void", depth := 0, name, params, position := here } []
  let use (name : String) : Stmt := .evaluation ⟨.ofName name here, here⟩
  [.method { name := "m", params := [param "int" "a" 0], position := here } [],
    use "m",
    function "f" [param "T" "a" 1],
    use "f",
    .typeAlias { name := "T", descriptor := .named "int", depth := 0, position := here },
    .conditional (.test (.ofLiteral (.int 1) here) [function "g" [], use "g"] .done) here]

/-- The heading of the function that a line announces. -/
def C.Code.announced? : C.Code → Option C.Heading
  | .prototype heading => some heading
  | _ => none

/-- The unit compiles. None of the values has the type that the file announces. -/
theorem Stmt.addressesUnit_disagrees :
    ∃ checked, check addressesUnit .empty = .ok checked
      ∧ (((visitsAll addressesUnit Checker.global (Checker.start .empty)).flatMap fun v =>
            v.result.part.namedValues).filterMap NamedValue.heading?).map C.Heading.spelling
        = [("VALUE", "__extc_f_m", "int"), ("void", "__extc_c_f_f", "T*"),
          ("void", "__extc_c_f_g", "void")]
      ∧ ((file checked.unit checked.checker "extension").filterMap C.Code.announced?).map
          C.Heading.spelling
        = [("VALUE", "__extc_f_m", C.Params.hostText),
          ("void", "__extc_c_f_f", "__extc_t_Object_T*")] :=
  exists_ok_of_decide (by decide +kernel)

end ExtensionCompiler

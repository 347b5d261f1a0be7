import ExtensionCompiler.Expr.Emission
import ExtensionCompiler.Stmt.Basic

set_option autoImplicit false

/-! # Analysis of statements

The first pass over a unit. `Stmt.analyse` declares what a statement declares, in the order of the
source, and checks the types of all values against the slots they go to. A name that is not defined
yet gives a pending type. The functions before it do the part of each kind of statement that does
not go into other statements. -/

namespace ExtensionCompiler

/-! ## Variables and values -/

/-- Analyses a value that may be absent for a slot, and fits it in. -/
def Expr.analyseOptionInto (slot : Ty) (scope : ScopeId) (position : Position) :
    Option Expr → Checker → Outcome (Option Expr)
  | none, c => .ok none c
  | some value, c => (value.analyseInto slot scope position c).map some

/-- The initial value is analysed before the name is declared, so it cannot mean the new name. -/
def Variable.analyse (d : Variable) (scope : ScopeId) (c : Checker) : Outcome Variable :=
  let d := { d with type := Ty.resolve c.registry d.descriptor d.depth }
  (Expr.analyseOptionInto d.type scope d.position d.value c).andThen
    (fun value => { d with value })
    fun value c =>
      let d := { d with value }
      let entry := (c.scope scope).variableEntry d.name d.type d.isExternal d.position
      .ofDeclare (c.declare scope entry) c d { d with cName := entry.cName }

namespace ArrayVariable

/-- The size of an array, which is a whole number that is written out. -/
def size? (dimension : Expr) : Option Nat :=
  dimension.asInt?.bind fun n => if 0 ≤ n then some n.toNat else none

/-- Whether C accepts an element as a constant. -/
def isConstant (element : Expr) : Bool := element.isLiteral && element.conversion?.isNone

/-- Constant elements as an initial value in C. -/
def initialText (elements : List Expr) : String :=
  "\x7b" ++ Text.commas (elements.map fun e => e.term.render) ++ "\x7d"

def declare (d : ArrayVariable) (initial : Option String) (scope : ScopeId) (c : Checker) :
    Outcome ArrayVariable :=
  let entry := (c.scope scope).arrayEntry d.name d.type initial d.isExternal d.position
  .ofDeclare (c.declare scope entry) c d { d with cName := entry.cName }

/-- Elements that are all constant become the initial value of the declaration; others are assigned
where the declaration stands. -/
def analyse (d : ArrayVariable) (scope : ScopeId) (c : Checker) : Outcome ArrayVariable :=
  (d.dimension.analyse none scope c).andThen (fun dimension => { d with dimension })
    fun dimension c =>
  let d := { d with dimension }
  match size? dimension with
  | none => .fail ⟨.nonConstantDimension d.name, d.position⟩ d c
  | some size =>
    let base := Ty.resolve c.registry d.descriptor 0
    let d := { d with type := .array base size, assignsElements := false }
    match d.elements with
    | none => d.declare none scope c
    | some elements =>
      (Expr.analyseAllInto base scope d.position elements c).andThen
        (fun elements => { d with elements := some elements })
        fun elements c =>
          let d := { d with elements := some elements }
          if size < elements.length then
            .fail
              (mismatch d.type.describe (Nat.repr elements.length ++ " elements") d.position) d c
          else if elements.all isConstant then d.declare (some (initialText elements)) scope c
          else { d with assignsElements := true }.declare none scope c

end ArrayVariable

namespace Assignment

/-- Declares the target as an object if it is a name that nothing around declares. -/
def declareTarget (d : Assignment) (scope : ScopeId) (c : Checker) : Except Error Checker :=
  match d.target.asName? with
  | none => .ok c
  | some name =>
    match c.find? scope name with
    | some _ => .ok c
    | none => c.declare scope ((c.scope scope).variableEntry name .object false d.position)

def analyse (d : Assignment) (scope : ScopeId) (c : Checker) : Outcome Assignment :=
  match d.declareTarget scope c with
  | .error e => .fail e d c
  | .ok c =>
    (d.target.analyse none scope c).andThen (fun target => { d with target }) fun target c =>
      let d := { d with target }
      if target.isAssignable then
        (d.value.analyseInto target.type scope d.position c).map fun value => { d with value }
      else .fail ⟨.notAssignable, d.position⟩ d c

end Assignment

namespace Return

/-- What a value has to be to be returned from a function. -/
def expected (c : Checker) (function : ScopeId) : Ty :=
  match (c.scope function).returnType with
  | some type => type.concrete
  | none => .void

/-- A function that returns nothing takes no value, and one that returns an object may return
without one. -/
def analyse (d : Return) (scope : ScopeId) (c : Checker) : Outcome Return :=
  match c.enclosingFunction? scope with
  | none => .fail ⟨.returnOutsideFunction, d.position⟩ d c
  | some function =>
    let d := { d with returnType := expected c function }
    match d.value with
    | some value =>
      if d.returnType.isVoid then
        (value.analyse none scope c).andThen (fun value => { d with value := some value })
          fun value c =>
            .fail (mismatch d.returnType.describe value.type.describe d.position)
              { d with value := some value } c
      else
        (value.analyseInto d.returnType scope d.position c).map
          fun value => { d with value := some value }
    | none =>
      if d.returnType.isVoid || d.returnType.isObject then .ok d c
      else .fail (mismatch d.returnType.describe "void" d.position) d c

end Return

namespace Print

/-- Whether a value of the type can be printed: there is a value, and it is no structure. -/
def isPrintable (ty : Ty) : Bool :=
  match ty.concrete with
  | .primitive .void => false
  | .aggregate _ _ _ _ => false
  | _ => true

def analyseValues (position : Position) (scope : ScopeId) :
    List Expr → Checker → Outcome (List Expr)
  | [], c => .ok [] c
  | value :: rest, c =>
    (value.analyse none scope c).andThen (fun value => value :: rest) fun value c =>
      if isPrintable value.type then
        (analyseValues position scope rest c).map fun rest => value :: rest
      else
        .fail (mismatch "printable value" value.type.describe position) (value :: rest) c

def analyse (d : Print) (scope : ScopeId) (c : Checker) : Outcome Print :=
  (analyseValues d.position scope d.values c).map fun values => { d with values }

end Print

def Evaluation.analyse (d : Evaluation) (scope : ScopeId) (c : Checker) : Outcome Evaluation :=
  (d.value.analyse none scope c).map fun value => { d with value }

/-! ## Types and prototypes -/

namespace Aggregate

def tag (d : Aggregate) : String := d.kind.tag d.name

/-- The C name of the type: its tag if a header provides it, the name that an announcement in sight
has given it, or a new one. -/
def typeName (d : Aggregate) (scope : ScopeId) (c : Checker) : String :=
  if d.isExternal then d.tag
  else
    let new := (c.scope scope).linkageName .aggregate d.name false
    match c.find? scope d.tag with
    | some forward => if forward.kind = .type then forward.cName else new
    | none => new

/-- Opens the scope of the members and declares the type, so that the members can point to it. The
outcome holds the type. -/
def declare (d : Aggregate) (scope : ScopeId) (c : Checker) : Outcome Ty :=
  let (memberScope, c) := c.addScope d.name .aggregate scope
  let type : Ty := .aggregate d.kind d.name (d.typeName scope c) memberScope
  let c := c.register d.name type d.position
  let entry := (c.scope scope).aggregateEntry d.name type d.isExternal d.position
  .ofDeclare (c.declare scope entry) c type type

end Aggregate

namespace Forward

def tag (d : Forward) : String := d.kind.tag d.name

/-- What the registry has under the announced name. -/
def target (d : Forward) (registry : Registry) : Ty :=
  (registry.get? d.name).getD (.pending d.name)

/-- The announced type, as an alias under its tag. -/
def aliasType (d : Forward) (registry : Registry) : Ty :=
  .aliased d.tag d.cName (d.target registry)

def analyse (d : Forward) (scope : ScopeId) (c : Checker) : Outcome Forward :=
  let d := { d with cName := (c.scope scope).linkageName .type d.name false }
  let d := { d with type := d.aliasType c.registry }
  let entry := (c.scope scope).typeEntry d.tag d.type false d.position
  .ofDeclare (c.declare scope entry) c d d

end Forward

/-- The alias is registered before its name is declared in the scope. -/
def TypeAlias.analyse (d : TypeAlias) (scope : ScopeId) (c : Checker) : Outcome TypeAlias :=
  if d.isTagAlias then .ok d c
  else
    let target := Ty.resolve c.registry d.descriptor d.depth
    let cName := (c.scope scope).linkageName .type d.name d.isExternal
    let d := { d with cName, type := .aliased d.name cName target }
    let c := c.register d.name d.type d.position
    let entry := (c.scope scope).typeEntry d.name d.type d.isExternal d.position
    .ofDeclare (c.declare scope entry) c d d

def Prototype.analyse (d : Prototype) (scope : ScopeId) (c : Checker) : Outcome Prototype :=
  (Parameter.analyseAll false scope d.params c).andThen (fun params => { d with params })
    fun params c =>
      let d := { d with params }
      let result := Ty.resolve c.registry d.descriptor d.depth
      let entry := (c.scope scope).functionEntry .function d.name (Parameter.types params) result
        d.isExternal d.position
      .ofDeclare (c.declare scope entry) c d
        { d with cName := entry.cName, type := some entry.type }

/-! ## Loops over a range -/

namespace CountLoop

/-- Whether an operator between the counter and a bound counts up; other operators do neither. -/
def ascending? (operator : String) : Option Bool :=
  match operator with
  | "<" | "<=" => some true
  | ">" | ">=" => some false
  | _ => none

/-- Whether both operators count, and in one direction. -/
def isDirected (d : CountLoop) : Bool :=
  (ascending? d.leftOperator).isSome
    && decide (ascending? d.leftOperator = ascending? d.rightOperator)

/-- The counter is a whole number that is declared before; both bounds fit into it. -/
def analyse (d : CountLoop) (scope : ScopeId) (c : Checker) : Outcome CountLoop :=
  if d.isDirected then
    match c.lookup scope d.counter d.position with
    | .error e => .fail e d c
    | .ok counter =>
      if counter.type.isInteger then
        let d := { d with counterCName := counter.cName }
        (d.left.analyseInto counter.type scope d.position c).andThen
          (fun left => { d with left })
          fun left c =>
            (d.right.analyseInto counter.type scope d.position c).map
              fun right => { d with left, right }
      else .fail (mismatch "integer" counter.type.describe d.position) d c
  else .fail ⟨.invalidLoopOperators d.leftOperator d.rightOperator, d.position⟩ d c

end CountLoop

/-! ## Definitions -/

namespace Function

/-- The C name of a prototype of the scope that the function completes: not provided by a header,
and with the same parameters and result. -/
def prototype? (name : String) (params : List Ty) (result : Ty) (scope : Scope) : Option String :=
  match scope.get? name with
  | none => none
  | some entry =>
    match entry.type with
    | .function _ _ params' result' =>
      if entry.kind = .function ∧ ¬ entry.isExternal ∧ Ty.sameAll params' params
          ∧ result'.same result then
        some entry.cName
      else none
    | _ => none

/-- Opens the scope of the body with the parameters in it, and declares the function, so that it
can call itself. -/
def enter (d : Function) (scope : ScopeId) (c : Checker) : Outcome Function :=
  let (inner, c) := c.addScope d.name .function scope
  (Parameter.analyseAll true inner d.params c).andThen (fun params => { d with params })
    fun params c =>
      let types := Parameter.types params
      let d := { d with params, returnType := Ty.resolve c.registry d.descriptor d.depth }
      let c := c.setReturnType inner (some d.returnType)
      match prototype? d.name types d.returnType (c.scope scope) with
      | some cName => .ok { d with cName, scope := some inner } c
      | none =>
        let entry := (c.scope scope).functionEntry .function d.name types d.returnType false
          d.position
        .ofDeclare (c.declare scope entry) c d { d with cName := entry.cName, scope := some inner }

end Function

namespace Method

/-- The first parameter that no object can be converted to. -/
def nativeParam? (params : List Parameter) : Option Parameter :=
  params.find? fun p => decide (Conversion.between .object p.type = .impossible)

/-- Opens the scope of the body with the parameters in it, and declares the method. -/
def enter (d : Method) (scope : ScopeId) (c : Checker) : Outcome Method :=
  let (inner, c) := c.addScope d.name .function scope
  let c := c.setReturnType inner (some .object)
  (Parameter.analyseAll true inner d.params c).andThen (fun params => { d with params })
    fun params c =>
      let d := { d with params }
      match nativeParam? params with
      | some p => .fail (mismatch p.type.describe Ty.object.describe p.position) d c
      | none =>
        let entry := (c.scope scope).functionEntry .method d.name (Parameter.types params) .object
          false d.position
        .ofDeclare (c.declare scope entry) c d
          { d with
            cName := entry.cName
            classCName := (c.scope scope).classCName
            scope := some inner }

end Method

namespace ClassDef

/-- The C name of the class that a class is derived from, the root class if it names none. -/
def ancestorName (d : ClassDef) (scope : ScopeId) (c : Checker) : Except Error String :=
  match d.ancestor with
  | none => .ok rootClassCName
  | some name =>
    if name = rootClass then .ok rootClassCName
    else
      match c.lookup scope name d.position with
      | .error e => .error e
      | .ok entry =>
        if entry.kind = .classHandle then .ok entry.cName
        else .error (mismatch "class" entry.type.describe d.position)

/-- Declares the class and opens the scope of its body. -/
def enter (d : ClassDef) (scope : ScopeId) (c : Checker) : Outcome ClassDef :=
  match d.ancestorName scope c with
  | .error e => .fail e d c
  | .ok ancestorCName =>
    let d := { d with ancestorCName }
    let entry := (c.scope scope).classEntry d.name d.position
    match c.declare scope entry with
    | .error e => .fail e d c
    | .ok c =>
      let (inner, c) := c.addClassScope d.name entry.cName scope
      .ok { d with cName := entry.cName, scope := some inner } c

end ClassDef

/-! ## All statements -/

namespace Stmt

mutual

/-- Analyses a statement in a scope. -/
def analyse : Stmt → ScopeId → Checker → Outcome Stmt
  | .var d, scope, c => (d.analyse scope c).map .var
  | .array d, scope, c => (d.analyse scope c).map .array
  | .assign d, scope, c => (d.analyse scope c).map .assign
  | .ret d, scope, c => (d.analyse scope c).map .ret
  | .print d, scope, c => (d.analyse scope c).map .print
  | .evaluation d, scope, c => (d.analyse scope c).map .evaluation
  | .aggregate d members, scope, c =>
    let memberScope := c.scopes.length
    (d.declare scope c).andThen (fun _ => .aggregate d members) fun type c =>
    (analyseAll members memberScope c).andThen (fun members => .aggregate d members)
      fun members c =>
        let d := { d with type := some type, scope := some scope, memberScope := some memberScope }
        .ok (.aggregate d members) c
  | .forward d, scope, c => (d.analyse scope c).map .forward
  | .typeAlias d, scope, c => (d.analyse scope c).map .typeAlias
  | .prototype d, scope, c => (d.analyse scope c).map .prototype
  | .library header declarations position, scope, c =>
    (analyseAll declarations scope c).map fun declarations =>
      .library header declarations position
  | .conditional chain position, scope, c =>
    (analyseChain chain scope c).map fun chain => .conditional chain position
  | .count d body, scope, c =>
    (d.analyse scope c).andThen (fun d => .count d body) fun d c =>
      (analyseAll body scope c).map fun body => .count d body
  | .loop condition body position, scope, c =>
    (condition.analyseCondition scope c).andThen (fun condition => .loop condition body position)
      fun condition c =>
        (analyseAll body scope c).map fun body => .loop condition body position
  | .function d body, scope, c =>
    let inner := c.scopes.length
    (d.enter scope c).andThen (fun d => .function d body) fun d c =>
      (analyseAll body inner c).map fun body => .function d body
  | .method d body, scope, c =>
    let inner := c.scopes.length
    (d.enter scope c).andThen (fun d => .method d body) fun d c =>
      (analyseAll body inner c).map fun body => .method d body
  | .classDef d body, scope, c =>
    let inner := c.scopes.length
    (d.enter scope c).andThen (fun d => .classDef d body) fun d c =>
      (analyseAll body inner c).map fun body => .classDef d body

/-- Analyses a chain of conditions, each before its body. -/
def analyseChain : Chain → ScopeId → Checker → Outcome Chain
  | .done, _, c => .ok .done c
  | .otherwise body, scope, c => (analyseAll body scope c).map .otherwise
  | .test condition body rest, scope, c =>
    (condition.analyseCondition scope c).andThen (fun condition => .test condition body rest)
      fun condition c =>
    (analyseAll body scope c).andThen (fun body => .test condition body rest) fun body c =>
      (analyseChain rest scope c).map fun rest => .test condition body rest

/-- Analyses statements in order, up to the first error. -/
def analyseAll : List Stmt → ScopeId → Checker → Outcome (List Stmt)
  | [], _, c => .ok [] c
  | stmt :: rest, scope, c =>
    (stmt.analyse scope c).andThen (fun stmt => stmt :: rest) fun stmt c =>
      (analyseAll rest scope c).map fun rest => stmt :: rest

end

end Stmt

end ExtensionCompiler

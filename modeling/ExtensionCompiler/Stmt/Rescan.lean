import ExtensionCompiler.Stmt.Analysis

set_option autoImplicit false

/-! # The second pass

After all of a unit has been analysed, the registry knows every type that the unit defines.
`Stmt.rescan` settles the types that were pending at the time, in the statements and in the scopes.
It cannot fail: a name that is still missing stays pending, and is found by the check that
follows. -/

namespace ExtensionCompiler

/-- Settles the type of a name, in its scope as well. A type with nothing pending is left alone. -/
def Checker.settleName (c : Checker) (scope : ScopeId) (name : String) (type : Ty) :
    Ty × Checker :=
  if type.pending?.isSome then
    let type := type.rescan c.registry
    (type, c.setType scope name type)
  else (type, c)

def Variable.rescan (d : Variable) (scope : ScopeId) (c : Checker) : Variable × Checker :=
  let (type, c) := c.settleName scope d.name d.type
  ({ d with type }, c)

def ArrayVariable.rescan (d : ArrayVariable) (scope : ScopeId) (c : Checker) :
    ArrayVariable × Checker :=
  let (type, c) := c.settleName scope d.name d.type
  ({ d with type }, c)

/-- An announcement always takes what the registry has now. -/
def Forward.rescan (d : Forward) (scope : ScopeId) (c : Checker) : Forward × Checker :=
  let type := d.aliasType c.registry
  ({ d with type }, c.setType scope d.tag type)

/-- An alias that is settled is registered again, for the aliases that follow it. -/
def TypeAlias.rescan (d : TypeAlias) (scope : ScopeId) (c : Checker) : TypeAlias × Checker :=
  if d.isTagAlias || d.type.pending?.isNone then (d, c)
  else
    let type := d.type.rescan c.registry
    ({ d with type }, (c.register d.name type d.position).setType scope d.name type)

def Prototype.rescan (d : Prototype) (scope : ScopeId) (c : Checker) : Prototype × Checker :=
  let (params, c) := Parameter.rescanAll false scope d.params c
  match d.type with
  | some (.function name cName _ result) =>
    let type := .function name cName (Parameter.types params) (result.rescan c.registry)
    ({ d with params, type := some type }, c.setType scope d.name type)
  | _ => ({ d with params }, c)

/-- Settles the heading of a function whose body has the scope `inner`. -/
def Function.rescan (d : Function) (inner scope : ScopeId) (c : Checker) : Function × Checker :=
  let (params, c) := Parameter.rescanAll true inner d.params c
  let returnType := d.returnType.rescan c.registry
  let type := .function (some d.name) (some d.cName) (Parameter.types params) returnType
  ({ d with params, returnType },
    (c.setReturnType inner (some returnType)).setType scope d.name type)

/-- Settles the heading of a method whose body has the scope `inner`. -/
def Method.rescan (d : Method) (inner : ScopeId) (c : Checker) : Method × Checker :=
  let (params, c) := Parameter.rescanAll true inner d.params c
  ({ d with params }, c)

namespace Stmt

mutual

/-- Settles a statement that was analysed in `scope`. -/
def rescan : Stmt → ScopeId → Checker → Stmt × Checker
  | .var d, scope, c => let (d, c) := d.rescan scope c; (.var d, c)
  | .array d, scope, c => let (d, c) := d.rescan scope c; (.array d, c)
  | .aggregate d members, _, c =>
    match d.memberScope with
    | some inner => let (members, c) := rescanAll members inner c; (.aggregate d members, c)
    | none => (.aggregate d members, c)
  | .forward d, scope, c => let (d, c) := d.rescan scope c; (.forward d, c)
  | .typeAlias d, scope, c => let (d, c) := d.rescan scope c; (.typeAlias d, c)
  | .prototype d, scope, c => let (d, c) := d.rescan scope c; (.prototype d, c)
  | .library header declarations position, scope, c =>
    let (declarations, c) := rescanAll declarations scope c
    (.library header declarations position, c)
  | .conditional chain position, scope, c =>
    let (chain, c) := rescanChain chain scope c
    (.conditional chain position, c)
  | .count d body, scope, c => let (body, c) := rescanAll body scope c; (.count d body, c)
  | .loop condition body position, scope, c =>
    let (body, c) := rescanAll body scope c
    (.loop condition body position, c)
  | .function d body, scope, c =>
    match d.scope with
    | some inner =>
      let (d, c) := d.rescan inner scope c
      let (body, c) := rescanAll body inner c
      (.function d body, c)
    | none => (.function d body, c)
  | .method d body, _, c =>
    match d.scope with
    | some inner =>
      let (d, c) := d.rescan inner c
      let (body, c) := rescanAll body inner c
      (.method d body, c)
    | none => (.method d body, c)
  | .classDef d body, _, c =>
    match d.scope with
    | some inner => let (body, c) := rescanAll body inner c; (.classDef d body, c)
    | none => (.classDef d body, c)
  | .assign d, _, c => (.assign d, c)
  | .ret d, _, c => (.ret d, c)
  | .print d, _, c => (.print d, c)
  | .evaluation d, _, c => (.evaluation d, c)

def rescanChain : Chain → ScopeId → Checker → Chain × Checker
  | .done, _, c => (.done, c)
  | .otherwise body, scope, c => let (body, c) := rescanAll body scope c; (.otherwise body, c)
  | .test condition body rest, scope, c =>
    let (body, c) := rescanAll body scope c
    let (rest, c) := rescanChain rest scope c
    (.test condition body rest, c)

/-- Settles statements in order. -/
def rescanAll : List Stmt → ScopeId → Checker → List Stmt × Checker
  | [], _, c => ([], c)
  | stmt :: rest, scope, c =>
    let (stmt, c) := stmt.rescan scope c
    let (rest, c) := rescanAll rest scope c
    (stmt :: rest, c)

end

end Stmt

end ExtensionCompiler

import ExtensionCompiler.Expr.Basic
import ExtensionCompiler.Outcome
import ExtensionCompiler.Ty.Compatible
import ExtensionCompiler.Ty.Spelling

set_option autoImplicit false

/-! # Analysis of expressions

`Expr.analyse` finds the entry behind every name and the type of every node, takes temporaries for
calls to the host, and converts operands where a native value meets an object. It may be told the
type of the slot that the value goes to, so that a literal can adapt. `Expr.fit` then makes the
value fit the slot. -/

namespace ExtensionCompiler

/-- The error that one type was expected and another found, as texts. -/
def mismatch (expected received : String) (position : Position) : Error :=
  ⟨.typeMismatch expected received, position⟩

namespace Entry

/-- The type of the entry's name as an expression. A function stands for its address. -/
def valueType (entry : Entry) : Ty :=
  match entry.kind with
  | .function | .method => entry.type.addressOf
  | _ => entry.type

def isAssignable (entry : Entry) : Bool :=
  match entry.kind with
  | .var | .pointer => true
  | _ => false

/-- The parameters and the result of what a call of the entry's name calls: a function, or a
variable that holds a single pointer to one. -/
def callee? (entry : Entry) : Option (List Ty × Ty) :=
  match entry.kind, entry.type.unaliased with
  | .function, .function _ _ params result => some (params, result)
  | .var, .pointer base 1 => base.signature?
  | .pointer, .pointer base 1 => base.signature?
  | _, _ => none

end Entry

/-! ## Operators -/

namespace Operator

def isLogical (operator : String) : Bool := ["&&", "||"].contains operator

def isComparison (operator : String) : Bool := ["<", "<=", ">", ">=", "==", "!="].contains operator

/-- The operators on whole numbers only. -/
def isIntegral (operator : String) : Bool := ["&", "|", "^", "<<", ">>", "%"].contains operator

/-- The operators on all numbers. -/
def isArithmetic (operator : String) : Bool := ["+", "-", "*", "/"].contains operator

/-- The operators that move an address. -/
def isOffset (operator : String) : Bool := ["+", "-"].contains operator

/-- The type of a binary operation on native values, if C has it. -/
def nativeResult? (operator : String) (left right : Ty) : Option Ty :=
  if isLogical operator then
    if left.isScalar && right.isScalar then some (.primitive .int) else none
  else if isComparison operator then
    if (left.isNumeric && right.isNumeric) || (left.isAddress && right.isAddress) then
      some (.primitive .int)
    else none
  else if isIntegral operator then
    if left.isInteger && right.isInteger then some (left.concrete.wider right.concrete) else none
  else if isArithmetic operator then
    if left.isNumeric && right.isNumeric then some (left.concrete.wider right.concrete)
    else if isOffset operator && left.isAddress && right.isInteger then some left.concrete
    else none
  else none

/-- The type of a unary operation that needs no call to the host, if C has it. `assignable` tells
whether the operand has an address. -/
def unaryResult? (operator : String) (operand : Ty) (assignable : Bool) : Option Ty :=
  match operator with
  | "-" => if operand.isNumeric then some operand.concrete else none
  | "~" => if operand.isInteger then some operand.concrete else none
  | "!" =>
    if operand.isObject then some .object
    else if operand.isScalar then some (.primitive .int)
    else none
  | "&" => if assignable || operand.isArray then some operand.addressOf else none
  | "*" => operand.element?
  | _ => none

/-- Whether the operation on an object is a call to the host. -/
def dispatchesUnary (operator : String) (operand : Ty) : Bool :=
  (decide (operator = "-") || decide (operator = "~")) && operand.isObject

/-- What a unary operator asks of its operand, in the words of a message. -/
def unaryDemand (operator : String) : String :=
  if operator = "*" then "pointer" else "operand for unary `" ++ operator ++ "`"

/-- The method of the host behind a unary operator. -/
def unaryMethod (operator : String) : String := if operator = "-" then "-@" else operator

end Operator

namespace Expr

/-- Makes the value fit a slot: a conversion is attached if exactly one side is an object, and the
slot must hold the converted value. The conversion stays attached if it does not. -/
def fit (e : Expr) (slot : Ty) (position : Position) (c : Checker) : Outcome Expr :=
  match Conversion.between e.naturalType slot with
  | .impossible => .fail (mismatch slot.describe e.naturalType.describe position) e c
  | .direct => check (e.withConversion none)
  | .through conversion => check (e.withConversion (some conversion))
where
  check (e : Expr) : Outcome Expr :=
    if slot.holds e.type then .ok e c
    else .fail (mismatch slot.describe e.type.describe position) e c

/-! ## The steps of analysis after the parts of a node are analysed -/

/-- A name stands for the entry it finds, unless that is a type. -/
def analyseName (info : Info) (written cName : String) (assignable : Bool) (scope : ScopeId)
    (c : Checker) : Outcome Expr :=
  match c.lookup scope written info.position with
  | .error e => .fail e (name info written cName assignable) c
  | .ok entry =>
    if entry.kind.isType then
      .fail (mismatch "value" entry.type.describe info.position)
        (name info written cName assignable) c
    else
      .ok (name { info with type := entry.valueType } written entry.cName entry.isAssignable) c

/-- An index is a whole number; an object is converted to one. -/
def fitIndex (index : Expr) (position : Position) (c : Checker) : Outcome Expr :=
  (if index.type.isObject then index.fit (.primitive .long) position c else .ok index c).andThen id
    fun index c =>
      if index.type.isInteger then .ok index c
      else .fail (mismatch "integer" index.type.describe position) index c

/-- A unary operation on an operand that is analysed. -/
def finishUnary (info : Info) (operator : String) (operand : Expr) (temp : Option String)
    (scope : ScopeId) (c : Checker) : Outcome Expr :=
  if Operator.dispatchesUnary operator operand.type then
    let (taken, c) := c.allocateTemp scope .object
    .ok (unary { info with type := .object } operator operand (some taken)) c
  else
    match Operator.unaryResult? operator operand.type operand.isAssignable with
    | some type => .ok (unary { info with type } operator operand temp) c
    | none =>
      .fail
        (mismatch (Operator.unaryDemand operator) operand.type.describe info.position)
        (unary info operator operand temp) c

/-- A binary operation in which an object takes part: both sides become objects, and unless the
operator is logical the result is a call to the host, held in a temporary. -/
def finishHostBinary (info : Info) (left : Expr) (operator : String) (right : Expr)
    (temp : Option String) (scope : ScopeId) (c : Checker) : Outcome Expr :=
  (left.fit .object info.position c).andThen (fun left => binary info left operator right temp)
    fun left c =>
  (right.fit .object info.position c).andThen (fun right => binary info left operator right temp)
    fun right c =>
  if Operator.isLogical operator then
    .ok (binary { info with type := .object } left operator right temp) c
  else
    let (taken, c) := c.allocateTemp scope .object
    .ok (binary { info with type := .object } left operator right (some taken)) c

/-- A binary operation on operands that are analysed. -/
def finishBinary (info : Info) (left : Expr) (operator : String) (right : Expr)
    (temp : Option String) (scope : ScopeId) (c : Checker) : Outcome Expr :=
  if left.type.isObject || right.type.isObject then
    finishHostBinary info left operator right temp scope c
  else
    match Operator.nativeResult? operator left.type right.type with
    | some type => .ok (binary { info with type } left operator right temp) c
    | none =>
      .fail (mismatch left.type.describe right.type.describe info.position)
        (binary info left operator right temp) c

/-- The error of a call with the wrong number of arguments. -/
def arityCause? (expected received : Nat) : Option Cause :=
  if expected < received then some (.unexpectedArguments expected received)
  else if received < expected then some (.missingArguments expected received)
  else none

mutual

/-- Analyses an expression in a scope. `slot` is the type of the slot that the value goes to, if
there is one. -/
def analyse : Expr → Option Ty → ScopeId → Checker → Outcome Expr
  | literal info value, slot, _, c =>
    .ok (literal { info with type := value.typeFor slot } value) c
  | name info written cName assignable, _, scope, c =>
    analyseName info written cName assignable scope c
  | element info written cName index, _, scope, c =>
    match c.lookup scope written info.position with
    | .error e => .fail e (element info written cName index) c
    | .ok entry =>
      match entry.type.element? with
      | none =>
        .fail (mismatch "array or pointer" entry.type.unaliased.describe info.position)
          (element info written entry.cName index) c
      | some type =>
        ((index.analyse (some (.primitive .long)) scope c).andThen id
            fun index c => fitIndex index info.position c).map
          fun index => element { info with type } written entry.cName index
  | unary info operator operand temp, _, scope, c =>
    (operand.analyse none scope c).andThen (fun operand => unary info operator operand temp)
      fun operand c => finishUnary info operator operand temp scope c
  | binary info left operator right temp, _, scope, c =>
    (left.analyse none scope c).andThen (fun left => binary info left operator right temp)
      fun left c =>
    (right.analyse none scope c).andThen (fun right => binary info left operator right temp)
      fun right c => finishBinary info left operator right temp scope c
  | call info written cName args, _, scope, c =>
    match c.lookup scope written info.position with
    | .error e => .fail e (call info written cName args) c
    | .ok entry =>
      match entry.callee? with
      | none => .fail ⟨.notCallable written, info.position⟩ (call info written cName args) c
      | some (params, result) =>
        match arityCause? params.length args.length with
        | some cause => .fail ⟨cause, info.position⟩ (call info written entry.cName args) c
        | none =>
          (analyseArgs args params info.position scope c).andThen
            (fun args => call info written entry.cName args)
            fun args c => .ok (call { info with type := result } written entry.cName args) c

/-- Analyses arguments for the parameters they go to, and fits them in. -/
def analyseArgs : List Expr → List Ty → Position → ScopeId → Checker → Outcome (List Expr)
  | arg :: args, param :: params, position, scope, c =>
    ((arg.analyse (some param) scope c).andThen id fun arg c => arg.fit param position c).andThen
      (fun arg => arg :: args)
      fun arg c => (analyseArgs args params position scope c).map fun args => arg :: args
  | args, _, _, _, c => .ok args c

end

/-- Analyses a value for a slot, and fits it in. -/
def analyseInto (e : Expr) (slot : Ty) (scope : ScopeId) (position : Position) (c : Checker) :
    Outcome Expr :=
  (e.analyse (some slot) scope c).andThen id fun e c => e.fit slot position c

/-- Analyses values for slots of one type, and fits them in. -/
def analyseAllInto (slot : Ty) (scope : ScopeId) (position : Position) :
    List Expr → Checker → Outcome (List Expr)
  | [], c => .ok [] c
  | e :: rest, c =>
    (e.analyseInto slot scope position c).andThen (fun e => e :: rest)
      fun e c => (analyseAllInto slot scope position rest c).map fun rest => e :: rest

/-- Analyses a condition, which is an object, a number or an address. -/
def analyseCondition (e : Expr) (scope : ScopeId) (c : Checker) : Outcome Expr :=
  (e.analyse none scope c).andThen id fun e c =>
    if e.type.isObject || e.type.isScalar then .ok e c
    else .fail (mismatch "condition" e.type.describe e.position) e c

end Expr

end ExtensionCompiler

import ExtensionCompiler.C.Code
import ExtensionCompiler.Expr.Analysis

set_option autoImplicit false

/-! # The C code of expressions

An expression is computed in three parts: steps that come before (`Expr.evaluation`), the value
(`Expr.term`), and steps that come after (`Expr.disposal`). The steps are calls to the host, whose
results are kept in temporaries, and the release of these temporaries. `Expr.needsTemp` tells
whether there are any steps. -/

namespace ExtensionCompiler

/-- A step before or after the value of an expression. -/
inductive Step where
  /-- Calls a method of an object and keeps the result in a temporary. -/
  | dispatch (temp : String) (receiver : C.Term) (method : String) (args : List C.Term)
  /-- Drops the object that a temporary holds. -/
  | release (temp : String)
deriving Repr

/-- The line of C for a step. -/
def Step.code : Step → C.Code
  | dispatch temp receiver method args => .assign (.ident temp) (.dispatch receiver method args)
  | release temp => .assign (.ident temp) .nil

/-- The value after a conversion. -/
def Info.convert (info : Info) (value : C.Term) : C.Term :=
  match info.conversion with
  | some conversion => .call conversion.function [value]
  | none => value

def Literal.term : Literal → C.Term
  | int value => .int value
  | float value => .float value
  | char value => .char value
  | text value => .text value
  | yes => .yes
  | no => .no
  | nil => .nil

namespace Expr

/-- The value of a unary operation, given that of its operand. -/
def unaryTerm (type : Ty) (operator : String) (operand : C.Term) : Option String → C.Term
  | some temp => .ident temp
  | none =>
    if operator = "!" ∧ type.isObject then .choice (.truth operand) .no .yes
    else .unary operator operand

/-- The value of a binary operation, given those of its operands. -/
def binaryTerm (type : Ty) (left : C.Term) (operator : String) (right : C.Term) :
    Option String → C.Term
  | some temp => .ident temp
  | none =>
    if type.isObject then .choice (.binary (.truth left) operator (.truth right)) .yes .no
    else .binary left operator right

mutual

/-- The value of an expression, after the steps of its evaluation. -/
def term : Expr → C.Term
  | literal info value => info.convert value.term
  | name info _ cName _ => info.convert (.ident cName)
  | element info _ cName index => info.convert (.index cName index.term)
  | unary info operator operand temp =>
    info.convert (unaryTerm info.type operator operand.term temp)
  | binary info left operator right temp =>
    info.convert (binaryTerm info.type left.term operator right.term temp)
  | call info _ cName args => info.convert (.call cName (terms args))

def terms : List Expr → List C.Term
  | [] => []
  | e :: rest => e.term :: terms rest

end

mutual

/-- The steps after the value has been used. -/
def disposal : Expr → List Step
  | literal _ _ => []
  | name _ _ _ _ => []
  | element _ _ _ index => index.disposal
  | unary _ _ _ (some temp) => [.release temp]
  | unary _ _ operand none => operand.disposal
  | binary _ _ _ _ (some temp) => [.release temp]
  | binary _ left _ right none => left.disposal ++ right.disposal
  | call _ _ _ args => disposalAll args

def disposalAll : List Expr → List Step
  | [] => []
  | e :: rest => e.disposal ++ disposalAll rest

end

mutual

/-- The steps before the value. A call to the host disposes of its operands at once. -/
def evaluation : Expr → List Step
  | literal _ _ => []
  | name _ _ _ _ => []
  | element _ _ _ index => index.evaluation
  | unary _ operator operand temp =>
    operand.evaluation ++ match temp with
      | some temp =>
        .dispatch temp operand.term (Operator.unaryMethod operator) [] :: operand.disposal
      | none => []
  | binary _ left operator right temp =>
    left.evaluation ++ right.evaluation ++ match temp with
      | some temp =>
        .dispatch temp left.term operator [right.term] :: (left.disposal ++ right.disposal)
      | none => []
  | call _ _ _ args => evaluationAll args

def evaluationAll : List Expr → List Step
  | [] => []
  | e :: rest => e.evaluation ++ evaluationAll rest

end

mutual

/-- Whether there are steps before and after the value. -/
def needsTemp : Expr → Bool
  | literal _ _ => false
  | name _ _ _ _ => false
  | element _ _ _ index => index.needsTemp
  | unary _ _ operand temp => temp.isSome || operand.needsTemp
  | binary _ left _ right temp => temp.isSome || left.needsTemp || right.needsTemp
  | call _ _ _ args => anyNeedsTemp args

def anyNeedsTemp : List Expr → Bool
  | [] => false
  | e :: rest => e.needsTemp || anyNeedsTemp rest

end

/-- The value as a condition of C. -/
def condition (e : Expr) : C.Term := if e.type.isObject then .truth e.term else e.term

/-- The lines before the value. -/
def evaluate (e : Expr) : List C.Code := e.evaluation.map Step.code

/-- The lines after the value. -/
def dispose (e : Expr) : List C.Code := e.disposal.map Step.code

end Expr

end ExtensionCompiler

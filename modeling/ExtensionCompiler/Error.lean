import ExtensionCompiler.Position
import ExtensionCompiler.Text.Quoted

set_option autoImplicit false

/-! # Errors

An error is a cause at a position. Its texts are functions of the cause: `Cause.title` names it,
`Cause.message` states it, `Cause.tip?` gives a hint, and `Error.report` is what a user reads. -/

namespace ExtensionCompiler

/-- Why a unit is rejected. -/
inductive Cause where
  | duplicateDeclaration (name : String)
  | unknownIdentifier (name : String)
  | typeMismatch (expected received : String)
  | unresolvedReference (type : String)
  | invalidLoopOperators (left right : String)
  | returnOutsideFunction
  | unexpectedArguments (expected received : Nat)
  | missingArguments (expected received : Nat)
  | nonConstantDimension (name : String)
  | notCallable (name : String)
  | notAssignable
deriving DecidableEq, Repr

namespace Cause

def title : Cause → String
  | duplicateDeclaration _ => "DuplicateDeclaration"
  | unknownIdentifier _ => "UnknownIdentifier"
  | typeMismatch _ _ => "TypeMismatch"
  | unresolvedReference _ => "UnresolvedForwardReference"
  | invalidLoopOperators _ _ => "InvalidLoopOperators"
  | returnOutsideFunction => "ReturnOutsideFunction"
  | unexpectedArguments _ _ => "UnexpectedArguments"
  | missingArguments _ _ => "MissingArguments"
  | nonConstantDimension _ => "NonConstantDimension"
  | notCallable _ => "NotCallable"
  | notAssignable => "NotAssignable"

def message : Cause → String
  | duplicateDeclaration name => Text.quoted name ++ " already declared in this scope"
  | unknownIdentifier name => "unknown identifier " ++ Text.quoted name
  | typeMismatch expected received =>
    "types do not match: expected " ++ Text.quoted expected ++ ", received "
      ++ Text.quoted received
  | unresolvedReference type => "unresolved forward reference to type " ++ Text.quoted type
  | invalidLoopOperators left right =>
    "invalid loop operators " ++ Text.quoted left ++ " and " ++ Text.quoted right
  | returnOutsideFunction => "return statement outside of a function"
  | unexpectedArguments expected received =>
    "unexpected arguments: expected " ++ Nat.repr expected ++ ", received " ++ Nat.repr received
  | missingArguments expected received =>
    "missing arguments: expected " ++ Nat.repr expected ++ ", received " ++ Nat.repr received
  | nonConstantDimension name => "array " ++ Text.quoted name ++ " has a non-constant dimension"
  | notCallable name => Text.quoted name ++ " is not callable"
  | notAssignable => "left hand side of assignment is not assignable"

/-- A hint on how to mend the source, for the causes that have one. -/
def tip? : Cause → Option String
  | duplicateDeclaration name => some ("`" ++ name ++ "` is already declared in this scope")
  | unknownIdentifier name =>
    some ("Identifier `" ++ name ++ "` is not declared in any enclosing scope")
  | typeMismatch expected received =>
    some ("Expected type `" ++ expected ++ "`, received `" ++ received ++ "`")
  | unresolvedReference type =>
    some ("Type `" ++ type ++ "` is referenced before its definition but never defined; "
      ++ "check for a missing struct/union definition or a cyclic alias")
  | invalidLoopOperators left right =>
    some ("Loop bounds `" ++ left ++ "` and `" ++ right
      ++ "` must both be relational operators with the same direction")
  | returnOutsideFunction => some "`return` is only allowed inside a function"
  | unexpectedArguments expected received =>
    some ("Expected " ++ Nat.repr expected ++ " arguments, received " ++ Nat.repr received)
  | missingArguments expected received =>
    some ("Expected " ++ Nat.repr expected ++ " arguments, received " ++ Nat.repr received)
  | nonConstantDimension name =>
    some ("Array `" ++ name ++ "` needs an integer literal as its dimension")
  | notCallable name => some ("`" ++ name ++ "` is not a function")
  | notAssignable => none

end Cause

/-- A cause and the place that it is blamed on. -/
structure Error where
  cause : Cause
  position : Position
deriving DecidableEq, Repr

namespace Error

/-- The cause and the place, on one line. -/
def message (e : Error) : String := e.cause.message ++ " at " ++ e.position.render

/-- What a user reads: the title with its tip, and the place on a second line. -/
def report (e : Error) : String :=
  (match e.cause.tip? with
    | some tip => "Error: " ++ e.cause.title ++ " (" ++ tip ++ ")\n"
    | none => "Error: " ++ e.cause.title ++ "\n")
  ++ "-> " ++ e.position.render ++ "\n"

end Error

end ExtensionCompiler

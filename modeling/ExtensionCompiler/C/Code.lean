import ExtensionCompiler.C.Term
import ExtensionCompiler.Position
import ExtensionCompiler.Ty.Equality
import ExtensionCompiler.Ty.Spelling

set_option autoImplicit false

/-! # C source

The lines and blocks of a generated file as trees. Types are kept as types up to the printing, so
that what a file declares can be read off its tree; `Code.types` lists the types that the printing
will spell. -/

namespace ExtensionCompiler.C

/-- The declaration of a variable. `storage` is empty or ends in a space. -/
structure Declaration where
  storage : String
  type : Ty
  name : String
  initial : Option String := none
deriving DecidableEq, Repr

def Declaration.render (d : Declaration) : String :=
  match d.initial with
  | some initial => d.storage ++ d.type.cDeclaration d.name ++ " = " ++ initial ++ ";"
  | none => d.storage ++ d.type.cDeclaration d.name ++ ";"

/-- The parameters in the heading of a function. -/
inductive Params where
  /-- Types alone, as in a prototype. -/
  | types (list : List Ty)
  /-- Types with names, as in a definition. -/
  | named (list : List (Ty × String))
  /-- The parameters of a method that the host calls. -/
  | host
deriving DecidableEq, Repr

namespace Params

/-- The name under which a host method knows the object it is called on. -/
def selfName : String := "__extc_arg_self"

/-- What stands between the parentheses of the heading of a host method. -/
def hostText : String := "int argc, VALUE* argv, VALUE " ++ selfName

def render : Params → String
  | types [] => "void"
  | types (ty :: rest) => Text.commas ((ty :: rest).map Ty.cType)
  | named [] => "void"
  | named (p :: rest) => Text.commas ((p :: rest).map fun q => q.1.cDeclaration q.2)
  | host => hostText

/-- The types that the parameters spell. -/
def spelled : Params → List Ty
  | types list => list
  | named list => list.map (·.1)
  | host => []

end Params

/-- The heading of a function. -/
structure Heading where
  result : Ty
  name : String
  params : Params
deriving DecidableEq, Repr

/-- The head of a loop over a range. -/
structure Range where
  counter : String
  start : Term
  operator : String
  stop : Term
  descending : Bool
deriving Repr

/-- What stands between the parentheses of the loop. -/
def Range.render (r : Range) : String :=
  r.counter ++ " = " ++ r.start.render ++ "; "
    ++ r.counter ++ " " ++ r.operator ++ " " ++ r.stop.render ++ "; "
    ++ r.counter ++ (if r.descending then "--" else "++")

mutual

inductive Code where
  /-- The place in the source that the next lines come from; written only if the layout asks. -/
  | location (position : Position)
  | blank
  | header (spelling : String)
  /-- `typedef struct node name;` -/
  | typedefTag (tag name : String)
  | typedef (type : Ty) (name : String)
  /-- The body of a structure or union. -/
  | aggregate (tag : String) (members : List Declaration)
  | declaration (declaration : Declaration)
  /-- A remark that a function comes from elsewhere. -/
  | external (name : String)
  | prototype (heading : Heading)
  | function (heading : Heading) (body : List Code)
  /-- The function by which the host loads the extension. -/
  | entryPoint (target : String) (body : List Code)
  | assign (target value : Term)
  | eval (value : Term)
  | give (value : Option Term)
  | leave
  | block (body : List Code)
  | branch (condition : Term) (body : List Code) (rest : Rest)
  | loop (condition : Term) (body : List Code)
  | count (range : Range) (body : List Code)

/-- What follows the body of a branch. -/
inductive Rest where
  | nothing
  | block (body : List Code)
  | branch (condition : Term) (body : List Code) (rest : Rest)

end

instance : Inhabited Code := ⟨.blank⟩

namespace Code

/-! ## The types that a file spells -/

mutual

/-- The types that the printing of a tree writes down. -/
def types : Code → List Ty
  | .typedef type _ => [type]
  | .aggregate _ members => members.map (·.type)
  | .declaration d => [d.type]
  | .prototype heading => heading.result :: heading.params.spelled
  | .function heading body => heading.result :: heading.params.spelled ++ typesAll body
  | .entryPoint _ body => typesAll body
  | .block body => typesAll body
  | .branch _ body rest => typesAll body ++ typesRest rest
  | .loop _ body => typesAll body
  | .count _ body => typesAll body
  | .location _ => []
  | .blank => []
  | .header _ => []
  | .typedefTag _ _ => []
  | .external _ => []
  | .assign _ _ => []
  | .eval _ => []
  | .give _ => []
  | .leave => []

def typesRest : Rest → List Ty
  | .nothing => []
  | .block body => typesAll body
  | .branch _ body rest => typesAll body ++ typesRest rest

def typesAll : List Code → List Ty
  | [] => []
  | code :: rest => code.types ++ typesAll rest

end

end Code

end ExtensionCompiler.C

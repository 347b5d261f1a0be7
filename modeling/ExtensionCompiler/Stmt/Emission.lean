import ExtensionCompiler.C.Writer
import ExtensionCompiler.Scope.Declarations
import ExtensionCompiler.Stmt.Analysis

set_option autoImplicit false

/-! # Statements in C

A statement can write into three places: where it stands (`Stmt.code`), the sections at the top of
the file (`Stmt.header`), and the function by which the host loads the extension (`Stmt.start`).
Every value is written between the steps before it and the steps after it. -/

namespace ExtensionCompiler

/-! ## Statements without others inside -/

/-- The assignment of a value to a place. -/
def Expr.assignTo (value : Expr) (target : C.Term) : List C.Code :=
  value.evaluate ++ [.assign target value.term] ++ value.dispose

def Variable.code (d : Variable) : List C.Code :=
  match d.value with
  | some value => .location d.position :: value.assignTo (.ident d.cName)
  | none => []

namespace ArrayVariable

/-- The assignment of elements to the places from `index` on. -/
def elementCode (cName : String) : Nat → List Expr → List C.Code
  | _, [] => []
  | index, e :: rest =>
    e.assignTo (.index cName (.int index)) ++ elementCode cName (index + 1) rest

def code (d : ArrayVariable) : List C.Code :=
  match d.elements, d.assignsElements with
  | some elements, true => .location d.position :: elementCode d.cName 0 elements
  | _, _ => []

end ArrayVariable

/-- The value is computed before the place it goes to. -/
def Assignment.code (d : Assignment) : List C.Code :=
  .location d.position :: (d.value.evaluate ++ d.target.evaluate
    ++ [.assign d.target.term d.value.term] ++ d.value.dispose ++ d.target.dispose)

/-- Nothing can follow a return, so the steps after its value are left out. -/
def Return.code (d : Return) : List C.Code :=
  .location d.position :: match d.value with
    | some value => value.evaluate ++ [.give (some value.term)]
    | none => if d.returnType.isObject then [.give (some .nil)] else [.give none]

namespace Print

/-- The value as `printf` takes it: an object as the text it is inspected as. -/
def printed (value : Expr) : C.Term :=
  if value.type.isObject then .call "RSTRING_PTR" [.dispatch value.term "inspect" []]
  else value.term

def valueCode (value : Expr) : List C.Code :=
  value.evaluate ++ [.eval (.call "printf" [.verbatim value.type.format, printed value])]
    ++ value.dispose

def code (d : Print) : List C.Code := .location d.position :: d.values.flatMap valueCode

end Print

def Evaluation.code (d : Evaluation) : List C.Code :=
  .location d.position :: (d.value.evaluate ++ [.eval d.value.term] ++ d.value.dispose)

namespace CountLoop

/-- Where the counter starts: at the bound, or one after it if the bound is excluded. -/
def startTerm (d : CountLoop) : C.Term :=
  match d.leftOperator with
  | "<" => .plain d.left.term "+" (.int 1)
  | ">" => .plain d.left.term "-" (.int 1)
  | _ => d.left.term

def range (d : CountLoop) : C.Range where
  counter := d.counterCName
  start := d.startTerm
  operator := d.rightOperator
  stop := d.right.term
  descending := decide (ascending? d.rightOperator = some false)

/-- The bounds are computed once, before the loop. -/
def code (d : CountLoop) (body : List C.Code) : List C.Code :=
  .location d.position :: (d.left.evaluate ++ d.right.evaluate ++ [.count d.range body]
    ++ d.left.dispose ++ d.right.dispose)

end CountLoop

/-- A loop. A condition that takes steps is computed anew at the top of each round. -/
def Expr.loopCode (condition : Expr) (body : List C.Code) : C.Code :=
  if condition.needsTemp then
    .loop (.int 1)
      (condition.evaluate
        ++ [.branch (.refuted condition.condition) (condition.dispose ++ [.leave]) .nothing]
        ++ condition.dispose ++ body)
  else .loop condition.condition body

/-! ## Definitions around their bodies -/

def Function.heading (d : Function) (params : C.Params) : C.Heading :=
  ⟨d.returnType, d.cName, params⟩

/-- The definition of a function, if its scope is known. Its parameters are declared in its heading,
and its other variables at the top of its body. -/
def Function.code (d : Function) (body : List C.Code) (c : Checker) : List C.Code :=
  match d.scope with
  | none => []
  | some inner =>
    let locals := (c.scope inner).declarations (Parameter.names d.params) ""
    [.location d.position,
      .function (d.heading (Parameter.named d.params)) (locals.map .declaration ++ body)]

namespace Method

def heading (d : Method) : C.Heading := ⟨.object, d.cName, .host⟩

/-- The error for a call with a wrong number of arguments. -/
def arityCode (count : Nat) : C.Code :=
  .branch (.plain (.ident "argc") "!=" (.int count))
    [.eval (.call "rb_raise" [.ident "rb_eArgError",
      .verbatim ("wrong number of arguments (given %d, expected " ++ Nat.repr count ++ ")"),
      .ident "argc"])]
    .nothing

/-- The argument at an index as a value of a type. -/
def argument (index : Nat) (type : Ty) : C.Term :=
  match Conversion.between .object type with
  | .through conversion => .call conversion.function [.index "argv" (.int index)]
  | _ => .index "argv" (.int index)

/-- The assignment of the arguments from `index` on to parameters. -/
def argumentCode : Nat → List Parameter → List C.Code
  | _, [] => []
  | index, p :: rest =>
    .assign (.ident p.cName) (argument index p.type) :: argumentCode (index + 1) rest

/-- The definition of a method, if its scope is known. It checks the number of its arguments, takes
them over into its parameters, and gives nil unless its body returns. -/
def code (d : Method) (body : List C.Code) (c : Checker) : List C.Code :=
  match d.scope with
  | none => []
  | some inner =>
    let locals := (c.scope inner).declarations [] ""
    [.location d.position,
      .function d.heading
        (locals.map .declaration ++ [arityCode d.params.length] ++ argumentCode 0 d.params
          ++ body ++ [.give (some .nil)])]

end Method

/-- The creation of a class in the host. -/
def ClassDef.create (d : ClassDef) : C.Code :=
  .assign (.ident d.cName)
    (.call "rb_define_class" [.verbatim d.name, .ident d.ancestorCName])

namespace Stmt

/-! ## Where a statement stands -/

mutual

/-- The code of a statement where it stands. -/
def code : Stmt → Checker → List C.Code
  | .var d, _ => d.code
  | .array d, _ => d.code
  | .assign d, _ => d.code
  | .ret d, _ => d.code
  | .print d, _ => d.code
  | .evaluation d, _ => d.code
  | .conditional chain position, c => .location position :: chainCode chain c
  | .count d body, c => d.code (codeAll body c)
  | .loop condition body position, c =>
    [.location position, condition.loopCode (codeAll body c)]
  | .function d body, c => d.code (codeAll body c) c
  | .method d body, c => d.code (codeAll body c) c
  | .classDef _ body, c => definitionCode body c
  | .aggregate _ _, _ => []
  | .forward _, _ => []
  | .typeAlias _, _ => []
  | .prototype _, _ => []
  | .library _ _ _, _ => []

/-- The code of a chain of conditions. -/
def chainCode : Chain → Checker → List C.Code
  | .done, _ => []
  | .otherwise body, c => [.block (codeAll body c)]
  | .test condition body rest, c =>
    condition.evaluate
      ++ [.branch condition.condition (condition.dispose ++ codeAll body c)
        (restCode condition rest c)]

/-- What follows the branch for a condition. The steps after the condition are taken here too, and
they or those before the next condition need a block around what follows. -/
def restCode (condition : Expr) : Chain → Checker → C.Rest
  | .done, _ => if condition.needsTemp then .block condition.dispose else .nothing
  | .otherwise body, c =>
    if condition.needsTemp then .block (condition.dispose ++ [.block (codeAll body c)])
    else .block (codeAll body c)
  | .test next body rest, c =>
    let inner := next.dispose ++ codeAll body c
    let after := restCode next rest c
    if condition.needsTemp || next.needsTemp then
      .block (condition.dispose ++ next.evaluate ++ [.branch next.condition inner after])
    else .branch next.condition inner after

def codeAll : List Stmt → Checker → List C.Code
  | [], _ => []
  | stmt :: rest, c => stmt.code c ++ codeAll rest c

/-- The code of the definitions among statements. -/
def definitionCode : List Stmt → Checker → List C.Code
  | [], _ => []
  | stmt :: rest, c => (if stmt.isDefinition then stmt.code c else []) ++ definitionCode rest c

end

end Stmt

/-! ## The sections at the top of the file -/

/-- The sections of the top of a file, in their order. -/
inductive HeaderSection where
  | includes
  | typeTags
  | typeAliases
  | typeDefinitions
  | globals
  | prototypes
deriving DecidableEq, Repr

def HeaderSection.all : List HeaderSection :=
  [.includes, .typeTags, .typeAliases, .typeDefinitions, .globals, .prototypes]

namespace Aggregate

/-- Whether an announcement in sight has the C name of the type, and so writes its tag. -/
def isForwarded (d : Aggregate) (cName : String) (scope : ScopeId) (c : Checker) : Bool :=
  match c.find? scope d.tag with
  | some forward => decide (forward.cName = cName)
  | none => false

def header (d : Aggregate) (part : HeaderSection) (c : Checker) : List C.Code :=
  match d.type, d.scope, d.memberScope, d.isExternal with
  | some (.aggregate _ _ cName _), some scope, some inner, false =>
    match part with
    | .typeTags => if d.isForwarded cName scope c then [] else [.typedefTag d.tag cName]
    | .typeDefinitions => [.aggregate d.tag (c.scope inner).members]
    | _ => []
  | _, _, _, _ => []

end Aggregate

def Forward.header (d : Forward) (part : HeaderSection) : List C.Code :=
  if part = .typeTags then [.typedefTag d.tag d.cName] else []

def TypeAlias.header (d : TypeAlias) (part : HeaderSection) : List C.Code :=
  if part ≠ .typeAliases || d.isExternal || d.isTagAlias then []
  else
    match d.type with
    | .aliased _ _ target => [.typedef target d.cName]
    | _ => []

def Prototype.header (d : Prototype) (part : HeaderSection) : List C.Code :=
  if part ≠ .prototypes then []
  else if d.isExternal then [.external d.cName]
  else
    match d.type with
    | some (.function _ _ _ result) => [.prototype ⟨result, d.cName, Parameter.unnamed d.params⟩]
    | _ => []

/-- The name of a header as an include line has it. A name without brackets or quotes is that of a
system header. -/
def headerSpelling (header : String) : String :=
  match Text.trim header.toList with
  | '<' :: rest => String.ofList ('<' :: rest)
  | '"' :: rest => String.ofList ('"' :: rest)
  | cs => "<" ++ String.ofList cs ++ ">"

/-- The variable that holds a class, and the variables of its body. -/
def ClassDef.globals (d : ClassDef) (c : Checker) : List C.Code :=
  .declaration ⟨"static ", .object, d.cName, none⟩ :: match d.scope with
    | some inner => ((c.scope inner).declarations [] "static ").map .declaration
    | none => []

namespace Stmt

mutual

/-- The lines of a statement in a section at the top of the file. -/
def header (part : HeaderSection) : Stmt → Checker → List C.Code
  | .aggregate d _, c => d.header part c
  | .forward d, _ => d.header part
  | .typeAlias d, _ => d.header part
  | .prototype d, _ => d.header part
  | .library name declarations _, c =>
    (if part = .includes then [.header (headerSpelling name)] else [])
      ++ headerAll part declarations c
  | .function d body, c =>
    (if part = .prototypes then [.prototype (d.heading (Parameter.unnamed d.params))] else [])
      ++ headerAll part body c
  | .method d body, c =>
    (if part = .prototypes then [.prototype d.heading] else []) ++ headerAll part body c
  | .classDef d body, c =>
    (if part = .globals then d.globals c else []) ++ headerAll part body c
  | .var _, _ => []
  | .array _, _ => []
  | .assign _, _ => []
  | .ret _, _ => []
  | .print _, _ => []
  | .evaluation _, _ => []
  | .conditional _ _, _ => []
  | .count _ _, _ => []
  | .loop _ _ _, _ => []

def headerAll (part : HeaderSection) : List Stmt → Checker → List C.Code
  | [], _ => []
  | stmt :: rest, c => stmt.header part c ++ headerAll part rest c

end

/-! ## What runs when the extension is loaded -/

mutual

/-- The code that makes a definition known to the host. -/
def start : Stmt → Checker → List C.Code
  | .method d _, _ => [C.Code.defineMethod d.classCName d.name d.cName]
  | .classDef d body, c => d.create :: startAll body c
  | _, _ => []

/-- The code that runs for statements when the extension is loaded: definitions are made known, and
other statements run where they stand. -/
def startAll : List Stmt → Checker → List C.Code
  | [], _ => []
  | stmt :: rest, c =>
    (if stmt.isDefinition then stmt.start c else stmt.code c) ++ startAll rest c

end

end Stmt

end ExtensionCompiler

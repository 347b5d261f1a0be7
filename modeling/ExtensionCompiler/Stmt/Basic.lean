import ExtensionCompiler.Expr.Basic
import ExtensionCompiler.Parameter
import ExtensionCompiler.Text.WordChar

set_option autoImplicit false

/-! # Statements

The statements, declarations and definitions of the source, with what analysis finds out about
them. What a kind of statement has of its own is a structure; `Stmt` joins them, and adds the
statements inside. A chain of conditions is a type of its own, `Chain`.

Structures and aliases name types. `Stmt.announce` tells a registry the names that will be
defined, which is done before a unit is analysed. -/

namespace ExtensionCompiler

/-! ## What the kinds of statements hold -/

/-- Which of the two ways a variable was declared in. They differ in nothing else. -/
inductive VariableForm where
  | plain
  | pointer
deriving DecidableEq, Repr

/-- The declaration of a variable, with an initial value or without. -/
structure Variable where
  form : VariableForm
  descriptor : Descriptor
  depth : Nat
  name : String
  value : Option Expr
  position : Position
  isExternal : Bool := false
  type : Ty := .void
  cName : String := name

/-- The declaration of an array. -/
structure ArrayVariable where
  descriptor : Descriptor
  name : String
  dimension : Expr
  elements : Option (List Expr)
  position : Position
  isExternal : Bool := false
  type : Ty := .void
  cName : String := name
  /-- Whether the elements are assigned one by one where the declaration stands. -/
  assignsElements : Bool := false

structure Assignment where
  target : Expr
  value : Expr
  position : Position

structure Return where
  value : Option Expr
  position : Position
  returnType : Ty := .void

structure Print where
  values : List Expr
  position : Position

/-- An expression computed for what it does. -/
structure Evaluation where
  value : Expr
  position : Position

/-- The definition of a structure or union. -/
structure Aggregate where
  kind : AggregateKind
  name : String
  position : Position
  isExternal : Bool := false
  type : Option Ty := none
  scope : Option ScopeId := none
  memberScope : Option ScopeId := none

/-- The announcement of a structure or union. -/
structure Forward where
  kind : AggregateKind
  name : String
  position : Position
  type : Ty := .pending name
  cName : String := name

/-- Another name for a type. -/
structure TypeAlias where
  name : String
  descriptor : Descriptor
  depth : Nat
  position : Position
  isExternal : Bool := false
  type : Ty := .pending name
  cName : String := name

/-- The declaration of a function that is defined elsewhere. -/
structure Prototype where
  descriptor : Descriptor
  depth : Nat
  name : String
  params : List Parameter
  position : Position
  isExternal : Bool := false
  type : Option Ty := none
  cName : String := name

/-- A loop over a range of whole numbers, `left < counter <= right` and the like. -/
structure CountLoop where
  left : Expr
  leftOperator : String
  counter : String
  rightOperator : String
  right : Expr
  position : Position
  counterCName : String := counter

/-- The definition of a C function. -/
structure Function where
  descriptor : Descriptor
  depth : Nat
  name : String
  params : List Parameter
  position : Position
  returnType : Ty := .void
  scope : Option ScopeId := none
  cName : String := name

/-- The definition of a method that the host can call. -/
structure Method where
  name : String
  params : List Parameter
  position : Position
  scope : Option ScopeId := none
  cName : String := name
  classCName : String := rootClassCName

/-- The definition of a class of the host. -/
structure ClassDef where
  name : String
  ancestor : Option String
  position : Position
  scope : Option ScopeId := none
  cName : String := name
  ancestorCName : String := rootClassCName

/-! ## Statements -/

mutual

inductive Stmt where
  | var (d : Variable)
  | array (d : ArrayVariable)
  | assign (d : Assignment)
  | ret (d : Return)
  | print (d : Print)
  | evaluation (d : Evaluation)
  | aggregate (d : Aggregate) (members : List Stmt)
  | forward (d : Forward)
  | typeAlias (d : TypeAlias)
  | prototype (d : Prototype)
  /-- Declarations that a header provides. -/
  | library (header : String) (declarations : List Stmt) (position : Position)
  | conditional (chain : Chain) (position : Position)
  | count (d : CountLoop) (body : List Stmt)
  | loop (condition : Expr) (body : List Stmt) (position : Position)
  | function (d : Function) (body : List Stmt)
  | method (d : Method) (body : List Stmt)
  | classDef (d : ClassDef) (body : List Stmt)

/-- A chain of conditions, of which the first true one chooses its body. -/
inductive Chain where
  /-- No condition is left, and nothing happens. -/
  | done
  /-- No condition is left, and this happens. -/
  | otherwise (body : List Stmt)
  | test (condition : Expr) (body : List Stmt) (rest : Chain)

end

instance : Inhabited Stmt := ⟨.print ⟨[], .unknown⟩⟩

instance : Inhabited Chain := ⟨.done⟩

namespace Stmt

def position : Stmt → Position
  | .var d => d.position
  | .array d => d.position
  | .assign d => d.position
  | .ret d => d.position
  | .print d => d.position
  | .evaluation d => d.position
  | .aggregate d _ => d.position
  | .forward d => d.position
  | .typeAlias d => d.position
  | .prototype d => d.position
  | .library _ _ position => position
  | .conditional _ position => position
  | .count d _ => d.position
  | .loop _ _ position => position
  | .function d _ => d.position
  | .method d _ => d.position
  | .classDef d _ => d.position

/-- Whether the statement is written at file level instead of where it stands. -/
def isDefinition : Stmt → Bool
  | .aggregate _ _ | .forward _ | .typeAlias _ | .prototype _ | .library _ _ _ => true
  | .function _ _ | .method _ _ | .classDef _ _ => true
  | _ => false

mutual

/-- Marks a declaration as provided by a header, with the members of a structure. -/
def markExternal : Stmt → Stmt
  | .var d => .var { d with isExternal := true }
  | .array d => .array { d with isExternal := true }
  | .aggregate d members => .aggregate { d with isExternal := true } (markAllExternal members)
  | .typeAlias d => .typeAlias { d with isExternal := true }
  | .prototype d => .prototype { d with isExternal := true }
  | stmt => stmt

def markAllExternal : List Stmt → List Stmt
  | [] => []
  | stmt :: rest => stmt.markExternal :: markAllExternal rest

end

/-- A block of declarations that a header provides. -/
def ofLibrary (header : String) (declarations : List Stmt) (position : Position) : Stmt :=
  .library header (markAllExternal declarations) position

/-! ## Names that a unit defines -/

mutual

/-- Announces the names of the types that a statement and those inside it will define. -/
def announce : Stmt → Registry → Registry
  | .forward d, registry => registry.announce d.name d.position
  | .typeAlias d, registry => registry.announce d.name d.position
  | .aggregate _ members, registry => announceAll members registry
  | .library _ declarations _, registry => announceAll declarations registry
  | .conditional chain _, registry => announceChain chain registry
  | .count _ body, registry => announceAll body registry
  | .loop _ body _, registry => announceAll body registry
  | .function _ body, registry => announceAll body registry
  | .method _ body, registry => announceAll body registry
  | .classDef _ body, registry => announceAll body registry
  | .var _, registry => registry
  | .array _, registry => registry
  | .assign _, registry => registry
  | .ret _, registry => registry
  | .print _, registry => registry
  | .evaluation _, registry => registry
  | .prototype _, registry => registry

def announceChain : Chain → Registry → Registry
  | .done, registry => registry
  | .otherwise body, registry => announceAll body registry
  | .test _ body rest, registry => announceChain rest (announceAll body registry)

def announceAll : List Stmt → Registry → Registry
  | [], registry => registry
  | stmt :: rest, registry => announceAll rest (stmt.announce registry)

end

end Stmt

/-! ## Aliases of a tag -/

/-- Whether `written` is `keyword`, white space, and `name`, where `name` is a word. -/
def isTagText (keyword : String) (name written : List Char) : Bool :=
  match keyword.toList.isPrefixOf written, written.drop keyword.length with
  | true, rest =>
    !(rest.takeWhile Text.isBlank).isEmpty && !name.isEmpty && name.all Text.isWordChar
      && decide (rest.dropWhile Text.isBlank = name)
  | false, _ => false

/-- Whether an alias only gives a tag its own name, as in `alias node = struct node`. Such an alias
makes no new type. -/
def TypeAlias.isTagAlias (d : TypeAlias) : Bool :=
  match d.descriptor with
  | .named written =>
    let cs := Text.trim written.toList
    isTagText "struct" d.name.toList cs || isTagText "union" d.name.toList cs
  | .signature _ _ _ => false

end ExtensionCompiler

import ExtensionCompiler.Decimal.Binary64
import ExtensionCompiler.Ty.Conversion
import ExtensionCompiler.Position

set_option autoImplicit false

/-! # Expressions

Expressions as the source has them, with what analysis finds out: the type of every node, the C
names behind names, the temporary that holds the result of a call to the host, and the conversion
that the place of use asks for. Analysis fills these in; before it, a node has the values that its
constructor function gives it. -/

namespace ExtensionCompiler

/-! ## Literals -/

inductive Literal where
  | int (value : Int)
  | float (value : Decimal.Binary64)
  | char (value : Char)
  | text (value : String)
  | yes
  | no
  | nil
deriving DecidableEq, Repr

namespace Literal

/-- The type of a literal that stands for itself. -/
def naturalType : Literal → Ty
  | int _ => .primitive .int
  | float _ => .primitive .double
  | char _ => .primitive .char
  | text _ => .pointerTo (.primitive .char) 1
  | yes => .object
  | no => .object
  | nil => .object

/-- The type of a literal in a slot of type `slot`: a whole number takes any integer type and a
floating point number any floating type; nothing else adapts. -/
def typeIn (literal : Literal) (slot : Ty) : Ty :=
  match literal, slot.unaliased with
  | int _, .primitive kind => if kind.isInteger then .primitive kind else literal.naturalType
  | float _, .primitive kind => if kind.isFloating then .primitive kind else literal.naturalType
  | _, _ => literal.naturalType

/-- The type of a literal that may have a slot. -/
def typeFor (literal : Literal) : Option Ty → Ty
  | some slot => literal.typeIn slot
  | none => literal.naturalType

/-- The value of a whole number. -/
def asInt? : Literal → Option Int
  | int value => some value
  | _ => none

end Literal

/-! ## Expressions -/

/-- What every expression knows about itself. -/
structure Info where
  position : Position
  /-- The type of the value before conversion. -/
  type : Ty := .void
  /-- What the place of use does to the value. -/
  conversion : Option Conversion := none
deriving DecidableEq, Repr

inductive Expr where
  | literal (info : Info) (value : Literal)
  | name (info : Info) (name cName : String) (assignable : Bool)
  | element (info : Info) (name cName : String) (index : Expr)
  | unary (info : Info) (operator : String) (operand : Expr) (temp : Option String)
  | binary (info : Info) (left : Expr) (operator : String) (right : Expr) (temp : Option String)
  | call (info : Info) (name cName : String) (args : List Expr)
deriving Repr

namespace Expr

/-! ## Expressions before analysis -/

def ofLiteral (value : Literal) (position : Position) : Expr :=
  literal { position, type := value.naturalType } value

def ofName (written : String) (position : Position) : Expr :=
  name { position } written written false

def ofElement (written : String) (index : Expr) (position : Position) : Expr :=
  element { position } written written index

def ofUnary (operator : String) (operand : Expr) (position : Position) : Expr :=
  unary { position } operator operand none

def ofBinary (left : Expr) (operator : String) (right : Expr) (position : Position) : Expr :=
  binary { position } left operator right none

def ofCall (written : String) (args : List Expr) (position : Position) : Expr :=
  call { position } written written args

instance : Inhabited Expr := ⟨ofLiteral .nil .unknown⟩

/-! ## What a node knows -/

def info : Expr → Info
  | literal info _ => info
  | name info _ _ _ => info
  | element info _ _ _ => info
  | unary info _ _ _ => info
  | binary info _ _ _ _ => info
  | call info _ _ _ => info

def withInfo : Expr → Info → Expr
  | literal _ value, info => literal info value
  | name _ written cName assignable, info => name info written cName assignable
  | element _ written cName index, info => element info written cName index
  | unary _ operator operand temp, info => unary info operator operand temp
  | binary _ left operator right temp, info => binary info left operator right temp
  | call _ written cName args, info => call info written cName args

def position (e : Expr) : Position := e.info.position

/-- The type of the value before conversion. -/
def naturalType (e : Expr) : Ty := e.info.type

def conversion? (e : Expr) : Option Conversion := e.info.conversion

/-- The type of the value as its place of use sees it. -/
def type (e : Expr) : Ty :=
  match e.conversion? with
  | some conversion => conversion.resultType
  | none => e.naturalType

def withConversion (e : Expr) (conversion : Option Conversion) : Expr :=
  e.withInfo { e.info with conversion }

def isLiteral : Expr → Bool
  | literal _ _ => true
  | _ => false

/-- The value of a whole number that is written out. -/
def asInt? : Expr → Option Int
  | literal _ value => value.asInt?
  | _ => none

/-- The name, if the expression is nothing but a name. -/
def asName? : Expr → Option String
  | name _ written _ _ => some written
  | _ => none

/-- Whether the node names a place in memory. -/
def isPlace : Expr → Bool
  | name _ _ _ assignable => assignable
  | element _ _ _ _ => true
  | unary _ operator _ _ => decide (operator = "*")
  | _ => false

/-- Whether the value can be assigned to. A converted value cannot. -/
def isAssignable (e : Expr) : Bool := e.conversion?.isNone && e.isPlace

end Expr

end ExtensionCompiler

set_option autoImplicit false

/-! # Primitive types

The arithmetic types of C and `void`: how the source writes them (`Primitive.ofKeyword?`), how C
writes them (`Primitive.cName`), how wide they are (`Primitive.rank?`), and by which host function a
value of one crosses the border to the host runtime and back. -/

namespace ExtensionCompiler

inductive Primitive where
  | char | uchar
  | int8 | int16 | int32 | int64
  | uint8 | uint16 | uint32 | uint64
  | short | ushort
  | int | uint
  | long | ulong
  | longLong | ulongLong
  | float | double | longDouble
  | void
deriving DecidableEq, Repr

namespace Primitive

/-- The primitive type that a keyword of the source names. -/
def ofKeyword? : String → Option Primitive
  | "char" => some char
  | "unsigned char" => some uchar
  | "i8" => some int8
  | "i16" => some int16
  | "i32" => some int32
  | "i64" => some int64
  | "u8" => some uint8
  | "u16" => some uint16
  | "u32" => some uint32
  | "u64" => some uint64
  | "short" => some short
  | "short int" => some short
  | "unsigned short" => some ushort
  | "unsigned short int" => some ushort
  | "int" => some int
  | "unsigned int" => some uint
  | "long" => some long
  | "long int" => some long
  | "unsigned long" => some ulong
  | "unsigned long int" => some ulong
  | "long long" => some longLong
  | "long long int" => some longLong
  | "unsigned long long" => some ulongLong
  | "unsigned long long int" => some ulongLong
  | "f32" => some float
  | "float" => some float
  | "f64" => some double
  | "double" => some double
  | "long double" => some longDouble
  | "void" => some void
  | _ => none

/-- The spelling in C. -/
def cName : Primitive → String
  | char => "char"
  | uchar => "unsigned char"
  | int8 => "int8_t"
  | int16 => "int16_t"
  | int32 => "int32_t"
  | int64 => "int64_t"
  | uint8 => "uint8_t"
  | uint16 => "uint16_t"
  | uint32 => "uint32_t"
  | uint64 => "uint64_t"
  | short => "short"
  | ushort => "unsigned short"
  | int => "int"
  | uint => "unsigned int"
  | long => "long"
  | ulong => "unsigned long"
  | longLong => "long long"
  | ulongLong => "unsigned long long"
  | float => "float"
  | double => "double"
  | longDouble => "long double"
  | void => "void"

/-- The place in the order of widening; `void` has none. Signedness does not count. -/
def rank? : Primitive → Option Nat
  | char | uchar | int8 | uint8 => some 1
  | int16 | uint16 | short | ushort => some 2
  | int32 | uint32 | int | uint => some 3
  | long | ulong => some 4
  | longLong | ulongLong | int64 | uint64 => some 5
  | float => some 6
  | double => some 7
  | longDouble => some 8
  | void => none

def isNumeric (k : Primitive) : Bool := k.rank?.isSome

def isInteger (k : Primitive) : Bool := k.rank?.any fun r => decide (r ≤ 5)

def isFloating (k : Primitive) : Bool := k.rank?.any fun r => decide (5 < r)

/-- Whether a slot of type `k` takes a value of type `l`: both numeric, and `l` no wider. -/
def holds (k l : Primitive) : Bool :=
  match k.rank?, l.rank? with
  | some r, some s => decide (s ≤ r)
  | _, _ => false

/-- The wider of two types, the first if they rank alike. `void` ranks below all others. -/
def wider (k l : Primitive) : Primitive :=
  if l.rank?.getD 0 ≤ k.rank?.getD 0 then k else l

/-- The host function that turns a value of the type into an object. -/
def boxFunction? : Primitive → Option String
  | char | uchar => some "CHR2FIX"
  | int8 | int16 | int32 | short | int => some "INT2NUM"
  | uint8 | uint16 | uint32 | ushort | uint => some "UINT2NUM"
  | long | int64 => some "LONG2NUM"
  | ulong | uint64 => some "ULONG2NUM"
  | longLong => some "LL2NUM"
  | ulongLong => some "ULL2NUM"
  | float | double | longDouble => some "DBL2NUM"
  | void => none

/-- The host function that turns an object into a value of the type. -/
def unboxFunction? : Primitive → Option String
  | char | uchar => some "NUM2CHR"
  | int8 | int16 | int32 | short | int => some "NUM2INT"
  | uint8 | uint16 | uint32 | ushort | uint => some "NUM2UINT"
  | long | int64 => some "NUM2LONG"
  | ulong | uint64 => some "NUM2ULONG"
  | longLong => some "NUM2LL"
  | ulongLong => some "NUM2ULL"
  | float | double | longDouble => some "NUM2DBL"
  | void => none

/-- The conversion of `printf` for a value of the type. -/
def format : Primitive → String
  | char | uchar => "%c"
  | int8 | int16 | int32 | short | int => "%d"
  | uint8 | uint16 | uint32 | ushort | uint => "%u"
  | long | int64 => "%ld"
  | ulong | uint64 => "%lu"
  | longLong => "%lld"
  | ulongLong => "%llu"
  | float | double => "%f"
  | longDouble => "%Lf"
  | void => ""

end Primitive

end ExtensionCompiler

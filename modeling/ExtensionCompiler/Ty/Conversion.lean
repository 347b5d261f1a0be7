import ExtensionCompiler.Ty.Equality

set_option autoImplicit false

/-! # Conversions between native values and objects

A value crosses between C and the host runtime through a host function. Only numbers and C texts
have one, in either direction. -/

namespace ExtensionCompiler

namespace Ty

/-- The host function that turns a native value of the type into an object. -/
def boxFunction? (ty : Ty) : Option String :=
  match ty.unaliased with
  | primitive kind => kind.boxFunction?
  | _ => if ty.isText then some "rb_str_new2" else none

/-- The host function that turns an object into a native value of the type. -/
def unboxFunction? (ty : Ty) : Option String :=
  match ty.unaliased with
  | primitive kind => kind.unboxFunction?
  | _ => if ty.isText then some "RSTRING_PTR" else none

/-- The conversion of `printf` for a value of the type. An object is printed as text, and what has
no form of its own as an address. -/
def format (ty : Ty) : String :=
  match ty.unaliased with
  | primitive kind => kind.format
  | object => "%s"
  | _ => if ty.isText then "%s" else "%p"

end Ty

/-- A host function applied to a value on its way to a slot. -/
inductive Conversion where
  /-- Makes an object of a native value. -/
  | box (function : String)
  /-- Makes a native value of type `target` of an object. -/
  | unbox (function : String) (target : Ty)
deriving DecidableEq, Repr

/-- What lies between a value and its slot. -/
inductive Bridge where
  /-- Both are native or both are objects. -/
  | direct
  | through (conversion : Conversion)
  /-- The native side has no form as an object. -/
  | impossible
deriving DecidableEq, Repr

namespace Conversion

def function : Conversion → String
  | box function => function
  | unbox function _ => function

/-- The type of the converted value. -/
def resultType : Conversion → Ty
  | box _ => .object
  | unbox _ target => target

/-- What a value of type `value` needs on its way to a slot of type `slot`. -/
def between (value slot : Ty) : Bridge :=
  match value.isObject, slot.isObject with
  | false, true =>
    match value.boxFunction? with
    | some function => .through (box function)
    | none => .impossible
  | true, false =>
    match slot.unboxFunction? with
    | some function => .through (unbox function slot)
    | none => .impossible
  | _, _ => .direct

end Conversion

end ExtensionCompiler

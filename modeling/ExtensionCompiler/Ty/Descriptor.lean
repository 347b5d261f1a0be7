import ExtensionCompiler.Registry
import ExtensionCompiler.Text.Blank

set_option autoImplicit false

/-! # Type descriptors and their resolution

A declaration writes its type as a `Descriptor`: a name, or the signature of a function pointer.
`Ty.resolve` turns it into a type with what the registry knows; a name it does not know becomes
pending. `Ty.rescan` looks the pending names of a type up again, once each. -/

namespace ExtensionCompiler

/-- A type as the source writes it. -/
inductive Descriptor where
  /-- A keyword or the name of a type. -/
  | named (name : String)
  /-- A pointer to a function: its result, and its parameters with their pointer depths. -/
  | signature (base : String) (params : List (Descriptor × Nat)) (resultDepth : Nat)
deriving Repr, Inhabited

namespace Descriptor

/-- `cs` without the leading word `keyword` and the space after it. -/
def dropKeyword? (keyword : String) (cs : List Char) : Option (List Char) :=
  let lead := keyword.toList ++ [' ']
  if lead.isPrefixOf cs then some (cs.drop lead.length) else none

/-- The name without a leading `struct` or `union`. -/
def bareName (cs : List Char) : List Char :=
  (dropKeyword? "struct" cs).getD ((dropKeyword? "union" cs).getD cs)

/-- A name with the white space around it dropped and each run inside it written as one space. -/
def normalised (name : String) : List Char := Text.squeeze (Text.trim name.toList)

end Descriptor

namespace Ty

/-- The type that a name stands for: a keyword, or what the registry has under the bare name. -/
def resolveName (registry : Registry) (name : String) : Ty :=
  let written := Descriptor.normalised name
  match Primitive.ofKeyword? (String.ofList written) with
  | some kind => primitive kind
  | none =>
    if written = "object".toList then object
    else
      let bare := String.ofList (Descriptor.bareName written)
      (registry.get? bare).getD (pending bare)

mutual

/-- The type that a descriptor stands for under `depth` levels of indirection. A signature is a
pointer to a function even at depth zero. -/
def resolve (registry : Registry) : Descriptor → Nat → Ty
  | .named name, depth => pointerTo (resolveName registry name) depth
  | .signature base params resultDepth, depth =>
    pointerTo
      (function none none (resolveParams registry params)
        (pointerTo (resolveName registry base) resultDepth))
      (max depth 1)

/-- The types of the parameters of a signature. -/
def resolveParams (registry : Registry) : List (Descriptor × Nat) → List Ty
  | [] => []
  | (descriptor, depth) :: rest => resolve registry descriptor depth :: resolveParams registry rest

end

mutual

/-- The type with every pending name replaced by what the registry has now, one look-up each. -/
def rescan (registry : Registry) : Ty → Ty
  | pending name => (registry.get? name).getD (pending name)
  | pointer base depth => pointerTo (base.rescan registry) depth
  | array base size => array (base.rescan registry) size
  | aliased name cName target => aliased name cName (target.rescan registry)
  | function name cName params result =>
    function name cName (rescanAll registry params) (result.rescan registry)
  | primitive kind => primitive kind
  | aggregate kind name cName scope => aggregate kind name cName scope
  | object => object

/-- The types rescanned one by one. -/
def rescanAll (registry : Registry) : List Ty → List Ty
  | [] => []
  | ty :: rest => ty.rescan registry :: rescanAll registry rest

end

/-- The type rescanned if a name in it is pending, else the type as it is. -/
def settle (registry : Registry) (ty : Ty) : Ty :=
  if ty.pending?.isSome then ty.rescan registry else ty

end Ty

end ExtensionCompiler

/-
  Types of shader values.

  A type is numeric (a scalar, a vector or a matrix), a resource, or a struct
  known by its name.  A numeric type may carry a semantic, which is written
  with the fields of structs and otherwise never matters: `same` compares types
  without it.
-/
import Shading.Failure

namespace Shading

/-- The types of single components; `unknown` where nothing says. -/
inductive Scalar where
  | unknown
  | bool
  | int
  | uint
  | half
  | float
  | double
  deriving DecidableEq, Hashable, Repr

namespace Scalar

/-- The keyword of a scalar type. -/
def name : Scalar → String
  | unknown => "unknown"
  | bool => "bool"
  | int => "int"
  | uint => "uint"
  | half => "half"
  | float => "float"
  | double => "double"

/-- All scalar types that shader source has. -/
def concrete : List Scalar := [bool, int, uint, half, float, double]

end Scalar

/-- The shape of a numeric value. -/
inductive Shape where
  | scalar (s : Scalar)
  | vector (s : Scalar) (size : Nat)
  | matrix (s : Scalar) (rows cols : Nat)
  deriving DecidableEq, Hashable, Repr

namespace Shape

/-- The component type. -/
def element : Shape → Scalar
  | scalar s | vector s _ | matrix s _ _ => s

/-- The keyword of a numeric type. -/
def name : Shape → String
  | scalar s => s.name
  | vector s size => s.name ++ toString size
  | matrix s rows cols => s.name ++ toString rows ++ "x" ++ toString cols

end Shape

/-- The families of resources. -/
inductive ResourceFamily where
  | sampler
  | texture
  | buffer
  | rwBuffer
  | rwTexture
  deriving DecidableEq, Hashable, Repr

/-- Resources that a shader can be given. -/
inductive Resource where
  | samplerState
  | samplerComparisonState
  | texture1D
  | texture1DArray
  | texture2D
  | texture2DArray
  | texture2DMS
  | texture2DMSArray
  | texture3D
  | textureCube
  | textureCubeArray
  | buffer
  | structuredBuffer
  | byteAddressBuffer
  | rwBuffer
  | rwStructuredBuffer
  | rwByteAddressBuffer
  | appendStructuredBuffer
  | consumeStructuredBuffer
  | rwTexture1D
  | rwTexture1DArray
  | rwTexture2D
  | rwTexture2DArray
  | rwTexture3D
  deriving DecidableEq, Hashable, Repr

namespace Resource

/-- The keyword of a resource type. -/
def name : Resource → String
  | samplerState => "SamplerState"
  | samplerComparisonState => "SamplerComparisonState"
  | texture1D => "Texture1D"
  | texture1DArray => "Texture1DArray"
  | texture2D => "Texture2D"
  | texture2DArray => "Texture2DArray"
  | texture2DMS => "Texture2DMS"
  | texture2DMSArray => "Texture2DMSArray"
  | texture3D => "Texture3D"
  | textureCube => "TextureCube"
  | textureCubeArray => "TextureCubeArray"
  | buffer => "Buffer"
  | structuredBuffer => "StructuredBuffer"
  | byteAddressBuffer => "ByteAddressBuffer"
  | rwBuffer => "RWBuffer"
  | rwStructuredBuffer => "RWStructuredBuffer"
  | rwByteAddressBuffer => "RWByteAddressBuffer"
  | appendStructuredBuffer => "AppendStructuredBuffer"
  | consumeStructuredBuffer => "ConsumeStructuredBuffer"
  | rwTexture1D => "RWTexture1D"
  | rwTexture1DArray => "RWTexture1DArray"
  | rwTexture2D => "RWTexture2D"
  | rwTexture2DArray => "RWTexture2DArray"
  | rwTexture3D => "RWTexture3D"

/-- The family of a resource. -/
def family : Resource → ResourceFamily
  | samplerState | samplerComparisonState => .sampler
  | texture1D | texture1DArray | texture2D | texture2DArray | texture2DMS | texture2DMSArray
  | texture3D | textureCube | textureCubeArray => .texture
  | buffer | structuredBuffer | byteAddressBuffer => .buffer
  | rwBuffer | rwStructuredBuffer | rwByteAddressBuffer | appendStructuredBuffer
  | consumeStructuredBuffer => .rwBuffer
  | rwTexture1D | rwTexture1DArray | rwTexture2D | rwTexture2DArray | rwTexture3D => .rwTexture

/-- All resources. -/
def all : List Resource :=
  [samplerState, samplerComparisonState, texture1D, texture1DArray, texture2D, texture2DArray,
    texture2DMS, texture2DMSArray, texture3D, textureCube, textureCubeArray, buffer,
    structuredBuffer, byteAddressBuffer, rwBuffer, rwStructuredBuffer, rwByteAddressBuffer,
    appendStructuredBuffer, consumeStructuredBuffer, rwTexture1D, rwTexture1DArray, rwTexture2D,
    rwTexture2DArray, rwTexture3D]

end Resource

/-- The type of a shader value. -/
inductive ValueType where
  | numeric (shape : Shape) (semantic : Option String)
  | resource (r : Resource)
  | struct (name : String)
  deriving DecidableEq, Hashable, Repr

namespace ValueType

/-! ## Making types -/

/-- A scalar type. -/
def scalar (s : Scalar) : ValueType := .numeric (.scalar s) none

/-- A vector type. -/
def vector (s : Scalar) (size : Nat) : ValueType := .numeric (.vector s size) none

/-- A matrix type. -/
def matrix (s : Scalar) (rows cols : Nat) : ValueType := .numeric (.matrix s rows cols) none

/-- The type of a value of which nothing is known. -/
def unknown : ValueType := scalar .unknown

/-- The type `float` for one component, `float2`, `float3`, … for more. -/
def floats (components : Nat) : ValueType :=
  if components ≤ 1 then scalar .float else vector .float components

/-- The type with a semantic; only numeric types can have one. -/
def withSemantic (text : String) : ValueType → ValueType
  | numeric shape _ => numeric shape (some text)
  | t => t

/-- The type without its semantic. -/
def bare : ValueType → ValueType
  | numeric shape _ => numeric shape none
  | t => t

/-! ## Looking at types -/

/-- The semantic of a type. -/
def semantic : ValueType → Option String
  | numeric _ s => s
  | _ => none

/-- Whether two types are the same but for their semantics. -/
def same (a b : ValueType) : Bool :=
  a.bare == b.bare

/-- Whether a type is a scalar type. -/
def isScalar : ValueType → Bool
  | numeric (.scalar _) _ => true
  | _ => false

/-- Whether a type is a vector type. -/
def isVector : ValueType → Bool
  | numeric (.vector _ _) _ => true
  | _ => false

/-- Whether a type is a matrix type. -/
def isMatrix : ValueType → Bool
  | numeric (.matrix _ _ _) _ => true
  | _ => false

/-- Whether a type is a struct. -/
def isStruct : ValueType → Bool
  | struct _ => true
  | _ => false

/-- Whether a type is a resource. -/
def isResource : ValueType → Bool
  | resource _ => true
  | _ => false

/-- Whether nothing is known of a value of this type. -/
def isUnknown : ValueType → Bool
  | numeric (.scalar .unknown) _ => true
  | _ => false

/-- The number of components of a scalar or a vector. -/
def components : ValueType → Option Nat
  | numeric (.scalar _) _ => some 1
  | numeric (.vector _ size) _ => some size
  | _ => none

/-- The component type of a numeric type. -/
def element : ValueType → Option Scalar
  | numeric shape _ => some shape.element
  | _ => none

/-- The type as it is written in shader source. -/
def name : ValueType → String
  | numeric shape _ => shape.name
  | resource r => r.name
  | struct name => name

/-! ## Casts -/

/-- The type that a cast to `t` names; there is none to a resource or to an
    unknown type. -/
def castTarget (t : ValueType) : Except Cause String :=
  if t.isResource || t.isUnknown then .error (.invalidCast t.name) else .ok t.name

/-- The type that a cast takes a value of type `a` to, to make it a value of
    type `b`; none is needed if the types are the same. -/
def castFrom (a b : ValueType) : Except Cause (Option String) :=
  if a.isResource then .error (.invalidCast a.name)
  else if a.same b then .ok none
  else some <$> b.castTarget

/-- Whether an operator that works by components needs casts: its operands
    differ in type, and neither is a scalar. -/
def needCast (a b : ValueType) : Bool :=
  !a.same b && !a.isScalar && !b.isScalar

end ValueType

end Shading

/-
  What stands in front of the entry point: structs, resources with their
  registers, constant buffers and functions.
-/
import Shading.Source
import Shading.Text.Lines
import Shading.ValueType.Basic

namespace Shading

/-- A field of a struct or a constant buffer. -/
structure Field where
  name : String
  type : ValueType
  deriving DecidableEq, Repr

/-- The declaration of a field, with the semantic of its type. -/
def Field.declaration (f : Field) : String :=
  match f.type.semantic with
  | some semantic => f.type.name ++ " " ++ f.name ++ " : " ++ semantic ++ ";"
  | none => f.type.name ++ " " ++ f.name ++ ";"

/-- A block of fields. -/
def Source.fieldBlock (s : Source) (header : String) (fields : List Field) : Source :=
  ((s.openBlock header).lines (fields.map Field.declaration)).closeBlock "\x7d;"

/-- A named list of fields. -/
structure Struct where
  name : String
  fields : List Field
  deriving DecidableEq, Repr

namespace Struct

/-- A struct without name and fields. -/
def empty : Struct := ⟨"", []⟩

/-- The first field with a name. -/
def field? (s : Struct) (name : String) : Option Field :=
  s.fields.find? (·.name == name)

/-- The declaration of a struct. -/
def write (s : Struct) (out : Source) : Source :=
  out.fieldBlock ("struct " ++ s.name) s.fields

end Struct

/-- The register of a resource: a letter for its kind and a slot. -/
def register (kind : String) (slot : UInt32) : String :=
  "register(" ++ kind ++ toString slot ++ ")"

/-- A resource whose elements a shader reads or writes. -/
structure View where
  name : String
  type : ValueType
  element : Option ValueType
  slot : UInt32
  deriving DecidableEq, Repr

namespace View

/-- The type of a view with the type of its elements. -/
def typeName (v : View) : String :=
  match v.element with
  | some element => v.type.name ++ "<" ++ element.name ++ ">"
  | none => v.type.name

/-- The declaration of a view in a register of the given kind. -/
def write (v : View) (kind : String) (out : Source) : Source :=
  out.line (v.typeName ++ " " ++ v.name ++ " : " ++ register kind v.slot ++ ";")

end View

/-- A sampler. -/
structure Sampler where
  name : String
  type : ValueType
  slot : UInt32
  deriving DecidableEq, Repr

/-- The declaration of a sampler. -/
def Sampler.write (s : Sampler) (out : Source) : Source :=
  out.line (s.type.name ++ " " ++ s.name ++ " : " ++ register "s" s.slot ++ ";")

/-- A constant buffer. -/
structure ConstantBuffer where
  name : String
  fields : List Field
  slot : UInt32
  deriving DecidableEq, Repr

/-- The declaration of a constant buffer. -/
def ConstantBuffer.write (b : ConstantBuffer) (out : Source) : Source :=
  out.fieldBlock ("cbuffer " ++ b.name ++ " : " ++ register "b" b.slot) b.fields

/-- A function with its source. -/
structure Function where
  name : String
  source : String
  deriving DecidableEq, Repr

/-- The source of a function, without blanks at the ends of its lines. -/
def Function.write (f : Function) (out : Source) : Source :=
  out.lines (Text.trimmedLines f.source)

end Shading

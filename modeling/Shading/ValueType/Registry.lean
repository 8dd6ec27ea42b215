/-
  The types that a name can stand for.

  A registry knows types by their names, in whatever case they are written.  A
  name that it does not know stands for a struct.
-/
import Shading.Dict
import Shading.Text.Blank
import Shading.ValueType.Basic

namespace Shading

/-- Types by name. -/
structure TypeRegistry where
  types : Dict ValueType
  deriving DecidableEq, Repr

namespace TypeRegistry

/-- A name in the form in which a registry keeps it: with ASCII capitals
    lowered. -/
def key (name : String) : String :=
  String.ofList (name.toList.map Char.toLower)

/-- The types with components of type `s`: the scalar, vectors of two to four
    and matrices of one to four rows and columns. -/
def numericTypes (s : Scalar) : List ValueType :=
  .scalar s :: [2, 3, 4].map (.vector s ·) ++
    [1, 2, 3, 4].flatMap fun rows => [1, 2, 3, 4].map fun cols => .matrix s rows cols

/-- The types that shader source has from the start. -/
def builtin : List ValueType :=
  Scalar.concrete.flatMap numericTypes ++ Resource.all.map .resource

/-- The registry of the built in types. -/
def standard : TypeRegistry :=
  ⟨⟨builtin.map fun t => (key t.name, t)⟩⟩

/-- The registry with one more type, which replaces one of the same name. -/
def register (r : TypeRegistry) (t : ValueType) : TypeRegistry :=
  ⟨r.types.insert (key t.name) t⟩

/-- Whether a name is known. -/
def contains (r : TypeRegistry) (name : String) : Bool :=
  r.types.contains (key name)

/-- The type that a text stands for; blanks around it do not matter. -/
def parse (r : TypeRegistry) (text : String) : ValueType :=
  let name := Text.trim text
  (r.types.get? (key name)).getD (.struct name)

/-- The type that a text stands for, unless it is blank. -/
def parse? (r : TypeRegistry) (text : String) : Option ValueType :=
  (Text.content text).map r.parse

/-- The names of all types, as they are written in shader source. -/
def typeNames (r : TypeRegistry) : List String :=
  r.types.values.map ValueType.name

end TypeRegistry

end Shading

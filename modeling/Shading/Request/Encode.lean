/-
  Compile requests as JSON values, with all fields present.
-/
import Shading.Json.Value
import Shading.Request.Basic

namespace Shading

/-- A text, or null. -/
def Json.optionalText : Option String → Json
  | some s => .string s
  | none => .null

/-- A finite number; JSON has none for the others. -/
def Json.ofSingle (x : Number.Single) : Json :=
  if x.isFinite then .number (.ofSingle x) else .null

namespace Signature

/-- A field of a signature as a JSON value. -/
def Field.toJson (f : Field) : Json :=
  .object [("name", .string f.name), ("valueType", .string f.type),
    ("semantic", .optionalText f.semantic)]

/-- A signature as a JSON value. -/
def toJson (s : Signature) : Json :=
  .object [("name", .string s.name), ("fields", .array (s.fields.map Field.toJson))]

end Signature

/-- Options as a JSON value. -/
def Options.toJson (o : Options) : Json :=
  .object [("inline", .bool o.inline), ("pixelOutputSemantic", .string o.semantic)]

/-- The side of a pin as a JSON value. -/
def PinSide.toJson : PinSide → Json
  | input => .string "in"
  | output => .string "out"

/-- A pin as a JSON value. -/
def Pin.toJson (p : Pin) : Json :=
  .object [("id", .string p.id), ("name", .string p.name), ("kind", p.side.toJson),
    ("valueType", .optionalText p.type?), ("defaultValue", .optionalText p.default?)]

namespace NodeKind

/-- The fields of a kind of node. -/
def fields : NodeKind → List (String × Json)
  | operator op type => [("op", .string op), ("valueType", .string type)]
  | call function type => [("func", .string function), ("valueType", .string type)]
  | voidCall function => [("func", .string function)]
  | declaredCall function type source =>
    [("method", .string function), ("valueType", .optionalText type), ("source", .string source)]
  | convert last => [("value", .ofSingle last)]
  | mask components type => [("mask", .string components), ("valueType", .string type)]
  | pack type | split type | constant type => [("valueType", .string type)]
  | texture | input | output => []

/-- A kind of node as a JSON value. -/
def toJson (k : NodeKind) : Json :=
  .object (("type", .string k.label) :: k.fields)

end NodeKind

/-- A node as a JSON value. -/
def Node.toJson (n : Node) : Json :=
  .object [("id", .string n.id), ("name", .string n.name), ("kind", n.kind.toJson),
    ("pins", .array (n.pins.map Pin.toJson))]

/-- An end of a link as a JSON value. -/
def Endpoint.toJson (e : Endpoint) : Json :=
  .object [("nodeId", .string e.node), ("pinId", .string e.pin)]

/-- A link as a JSON value. -/
def Link.toJson (l : Link) : Json :=
  .object [("id", .string l.id), ("from", l.source.toJson), ("to", l.target.toJson)]

/-- A graph as a JSON value. -/
def Graph.toJson (g : Graph) : Json :=
  .object [("nodes", .array (g.nodes.map Node.toJson)),
    ("links", .array (g.links.map Link.toJson))]

/-- A request as a JSON value. -/
def Request.toJson (q : Request) : Json :=
  .object [("version", .string q.version), ("entryName", .string q.entryName),
    ("root", .string q.root), ("inputSignature", q.input.toJson),
    ("outputSignature", q.output.toJson), ("defineInputStruct", .bool q.definesInput),
    ("defineOutputStruct", .bool q.definesOutput), ("options", q.options.toJson),
    ("graph", q.graph.toJson)]

end Shading

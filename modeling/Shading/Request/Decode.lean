/-
  Reading compile requests from JSON texts.
-/
import Shading.Json.Record
import Shading.Request.Basic

namespace Shading

open Json (Reader Record Variant)

namespace Signature

/-- How a field of a signature is read. -/
def Field.record : Record Field :=
  Record.const Field.mk
    |>.apply (.field "name" Reader.string)
    |>.apply (.field "valueType" Reader.string)
    |>.apply (.field? "semantic" Reader.string)

/-- How a signature is read. -/
def record : Record Signature :=
  Record.const Signature.mk
    |>.apply (.field "name" Reader.string)
    |>.apply (.fieldD "fields" (Reader.list (Field.record.read "struct FieldDesc")) [])

end Signature

/-- How options are read. -/
def Options.record : Record Options :=
  Record.const Options.mk
    |>.apply (.fieldD "inline" Reader.bool Options.standard.inline)
    |>.apply (.fieldD "pixelOutputSemantic" Reader.string Options.standard.semantic)

/-- The names of the sides of a node. -/
def PinSide.cases : List (String × PinSide) :=
  [("in", .input), ("out", .output)]

/-- How a pin is read. -/
def Pin.record : Record Pin :=
  Record.const Pin.mk
    |>.apply (.field "id" Reader.string)
    |>.apply (.fieldD "name" Reader.string "")
    |>.apply (.field "kind" (Reader.choice PinSide.cases))
    |>.apply (.field? "valueType" Reader.string)
    |>.apply (.field? "defaultValue" Reader.string)

namespace NodeKind

/-- The kinds of nodes by their names, with their fields. -/
def cases : List (String × Variant NodeKind) :=
  let text (name : String) := Record.field name Reader.string
  let plain (name : String) (k : NodeKind) : String × Variant NodeKind := (name, .plain k)
  let fields (name : String) (r : Record NodeKind) : String × Variant NodeKind :=
    (name, .record ("struct variant NodeKind::" ++ name) r)
  [plain "Texture" .texture,
    fields "Operator" <|
      Record.const .operator |>.apply (text "op") |>.apply (text "valueType"),
    fields "FuncCall" <|
      Record.const .call |>.apply (text "func") |>.apply (text "valueType"),
    fields "FuncCallVoid" <| Record.const .voidCall |>.apply (text "func"),
    fields "FuncCallDeclaration" <|
      Record.const .declaredCall |>.apply (text "method")
        |>.apply (.field? "valueType" Reader.string) |>.apply (text "source"),
    fields "Convert" <| Record.const .convert |>.apply (.field "value" Reader.single),
    fields "ComponentMask" <|
      Record.const .mask |>.apply (text "mask") |>.apply (text "valueType"),
    fields "Pack" <| Record.const .pack |>.apply (text "valueType"),
    fields "Split" <| Record.const .split |>.apply (text "valueType"),
    fields "Constant" <| Record.const .constant |>.apply (text "valueType"),
    plain "Input" .input,
    plain "Output" .output]

/-- How many brackets may be open in a value inside the kind of a node: of 127
    in all, five are open around it. -/
def nesting : Nat := 122

/-- How the kind of a node is read. -/
def read : Reader NodeKind :=
  Variant.read "type" "internally tagged enum NodeKind" nesting cases

end NodeKind

/-- How a node is read. -/
def Node.record : Record Node :=
  Record.const Node.mk
    |>.apply (.field "id" Reader.string)
    |>.apply (.fieldD "name" Reader.string "")
    |>.apply (.field "kind" NodeKind.read)
    |>.apply (.fieldD "pins" (Reader.list (Pin.record.read "struct Pin")) [])

/-- How an end of a link is read. -/
def Endpoint.record : Record Endpoint :=
  Record.const Endpoint.mk
    |>.apply (.field "nodeId" Reader.string)
    |>.apply (.field "pinId" Reader.string)

/-- How a link is read. -/
def Link.record : Record Link :=
  let endpoint := Endpoint.record.read "struct Endpoint"
  Record.const Link.mk
    |>.apply (.field "id" Reader.string)
    |>.apply (.field "from" endpoint)
    |>.apply (.field "to" endpoint)

/-- How a graph is read. -/
def Graph.record : Record Graph :=
  Record.const Graph.mk
    |>.apply (.fieldD "nodes" (Reader.list (Node.record.read "struct Node")) [])
    |>.apply (.fieldD "links" (Reader.list (Link.record.read "struct Link")) [])

namespace Request

/-- How a request is read. -/
def record : Record Request :=
  Record.const Request.mk
    |>.apply (.fieldD "version" Reader.string "1.0")
    |>.apply (.field "entryName" Reader.string)
    |>.apply (.field "root" Reader.string)
    |>.apply (.field "inputSignature" (Signature.record.read "struct SignatureDesc"))
    |>.apply (.field "outputSignature" (Signature.record.read "struct SignatureDesc"))
    |>.apply (.fieldD "defineInputStruct" Reader.bool false)
    |>.apply (.fieldD "defineOutputStruct" Reader.bool false)
    |>.apply (.fieldD "options" (Options.record.read "struct GeneratorOptions") Options.standard)
    |>.apply (.field "graph" (Graph.record.read "struct ShaderGraph"))

end Request

/-- The value of a record that a text spells. -/
def Json.Record.ofText {α : Type} (r : Record α) (expected text : String) :
    Except Json.Fault α := do
  let d := Json.Document.ofText text
  let a ← r.read expected d.root
  if d.trailing then .error (.flaw .trailingText) else .ok a

/-- The request that a text spells. -/
def Request.ofText (text : String) : Except Json.Fault Request :=
  Request.record.ofText "struct CompileRequest" text

/-- The graph that a text spells. -/
def Graph.ofText (text : String) : Except Json.Fault Graph :=
  Graph.record.ofText "struct ShaderGraph" text

end Shading

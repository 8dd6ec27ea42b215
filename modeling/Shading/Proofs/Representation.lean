/-
  What is read from a text does not depend on how it is written.

  The shapes of requests and of their parts say which fields they have, in
  which order, and what stands for a field that is not there.  A text from
  which a request is read may be rewritten in all the ways that these shapes
  allow (`Step`), as often as one likes, and spelled in any way: the same
  request is read from it (`Request.ofText_rewritten`).
-/
import Shading.Proofs.Rewriting
import Shading.Proofs.RoundTrip

namespace Shading

open Json (Draft FieldShape Quoted Reader Record Shape Spells Step Variant entries)
open Relation (ReflTransGen)

/-! ## Shapes -/

namespace Signature

/-- The fields of a field of a signature. -/
def Field.shapes : List FieldShape :=
  [⟨"name", .atom, none⟩, ⟨"valueType", .atom, none⟩, ⟨"semantic", .atom, some .null⟩]

/-- The fields of a signature. -/
def shapes : List FieldShape :=
  [⟨"name", .atom, none⟩, ⟨"fields", .list (.record Field.shapes), some (.arrayOf [])⟩]

end Signature

/-- The fields of options. -/
def Options.shapes : List FieldShape :=
  [⟨"inline", .atom, some (.bool Options.standard.inline)⟩,
    ⟨"pixelOutputSemantic", .atom, some (.string (.ok Options.standard.semantic))⟩]

/-- The fields of a pin. -/
def Pin.shapes : List FieldShape :=
  [⟨"id", .atom, none⟩, ⟨"name", .atom, some (.string (.ok ""))⟩, ⟨"kind", .atom, none⟩,
    ⟨"valueType", .atom, some .null⟩, ⟨"defaultValue", .atom, some .null⟩]

/-- The fields of the kinds of nodes. -/
def NodeKind.shapes : List (String × List FieldShape) :=
  let text (name : String) : FieldShape := ⟨name, .atom, none⟩
  [("Texture", []), ("Operator", [text "op", text "valueType"]),
    ("FuncCall", [text "func", text "valueType"]), ("FuncCallVoid", [text "func"]),
    ("FuncCallDeclaration", [text "method", ⟨"valueType", .atom, some .null⟩, text "source"]),
    ("Convert", [text "value"]), ("ComponentMask", [text "mask", text "valueType"]),
    ("Pack", [text "valueType"]), ("Split", [text "valueType"]), ("Constant", [text "valueType"]),
    ("Input", []), ("Output", [])]

/-- The fields of a node. -/
def Node.shapes : List FieldShape :=
  [⟨"id", .atom, none⟩, ⟨"name", .atom, some (.string (.ok ""))⟩,
    ⟨"kind", .tagged "type" NodeKind.shapes, none⟩,
    ⟨"pins", .list (.record Pin.shapes), some (.arrayOf [])⟩]

/-- The fields of an end of a link. -/
def Endpoint.shapes : List FieldShape :=
  [⟨"nodeId", .atom, none⟩, ⟨"pinId", .atom, none⟩]

/-- The fields of a link. -/
def Link.shapes : List FieldShape :=
  [⟨"id", .atom, none⟩, ⟨"from", .record Endpoint.shapes, none⟩,
    ⟨"to", .record Endpoint.shapes, none⟩]

/-- The fields of a graph. -/
def Graph.shapes : List FieldShape :=
  [⟨"nodes", .list (.record Node.shapes), some (.arrayOf [])⟩,
    ⟨"links", .list (.record Link.shapes), some (.arrayOf [])⟩]

/-- The fields of a request. -/
def Request.shapes : List FieldShape :=
  [⟨"version", .atom, some (.string (.ok "1.0"))⟩, ⟨"entryName", .atom, none⟩,
    ⟨"root", .atom, none⟩, ⟨"inputSignature", .record Signature.shapes, none⟩,
    ⟨"outputSignature", .record Signature.shapes, none⟩,
    ⟨"defineInputStruct", .atom, some (.bool false)⟩,
    ⟨"defineOutputStruct", .atom, some (.bool false)⟩,
    ⟨"options", .record Options.shapes, some (.ofJson Options.standard.toJson)⟩,
    ⟨"graph", .record Graph.shapes, none⟩]

/-! ## Readers -/

section Parts

variable {room : Nat}

theorem Signature.Field.respects (expected : String) :
    Reader.Respects (Field.record.read expected) room (.record Field.shapes) := by
  refine Record.Respects.read ?_ (by simp [Field.shapes]) expected
  exact (Record.respects_const Field.mk _)
    |>.required "name" .atom none (by simp) Reader.respects_string
    |>.required "valueType" .atom none (by simp) Reader.respects_string
    |>.optional "semantic" .atom .null none (by simp) Reader.respects_optionalString rfl

theorem Signature.respects (expected : String) :
    Reader.Respects (Signature.record.read expected) room (.record Signature.shapes) := by
  refine Record.Respects.read ?_ (by simp [Signature.shapes]) expected
  exact (Record.respects_const Signature.mk _)
    |>.required "name" .atom none (by simp) Reader.respects_string
    |>.optional "fields" (.list (.record Field.shapes)) (.arrayOf []) [] (by simp)
      (Field.respects _).list rfl

theorem Options.respects (expected : String) :
    Reader.Respects (Options.record.read expected) room (.record Options.shapes) := by
  refine Record.Respects.read ?_ (by simp [Options.shapes]) expected
  exact (Record.respects_const Options.mk _)
    |>.optional "inline" .atom (.bool Options.standard.inline) _ (by simp) Reader.respects_bool rfl
    |>.optional "pixelOutputSemantic" .atom (.string (.ok Options.standard.semantic)) _ (by simp)
      Reader.respects_string rfl

theorem Pin.respects (expected : String) :
    Reader.Respects (Pin.record.read expected) room (.record Pin.shapes) := by
  refine Record.Respects.read ?_ (by simp [Pin.shapes]) expected
  exact (Record.respects_const Pin.mk _)
    |>.required "id" .atom none (by simp) Reader.respects_string
    |>.optional "name" .atom (.string (.ok "")) "" (by simp) Reader.respects_string rfl
    |>.required "kind" .atom none (by simp) (Reader.respects_choice _)
    |>.optional "valueType" .atom .null none (by simp) Reader.respects_optionalString rfl
    |>.optional "defaultValue" .atom .null none (by simp) Reader.respects_optionalString rfl

theorem Endpoint.respects (expected : String) :
    Reader.Respects (Endpoint.record.read expected) room (.record Endpoint.shapes) := by
  refine Record.Respects.read ?_ (by simp [Endpoint.shapes]) expected
  exact (Record.respects_const Endpoint.mk _)
    |>.required "nodeId" .atom none (by simp) Reader.respects_string
    |>.required "pinId" .atom none (by simp) Reader.respects_string

theorem Link.respects (expected : String) :
    Reader.Respects (Link.record.read expected) room (.record Link.shapes) := by
  refine Record.Respects.read ?_ (by simp [Link.shapes]) expected
  exact (Record.respects_const Link.mk _)
    |>.required "id" .atom none (by simp) Reader.respects_string
    |>.required "from" (.record Endpoint.shapes) none (by simp) (Endpoint.respects _)
    |>.required "to" (.record Endpoint.shapes) none (by simp) (Endpoint.respects _)

end Parts

namespace NodeKind

theorem flat_shapes : ∀ c ∈ shapes, Variant.Flat "type" c.2 := by
  intro c hc
  simp only [shapes, List.mem_cons, List.not_mem_nil, or_false] at hc
  rcases hc with rfl | rfl | rfl | rfl | rfl | rfl | rfl | rfl | rfl | rfl | rfl | rfl
  all_goals exact ⟨by simp, by simp, by simp⟩

theorem respects_cases (room : Nat) :
    List.Forall₂ (fun c s => c.1 = s.1 ∧ c.2.Respects room s.2) cases shapes := by
  have text {β : Type} {p : Record (String → β)} {fields : List FieldShape}
      (h : p.Respects room fields) (name : String) (hname : name ∉ p.names) :
      (p.apply (.field name Reader.string)).Respects room (fields ++ [⟨name, .atom, none⟩]) :=
    h.required name .atom none hname Reader.respects_string
  have start {β : Type} (k : β) : (Record.const k).Respects room [] := Record.respects_const k room
  have texture := Variant.respects_plain NodeKind.texture room
  have operator := text (text (start NodeKind.operator) "op" (by simp)) "valueType" (by simp)
  have call := text (text (start NodeKind.call) "func" (by simp)) "valueType" (by simp)
  have voidCall := text (start NodeKind.voidCall) "func" (by simp)
  have declaredCall := text ((text (start NodeKind.declaredCall) "method" (by simp)).optional
    "valueType" .atom .null none (by simp) Reader.respects_optionalString rfl) "source" (by simp)
  have convert := (start NodeKind.convert).required "value" .atom none (by simp)
    Reader.respects_single
  have mask := text (text (start NodeKind.mask) "mask" (by simp)) "valueType" (by simp)
  have pack := text (start NodeKind.pack) "valueType" (by simp)
  have split := text (start NodeKind.split) "valueType" (by simp)
  have constant := text (start NodeKind.constant) "valueType" (by simp)
  have input := Variant.respects_plain NodeKind.input room
  have output := Variant.respects_plain NodeKind.output room
  exact .cons ⟨rfl, texture⟩ <| .cons ⟨rfl, Variant.respects_record operator _⟩ <|
    .cons ⟨rfl, Variant.respects_record call _⟩ <|
    .cons ⟨rfl, Variant.respects_record voidCall _⟩ <|
    .cons ⟨rfl, Variant.respects_record declaredCall _⟩ <|
    .cons ⟨rfl, Variant.respects_record convert _⟩ <|
    .cons ⟨rfl, Variant.respects_record mask _⟩ <| .cons ⟨rfl, Variant.respects_record pack _⟩ <|
    .cons ⟨rfl, Variant.respects_record split _⟩ <|
    .cons ⟨rfl, Variant.respects_record constant _⟩ <| .cons ⟨rfl, input⟩ <|
    .cons ⟨rfl, output⟩ .nil

theorem respects : NodeKind.read.Respects 123 (.tagged "type" shapes) :=
  Variant.respects_read flat_shapes (respects_cases nesting)

end NodeKind

/-! The numbers of brackets that may be open in the parts of a graph are those
    in the graph of a request. -/

theorem Node.respects (expected : String) :
    Reader.Respects (Node.record.read expected) 124 (.record Node.shapes) := by
  refine Record.Respects.read ?_ (by simp [Node.shapes]) expected
  exact (Record.respects_const Node.mk _)
    |>.required "id" .atom none (by simp) Reader.respects_string
    |>.optional "name" .atom (.string (.ok "")) "" (by simp) Reader.respects_string rfl
    |>.required "kind" (.tagged "type" NodeKind.shapes) none (by simp) NodeKind.respects
    |>.optional "pins" (.list (.record Pin.shapes)) (.arrayOf []) [] (by simp)
      (Pin.respects _).list rfl

theorem Graph.respects (expected : String) :
    Reader.Respects (Graph.record.read expected) 126 (.record Graph.shapes) := by
  refine Record.Respects.read ?_ (by simp [Graph.shapes]) expected
  exact (Record.respects_const Graph.mk _)
    |>.optional "nodes" (.list (.record Node.shapes)) (.arrayOf []) [] (by simp)
      (Node.respects _).list rfl
    |>.optional "links" (.list (.record Link.shapes)) (.arrayOf []) [] (by simp)
      (Link.respects _).list rfl

theorem Request.respects (expected : String) :
    Reader.Respects (Request.record.read expected) 127 (.record Request.shapes) := by
  refine Record.Respects.read ?_ (by simp [Request.shapes]) expected
  exact (Record.respects_const Request.mk _)
    |>.optional "version" .atom (.string (.ok "1.0")) "1.0" (by simp) Reader.respects_string rfl
    |>.required "entryName" .atom none (by simp) Reader.respects_string
    |>.required "root" .atom none (by simp) Reader.respects_string
    |>.required "inputSignature" (.record Signature.shapes) none (by simp) (Signature.respects _)
    |>.required "outputSignature" (.record Signature.shapes) none (by simp) (Signature.respects _)
    |>.optional "defineInputStruct" .atom (.bool false) false (by simp) Reader.respects_bool rfl
    |>.optional "defineOutputStruct" .atom (.bool false) false (by simp) Reader.respects_bool rfl
    |>.optional "options" (.record Options.shapes) (.ofJson Options.standard.toJson)
      Options.standard (by simp) (Options.respects _) (Options.standard.read_toJson _)
    |>.required "graph" (.record Graph.shapes) none (by simp) (Graph.respects _)

/-! ## Texts -/

/-- A text from which a record is read spells a value. -/
theorem Json.Record.spells_of_ofText {α : Type} {p : Record α} {expected text : String} {a : α}
    (h : p.ofText expected text = .ok a) : ∃ d, Spells text d ∧ p.read expected d = .ok a := by
  obtain ⟨b, hb, h⟩ := Json.bind_ok_iff.1 h
  cases htrailing : (Json.Document.ofText text).trailing with
  | true =>
    rw [htrailing] at h
    cases h
  | false =>
    rw [htrailing] at h
    cases h
    have hskip := Reader.Strict.skips _ a hb
    rcases Json.Document.ofText_cases text with hspells | htrailing' | hflaw
    · exact ⟨_, hspells, hb⟩
    · rw [htrailing] at htrailing'
      cases htrailing'
    · rw [hskip] at hflaw
      cases hflaw

/-- Rewritings of a request, as many as one likes. -/
def Request.Rewrites : Draft → Draft → Prop :=
  ReflTransGen (Step 127 (.record Request.shapes))

/-- A run of rewritings keeps what is read, because each of them does. -/
theorem Request.read_rewritten {d d' : Draft} (h : Request.Rewrites d d') {expected : String}
    {q : Request} (hread : Request.record.read expected d = .ok q) :
    Request.record.read expected d' = .ok q := by
  induction h with
  | refl => exact hread
  | tail _ hstep ih => exact Request.respects expected _ _ q hstep ih

/-- However a text is rewritten and spelled, the same request is read from
    it. -/
theorem Request.ofText_rewritten {text : String} {q : Request} (h : Request.ofText text = .ok q) :
    (∃ d, Spells text d) ∧ ∀ d d' text', Spells text d → Request.Rewrites d d' →
      Spells text' d' → Request.ofText text' = .ok q := by
  obtain ⟨d₀, hd₀, -⟩ := Record.spells_of_ofText h
  refine ⟨⟨d₀, hd₀⟩, fun d d' text' hd hrewrites hd' => ?_⟩
  rw [Request.ofText, hd.record_ofText] at h
  rw [Request.ofText, hd'.record_ofText]
  exact Request.read_rewritten hrewrites h

/-- Rewritings inside a member of a record. -/
theorem Json.Step.inside_member {room : Nat} {fields : List FieldShape} {key : Quoted}
    {ms : List (Quoted × Draft)} {v v' : Draft}
    (h : ReflTransGen (Step (room - 1) (Json.shapeOf fields key)) v v') :
    ReflTransGen (Step room (.record fields)) (.objectOf ((key, v) :: ms))
      (.objectOf ((key, v') :: ms)) :=
  h.lift (fun v => Draft.objectOf ((key, v) :: ms)) fun _ _ hstep => .member rfl hstep

/-- Rewritings inside an element of an array. -/
theorem Json.Step.inside_element {room : Nat} {s t : Shape} (vs : List Draft) {ws : List Draft}
    {v v' : Draft} (hshape : ∀ v, s.shapeAt (vs ++ v :: ws) vs.length = some t)
    (h : ReflTransGen (Step (room - 1) t) v v') :
    ReflTransGen (Step room s) (.arrayOf (vs ++ v :: ws)) (.arrayOf (vs ++ v' :: ws)) :=
  h.lift (fun v => Draft.arrayOf (vs ++ v :: ws)) fun v _ hstep => .element (hshape v) hstep

theorem Json.Step.inside_singleton {room : Nat} {item : Shape} {v v' : Json}
    (h : ReflTransGen (Step (room - 1) item) (.ofJson v) (.ofJson v')) :
    ReflTransGen (Step room (.list item)) (.ofJson (.array [v])) (.ofJson (.array [v'])) := by
  rw [Draft.ofJson_array, Draft.ofJson_array]
  exact Step.inside_element [] (fun _ => rfl) h

/-- A text may begin with a blank. -/
theorem Json.Spells.blank {text : String} {d : Draft} (h : Spells text d) :
    Spells ("\n" ++ text) d where
  whole := h.whole
  spelled := by
    rw [String.toList_append]
    exact .blank rfl h.spelled

namespace Sample

/-- The members that a request cannot do without, but for its graph. -/
def essentials : List (String × Json) :=
  [("entryName", .string "main"), ("root", .string "out"),
    ("inputSignature", .object [("name", .string "A")]),
    ("outputSignature", .object [("name", .string "B")])]

/-- The request that they make with a graph. -/
def requestOf (g : Graph) : Request :=
  ⟨"1.0", "main", "out", ⟨"A", []⟩, ⟨"B", []⟩, false, false, Options.standard, g⟩

/-- A short value of that request. -/
def brief (g : Json) : Json :=
  .object (essentials ++ [("graph", g)])

/-- A longer one, with the default version and a member that nobody asks for,
    and with the graph in front. -/
def lengthy (g : Json) : Json :=
  .object (("version", .string "1.0") :: ("note", .array [.null, .object []]) ::
    ("graph", g) :: essentials)

theorem spells_brief {g : Json} (h : Json.Proper g) : Spells (brief g).render (.ofJson (brief g)) :=
  Json.spells_render ⟨trivial, trivial, ⟨trivial, trivial⟩, ⟨trivial, trivial⟩, h, trivial⟩

theorem spells_lengthy {g : Json} (h : Json.Proper g) :
    Spells (lengthy g).render (.ofJson (lengthy g)) :=
  Json.spells_render ⟨trivial, ⟨trivial, trivial, trivial⟩, h, trivial, trivial, ⟨trivial, trivial⟩,
    ⟨trivial, trivial⟩, trivial⟩

/-- Rewritings of the graph are rewritings of the request. -/
theorem rewrites_lengthy {g g' : Json}
    (h : ReflTransGen (Step 126 (.record Graph.shapes)) (.ofJson g) (.ofJson g')) :
    Request.Rewrites (.ofJson (brief g)) (.ofJson (lengthy g')) := by
  have hfront : Step 127 (.record Request.shapes) (.ofJson (brief g))
      (.objectOf (entries (("graph", g) :: essentials))) := by
    rw [brief, Draft.ofJson_object]
    exact .permute ((List.perm_append_singleton ..).map _)
  have hgraph : Request.Rewrites (.objectOf (entries (("graph", g) :: essentials)))
      (.objectOf (entries (("graph", g') :: essentials))) :=
    Step.inside_member h
  have hnote : Step 127 (.record Request.shapes)
      (.objectOf (entries (("graph", g') :: essentials)))
      (.objectOf (entries (("note", .array [.null, .object []]) :: ("graph", g') ::
        essentials))) :=
    .insert rfl (by simp [Request.shapes]) rfl
  have hversion : Step 127 (.record Request.shapes)
      (.objectOf (entries (("note", .array [.null, .object []]) :: ("graph", g') ::
        essentials)))
      (.ofJson (lengthy g')) := by
    rw [lengthy, Draft.ofJson_object]
    exact .fill (f := ⟨"version", .atom, some (.string (.ok "1.0"))⟩) rfl (by simp [Request.shapes])
      rfl (by simp [entries, essentials])
  exact .tail (.tail (.trans (.single hfront) hgraph) hnote) hversion

/-- The kind of a node, with the tag in front. -/
def tagFirst : Json :=
  .object [("type", .string "Constant"), ("valueType", .string "float")]

/-- The same kind with the tag at the end. -/
def tagLast : Json :=
  .object [("valueType", .string "float"), ("type", .string "Constant")]

/-- A pin of a node. -/
def pinObject : Json :=
  .object [("id", .string "p"), ("kind", .string "out")]

/-- The same pin as an array, with its name. -/
def pinArray : Json :=
  .array [.string "p", .string "", .string "out"]

/-- A node all of whose parts are objects. -/
def nodeObject : Json :=
  .object [("id", .string "n"), ("kind", tagFirst), ("pins", .array [pinObject])]

/-- The same node as an array, with its name. -/
def nodeArray : Json :=
  .array [.string "n", .string "", tagLast, .array [pinArray]]

theorem rewrites_pin : ReflTransGen (Step 122 (.record Pin.shapes)) (.ofJson pinObject)
    (.ofJson pinArray) := by
  have hname : Step 122 (.record Pin.shapes) (.ofJson pinObject)
      (.objectOf (entries
        [("name", .string ""), ("id", .string "p"), ("kind", .string "out")])) := by
    rw [pinObject, Draft.ofJson_object]
    exact .fill (f := ⟨"name", .atom, some (.string (.ok ""))⟩) rfl (by simp [Pin.shapes]) rfl rfl
  have harray : Step 122 (.record Pin.shapes)
      (.objectOf (entries [("name", .string ""), ("id", .string "p"), ("kind", .string "out")]))
      (.ofJson pinArray) := by
    rw [pinArray, Draft.ofJson_array]
    refine .asArray (by simp) rfl ⟨by simp [Pin.shapes], fun i f hf => ?_⟩
    match i with
    | 0 | 1 | 2 | 3 | 4 =>
      cases hf
      rfl
  exact .tail (.single hname) harray

theorem rewrites_tag : Step 123 (.tagged "type" NodeKind.shapes) (.ofJson tagFirst)
    (.ofJson tagLast) := by
  rw [tagFirst, tagLast, Draft.ofJson_object, Draft.ofJson_object]
  exact .permute (List.Perm.swap ..)

/-- The node becomes an array first, then the parts in it are rewritten. -/
theorem rewrites_node : ReflTransGen (Step 124 (.record Node.shapes)) (.ofJson nodeObject)
    (.ofJson nodeArray) := by
  have hname : Step 124 (.record Node.shapes) (.ofJson nodeObject)
      (.objectOf (entries [("name", .string ""), ("id", .string "n"), ("kind", tagFirst),
        ("pins", .array [pinObject])])) := by
    rw [nodeObject, Draft.ofJson_object]
    exact .fill (f := ⟨"name", .atom, some (.string (.ok ""))⟩) rfl (by simp [Node.shapes]) rfl rfl
  have harray : Step 124 (.record Node.shapes)
      (.objectOf (entries [("name", .string ""), ("id", .string "n"), ("kind", tagFirst),
        ("pins", .array [pinObject])]))
      (.ofJson (.array [.string "n", .string "", tagFirst, .array [pinObject]])) := by
    rw [Draft.ofJson_array]
    refine .asArray (by simp) rfl ⟨by simp [Node.shapes], fun i f hf => ?_⟩
    match i with
    | 0 | 1 | 2 | 3 =>
      cases hf
      rfl
  have hkind : ReflTransGen (Step 124 (.record Node.shapes))
      (.ofJson (.array [.string "n", .string "", tagFirst, .array [pinObject]]))
      (.ofJson (.array [.string "n", .string "", tagLast, .array [pinObject]])) := by
    rw [Draft.ofJson_array, Draft.ofJson_array]
    exact Step.inside_element [.string (.ok "n"), .string (.ok "")] (fun _ => rfl)
      (.single rewrites_tag)
  have hpins : ReflTransGen (Step 124 (.record Node.shapes))
      (.ofJson (.array [.string "n", .string "", tagLast, .array [pinObject]]))
      (.ofJson nodeArray) := by
    rw [nodeArray, Draft.ofJson_array, Draft.ofJson_array]
    exact Step.inside_element [.string (.ok "n"), .string (.ok ""), .ofJson tagLast]
      (fun _ => rfl) (Step.inside_singleton rewrites_pin)
  exact .trans (.trans (.tail (.single hname) harray) hkind) hpins

/-- The nodes are rewritten first, then the graph becomes an array. -/
theorem rewrites_graph : ReflTransGen (Step 126 (.record Graph.shapes))
    (.ofJson (.object [("nodes", .array [nodeObject])]))
    (.ofJson (.array [.array [nodeArray]])) := by
  have hnodes : ReflTransGen (Step 126 (.record Graph.shapes))
      (.ofJson (.object [("nodes", .array [nodeObject])]))
      (.ofJson (.object [("nodes", .array [nodeArray])])) := by
    rw [Draft.ofJson_object, Draft.ofJson_object]
    exact Step.inside_member (Step.inside_singleton rewrites_node)
  have harray : Step 126 (.record Graph.shapes) (.ofJson (.object [("nodes", .array [nodeArray])]))
      (.ofJson (.array [.array [nodeArray]])) := by
    rw [Draft.ofJson_object, Draft.ofJson_array]
    refine .asArray (by simp) rfl ⟨by simp [Graph.shapes], fun i f hf => ?_⟩
    match i with
    | 0 | 1 =>
      cases hf
      rfl
  exact .tail hnodes harray

end Sample

/-- A node in its graph, as objects with the tag of the kind in front or as
    arrays with the tag behind. -/
theorem Request.ofText_rewritten_nested :
    ∃ q, q.graph.nodes = [⟨"n", "", .constant "float", [⟨"p", "", .output, none, none⟩]⟩] ∧
      Request.ofText
        (Sample.brief (.object [("nodes", .array [Sample.nodeObject])])).render = .ok q ∧
      Request.ofText
        ("\n" ++ (Sample.lengthy (.array [.array [Sample.nodeArray]])).render) = .ok q := by
  have hbrief : Spells (Sample.brief (.object [("nodes", .array [Sample.nodeObject])])).render _ :=
    Sample.spells_brief ⟨⟨⟨trivial, ⟨trivial, trivial, trivial⟩,
      ⟨⟨trivial, trivial, trivial⟩, trivial⟩, trivial⟩, trivial⟩, trivial⟩
  have hlengthy : Spells (Sample.lengthy (.array [.array [Sample.nodeArray]])).render _ :=
    Sample.spells_lengthy ⟨⟨⟨trivial, trivial, ⟨trivial, trivial, trivial⟩,
      ⟨⟨trivial, trivial, trivial, trivial⟩, trivial⟩, trivial⟩, trivial⟩, trivial⟩
  have hread : Request.ofText
      (Sample.brief (.object [("nodes", .array [Sample.nodeObject])])).render =
        .ok (Sample.requestOf
          ⟨[⟨"n", "", .constant "float", [⟨"p", "", .output, none, none⟩]⟩], []⟩) := by
    rw [Request.ofText, hbrief.record_ofText]
    rfl
  exact ⟨_, rfl, hread, (Request.ofText_rewritten hread).2 _ _ _ hbrief
    (Sample.rewrites_lengthy Sample.rewrites_graph) hlengthy.blank⟩

/-- A graph with a pin. -/
def Sample.pinned (kind : Json) : Json :=
  .object [("nodes", .array [.object [("id", .string "n"), ("kind", .array [.string "Input"]),
    ("pins", .array [.object [("id", .string "p"), ("kind", kind)]])]])]

theorem Sample.spells_pinned (ms : List (String × Json)) (h : Json.ProperMembers ms) :
    Spells (brief (pinned (.object ms))).render (.ofJson (brief (pinned (.object ms)))) :=
  spells_brief ⟨⟨⟨trivial, ⟨trivial, trivial⟩, ⟨⟨trivial, h, trivial⟩, trivial⟩, trivial⟩, trivial⟩,
    trivial⟩

/-- The one object that no member may be inserted in is the one that names the
    side of a pin. -/
theorem Request.ofText_pinKind_extended :
    Request.ofText (Sample.brief (Sample.pinned (.object [("in", .null)]))).render =
        .ok (Sample.requestOf ⟨[⟨"n", "", .input, [⟨"p", "", .input, none, none⟩]⟩], []⟩) ∧
      Request.ofText (Sample.brief (Sample.pinned (.object [("in", .null), ("x", .null)]))).render =
        .error (.flaw .valueExpected) := by
  have hone := Sample.spells_pinned [("in", .null)] ⟨trivial, trivial⟩
  have htwo := Sample.spells_pinned [("in", .null), ("x", .null)] ⟨trivial, trivial, trivial⟩
  constructor
  · rw [Request.ofText, hone.record_ofText]
    rfl
  · rw [Request.ofText, htwo.record_ofText]
    rfl

end Shading

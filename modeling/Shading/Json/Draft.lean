/-
  A JSON text as far as it can be read.

  A `Draft` is the value that a text spells, with the place where the text
  stops being JSON, if there is one, kept inside: as a broken value, or as the
  way in which an array or an object ends (`Ending`).  Readers walk a draft in
  the order of the text, so each meets that place exactly where it would meet
  it in the text, after whatever it refuses before.

  * `Document.ofText` builds the draft of a text, with one pass over its tokens
    and a stack of open arrays and objects.
  * `Draft.skip?` is what a reader reports that does not want a value.
  * `Draft.sound?` is what a reader reports that wants the value whatever it
    is, with a bound on the nesting.
  * `Draft.toJson?` is the value itself.
-/
import Shading.Json.Value
import Shading.Json.Token

namespace Shading.Json

/-! ## Drafts -/

/-- A place between the brackets of an array or an object: right after the
    opening bracket, after an element, or after a comma. -/
inductive Gap where
  | first
  | separator
  | afterComma
  deriving DecidableEq, Repr

/-- How an array or an object ends: with its bracket, with the end of the text,
    with a token that cannot stand there, or inside its last element, where
    someone who skips it meets the flaw `loose`. -/
inductive Ending where
  | closed
  | ended (gap : Gap)
  | unexpected (gap : Gap) (t : Token)
  | within (loose : Flaw)

mutual

/-- A value as far as its text can be read. -/
inductive Draft where
  | null
  | bool (b : Bool)
  | number (n : Numeral)
  | string (s : Quoted)
  | array (items : Items)
  | object (members : Members)
  | broken (b : Break)

/-- The elements of an array. -/
inductive Items where
  | stop (e : Ending)
  | cons (value : Draft) (rest : Items)

/-- The members of an object. -/
inductive Members where
  | stop (e : Ending)
  | cons (name : Quoted) (value : Draft) (rest : Members)

end

/-- The array elements `done`, which stand in reverse, before `rest`. -/
def Items.ofReverse : (done : List Draft) → (rest : Items) → Items
  | [], rest => rest
  | v :: done, rest => ofReverse done (.cons v rest)

/-- The object members `done`, which stand in reverse, before `rest`. -/
def Members.ofReverse : (done : List (Quoted × Draft)) → (rest : Members) → Members
  | [], rest => rest
  | (name, v) :: done, rest => ofReverse done (.cons name v rest)

/-- How many elements the array has. -/
def Items.length : Items → Nat
  | .stop _ => 0
  | .cons _ rest => rest.length + 1

/-- How the array ends. -/
def Items.ending : Items → Ending
  | .stop e => e
  | .cons _ rest => rest.ending

/-- How the object ends. -/
def Members.ending : Members → Ending
  | .stop e => e
  | .cons _ _ rest => rest.ending

/-! ## Flaws met by readers -/

namespace Ending

/-- What a reader of the elements of an array reports at its end. -/
def itemFlaw? : Ending → Option Flaw
  | .closed => none
  | .ended .afterComma => some .endInValue
  | .ended _ => some .endInArray
  | .unexpected .afterComma _ => some .trailingComma
  | .unexpected _ _ => some .arrayCommaExpected
  | .within f => some f

/-- What a reader that has all the elements it wants reports at the end of an
    array. -/
def surplusFlaw? : Ending → Option Flaw
  | .closed => none
  | .ended .separator => some .endInArray
  | .unexpected .afterComma _ => some .trailingComma
  | _ => some .trailingText

/-- What a reader of the members of an object reports at its end. -/
def memberFlaw? : Ending → Option Flaw
  | .closed => none
  | .ended .afterComma => some .endInValue
  | .ended _ => some .endInObject
  | .unexpected .separator _ => some .objectCommaExpected
  | .unexpected _ (.broken true b) => some b.strict
  | .unexpected .afterComma .closeObject => some .trailingComma
  | .unexpected _ _ => some .keyExpected
  | .within f => some f

/-- What someone who skips an array reports at its end. -/
def skippedItem? : Ending → Option Flaw
  | .unexpected .afterComma _ => some .valueExpected
  | e => e.itemFlaw?

/-- What someone who skips an object reports at its end. -/
def skippedMember? : Ending → Option Flaw
  | .closed => none
  | .ended _ => some .endInObject
  | .unexpected .separator _ => some .objectCommaExpected
  | .unexpected _ (.broken true b) => some b.loose
  | .unexpected _ _ => some .keyExpected
  | .within f => some f

end Ending

/-- What someone who skips a value reports. -/
def Draft.skip? : Draft → Option Flaw
  | .broken b => some b.loose
  | .array items => items.ending.skippedItem?
  | .object members => members.ending.skippedMember?
  | _ => none

/-! ## Building -/

/-- An array or an object around the value being read: its elements before
    that value, in reverse, and for an object the name of the value. -/
inductive Frame where
  | array (done : List Draft)
  | object (done : List (Quoted × Draft)) (name : Quoted)

/-- What comes next: a value, or something between the elements `done` of an
    array or an object, which stand in reverse. -/
inductive Place where
  | value
  | item (gap : Gap) (done : List Draft)
  | name (gap : Gap) (done : List (Quoted × Draft))
  | colon (done : List (Quoted × Draft)) (key : Quoted)

/-- What one token does. -/
inductive Growth where
  | more (p : Place) (outer : List Frame)
  | stopped (d : Draft)
  | complete (d : Draft)

namespace Frame

/-- The draft of the whole text, when reading stops at the broken draft `d`
    inside the frames. -/
def unwind : Draft → List Frame → Draft
  | d, [] => d
  | d, .array done :: outer =>
    unwind (.array (Items.ofReverse (d :: done) (.stop (.within ((d.skip?).getD .valueExpected)))))
      outer
  | d, .object done name :: outer =>
    unwind
      (.object (Members.ofReverse ((name, d) :: done)
        (.stop (.within ((d.skip?).getD .valueExpected)))))
      outer

/-- A finished value goes to the innermost frame. -/
def accept (d : Draft) : List Frame → Growth
  | [] => .complete d
  | .array done :: outer => .more (.item .separator (d :: done)) outer
  | .object done name :: outer => .more (.name .separator ((name, d) :: done)) outer

end Frame

namespace Place

/-- A token where a value is wanted. -/
def beginValue (outer : List Frame) : Token → Growth
  | .null => Frame.accept .null outer
  | .bool b => Frame.accept (.bool b) outer
  | .number n => Frame.accept (.number n) outer
  | .string s => Frame.accept (.string s) outer
  | .openArray => .more (.item .first []) outer
  | .openObject => .more (.name .first []) outer
  | .broken _ b => .stopped (Frame.unwind (.broken b) outer)
  | .closeArray | .closeObject | .colon | .comma =>
    .stopped (Frame.unwind (.broken (.plain .valueExpected)) outer)

/-- The array `done`, which stands in reverse, with an ending. -/
def endArray (done : List Draft) (e : Ending) : Draft :=
  .array (Items.ofReverse done (.stop e))

/-- The object `done`, which stands in reverse, with an ending. -/
def endObject (done : List (Quoted × Draft)) (e : Ending) : Draft :=
  .object (Members.ofReverse done (.stop e))

/-- A token between the elements of an array. -/
def stepItem (gap : Gap) (done : List Draft) (outer : List Frame) (t : Token) : Growth :=
  match gap, t with
  | .first, .closeArray => Frame.accept (endArray done .closed) outer
  | .separator, .closeArray => Frame.accept (endArray done .closed) outer
  | .separator, .comma => .more (.item .afterComma done) outer
  | .separator, t => .stopped (Frame.unwind (endArray done (.unexpected .separator t)) outer)
  | .afterComma, .closeArray =>
    .stopped (Frame.unwind (endArray done (.unexpected .afterComma .closeArray)) outer)
  | _, t => beginValue (.array done :: outer) t

/-- A token between the members of an object. -/
def stepName (gap : Gap) (done : List (Quoted × Draft)) (outer : List Frame) (t : Token) :
    Growth :=
  match gap, t with
  | .first, .closeObject => Frame.accept (endObject done .closed) outer
  | .separator, .closeObject => Frame.accept (endObject done .closed) outer
  | .separator, .comma => .more (.name .afterComma done) outer
  | .separator, t => .stopped (Frame.unwind (endObject done (.unexpected .separator t)) outer)
  | _, .string s => .more (.colon done s) outer
  | gap, t => .stopped (Frame.unwind (endObject done (.unexpected gap t)) outer)

/-- One token. -/
def step (p : Place) (outer : List Frame) (t : Token) : Growth :=
  match p with
  | .value => beginValue outer t
  | .item gap done => stepItem gap done outer t
  | .name gap done => stepName gap done outer t
  | .colon done key =>
    match t with
    | .colon => .more .value (.object done key :: outer)
    | _ => .stopped (Frame.unwind (.broken (.plain .colonExpected)) (.object done key :: outer))

/-- The end of the text. -/
def finish (p : Place) (outer : List Frame) : Draft :=
  match p with
  | .value => Frame.unwind (.broken (.plain .endInValue)) outer
  | .item gap done => Frame.unwind (endArray done (.ended gap)) outer
  | .name gap done => Frame.unwind (endObject done (.ended gap)) outer
  | .colon done key =>
    Frame.unwind (.broken (.plain .endInObject)) (.object done key :: outer)

end Place

/-- The draft of a text, and whether something follows its value. -/
structure Document where
  root : Draft
  trailing : Bool

namespace Document

/-- The document that some more tokens make. -/
def build : Place → List Frame → List Token → Document
  | p, outer, [] => ⟨p.finish outer, false⟩
  | p, outer, t :: rest =>
    match p.step outer t with
    | .more p outer => build p outer rest
    | .stopped d => ⟨d, false⟩
    | .complete d => ⟨d, !rest.isEmpty⟩

/-- The document that a text spells. -/
def ofText (text : String) : Document :=
  build .value [] (tokens text)

end Document

/-! ## Values -/

mutual

/-- What a reader reports that wants a value, whatever it is, with at most
    `depth` brackets open inside each other. -/
def Draft.sound? (depth : Nat) : Draft → Option Flaw
  | .null | .bool _ => none
  | .number n => if n.inRange then none else some .numberTooLarge
  | .string (.ok _) => none
  | .string (.error f) => some f
  | .array items => if depth = 0 then some .nestedTooDeep else items.sound? (depth - 1)
  | .object members => if depth = 0 then some .nestedTooDeep else members.sound? (depth - 1)
  | .broken b => some b.strict

@[inherit_doc Draft.sound?]
def Items.sound? (depth : Nat) : Items → Option Flaw
  | .stop e => e.itemFlaw?
  | .cons v rest =>
    match v.sound? depth with
    | some f => some f
    | none => rest.sound? depth

@[inherit_doc Draft.sound?]
def Members.sound? (depth : Nat) : Members → Option Flaw
  | .stop e => e.memberFlaw?
  | .cons name v rest =>
    match name with
    | .error f => some f
    | .ok _ =>
      match v.sound? depth with
      | some f => some f
      | none => rest.sound? depth

end

mutual

/-- The value of a draft without flaws. -/
def Draft.toJson? : Draft → Option Json
  | .null => some .null
  | .bool b => some (.bool b)
  | .number n => some (.number n)
  | .string (.ok s) => some (.string s)
  | .string (.error _) => none
  | .array items => items.toJson?.map .array
  | .object members => members.toJson?.map .object
  | .broken _ => none

/-- The elements of an array without flaws. -/
def Items.toJson? : Items → Option (List Json)
  | .stop .closed => some []
  | .stop _ => none
  | .cons v rest =>
    match v.toJson?, rest.toJson? with
    | some v, some rest => some (v :: rest)
    | _, _ => none

/-- The members of an object without flaws. -/
def Members.toJson? : Members → Option (List (String × Json))
  | .stop .closed => some []
  | .stop _ => none
  | .cons name v rest =>
    match name, v.toJson?, rest.toJson? with
    | .ok name, some v, some rest => some ((name, v) :: rest)
    | _, _, _ => none

end

/-- The value that a text spells, if it is JSON. -/
def ofText? (text : String) : Option Json :=
  let d := Document.ofText text
  if d.trailing then none else d.root.toJson?

end Shading.Json

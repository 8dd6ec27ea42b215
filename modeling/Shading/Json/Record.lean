/-
  Reading typed values from drafts.

  A `Reader` takes a draft to a value or to the first `Fault` in the order of
  the text.  A `Record` describes a value made of named fields; it can be read
  from an object, with its members in any order and unknown members skipped,
  or from an array of the fields in their order.  Fields are combined with
  `Record.both` and `Record.map`; while members are read, each field has a
  state of its own, so that what has not been read, or is read twice, is known
  when it matters.
-/
import Shading.Json.Draft
import Shading.Text.Visible

namespace Shading.Json

/-! ## Faults -/

/-- What a text has where something else is wanted. -/
inductive Finding where
  | null
  | bool (b : Bool)
  | number (n : Numeral)
  | string (s : String)
  | array
  | object
  deriving DecidableEq, Repr

/-- The finding in words. -/
def Finding.describe : Finding → String
  | null => "null"
  | bool b => "boolean `" ++ toString b ++ "`"
  | number n => n.describe
  | string s => "string " ++ Text.visible s
  | array => "sequence"
  | object => "map"

/-- Why a text does not spell a value of the wanted shape. -/
inductive Fault where
  | flaw (f : Flaw)
  | missingField (name : String)
  | duplicateField (name : String)
  | unknownCase (found : String) (cases : List String)
  | mismatch (found : Finding) (expected : String)
  | wrongLength (length : Nat) (expected : String)
  deriving DecidableEq, Repr

/-- The kinds of faults: the text ends too early, it is not JSON, or it is JSON
    of another shape. -/
inductive Fault.Category where
  | eof
  | syntactic
  | data
  deriving DecidableEq, Repr

namespace Fault

/-- The kind of a fault. -/
def category : Fault → Category
  | flaw f => if f.isEnd then .eof else .syntactic
  | _ => .data

/-- Names of cases as a list in words. -/
def caseList : List String → String
  | [a, b] => "expected `" ++ a ++ "` or `" ++ b ++ "`"
  | names => "expected one of " ++ ", ".intercalate (names.map fun n => "`" ++ n ++ "`")

/-- The fault in words. -/
def message : Fault → String
  | flaw f => f.message
  | missingField name => "missing field `" ++ name ++ "`"
  | duplicateField name => "duplicate field `" ++ name ++ "`"
  | unknownCase found names => "unknown variant `" ++ found ++ "`, " ++ caseList names
  | mismatch found expected => "invalid type: " ++ found.describe ++ ", expected " ++ expected
  | wrongLength length expected =>
    "invalid length " ++ toString length ++ ", expected " ++ expected

/-- The words of a fault that names a field or a case. -/
def detail? : Fault → Option String
  | flaw _ | mismatch _ _ | wrongLength _ _ => none
  | f => some f.message

/-- So many elements, in words. -/
def elementCount (n : Nat) : String :=
  toString n ++ if n = 1 then " element" else " elements"

end Fault

/-! ## Readers -/

/-- A reader of values. -/
abbrev Reader (α : Type) := Draft → Except Fault α

/-- Success, unless there is a flaw. -/
def unlessFlaw : Option Flaw → Except Fault Unit
  | none => .ok ()
  | some f => .error (.flaw f)

/-- What a reader reports at a value that is not what it wants: scalars are
    read to their end before they are refused. -/
def Draft.refused (expected : String) : Draft → Fault
  | .null => .mismatch .null expected
  | .bool b => .mismatch (.bool b) expected
  | .number n => if n.inRange then .mismatch (.number n) expected else .flaw .numberTooLarge
  | .string (.ok s) => .mismatch (.string s) expected
  | .string (.error f) => .flaw f
  | .array _ => .mismatch .array expected
  | .object _ => .mismatch .object expected
  | .broken b => .flaw b.strict

namespace Reader

/-- A text. -/
def string : Reader String
  | .string (.ok s) => .ok s
  | d => .error (d.refused "a string")

/-- A truth value. -/
def bool : Reader Bool
  | .bool b => .ok b
  | d => .error (d.refused "a boolean")

/-- A single precision number. -/
def single : Reader Number.Single
  | .number n => if n.inRange then .ok n.toSingle else .error (.flaw .numberTooLarge)
  | d => .error (d.refused "f32")

/-- A value or null. -/
def option {α : Type} (r : Reader α) : Reader (Option α)
  | .null => .ok none
  | d => some <$> r d

/-- The elements of an array. -/
def items {α : Type} (r : Reader α) : Items → Except Fault (List α)
  | .stop e => (fun _ => []) <$> unlessFlaw e.itemFlaw?
  | .cons v rest => do
    let a ← r v
    let as ← items r rest
    return a :: as

/-- An array. -/
def list {α : Type} (r : Reader α) : Reader (List α)
  | .array is => items r is
  | d => .error (d.refused "a sequence")

/-- The case with a given name. -/
def caseOf {α : Type} (cases : List (String × α)) (name : String) : Except Fault α :=
  match cases.lookup name with
  | some a => .ok a
  | none => .error (.unknownCase name (cases.map (·.1)))

/-- What a reader of a case reports at a token that stands where the quoted
    name of the case should: only inside quotation marks does it look further
    than at the first character. -/
def refusedName : Token → Flaw
  | .broken true b => b.strict
  | _ => .keyExpected

/-- The end of an object whose one member has been read. -/
def oneMember : Members → Except Fault Unit
  | .stop .closed => .ok ()
  | .stop (.ended .separator) => .error (.flaw .endInObject)
  | _ => .error (.flaw .valueExpected)

/-- One of several cases without contents: the name of the case, or an object
    whose only member has that name and the value null. -/
def choice {α : Type} (cases : List (String × α)) : Reader α
  | .string (.ok name) => caseOf cases name
  | .string (.error f) => .error (.flaw f)
  | .broken b => .error (.flaw b.choice)
  | .object (.stop (.ended _)) => .error (.flaw .endInValue)
  | .object (.stop (.unexpected _ t)) => .error (.flaw (refusedName t))
  | .object (.cons name v rest) => do
    let name ← name.mapError .flaw
    let a ← caseOf cases name
    match v with
    | .null => oneMember rest
    | v => .error (v.refused "unit")
    return a
  | _ => .error (.flaw .valueExpected)

end Reader

/-! ## Records -/

/-- A field among the states of all fields: its name, whether it has been read,
    and how its value is read. -/
structure Slot (σ : Type) where
  name : String
  isFilled : σ → Bool
  fill : Draft → σ → Except Fault σ

/-- A value made of named fields.  `finish` makes the value from the states of
    the fields; it is told what to report for a field that was not read. -/
structure Record (α : Type) where
  State : Type
  start : State
  slots : List (Slot State)
  finish : (missing : String → Fault) → State → Except Fault α

namespace Slot

variable {σ τ : Type}

/-- The field in the first of two states. -/
def inFirst (s : Slot σ) : Slot (σ × τ) :=
  ⟨s.name, fun p => s.isFilled p.1, fun d p => (·, p.2) <$> s.fill d p.1⟩

/-- The field in the second of two states. -/
def inSecond (s : Slot σ) : Slot (τ × σ) :=
  ⟨s.name, fun p => s.isFilled p.2, fun d p => (p.1, ·) <$> s.fill d p.2⟩

/-- The members of an object, read into the fields. -/
def readMembers (slots : List (Slot σ)) : Members → σ → Except Fault σ
  | .stop e, s => (fun _ => s) <$> unlessFlaw e.memberFlaw?
  | .cons name v rest, s => do
    let name ← name.mapError .flaw
    match slots.find? (·.name == name) with
    | none => do
      unlessFlaw v.skip?
      readMembers slots rest s
    | some slot =>
      if slot.isFilled s then .error (.duplicateField name)
      else do
        let s ← slot.fill v s
        readMembers slots rest s

/-- The elements of an array, read into the fields in their order.  Once all
    fields are read the array has to end; `surplus` is reported for a further
    element. -/
def readItems (surplus : Fault) : List (Slot σ) → Items → σ → Except Fault σ
  | [], .stop e, s => (fun _ => s) <$> unlessFlaw e.surplusFlaw?
  | [], .cons _ _, _ => .error surplus
  | _ :: _, .stop e, s => (fun _ => s) <$> unlessFlaw e.itemFlaw?
  | slot :: slots, .cons v rest, s => do
    let s ← slot.fill v s
    readItems surplus slots rest s

end Slot

namespace Record

variable {α β : Type}

/-- The record of no fields. -/
def const (a : α) : Record α :=
  ⟨Unit, (), [], fun _ _ => .ok a⟩

/-- One field; `absent` is its value if it is not there, or else it is
    missing. -/
def fieldOr (name : String) (r : Reader α) (absent : Option α) : Record α where
  State := Option α
  start := none
  slots := [⟨name, Option.isSome, fun d _ => some <$> r d⟩]
  finish missing s :=
    match s.or absent with
    | some a => .ok a
    | none => .error (missing name)

/-- A field that has to be there. -/
def field (name : String) (r : Reader α) : Record α :=
  fieldOr name r none

/-- A field with a value that it has if it is not there. -/
def fieldD (name : String) (r : Reader α) (absent : α) : Record α :=
  fieldOr name r (some absent)

/-- A field that may be null or not there. -/
def field? (name : String) (r : Reader α) : Record (Option α) :=
  fieldD name r.option none

/-- The fields of two records. -/
def both (p : Record α) (q : Record β) : Record (α × β) where
  State := p.State × q.State
  start := (p.start, q.start)
  slots := p.slots.map Slot.inFirst ++ q.slots.map Slot.inSecond
  finish missing s := do
    let a ← p.finish missing s.1
    let b ← q.finish missing s.2
    return (a, b)

/-- Another value made of the same fields. -/
def map (f : α → β) (p : Record α) : Record β where
  State := p.State
  start := p.start
  slots := p.slots
  finish missing s := f <$> p.finish missing s

/-- A function of the fields of one record, at the value of another. -/
def apply (p : Record (α → β)) (q : Record α) : Record β :=
  (p.both q).map fun r => r.1 r.2

/-- A record from the members of an object. -/
def ofMembers (p : Record α) (ms : Members) : Except Fault α := do
  let s ← Slot.readMembers p.slots ms p.start
  p.finish .missingField s

/-- A record from the elements of an array, which is too short if it ends
    before a field that has to be there. -/
def ofItems (p : Record α) (expected : String) (surplus : Fault) (is : Items) :
    Except Fault α := do
  let s ← Slot.readItems surplus p.slots is p.start
  p.finish (fun name => .wrongLength (p.slots.findIdx (·.name == name))
    (expected ++ " with " ++ Fault.elementCount p.slots.length)) s

/-- A record from an object or an array. -/
def read (p : Record α) (expected : String) : Reader α
  | .object ms => p.ofMembers ms
  | .array is => p.ofItems expected (.flaw .trailingText) is
  | d => .error (d.refused expected)

end Record

/-! ## Tagged records -/

/-- What a tagged record has beside its tag: the other members of its object,
    or the elements after the first of its array. -/
inductive Contents where
  | members (ms : Members)
  | items (is : Items)

/-- A case of a tagged record: how its value is read from the contents. -/
abbrev Variant (α : Type) := Contents → Except Fault α

namespace Variant

variable {α : Type}

/-- What is reported for elements beyond the first `wanted`. -/
def surplus (wanted : Nat) (is : Items) : Fault :=
  .wrongLength is.length (Fault.elementCount wanted ++ " in sequence")

/-- A case without fields, which ignores the members of an object. -/
def plain (a : α) : Variant α
  | .members _ => .ok a
  | .items (.stop _) => .ok a
  | .items is => .error (surplus 0 is)

/-- A case with fields. -/
def record (expected : String) (r : Record α) : Variant α
  | .members ms => r.ofMembers ms
  | .items is => r.ofItems expected (surplus r.slots.length is) is

/-- The case that a text names. -/
def named (cases : List (String × Variant α)) : Reader (Variant α)
  | .string (.ok name) => Reader.caseOf cases name
  | d => .error (d.refused "variant identifier")

/-- The members of an object in two parts: the case that the member `tag`
    names, and all others, which are read whatever they are. -/
def split (tag : String) (depth : Nat) (cases : List (String × Variant α)) :
    Members → (found : Option (Variant α)) → Except Fault (Variant α × Members)
  | .stop e, found => do
    unlessFlaw e.memberFlaw?
    match found with
    | some v => .ok (v, .stop .closed)
    | none => .error (.missingField tag)
  | .cons name d rest, found => do
    let key ← name.mapError .flaw
    if key = tag then
      if found.isSome then .error (.duplicateField tag)
      else do
        let v ← named cases d
        split tag depth cases rest (some v)
    else do
      unlessFlaw (d.sound? depth)
      let (v, others) ← split tag depth cases rest found
      .ok (v, .cons name d others)

/-- A tagged record: an object with the name of its case in the member `tag`,
    or an array that begins with it.  All values in it count, also those that
    belong to no field: at most `depth` brackets may be open in them, and
    everything in them has to be sound before the fields of the case are
    read. -/
def read (tag expected : String) (depth : Nat) (cases : List (String × Variant α)) : Reader α
  | .object ms => do
    let (v, others) ← split tag depth cases ms none
    v (.members others)
  | .array (.stop e) => do
    unlessFlaw e.itemFlaw?
    .error (.missingField tag)
  | .array (.cons first rest) => do
    let v ← named cases first
    unlessFlaw (rest.sound? depth)
    v (.items rest)
  | d => .error (d.refused expected)

end Variant

end Shading.Json

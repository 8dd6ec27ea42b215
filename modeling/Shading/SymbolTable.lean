/-
  The symbol table of a compilation.

  It holds all declarations and operations, knows which names are taken, finds
  names that are not, and gives resources their slots.  Calls that may be refused
  run in `EStateM`, where a refusal leaves the table as far as the call came.
-/
import Shading.Declaration
import Shading.Operation
import Std.Data.ExtTreeSet

namespace Shading

/-- Declarations, operations and the names that they take. -/
structure SymbolTable where
  /-- All names taken. -/
  identifiers : Std.ExtTreeSet String
  /-- The names taken for functions. -/
  methods : Std.ExtTreeSet String
  operations : List Operation
  structs : List Struct
  /-- Unordered access views. -/
  accessViews : List View
  /-- Shader resource views. -/
  resourceViews : List View
  samplers : List Sampler
  constantBuffers : List ConstantBuffer
  functions : List Function

namespace SymbolTable

/-- The table in which no name is taken. -/
def empty : SymbolTable :=
  ⟨∅, ∅, [], [], [], [], [], [], []⟩

/-! ## Names -/

/-- Whether a name is taken. -/
def taken (t : SymbolTable) (name : String) : Bool :=
  t.identifiers.contains name

/-- The table with a name taken. -/
def claim (t : SymbolTable) (name : String) : SymbolTable :=
  { t with identifiers := t.identifiers.insert name }

/-- The table with names taken. -/
def claimAll (t : SymbolTable) (names : List String) : SymbolTable :=
  names.foldl claim t

/-- The first of `fuel` numbers from `k` on that makes `base` a name not taken,
    or else the number after them. -/
def freeSuffix (t : SymbolTable) (base : String) : (fuel : Nat) → (k : Nat) → Nat
  | 0, k => k
  | fuel + 1, k => if t.taken (base ++ toString k) then freeSuffix t base fuel (k + 1) else k

/-- The name `base` if it is not taken, or else the first of `base0`, `base1`, …
    that is not.  As many numbers as there are names suffice, for these cannot
    all be taken together with `base`. -/
def freshName (t : SymbolTable) (base : String) : String :=
  if t.taken base then base ++ toString (t.freeSuffix base t.identifiers.size 0) else base

/-! ## Operations -/

/-- The table with one more operation, whose name is taken if it has one. -/
def addOperation (t : SymbolTable) (o : Operation) : SymbolTable :=
  let t := { t with operations := t.operations ++ [o] }
  if o.name.isEmpty then t else t.claim o.name

/-- The operations with one more use of the first that has a name. -/
def noteUse (name consumer : String) : List Operation → List Operation
  | [] => []
  | o :: rest =>
    if o.name = name then o.addConsumer consumer :: rest else o :: noteUse name consumer rest

/-- The table with one more use of the first operation with a name. -/
def addUse (t : SymbolTable) (name consumer : String) : SymbolTable :=
  { t with operations := noteUse name consumer t.operations }

/-- The first operation with a name. -/
def operationNamed? (t : SymbolTable) (name : String) : Option Operation :=
  t.operations.find? (·.name == name)

/-- The first operation of a node. -/
def operationOf? (t : SymbolTable) (node : String) : Option Operation :=
  t.operations.find? (·.node == some node)

/-! ## Structs and resources -/

/-- The table with one more struct. -/
def addStruct (t : SymbolTable) (s : Struct) : SymbolTable :=
  { t.claim s.name with structs := t.structs ++ [s] }

/-- The first struct with a name. -/
def struct? (t : SymbolTable) (name : String) : Option Struct :=
  t.structs.find? (·.name == name)

/-- The table with one more shader resource view, in the next slot. -/
def addResourceView (t : SymbolTable) (name : String) (type : ValueType)
    (element : Option ValueType) : SymbolTable :=
  { t.claim name with
    resourceViews := t.resourceViews ++ [⟨name, type, element, t.resourceViews.length.toUInt32⟩] }

/-- The table with one more unordered access view, in the next slot. -/
def addAccessView (t : SymbolTable) (name : String) (type : ValueType)
    (element : Option ValueType) : SymbolTable :=
  { t.claim name with
    accessViews := t.accessViews ++ [⟨name, type, element, t.accessViews.length.toUInt32⟩] }

/-- The table with one more sampler, in the next slot. -/
def addSampler (t : SymbolTable) (name : String) (type : ValueType) : SymbolTable :=
  { t.claim name with samplers := t.samplers ++ [⟨name, type, t.samplers.length.toUInt32⟩] }

/-- The table with one more constant buffer, in the next slot. -/
def addConstantBuffer (t : SymbolTable) (name : String) (fields : List Field) : SymbolTable :=
  { t.claim name with
    constantBuffers :=
      t.constantBuffers ++ [⟨name, fields, t.constantBuffers.length.toUInt32⟩] }

/-! ## Functions -/

/-- Whether there is a function with a name. -/
def hasFunction (t : SymbolTable) (name : String) : Bool :=
  t.functions.any (·.name == name)

/-- Takes a name for a function.  It is refused if it is taken for something
    else. -/
def reserveMethod (name : String) : EStateM Cause SymbolTable Unit := do
  let t ← get
  if t.methods.contains name then pure ()
  else if t.taken name then throw (.nameTaken name)
  else
    modify (·.claim name)
    modify fun t => { t with methods := t.methods.insert name }

/-- Adds a function, unless there is one of that name, and says whether it is
    new.  It is refused if its name is. -/
def defineMethod (name source : String) : EStateM Cause SymbolTable Bool := do
  if (← get).hasFunction name then pure false
  else
    reserveMethod name
    modify fun t => { t with functions := t.functions ++ [⟨name, source⟩] }
    pure true

/-! ## The header -/

/-- A titled section and an empty line after it; nothing if it has no items. -/
def writeSection {α : Type} (title : String) (items : List α) (write : α → Source → Source)
    (out : Source) : Source :=
  if items.isEmpty then out
  else (items.foldl (fun out item => write item out) (out.line title)).blank

/-- All declarations. -/
def header (t : SymbolTable) (out : Source) : Source :=
  out
    |> writeSection "// Unordered Access Views" t.accessViews (·.write "u")
    |> writeSection "// Shader Resource Views" t.resourceViews (·.write "t")
    |> writeSection "// Samplers" t.samplers Sampler.write
    |> writeSection "// Structures" t.structs Struct.write
    |> writeSection "// Constant Buffers" t.constantBuffers ConstantBuffer.write
    |> writeSection "// Functions" t.functions Function.write

end SymbolTable

end Shading

/-
  The command line: read a request from a file, compile it, and write the
  source to a file or to the standard output.

  A run is a function of the arguments and of what the files answer, so it
  holds no effects.
-/
import Shading.Request.Decode

namespace Shading.CommandLine

/-! ## Arguments -/

/-- What the arguments ask for. -/
structure Arguments where
  /-- The file with the request. -/
  request : Option String := none
  /-- The file for the source. -/
  output : Option String := none
  /-- Whether to inline, whatever the request says. -/
  inline : Bool := false
  /-- A name for the entry point in place of that of the request. -/
  entry : Option String := none
  /-- Whether to print the slots of textures and samplers. -/
  bindings : Bool := false
  deriving DecidableEq, Repr

/-- What the arguments can be. -/
def usage : String :=
  "supported: --request <request.json>, --output <file.hlsl>, --inline, --entry <name>, --bindings"

/-- Why there is nothing to do. -/
inductive Misuse where
  | missingValue (option : String)
  | unknownArgument (argument : String)
  | noRequest
  deriving DecidableEq, Repr

/-- The misuse in words. -/
def Misuse.message : Misuse → String
  | missingValue option => "missing value for " ++ option
  | unknownArgument argument => "unknown argument: " ++ argument ++ " (" ++ usage ++ ")"
  | noRequest => "--request is required (" ++ usage ++ ")"

/-- What to do. -/
inductive Action where
  | showVersion
  | compile (a : Arguments)
  deriving DecidableEq, Repr

/-- What to do, from the arguments in their order. -/
def Action.ofArgs : List String → Arguments → Except Misuse Action
  | [], a => .ok (.compile a)
  | "--request" :: rest, a =>
    match rest with
    | [] => .error (.missingValue "--request")
    | v :: rest => ofArgs rest { a with request := some v }
  | "--output" :: rest, a | "-o" :: rest, a =>
    match rest with
    | [] => .error (.missingValue "--output")
    | v :: rest => ofArgs rest { a with output := some v }
  | "--entry" :: rest, a =>
    match rest with
    | [] => .error (.missingValue "--entry")
    | v :: rest => ofArgs rest { a with entry := some v }
  | "--inline" :: rest, a => ofArgs rest { a with inline := true }
  | "--bindings" :: rest, a => ofArgs rest { a with bindings := true }
  | "--version" :: _, _ => .ok .showVersion
  | other :: _, _ => .error (.unknownArgument other)

/-! ## Runs -/

/-- Why a file cannot be read or written. -/
inductive Obstacle where
  /-- The system refuses, with a code and words for it. -/
  | system (code : Nat) (words : String)
  /-- The file does not hold a text. -/
  | undecodable
  deriving DecidableEq, Repr

namespace Obstacle

/-- The words for a code of the system; `others` if it is not a common one. -/
def words (code : Nat) (others : String) : String :=
  match code with
  | 2 => "No such file or directory"
  | 5 => "Input/output error"
  | 6 => "No such device or address"
  | 13 => "Permission denied"
  | 20 => "Not a directory"
  | 21 => "Is a directory"
  | 26 => "Text file busy"
  | 28 => "No space left on device"
  | 36 => "File name too long"
  | _ => others

/-- The obstacle for a code of the system, with other words for an uncommon
    one. -/
def ofCode (code : Nat) (others : String) : Obstacle :=
  .system code (words code others)

/-- The obstacle in words. -/
def message : Obstacle → String
  | system code words => words ++ " (os error " ++ toString code ++ ")"
  | undecodable => "stream did not contain valid UTF-8"

end Obstacle

/-- What the files answer: the text of a file or why it cannot be read, and why
    a file cannot be written, if so. -/
structure Files where
  read : String → Except Obstacle String
  refusal : String → Option Obstacle

/-- Why a run fails. -/
inductive Trouble where
  | misuse (m : Misuse)
  | unreadable (path : String) (o : Obstacle)
  | malformed (path : String) (f : Json.Fault)
  | rejected (path : String) (f : Failure)
  | unwritable (path : String) (o : Obstacle)
  deriving DecidableEq, Repr

namespace Trouble

/-- What failed. -/
def what : Trouble → String
  | misuse m => m.message
  | unreadable path _ => "failed to read compile request at " ++ path
  | malformed path _ => "in " ++ path
  | rejected path _ => "failed to compile " ++ path
  | unwritable path _ => "failed to write " ++ path

/-- Why it failed, outermost cause first. -/
def causes : Trouble → List String
  | misuse _ => []
  | unreadable _ o | unwritable _ o => [o.message]
  | malformed _ f => ["failed to parse compile request json", f.message]
  | rejected _ f => f.chain

end Trouble

/-- Causes, each with its number. -/
def numbered (causes : List String) : List String :=
  causes.zipIdx.map fun (cause, i) =>
    let number := toString i
    let blanks := String.ofList (List.replicate (5 - number.length) ' ')
    blanks ++ number ++ ": " ++ Text.indentTail 7 cause

/-- The report of a failure: what failed, and its causes. -/
def Trouble.report (t : Trouble) : String :=
  let lines :=
    match t.causes with
    | [] => []
    | [cause] => ["", "Caused by:", "    " ++ Text.indentTail 4 cause]
    | causes => ["", "Caused by:"] ++ numbered causes
  String.join ((("Error: " ++ t.what) :: lines).map (· ++ "\n"))

/-- One thing that a run does. -/
inductive Effect where
  /-- A line on the standard error. -/
  | remark (line : String)
  /-- A file is written. -/
  | save (path text : String)
  /-- A text on the standard output. -/
  | print (text : String)
  deriving DecidableEq, Repr

/-- What a run comes to: what it does, in this order, and why it fails after
    that, if it does. -/
structure Outcome where
  effects : List Effect := []
  trouble : Option Trouble := none
  deriving DecidableEq, Repr

namespace Outcome

/-- The exit code. -/
def exit (o : Outcome) : Nat :=
  if o.trouble.isSome then 1 else 0

/-- The report of the failure, which goes to the standard error. -/
def report (o : Outcome) : String :=
  (o.trouble.map Trouble.report).getD ""

/-- A run that fails before it does anything. -/
def failed (t : Trouble) : Outcome :=
  { trouble := some t }

end Outcome

/-- Slots of nodes as a JSON value, with the nodes in order. -/
def slotsJson (slots : Dict UInt32) : Json :=
  let entries := slots.entries.mergeSort fun a b => a.1 ≤ b.1
  .object (entries.map fun (node, slot) => (node, .nat slot.toNat))

/-- The slots of a shader, laid out. -/
def bindingsText (s : Shader) : String :=
  let bindings := Json.object [("samplerSlots", slotsJson s.samplerSlots),
    ("textureSlots", slotsJson s.textureSlots)]
  bindings.pretty ++ "\n"

/-- The request with what the arguments say in place of what it says. -/
def Arguments.adjust (a : Arguments) (q : Request) : Request :=
  { q with
    options := { q.options with inline := q.options.inline || a.inline }
    entryName := a.entry.getD q.entryName }

/-- What is said about a shader. -/
def summary (q : Request) (s : Shader) : String :=
  "[shadergen] " ++ q.entryName ++ ": " ++ toString q.graph.nodes.length ++ " nodes, " ++
    toString s.textureSlots.size ++ " textures, inline=" ++ toString q.options.inline

/-- The shader of a request goes to its file, or to the standard output if
    neither a file nor the slots are asked for. -/
def deliver (a : Arguments) (files : Files) (q : Request) (s : Shader) : Outcome :=
  let announced := Effect.remark (summary q s)
  let bindings := if a.bindings then [Effect.print (bindingsText s)] else []
  match a.output with
  | none => { effects := announced :: if a.bindings then bindings else [.print s.source] }
  | some path =>
    match files.refusal path with
    | some o => { effects := [announced], trouble := some (.unwritable path o) }
    | none =>
      { effects :=
          [announced, .save path s.source, .remark ("[shadergen] saved: " ++ path)] ++ bindings }

/-- Compile the request in a file. -/
def compile (a : Arguments) (files : Files) : Outcome :=
  match a.request with
  | none => .failed (.misuse .noRequest)
  | some path =>
    match files.read path with
    | .error o => .failed (.unreadable path o)
    | .ok text =>
      match Request.ofText text with
      | .error f => .failed (.malformed path f)
      | .ok q =>
        let q := a.adjust q
        let compiler : Compiler Empty := .new .standard
        match (compiler.compile q).result with
        | .error f => .failed (.rejected path f)
        | .ok s => deliver a files q s

/-- A run with given arguments. -/
def run (args : List String) (files : Files) : Outcome :=
  match Action.ofArgs args {} with
  | .error m => .failed (.misuse m)
  | .ok .showVersion =>
    { effects := [.print ("node-forge-shadergen " ++ Compiler.versionText ++ "\n")] }
  | .ok (.compile a) => compile a files

end Shading.CommandLine

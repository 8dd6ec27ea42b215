/-
  The program: arguments, files and the standard streams around
  `CommandLine.run`.
-/
import Shading.CommandLine

namespace Shading.CommandLine

/-- The obstacle for a code of the system, which some operations negate. -/
def systemObstacle (code : UInt32) (words : String) : Obstacle :=
  .ofCode (if code.toNat < 2147483648 then code.toNat else (-code).toNat) words

/-- The obstacle that a file operation met.  The only failure that is not the
    system's is a text that cannot be decoded. -/
def obstacleOf : IO.Error → Obstacle
  | .alreadyExists _ code words | .otherError code words | .resourceBusy code words
  | .resourceVanished code words | .unsupportedOperation code words | .hardwareFault code words
  | .unsatisfiedConstraints code words | .illegalOperation code words
  | .protocolError code words | .timeExpired code words | .interrupted _ code words
  | .noFileOrDirectory _ code words | .invalidArgument _ code words
  | .permissionDenied _ code words | .resourceExhausted _ code words
  | .inappropriateType _ code words | .noSuchThing _ code words => systemObstacle code words
  | .unexpectedEof | .userError _ => .undecodable

/-- An action with the obstacle that it met. -/
def attempt {α : Type} (act : IO α) : IO (Except Obstacle α) := do
  try return .ok (← act)
  catch e => return .error (obstacleOf e)

/-- The text of the file that the arguments name as the request. -/
def readRequest (args : List String) : IO (Except Obstacle String) :=
  match Action.ofArgs args {} with
  | .ok (.compile { request := some path, .. }) => attempt (IO.FS.readFile path)
  | _ => return .error .undecodable

/-- Write a file, to the last character. -/
def save (path text : String) : IO Unit := do
  let handle ← IO.FS.Handle.mk path .write
  handle.putStr text
  handle.flush

/-- Do what a run does, up to a file that cannot be written. -/
def perform : List Effect → IO (Option Obstacle)
  | [] => return none
  | .remark line :: rest => do
    (← IO.getStderr).putStr (line ++ "\n")
    perform rest
  | .print text :: rest => do
    (← IO.getStdout).putStr text
    perform rest
  | .save path text :: rest => do
    match ← attempt (save path text) with
    | .ok () => perform rest
    | .error o => return some o

/-- What a run comes to, after it has done what it does. -/
def execute (args : List String) : IO Outcome := do
  let request ← readRequest args
  let plan (refusal : Option Obstacle) := run args ⟨fun _ => request, fun _ => refusal⟩
  match ← perform (plan none).effects with
  | none => return plan none
  | some o => return plan (some o)

end Shading.CommandLine

/-- The program with its arguments. -/
def main (args : List String) : IO UInt32 := do
  let outcome ← Shading.CommandLine.execute args
  (← IO.getStderr).putStr outcome.report
  return outcome.exit.toUInt32

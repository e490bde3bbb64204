import AutoProperty.Command.Outcome

/-! # The command

Reads arguments and files, applies the fix, and prints or writes the result.
-/

namespace AutoProperty

def FileError.ofIO : IO.Error → FileError
  | .noFileOrDirectory .. => .notFound
  | e => .other (toString e)

def accessing {α : Type} (access : IO α) : IO (Except FileError α) := do
  try
    return .ok (← access)
  catch e =>
    return .error (.ofIO e)

def machineFiles : Files IO where
  isFile path := return (← accessing (IO.FS.readFile path)).isOk
  read path := accessing (IO.FS.readFile path)
  write path text := accessing (IO.FS.writeFile path text)

def fail (chain : List Cause) : IO UInt32 := do
  IO.eprintln (Cause.describe chain)
  return 1

def runCommand (arguments : Arguments) : IO UInt32 := do
  let directory := (← IO.currentDir).toString
  match ← (machineFiles.settings arguments.config? directory).run with
  | .error e => fail e.chain
  | .ok settings =>
    let request := Request.ofArguments arguments settings directory
    let stream ← if arguments.write then IO.getStderr else IO.getStdout
    let color ← stream.isTty
    let outcome ← ExceptT.run do
      let report ← request.run machineFiles false
      arguments.finish machineFiles color report
    match outcome with
    | .error e => fail e.chain
    | .ok (.stdout text) =>
      IO.print (endLine text)
      return 0
    | .ok (.stderr text) =>
      IO.eprintln text
      return 0

end AutoProperty

def main (arguments : List String) : IO UInt32 := do
  match AutoProperty.Arguments.parse arguments with
  | .ok arguments => AutoProperty.runCommand arguments
  | .error e =>
    if e.isFailure then
      IO.eprintln e.text
      return 2
    else
      IO.println e.text
      return 0

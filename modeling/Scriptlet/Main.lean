import Scriptlet.CommandLine

/-!
# The program

Reads the arguments, the file and the lines, and writes what the library answers.
-/

namespace Scriptlet.Main

def readBytes (path : String) : IO (Option (List UInt8)) := do
  try
    return some (← IO.FS.readBinFile path).toList
  catch _ =>
    return none

def exitStatus : Except Trouble Unit → UInt32
  | .ok () => 0
  | .error (.exit code) => code.toNat.toUInt32
  | .error _ => 1

/-- The bytes of the next line, with the line feed that ends it; there are none at the end. -/
partial def readLine (input : IO.FS.Stream) (before : List UInt8) : IO (List UInt8) := do
  match (← input.read 1).toList with
  | [] => return before.reverse
  | byte :: _ =>
      if byte = 10 then return (byte :: before).reverse
      readLine input (byte :: before)

/-- Converse line by line until the shell stops. -/
partial def converse (sh : Shell) : IO (Except Trouble Unit) := do
  let out ← IO.getStdout
  out.putStr sh.prompt
  out.flush
  let bytes ← readLine (← IO.getStdin) []
  let line := if bytes.isEmpty then .ofString Shell.endOfInput else .ofBytes bytes
  let reply := sh.execute line
  out.putStr reply.output
  out.flush
  match reply.outcome with
  | .error trouble =>
      let settled := reply.state.session.reporter.settle trouble
      out.putStr settled.output
      return settled.outcome
  | .ok .stop => return .ok ()
  | .ok _ => converse reply.state

def finish (ran : CommandLine.Ran) : IO UInt32 := do
  (← IO.getStdout).putStr ran.output
  (← IO.getStderr).putStr ran.errors
  return exitStatus ran.outcome

def run (arguments : List String) : IO UInt32 := do
  match CommandLine.parse arguments with
  | .ok (.request r) =>
      match r.file with
      | some path =>
          let bytes ← readBytes path
          finish (CommandLine.run false arguments (fun _ => bytes) [])
      | none =>
          IO.println Shell.intro
          let outcome ← converse (CommandLine.newShell {} (CommandLine.settingsOf r))
          return exitStatus outcome
  | _ => finish (CommandLine.run false arguments (fun _ => none) [])

end Scriptlet.Main

def main (arguments : List String) : IO UInt32 := Scriptlet.Main.run arguments

import Abacus.Console.Run

/-! # The program

On a terminal every line is answered as soon as it has been read; any other
input is read to its end first.
-/

namespace Abacus.Console

def emit (threshold : Level) (entries : List Entry) : IO Unit := do
  let out ← IO.getStdout
  let err ← IO.getStderr
  for entry in entries do
    out.putStr entry.output
    err.putStr (entry.errorOutput threshold)
  out.flush
  err.flush

partial def converse (threshold : Level) (s : Session) : IO Unit := do
  emit threshold [.prompt]
  let raw ← (← IO.getStdin).getLine
  unless raw.isEmpty do
    let (shown, next) := respond s raw
    emit threshold shown
    if let some s := next then converse threshold s

partial def readBytes (read : ByteArray) : IO ByteArray := do
  let chunk ← (← IO.getStdin).read 65536
  if chunk.isEmpty then return read else readBytes (read ++ chunk)

def readEnvironment : IO (String → Option String) := do
  let group ← IO.getEnv Settings.groupVariable
  let evaluation ← IO.getEnv Settings.evaluationVariable
  return fun name =>
    if name = Settings.groupVariable then group
    else if name = Settings.evaluationVariable then evaluation
    else none

def write (r : Report) : IO UInt32 := do
  (← IO.getStdout).putStr r.output
  (← IO.getStderr).putStr r.errorOutput
  return r.exitCode

end Abacus.Console

open Abacus.Console in
def main (arguments : List String) : IO UInt32 := do
  let environment ← readEnvironment
  match Invocation.ofArguments? arguments with
  | .ok (.run threshold .converse) =>
    if (← (← IO.getStdin).isTty) && (← (← IO.getStdout).isTty) then
      let (s, opening) := openSession environment
      emit threshold opening
      converse threshold s
      return 0
    let input := Input.ofBytes (← readBytes .empty).toList
    write (run { environment, input } arguments)
  | _ => write (run { environment, input := ⟨[], none⟩ } arguments)

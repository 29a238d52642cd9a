import Abacus.Console.Dialogue
import Abacus.Console.Invocation
import Abacus.Version

/-! # Running the program

What a run of the program writes, and the code it exits with. Only lines given
as arguments can make it fail once it has started.
-/

namespace Abacus.Console

structure Surroundings where
  environment : String → Option String
  input : Input
  interactive : Bool := false

structure Report where
  exitCode : UInt32 := 0
  output : String := ""
  errorOutput : String := ""

def Report.ofEntries (exitCode : UInt32) (threshold : Level) (entries : List Entry) : Report where
  exitCode
  output := String.join (entries.map Entry.output)
  errorOutput := String.join (entries.map (Entry.errorOutput threshold))

def Command.entries (w : Surroundings) (command : Command) : List Entry :=
  let (s, opening) := openSession w.environment
  match command with
  | .evaluate lines => opening ++ runLines s lines
  | .converse => opening ++ dialogue w.interactive w.input.fault s w.input.lines

def Command.exitCode (command : Command) (entries : List Entry) : UInt32 :=
  match command with
  | .evaluate _ => if entries.any Entry.isFailure then 1 else 0
  | .converse => 0

def run (w : Surroundings) (arguments : List String) : Report :=
  match Invocation.ofArguments? arguments with
  | .error misuse => { exitCode := 2, errorOutput := misuse.message ++ "\n" }
  | .ok .version => { output := Version.program ++ " version " ++ Version.current ++ "\n" }
  | .ok (.run threshold command) =>
    let entries := command.entries w
    .ofEntries (command.exitCode entries) threshold entries

end Abacus.Console

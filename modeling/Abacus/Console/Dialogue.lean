import Abacus.Console.Entry
import Abacus.Text.Utf8

/-! # Dialogues

A dialogue reads lines from the standard input until it ends or a line asks to
stop. Blank lines and comments are skipped, and a few lines are commands to the
dialogue itself.
-/

namespace Abacus.Console

structure Input where
  lines : List String
  fault : Option Text.Utf8.Fault := none

/--
Input that holds an invalid sequence has no lines. Where the last sequence is cut off, the lines
before it can be read, but a line that has no end, or an end that a line feed might still follow,
cannot.
-/
def Input.ofBytes (bytes : List UInt8) : Input :=
  match Text.Utf8.decode bytes with
  | .error fault => ⟨[], some fault⟩
  | .ok (text, none) => ⟨(Text.lines text).map String.ofList, none⟩
  | .ok (text, some pending) =>
    let settled := if text.getLast? = some '\r' then text.dropLast else text
    ⟨(Text.splitLines settled).1.map String.ofList, some pending.fault⟩

def inputFailure (fault : Text.Utf8.Fault) : Entry :=
  .failure ("unexpected error occurred while reading input: " ++ fault.message)

/-- Names cannot begin with a colon, so no command is a line for the session. -/
inductive Request where
  | skip
  | quit
  | listVariables
  | line (text : String)
  deriving DecidableEq

def Request.ofInput (raw : String) : Request :=
  let text := Text.strip raw
  if text = "" ∨ text.toList.head? = some '#' then .skip
  else if text = ":quit" ∨ text = ":exit" then .quit
  else if text = ":vars" then .listVariables
  else .line text

/-- What an input line shows, and the session after it unless the line asks to stop. -/
def respond (s : Session) (raw : String) : List Entry × Option Session :=
  match Request.ofInput raw with
  | .skip => ([], some s)
  | .quit => ([], none)
  | .listVariables => ([.listing s.store], some s)
  | .line text =>
    let (shown, s) := runLine s text
    (shown, some s)

/-- A prompt comes before every line that is read, and before the end as well. -/
def dialogue (interactive : Bool) (fault : Option Text.Utf8.Fault) (s : Session) :
    List String → List Entry
  | [] => prompts ++ fault.toList.map inputFailure
  | raw :: lines =>
    prompts ++ match respond s raw with
      | (shown, none) => shown
      | (shown, some s) => shown ++ dialogue interactive fault s lines
where
  prompts : List Entry := if interactive then [.prompt] else []

end Abacus.Console

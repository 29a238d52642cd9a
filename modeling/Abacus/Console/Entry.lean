import Abacus.Console.Level
import Abacus.Session
import Abacus.Text.Display

/-! # Transcripts

What a run shows is a list of entries in the order in which they arise. Each
entry adds to the standard output or to the standard error. The variables of a
store are listed as a table of two columns under a heading and a rule, all of
whose lines have one width. The console is taken to be wide enough for the table
and for every message, so that no line of theirs is broken.
-/

namespace Abacus.Console

def padded (width : Nat) (s : String) : String :=
  s ++ String.ofList (List.replicate (width - s.length) ' ')

def columnWidth (cells : List String) : Nat :=
  (cells.map String.length).foldl max 0

def row (nameWidth definitionWidth : Nat) (cells : String × String) : String :=
  "  " ++ padded nameWidth cells.1 ++ "   " ++ padded definitionWidth cells.2 ++ "  "

def table (rows : List (String × String)) : List String :=
  let heading := ("Name", "Definition")
  let n := columnWidth ((heading :: rows).map Prod.fst)
  let d := columnWidth ((heading :: rows).map Prod.snd)
  let blank := padded (n + d + 7) ""
  let rule := " " ++ String.ofList (List.replicate (n + d + 5) '─') ++ " "
  blank :: row n d heading :: rule :: rows.map (row n d) ++ [blank]

def listing (s : Store) : List String :=
  if s.entries.isEmpty then ["No variables defined."]
  else table (s.entries.map fun (x, ts) => (x, Token.lineText (Token.definition ts)))

inductive Entry where
  | prompt
  | result (n : Number)
  | failure (text : String)
  | listing (store : Store)
  | log (level : Level) (origin text : String)

namespace Entry

def output : Entry → String
  | prompt => ">>> "
  | result n => ">> " ++ n.text ++ "\n"
  | listing store => String.join ((Console.listing store).map (· ++ "\n"))
  | failure _ | log .. => ""

def errorOutput (threshold : Level) : Entry → String
  | failure text => Text.display text ++ "\n"
  | log level origin text =>
    if threshold.shows level then level.label ++ " " ++ origin ++ ": " ++ text ++ "\n" else ""
  | prompt | result _ | listing _ => ""

def isFailure : Entry → Bool
  | failure _ => true
  | _ => false

end Entry

def settingsOrigin : String := "calcline.core.settings"

def sessionOrigin : String := "calcline.core.calculator"

/-- A new session, and what reading its settings shows. -/
def openSession (environment : String → Option String) : Session × List Entry :=
  let (settings, warnings) := Settings.load environment
  ({ settings }, warnings.map fun w => .log .warning settingsOrigin w.message)

def Entry.ofOutcome (line : String) : Except Session.Failure Session.Outcome → List Entry
  | .ok o => .log .debug sessionOrigin o.summary :: o.value?.toList.map .result
  | .error f => [.failure (f.diagnostic line).text]

def runLine (s : Session) (line : String) : List Entry × Session :=
  let (o, s) := s.execute line
  (Entry.ofOutcome line o, s)

def runLines (s : Session) (lines : List String) : List Entry :=
  (List.zipWith Entry.ofOutcome lines (s.run lines).1).flatten

theorem runLines_nil (s : Session) : runLines s [] = [] :=
  rfl

theorem runLines_cons (s : Session) (line : String) (lines : List String) :
    runLines s (line :: lines) = (runLine s line).1 ++ runLines (runLine s line).2 lines :=
  rfl

end Abacus.Console

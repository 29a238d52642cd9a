import Abacus.Console.Level

/-! # Command line arguments

Options come first, then the name of a command and what it takes. The lines to
evaluate may look like options.
-/

namespace Abacus.Console

inductive Command where
  | evaluate (lines : List String)
  | converse
  deriving DecidableEq

inductive Misuse where
  | missingCommand
  | missingValue (option : String)
  | missingLines
  | unknownOption (option : String)
  | unknownCommand (name : String)
  | extraArgument (argument : String)
  | unknownLevel (name : String)
  deriving DecidableEq

def Misuse.message : Misuse → String
  | missingCommand => "Missing command."
  | missingValue option => "Option '" ++ option ++ "' requires an argument."
  | missingLines => "Missing argument 'LINES...'."
  | unknownOption option => "No such option: " ++ option
  | unknownCommand name => "No such command '" ++ name ++ "'."
  | extraArgument argument => "Got unexpected extra argument (" ++ argument ++ ")"
  | unknownLevel name => "Unknown log level: " ++ name

structure Options where
  level : String := "WARNING"
  version : Bool := false
  arguments : List String := []

/-- Of two levels the last counts. A level may be joined to its option. -/
def Options.read (o : Options) : List String → Except Misuse Options
  | [] => .ok o
  | "--" :: rest => .ok { o with arguments := rest }
  | "-v" :: rest | "--version" :: rest => read { o with version := true } rest
  | "-l" :: level :: rest | "--log-level" :: level :: rest => read { o with level } rest
  | argument :: rest =>
    match joinedLevel? argument.toList with
    | some level => read { o with level := String.ofList level } rest
    | none =>
      if argument = "-l" ∨ argument = "--log-level" then .error (.missingValue argument)
      else if argument.length > 1 ∧ argument.toList.head? = some '-' then
        .error (.unknownOption argument)
      else .ok { o with arguments := argument :: rest }
where
  joinedLevel? (argument : List Char) : Option (List Char) :=
    if "--log-level=".toList.isPrefixOf argument then some (argument.drop 12)
    else if argument.length > 2 ∧ ['-', 'l'].isPrefixOf argument then some (argument.drop 2)
    else none

/-- The first `--` only marks that lines follow. -/
def Command.ofArguments? : List String → Except Misuse Command
  | [] => .error .missingCommand
  | "eval" :: lines => .ok (.evaluate (lines.erase "--"))
  | "repl" :: arguments =>
    match arguments.erase "--" with
    | [] => .ok .converse
    | argument :: _ => .error (.extraArgument argument)
  | name :: _ => .error (.unknownCommand name)

inductive Invocation where
  | version
  | run (threshold : Level) (command : Command)
  deriving DecidableEq

/-- Asking for the version goes before everything else that is asked for. -/
def Invocation.ofArguments? (arguments : List String) : Except Misuse Invocation := do
  let options ← Options.read {} arguments
  if options.version then return .version
  let command ← Command.ofArguments? options.arguments
  match Level.ofName? options.level with
  | none => .error (.unknownLevel options.level)
  | some threshold =>
    if command = .evaluate [] then .error .missingLines
    else return .run threshold command

end Abacus.Console

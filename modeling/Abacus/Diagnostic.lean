/-! # Diagnostics

A diagnostic is a message, with an excerpt where a place in the input line is to
blame: the line, and below it a caret under that place.
-/

namespace Abacus

structure Excerpt where
  column : Int
  source : String

namespace Excerpt

/-- The line without the line ends at its end; those inside it stay. -/
def line (x : Excerpt) : List Char :=
  (x.source.toList.reverse.dropWhile fun c => c = '\r' || c = '\n').reverse

def margin : List Char := [' ', ' ', '|', ' ']

/-- The caret stands as far to the right as the column in the line above, which has a margin. -/
def caretLine (x : Excerpt) : List Char :=
  List.replicate (margin.length + x.column - 1).toNat ' ' ++ ['^']

def text (x : Excerpt) : String :=
  "at column " ++ toString x.column ++ "\n" ++
    String.ofList (margin ++ x.line ++ '\n' :: x.caretLine)

end Excerpt

structure Diagnostic where
  message : String
  excerpt : Option Excerpt := none

def Diagnostic.text (d : Diagnostic) : String :=
  match d.excerpt with
  | none => d.message
  | some x => d.message ++ " " ++ x.text

end Abacus

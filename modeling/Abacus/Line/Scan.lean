import Abacus.Depth
import Abacus.Line.Fault
import Abacus.Number.Numeral
import Abacus.Token

/-! # Reading a line

A line is read one character at a time. Where an operand is due, a minus begins
a negative literal; where an operator is due, it subtracts. Literals and names
extend as far as they can; a literal with a point is a float and one without is
an integer, which has to fit 32 bits. An opening parenthesis suspends the list
being read, and the closing one completes the group and resumes it.
-/

namespace Abacus.Line

def integer? (n : Int) : Option Int32 :=
  if Int32.minValue.toInt ≤ n ∧ n ≤ Int32.maxValue.toInt then some (.ofInt n) else none

def literal? (text : List Char) : Option Number :=
  if '.' ∈ text then (Decimal.ofChars? text).map fun d => .float (.ofDecimal d)
  else ((Numeral.ofChars? text).bind integer?).map .integer

def isSpace (c : Char) : Bool :=
  c = ' ' || c = '\t' || c = '\r' || c = '\n'

def continuesLiteral (c : Char) : Bool :=
  c.isDigit || c = '.'

def startsLiteral (c : Char) : Bool :=
  continuesLiteral c || c = '-'

/-- What the next character may belong to. Characters of a literal or a name are newest first. -/
inductive Phase where
  | operand
  | literal (start : Nat) (text : List Char)
  | name (text : List Char)
  | operator

/-- An open group: where its parenthesis stands, and the tokens to the left of it, newest first. -/
structure Frame where
  start : Nat
  before : List Token

/-- The tokens and the frames are newest first. -/
structure Scan where
  offset : Nat := 0
  frames : List Frame := []
  tokens : List Token := []
  phase : Phase := .operand

namespace Scan

def fail (s : Scan) (fault : Fault) : Except Error Scan :=
  .error ⟨fault, s.offset⟩

def advance (s : Scan) (phase : Phase) : Scan :=
  { s with offset := s.offset + 1, phase }

def push (s : Scan) (t : Token) : Scan :=
  { s with tokens := t :: s.tokens }

def openGroup (s : Scan) : Scan where
  offset := s.offset + 1
  frames := ⟨s.offset, s.tokens⟩ :: s.frames

/-- Ends the literal or the name being read. -/
def settle (s : Scan) : Except Error Scan :=
  match s.phase with
  | .operand | .operator => .ok s
  | .literal start text =>
    match literal? text.reverse with
    | some n => .ok { s.push (.value n) with phase := .operator }
    | none => .error ⟨.invalidNumber (String.ofList text.reverse), start⟩
  | .name text => .ok { s.push (.identifier (String.ofList text.reverse)) with phase := .operator }

def operand (limit : Int) (s : Scan) (c : Char) : Except Error Scan :=
  if isSpace c then .ok (s.advance .operand)
  else if startsLiteral c then .ok (s.advance (.literal s.offset [c]))
  else if c.isAlpha then .ok (s.advance (.name [c]))
  else if c = '(' then
    if Depth.effective limit ≤ s.frames.length then s.fail (.groupTooDeep limit)
    else .ok s.openGroup
  else s.fail (.expectedOperand (some c.toString))

def closeGroup (s : Scan) : Except Error Scan :=
  match s.frames with
  | [] => s.fail .unexpectedClose
  | frame :: frames =>
    .ok {
      offset := s.offset + 1
      frames
      tokens := .group s.tokens.reverse :: frame.before
      phase := .operator }

def assign (s : Scan) : Except Error Scan :=
  match s.frames, s.tokens with
  | [], [.identifier _] => .ok ((s.push .assignment).advance .operand)
  | _, _ => s.fail .misplacedAssignment

def operator (s : Scan) (c : Char) : Except Error Scan :=
  if isSpace c then .ok (s.advance .operator)
  else match Operator.ofSymbol? c with
    | some op => .ok ((s.push (.operator op)).advance .operand)
    | none =>
      if c = ')' then s.closeGroup
      else if c = '=' then s.assign
      else s.fail (.expectedOperator c.toString)

def step (limit : Int) (s : Scan) (c : Char) : Except Error Scan :=
  match s.phase with
  | .operand => s.operand limit c
  | .operator => s.operator c
  | .literal start text =>
    if continuesLiteral c then .ok (s.advance (.literal start (c :: text)))
    else s.settle.bind (·.operator c)
  | .name text =>
    if c.isAlphanum then .ok (s.advance (.name (c :: text)))
    else s.settle.bind (·.operator c)

def run (limit : Int) (s : Scan) (cs : List Char) : Except Error Scan :=
  cs.foldlM (step limit) s

theorem run_append (limit : Int) (s : Scan) (cs ds : List Char) :
    s.run limit (cs ++ ds) = (s.run limit cs).bind (·.run limit ds) :=
  List.foldlM_append

def finish (s : Scan) : Except Error (List Token) := do
  let s ← s.settle
  match s.frames, s.phase with
  | frame :: _, _ => .error ⟨.unterminatedGroup, frame.start⟩
  | [], .operand => .error ⟨.expectedOperand none, s.offset⟩
  | [], _ => .ok s.tokens.reverse

end Scan

/-- The tokens of a line whose groups nest no deeper than the limit. -/
def parse (limit : Int) (source : String) : Except Error (List Token) :=
  (Scan.run limit {} source.toList).bind Scan.finish

end Abacus.Line

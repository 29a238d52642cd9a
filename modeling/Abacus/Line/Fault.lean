import Abacus.Diagnostic
import Abacus.Text.Quoted

/-! # Faults of a line

What can be wrong with a line, and where. Offsets count characters from 0.
-/

namespace Abacus.Line

inductive Fault where
  /-- Nothing found is the end of the line. -/
  | expectedOperand (found : Option String)
  | expectedOperator (found : String)
  | invalidNumber (text : String)
  | unterminatedGroup
  | unexpectedClose
  | misplacedAssignment
  | groupTooDeep (limit : Int)
  deriving DecidableEq

def Fault.message : Fault → String
  | expectedOperand none => "expected a number or group, got end of input"
  | expectedOperand (some found) => "expected a number or group, got " ++ Text.quote found
  | expectedOperator found => "expected an operator, got " ++ Text.quote found
  | invalidNumber text => "invalid number " ++ Text.quote text
  | unterminatedGroup => "unterminated group, expected ')'"
  | unexpectedClose => "unexpected ')' outside of a group"
  | misplacedAssignment => "assignment is only allowed as 'name = expression'"
  | groupTooDeep limit => "groups nested deeper than " ++ toString limit ++ " levels"

structure Error where
  fault : Fault
  offset : Nat
  deriving DecidableEq

def Error.diagnostic (e : Error) (source : String) : Diagnostic where
  message := e.fault.message
  excerpt := some ⟨e.offset + 1, source⟩

end Abacus.Line

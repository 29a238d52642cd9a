import Abacus.Diagnostic
import Abacus.Token

/-! # Faults of an evaluation

Why a list of tokens has no value.
-/

namespace Abacus.Evaluation

inductive Fault where
  | undefined (name : String)
  /-- The chain begins and ends with the name that was reached again. -/
  | cyclic (chain : List String)
  | nestingTooDeep (limit : Int)
  | divisionByZero
  | emptyExpression
  | emptyDefinition
  | expectedValue (found : Token)
  | missingOperand
  | unexpectedToken (found : Token)

namespace Fault

def message : Fault → String
  | undefined name => "unable to find variable with name " ++ name
  | cyclic chain => "circular variable reference: " ++ " -> ".intercalate chain
  | nestingTooDeep limit => "evaluation nested deeper than " ++ toString limit ++ " levels"
  | divisionByZero => "division by zero"
  | emptyExpression => "empty expression"
  | emptyDefinition => "expected token after assignment"
  | expectedValue found => "expected a value, got '" ++ found.text ++ "'"
  | missingOperand => "expected value after operator"
  | unexpectedToken found => "unexpected token '" ++ found.text ++ "'"

def diagnostic (f : Fault) : Diagnostic where
  message := f.message

end Fault

end Abacus.Evaluation

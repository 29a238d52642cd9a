import Abacus.Operator

/-! # Tokens

A line is a list of tokens. What stands in parentheses is one token that holds
a list of its own, so the nesting of lists follows the nesting of parentheses.
-/

namespace Abacus

inductive Token where
  | value (number : Number)
  | identifier (name : String)
  | operator (op : Operator)
  | assignment
  | group (tokens : List Token)

namespace Token

mutual

def text : Token → String
  | .value n => n.text
  | .identifier x => x
  | .operator op => op.symbol.toString
  | .assignment => "="
  | .group ts => "(" ++ " ".intercalate (texts ts) ++ ")"

def texts : List Token → List String
  | [] => []
  | t :: ts => t.text :: texts ts

end

theorem texts_eq_map (ts : List Token) : texts ts = ts.map text := by
  induction ts with
  | nil => simp [texts]
  | cons t ts ih => simp [texts, ih]

def lineText (ts : List Token) : String :=
  " ".intercalate (texts ts)

theorem text_group (ts : List Token) : (group ts).text = "(" ++ lineText ts ++ ")" := by
  simp [text, lineText]

/-- The name that a line of the form `name = ...` assigns. -/
def target? : List Token → Option String
  | .identifier x :: .assignment :: _ => some x
  | _ => none

/-- What follows a leading `name =`; any other line is all there is. -/
def definition : List Token → List Token
  | .identifier _ :: .assignment :: ts => ts
  | ts => ts

end Token

end Abacus

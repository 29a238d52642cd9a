import Abacus.Evaluation.Fault

/-! # Climbing precedences

A value followed by operators and operands is reduced from the left. The operand
to the right of an operator first takes up the operators that bind tighter, in a
loop of its own, which never takes a second turn. What an operand stands for is
a parameter.
-/

namespace Abacus.Evaluation

def apply (op : Operator) (left right : Number) : Except Fault Number :=
  match op.combine? left right with
  | some n => .ok n
  | none => .error .divisionByZero

variable (operand : Token → Except Fault Number)

mutual

/-- Climbs through lists up to a length. Every step leaves a shorter list. -/
def climbWithin : Nat → Nat → Number → List Token → Except Fault (Number × List Token)
  | length + 1, least, left, .operator op :: ts =>
    if least ≤ op.precedence then
      match ts with
      | [] => .error .missingOperand
      | t :: ts => do
        let right ← operand t
        let (right, rest) ← lookaheadWithin length op right ts
        let value ← apply op left right
        climbWithin length least value rest
    else .ok (left, .operator op :: ts)
  | _, _, left, ts => .ok (left, ts)

/-- As long as the next operator binds tighter than `op`, the right side of `op` climbs over it. -/
def lookaheadWithin : Nat → Operator → Number → List Token → Except Fault (Number × List Token)
  | length + 1, op, right, .operator next :: ts =>
    if op.precedence < next.precedence then do
      let (right, rest) ← climbWithin length (op.precedence + 1) right (.operator next :: ts)
      lookaheadWithin length op right rest
    else .ok (right, .operator next :: ts)
  | _, _, right, ts => .ok (right, ts)

end

/--
Applies the operators of at least the given precedence to `left`, up to the first token that is no
such operator; the tokens from there on are the rest.
-/
def climb (least : Nat) (left : Number) (ts : List Token) : Except Fault (Number × List Token) :=
  climbWithin operand ts.length least left ts

def StopsBelow (least : Nat) (ts : List Token) : Prop :=
  ∀ op rest, ts = .operator op :: rest → op.precedence < least

end Abacus.Evaluation

import Abacus.Depth
import Abacus.Evaluation.Climb

/-! # Evaluation

Groups and variables are operands whose own lists are evaluated one level
deeper. A variable's definition is looked up at every use, so a variable that
is reached again while its definition is being evaluated has no value.
-/

namespace Abacus.Evaluation

variable (lookup : String → Option (List Token))

/-- The names being resolved are listed from the outermost on; `enter` evaluates a deeper list. -/
def operand (enter : List String → List Token → Except Fault Number) (active : List String) :
    Token → Except Fault Number
  | .value n => .ok n
  | .group ts => enter active ts
  | .identifier x =>
    if x ∈ active then .error (.cyclic (active.dropWhile (· ≠ x) ++ [x]))
    else match lookup x with
      | none => .error (.undefined x)
      | some ts => enter (active ++ [x]) ts
  | t => .error (.expectedValue t)

section

variable {lookup} {enter : List String → List Token → Except Fault Number} {active : List String}

theorem operand_value (n : Number) : operand lookup enter active (.value n) = .ok n :=
  rfl

theorem operand_of_mem {x : String} (h : x ∈ active) : operand lookup enter active (.identifier x) =
    .error (.cyclic (active.dropWhile (· ≠ x) ++ [x])) :=
  if_pos h

theorem operand_of_not_mem {x : String} (h : x ∉ active) :
    operand lookup enter active (.identifier x) =
      match lookup x with
      | none => .error (.undefined x)
      | some ts => enter (active ++ [x]) ts :=
  if_neg h

end

def sequence (operand : Token → Except Fault Number) (ts : List Token) : Except Fault Number :=
  match Token.definition ts with
  | [] => .error (if ts.isEmpty then .emptyExpression else .emptyDefinition)
  | t :: rest => do
    let left ← operand t
    let (value, rest) ← climb operand 0 left rest
    match rest with
    | [] => .ok value
    | t :: _ => .error (.unexpectedToken t)

/-- `room` is how many more levels there are; the limit is only named in the fault. -/
def solve (limit : Int) : Nat → List String → List Token → Except Fault Number
  | 0, _, _ => .error (.nestingTooDeep limit)
  | room + 1, active, ts => sequence (operand lookup (solve limit room) active) ts

/-- The value of a list, where lists may nest as deep as the limit below it. -/
def evaluate (limit : Int) (ts : List Token) : Except Fault Number :=
  solve lookup limit (Depth.effective limit + 1).toNat [] ts

/--
A token that is left over is written into its fault. Groups in it may nest deeper than the rest of
the stack, which then runs out: only tokens that `fits` holds of can be written.
-/
def Fault.handled (fits : Token → Bool) (limit : Int) : Fault → Fault
  | unexpectedToken t => if fits t then .unexpectedToken t else .nestingTooDeep limit
  | f => f

/-- Evaluation on a stack of some size. A stack that runs out is nesting that is too deep. -/
def evaluateOn (fits : Token → Bool) (limit : Int) (ts : List Token) : Except Fault Number :=
  (evaluate lookup limit ts).mapError (Fault.handled fits limit)

end Abacus.Evaluation

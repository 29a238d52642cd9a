import Abacus.Text.Character

/-! # Integer numerals

A numeral is an optional sign and decimal digits of any script, between which
single underscores may stand. Numerals with too many digits are refused.
-/

namespace Abacus

def splitSign : List Char → Bool × List Char
  | '-' :: rest => (true, rest)
  | '+' :: rest => (false, rest)
  | text => (false, text)

def withSign (negative : Bool) (n : Nat) : Int :=
  if negative then -n else n

namespace Numeral

def digitLimit : Nat := 4300

/-- The values of the digits in order; an underscore needs a digit on both sides. -/
def digits? : List Char → Option (List Nat)
  | [] => none
  | [c] => (Text.digitValue? c).map ([·])
  | c :: '_' :: rest => do return (← Text.digitValue? c) :: (← digits? rest)
  | c :: rest => do return (← Text.digitValue? c) :: (← digits? rest)

def ofDigits (ds : List Nat) : Nat :=
  ds.foldl (fun n d => 10 * n + d) 0

def ofChars? (text : List Char) : Option Int := do
  let (negative, rest) := splitSign text
  let ds ← digits? rest
  if ds.length ≤ digitLimit then some (withSign negative (ofDigits ds)) else none

end Numeral

end Abacus

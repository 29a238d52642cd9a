import Abacus.Number.Single

/-! # Numbers and arithmetic operators

A number is a 32-bit integer or a single precision float. Two integers give an
integer: the exact result, wrapped to 32 bits. A float on either side makes the
operation one on floats, in double precision and then narrowed. Only the division
of integers by zero has no value.
-/

namespace Abacus

/-- Wraps around at both ends of the signed 32-bit range. -/
def wrap (n : Int) : Int :=
  (n - Int32.minValue.toInt) % 0x100000000 + Int32.minValue.toInt

theorem minValue_le_wrap (n : Int) : Int32.minValue.toInt ≤ wrap n := by
  unfold wrap
  omega

theorem wrap_le_maxValue (n : Int) : wrap n ≤ Int32.maxValue.toInt := by
  have hmin : Int32.minValue.toInt = -0x80000000 := rfl
  have hmax : Int32.maxValue.toInt = 0x7fffffff := rfl
  unfold wrap
  omega

theorem wrap_of_mem_range {n : Int} (hmin : Int32.minValue.toInt ≤ n)
    (hmax : n ≤ Int32.maxValue.toInt) : wrap n = n := by
  have hmin' : Int32.minValue.toInt = -0x80000000 := rfl
  have hmax' : Int32.maxValue.toInt = 0x7fffffff := rfl
  unfold wrap
  omega

def wrapped (n : Int) : Int32 :=
  .ofIntLE (wrap n) (minValue_le_wrap n) (wrap_le_maxValue n)

theorem toInt_wrapped (n : Int) : (wrapped n).toInt = wrap n :=
  Int32.toInt_ofIntLE

theorem wrapped_eq_ofInt (n : Int) : wrapped n = .ofInt n := by
  have hmin : Int32.minValue.toInt = -0x80000000 := rfl
  have hsize : (Int32.size : Int) = 0x100000000 := rfl
  rw [← Int32.toInt_inj, toInt_wrapped, Int32.toInt_ofInt, wrap, Int.bmod_def, hmin, hsize]
  split <;> omega

/-- The quotient truncated toward zero, from the absolute values and whether the signs agree. -/
def quotient (a b : Int) : Int :=
  let q : Nat := a.natAbs / b.natAbs
  if a < 0 ↔ b < 0 then q else -q

theorem quotient_eq_tdiv (a b : Int) : quotient a b = a.tdiv b := by
  have hofNat (n : Nat) : ¬ Int.ofNat n < 0 := Int.not_lt.mpr (Int.natCast_nonneg n)
  have hnegSucc (n : Nat) : Int.negSucc n < 0 := Int.negSucc_lt_zero n
  unfold quotient
  cases a with
  | ofNat m =>
    cases b with
    | ofNat n => exact if_pos (iff_of_false (hofNat m) (hofNat n))
    | negSucc n => exact if_neg fun h => hofNat m (h.mpr (hnegSucc n))
  | negSucc m =>
    cases b with
    | ofNat n => exact if_neg fun h => hofNat n (h.mp (hnegSucc m))
    | negSucc n => exact if_pos (iff_of_true (hnegSucc m) (hnegSucc n))

inductive Number where
  | integer (value : Int32)
  | float (value : Single)
  deriving DecidableEq

namespace Number

def toSingle : Number → Single
  | .integer n => .ofInt n.toInt
  | .float x => x

def text : Number → String
  | .integer n => toString n.toInt
  | .float x => x.text

end Number

inductive Operator where
  | add | subtract | multiply | divide
  deriving DecidableEq

namespace Operator

def symbol : Operator → Char
  | add => '+'
  | subtract => '-'
  | multiply => '*'
  | divide => '/'

def ofSymbol? : Char → Option Operator
  | '+' => some add
  | '-' => some subtract
  | '*' => some multiply
  | '/' => some divide
  | _ => none

theorem ofSymbol?_symbol (op : Operator) : ofSymbol? op.symbol = some op := by
  cases op <;> rfl

def precedence : Operator → Nat
  | add | subtract => 1
  | multiply | divide => 2

def unbounded? (op : Operator) (a b : Int) : Option Int :=
  match op with
  | add => some (a + b)
  | subtract => some (a - b)
  | multiply => some (a * b)
  | divide => if b = 0 then none else some (quotient a b)

def onIntegers? (op : Operator) (a b : Int32) : Option Int32 :=
  (op.unbounded? a.toInt b.toInt).map wrapped

theorem onIntegers?_add (a b : Int32) : add.onIntegers? a b = some (a + b) := by
  rw [onIntegers?, unbounded?, Option.map_some, wrapped_eq_ofInt, Int32.ofInt_add,
    Int32.ofInt_toInt, Int32.ofInt_toInt]

theorem onIntegers?_subtract (a b : Int32) : subtract.onIntegers? a b = some (a - b) := by
  rw [onIntegers?, unbounded?, Option.map_some, wrapped_eq_ofInt, Int32.ofInt_sub,
    Int32.ofInt_toInt, Int32.ofInt_toInt]

theorem onIntegers?_multiply (a b : Int32) : multiply.onIntegers? a b = some (a * b) := by
  rw [onIntegers?, unbounded?, Option.map_some, wrapped_eq_ofInt, Int32.ofInt_mul,
    Int32.ofInt_toInt, Int32.ofInt_toInt]

theorem onIntegers?_divide (a b : Int32) :
    divide.onIntegers? a b = if b = 0 then none else some (a / b) := by
  have hzero : b.toInt = 0 ↔ b = 0 := Int32.toInt_inj (y := 0)
  simp only [onIntegers?, unbounded?, hzero]
  split
  · rfl
  · rw [Option.map_some, wrapped_eq_ofInt, quotient_eq_tdiv, Int32.ofInt_tdiv a.minValue_le_toInt
      a.toInt_le b.minValue_le_toInt b.toInt_le, Int32.ofInt_toInt, Int32.ofInt_toInt]

/-- A zero over a zero is no number. Any other quotient by a zero is infinite, with the sign that
the signs of both sides make. -/
def divideByZero (a b : Double) : Double :=
  if a.isZero || a.isNaN then .nan
  else ((Binary.infinity false : Double).copySign a).mul (Double.one.copySign b)

/-- The guarded branch comes to what division gives at a zero. -/
theorem divideByZero_eq_div {b : Double} (hb : b.isZero) (a : Double) :
    divideByZero a b = a.div b := by
  cases b with
  | nan | infinity => cases hb
  | finite t n d h =>
    obtain rfl : n = 0 := of_decide_eq_true hb
    cases a with
    | nan | infinity => rfl
    | finite s m e h' =>
      by_cases hm : m = 0
      · simp [divideByZero, Binary.div, Binary.isZero, hm]
      · have hzero : (Binary.finite s m e h' : Double).isZero = false := decide_eq_false hm
        have hdiv : (Binary.finite s m e h' : Double).div (.finite t 0 d h) = .infinity (s ^^ t) := by
          simp only [Binary.div, hm, if_true, if_false]
        rw [divideByZero, hzero, hdiv]
        rfl

def onDoubles (op : Operator) (a b : Double) : Double :=
  match op with
  | add => a.add b
  | subtract => a.sub b
  | multiply => a.mul b
  | divide => if b.isZero then divideByZero a b else a.div b

theorem onDoubles_divide (a b : Double) : divide.onDoubles a b = a.div b :=
  ite_eq_right_iff.mpr fun h => divideByZero_eq_div h a

def onSingles (op : Operator) (a b : Single) : Single :=
  .ofDouble (op.onDoubles a.convert b.convert)

def combine? (op : Operator) : Number → Number → Option Number
  | .integer a, .integer b => (op.onIntegers? a b).map .integer
  | x, y => some (.float (op.onSingles x.toSingle y.toSingle))

end Operator

end Abacus

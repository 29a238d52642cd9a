/-! # Binary floating point

A format fixes how many bits a significand has and how far its lowest place may
move. Its members are the canonical multiples of powers of two, two signed
infinities, and one value that is not a number. Every operation computes its
exact rational result and rounds once, to nearest with ties to even. Decimals are
rounded with the same two steps: the place of the leading digit of a rational in
a base, and the nearest integer.
-/

namespace Abacus

/-- The nearest integer; of two equally near ones, the even one. -/
def nearestEven (x : Rat) : Int :=
  let below := x.floor
  let rest := x - below
  if rest < 1 / 2 then below
  else if 1 / 2 < rest then below + 1
  else if below % 2 = 0 then below
  else below + 1

/--
The exponent of the leading digit of a positive rational. The digit counts of its numerator and
denominator leave two candidates, which one comparison decides.
-/
def leadingExponent (base : Nat) (digitCount : Nat → Nat) (x : Rat) : Int :=
  let e : Int := digitCount x.num.natAbs - digitCount x.den
  if x < (base : Rat) ^ e then e - 1 else e

def binaryExponent (x : Rat) : Int :=
  leadingExponent 2 (fun n => n.log2 + 1) x

def decimalExponent (x : Rat) : Int :=
  leadingExponent 10 (fun n => (Nat.toDigits 10 n).length) x

/-- The lowest place of a significand stands for two to the `least` up to two to the `greatest`. -/
structure Format where
  precision : Nat
  least : Int
  greatest : Int
  precision_pos : 0 < precision := by decide
  least_le_greatest : least ≤ greatest := by decide

namespace Format

def single : Format where
  precision := 24
  least := -149
  greatest := 104

def double : Format where
  precision := 53
  least := -1074
  greatest := 971

variable (f : Format)

def bound : Nat := 1 <<< f.precision

theorem bound_pos : 0 < f.bound := by
  rw [bound, Nat.one_shiftLeft]
  exact Nat.two_pow_pos _

/-- A significand uses the full precision unless its place is the least one. -/
def Canonical (m : Nat) (e : Int) : Prop :=
  m < f.bound ∧ f.least ≤ e ∧ e ≤ f.greatest ∧ (e = f.least ∨ f.bound ≤ 2 * m)

instance (m : Nat) (e : Int) : Decidable (f.Canonical m e) := by
  unfold Canonical
  infer_instance

theorem canonical_zero : f.Canonical 0 f.least :=
  ⟨f.bound_pos, Int.le_refl _, f.least_le_greatest, Or.inl rfl⟩

end Format

inductive Binary (f : Format) where
  | nan
  | infinity (negative : Bool)
  | finite (negative : Bool) (significand : Nat) (exponent : Int)
      (canonical : f.Canonical significand exponent)
  deriving DecidableEq

abbrev Single := Binary Format.single

abbrev Double := Binary Format.double

def Double.one : Double :=
  .finite false 0x10000000000000 (-52) (by decide)

namespace Binary

variable {f : Format}

def zero (negative : Bool) : Binary f :=
  .finite negative 0 f.least f.canonical_zero

def signed (negative : Bool) (m : Nat) (e : Int) : Rat :=
  let magnitude := (m : Rat) * (2 : Rat) ^ e
  if negative then -magnitude else magnitude

/-- Parts that are not canonical are those of an overflow. -/
def ofParts (negative : Bool) (m : Nat) (e : Int) : Binary f :=
  if h : f.Canonical m e then .finite negative m e h else .infinity negative

def roundMagnitude (negative : Bool) (a : Rat) : Binary f :=
  let e := max (binaryExponent a - (f.precision - 1)) f.least
  let m := (nearestEven (a / (2 : Rat) ^ e)).toNat
  if m = f.bound then ofParts negative (m / 2) (e + 1) else ofParts negative m e

/-- The nearest member of the format. An exact zero has no sign of its own and takes this one. -/
def round (zeroSign : Bool) (x : Rat) : Binary f :=
  if x = 0 then zero zeroSign
  else if x < 0 then roundMagnitude true (-x)
  else roundMagnitude false x

def convert {g : Format} : Binary f → Binary g
  | .nan => .nan
  | .infinity s => .infinity s
  | .finite s m e _ => round s (signed s m e)

def neg : Binary f → Binary f
  | .nan => .nan
  | .infinity s => .infinity !s
  | .finite s m e h => .finite (!s) m e h

def add : Binary f → Binary f → Binary f
  | .nan, _ | _, .nan => .nan
  | .infinity s, .infinity t => if s = t then .infinity s else .nan
  | .infinity s, .finite .. => .infinity s
  | .finite .., .infinity t => .infinity t
  | .finite s m e _, .finite t n d _ => round (s && t) (signed s m e + signed t n d)

def sub (x y : Binary f) : Binary f :=
  x.add y.neg

def mul : Binary f → Binary f → Binary f
  | .nan, _ | _, .nan => .nan
  | .infinity s, .infinity t => .infinity (s ^^ t)
  | .infinity s, .finite t n _ _ => if n = 0 then .nan else .infinity (s ^^ t)
  | .finite s m _ _, .infinity t => if m = 0 then .nan else .infinity (s ^^ t)
  | .finite s m e _, .finite t n d _ => round (s ^^ t) (signed s m e * signed t n d)

/-- Division by a zero gives an infinity, except that a zero dividend gives no number. -/
def div : Binary f → Binary f → Binary f
  | .nan, _ | _, .nan => .nan
  | .infinity _, .infinity _ => .nan
  | .infinity s, .finite t _ _ _ => .infinity (s ^^ t)
  | .finite s _ _ _, .infinity t => zero (s ^^ t)
  | .finite s m e _, .finite t n d _ =>
    if n = 0 then if m = 0 then .nan else .infinity (s ^^ t)
    else round (s ^^ t) (signed s m e / signed t n d)

def isNaN : Binary f → Bool
  | .nan => true
  | .infinity _ | .finite .. => false

def isZero : Binary f → Bool
  | .finite _ m _ _ => m = 0
  | .nan | .infinity _ => false

def isNegative : Binary f → Bool
  | .nan => false
  | .infinity s | .finite s _ _ _ => s

def copySign {g : Format} (x : Binary f) (y : Binary g) : Binary f :=
  match x with
  | .nan => .nan
  | .infinity _ => .infinity y.isNegative
  | .finite _ m e h => .finite y.isNegative m e h

/--
The interchange encoding: sign, biased exponent and fraction. The places of a canonical significand
run on from the biased exponent, so one sum encodes both full and reduced precision.
-/
def encoding : Binary f → Nat
  | .nan => special + f.bound / 4
  | .infinity s => sign s + special
  | .finite s m e _ => sign s + (e - f.least).toNat * (f.bound / 2) + m
where
  special : Nat := (f.greatest - f.least + 2).toNat * (f.bound / 2)
  sign (negative : Bool) : Nat :=
    if negative then (f.greatest - f.least + 3).toNat * (f.bound / 2) else 0

end Binary

end Abacus

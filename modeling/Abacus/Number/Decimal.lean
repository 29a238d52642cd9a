import Abacus.Number.Binary
import Abacus.Number.Numeral

/-! # Decimal numbers

A decimal is a sign, its digits as one number, and the power of ten of the last
digit. Decimals are read from text, rounded from rationals to a number of
significant digits, and written positionally or with an exponent.
-/

namespace Abacus

structure Decimal where
  negative : Bool
  digits : Nat
  exponent : Int
  deriving DecidableEq

namespace Decimal

def toRat (d : Decimal) : Rat :=
  let magnitude := (d.digits : Rat) * (10 : Rat) ^ d.exponent
  if d.negative then -magnitude else magnitude

def toBinary (f : Format) (d : Decimal) : Binary f :=
  .round d.negative d.toRat

/-- Digits with at most one point between, before or after them, and how many follow the point. -/
def mantissa? (text : List Char) : Option (Nat × Nat) :=
  let whole := text.takeWhile Char.isDigit
  let fraction := match text.dropWhile Char.isDigit with
    | [] => some []
    | c :: rest => if c = '.' ∧ rest.all Char.isDigit then some rest else none
  fraction.bind fun fraction =>
    if whole.isEmpty && fraction.isEmpty then none
    else some (Nat.ofDigitChars 10 (whole ++ fraction) 0, fraction.length)

def exponent? (text : List Char) : Option Int :=
  let (negative, digits) := splitSign text
  if digits.isEmpty || !digits.all Char.isDigit then none
  else some (withSign negative (Nat.ofDigitChars 10 digits 0))

def isExponentMark (c : Char) : Bool :=
  c = 'e' || c = 'E'

/--
A sign, digits with a point, and an exponent, of which only digits are required. Exponents far
beyond the text's own length are all read as one, which is too large or too small for any format.
-/
def ofChars? (text : List Char) : Option Decimal := do
  let (negative, rest) := splitSign text
  let (digits, places) ← mantissa? (rest.takeWhile (!isExponentMark ·))
  match rest.dropWhile (!isExponentMark ·) with
  | [] => some ⟨negative, digits, -places⟩
  | _ :: power =>
    let far : Int := 400 + text.length
    let e ← exponent? power
    some ⟨negative, digits, max (-far) (min far e) - places⟩

/--
A positive magnitude, rounded to as many significant digits as asked for. Where they round up to a
power of ten, it has one digit more.
-/
def ofMagnitude (negative : Bool) (places : Nat) (a : Rat) : Decimal :=
  let e := decimalExponent a - (places - 1)
  ⟨negative, (nearestEven (a / (10 : Rat) ^ e)).toNat, e⟩

def dropZeros (digits : List Char) : List Char :=
  (digits.reverse.dropWhile (· = '0')).reverse

def fractionText (digits : List Char) : List Char :=
  match dropZeros digits with
  | [] => []
  | kept => '.' :: kept

def exponentText (e : Int) : List Char :=
  let digits := Nat.toDigits 10 e.natAbs
  'e' :: (if e < 0 then '-' else '+') :: (if digits.length < 2 then '0' :: digits else digits)

/--
The general form: positional while the leading digit stands no lower than the fourth place after
the point and no higher than the digits asked for reach; zeros at the end of a fraction are left
out.
-/
def general (places : Nat) (d : Decimal) : List Char :=
  let digits := Nat.toDigits 10 d.digits
  let leading : Int := d.exponent + digits.length - 1
  let body :=
    if leading < -4 ∨ places ≤ leading then
      digits.take 1 ++ fractionText (digits.drop 1) ++ exponentText leading
    else if leading < 0 then
      '0' :: fractionText (List.replicate (leading.natAbs - 1) '0' ++ digits)
    else
      digits.take (leading.toNat + 1) ++ fractionText (digits.drop (leading.toNat + 1))
  if d.negative then '-' :: body else body

end Decimal

end Abacus

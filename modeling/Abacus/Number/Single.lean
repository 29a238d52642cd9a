import Abacus.Number.Decimal

/-! # Single precision numbers

Arithmetic and decimal text both pass through double precision: an exact result
is rounded to double, and that to single. A number is written with the fewest
significant digits that read back as itself.
-/

namespace Abacus

/-- Four bytes hold no finite number that rounds past the greatest one. -/
def Double.pack? (x : Double) : Option Single :=
  match x, (x.convert : Single) with
  | .finite .., .infinity _ => none
  | _, y => some y

namespace Single

/-- The nearest single precision number; past the greatest one, the infinity of the same sign. -/
def ofDouble (x : Double) : Single :=
  match x.pack? with
  | some y => y
  | none => (Binary.infinity false).copySign x

def ofDecimal (d : Decimal) : Single :=
  ofDouble (d.toBinary .double)

def ofText? (text : String) : Option Single :=
  match text with
  | "nan" => some .nan
  | "inf" => some (.infinity false)
  | "-inf" => some (.infinity true)
  | _ => (Decimal.ofChars? text.toList).map ofDecimal

def ofInt (n : Int) : Single :=
  .round false n

def significant (places : Nat) : Single → Decimal
  | .nan | .infinity _ => ⟨false, 0, 0⟩
  | .finite s m e _ =>
    if m = 0 then ⟨s, 0, 0⟩ else .ofMagnitude s places (Binary.signed false m e)

def readsBack (x : Single) (places : Nat) : Bool :=
  ofDecimal (x.significant places) = x

/-- The fewest of one to nine significant digits that read back. -/
def places? (x : Single) : Option Nat :=
  (List.range' 1 9).find? x.readsBack

def doublePlaces (x : Single) : Nat :=
  ((List.range' 1 16).find? fun n => (x.significant n).toBinary .double = x.convert).getD 17

/-- Where nine digits are too few, the text is that of the number in double precision. -/
def shortest (x : Single) : List Char :=
  match x.places? with
  | some n => (x.significant n).general n
  | none => (x.significant x.doublePlaces).general 16

/-- A text without a point or an exponent would read as an integer. -/
def markFraction (text : List Char) : List Char :=
  if text.any (fun c => c = '.' || c = 'e') then text else text ++ ['.', '0']

def text (x : Single) : String :=
  match x with
  | .nan => "nan"
  | .infinity false => "inf"
  | .infinity true => "-inf"
  | .finite .. => String.ofList (markFraction x.shortest)

end Single

end Abacus

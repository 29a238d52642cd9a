/-! # Characters and lines

Classes of characters are lists of closed ranges of code points. The blanks are
stripped from both ends of an input line or a setting: Unicode white space and
the four ASCII information separators. Each script's ten decimal digits are
consecutive code points, so the code point of its zero determines them. A line
ends at a line feed, a carriage return, or a carriage return followed by a line
feed.
-/

namespace Abacus.Text

abbrev CharRange := Nat × Nat

def CharRange.contains (r : CharRange) (c : Char) : Bool :=
  r.1 ≤ c.toNat && c.toNat ≤ r.2

def inRanges (rs : List CharRange) (c : Char) : Bool :=
  rs.any (·.contains c)

def blanks : List CharRange :=
  [(0x9, 0xd), (0x1c, 0x20), (0x85, 0x85), (0xa0, 0xa0), (0x1680, 0x1680), (0x2000, 0x200a),
   (0x2028, 0x2029), (0x202f, 0x202f), (0x205f, 0x205f), (0x3000, 0x3000)]

def isBlank (c : Char) : Bool :=
  inRanges blanks c

def stripChars (cs : List Char) : List Char :=
  ((cs.dropWhile isBlank).reverse.dropWhile isBlank).reverse

def strip (s : String) : String :=
  String.ofList (stripChars s.toList)

/-- The zeros of the scripts that have decimal digits in Unicode 14. -/
def zeroDigits : List Nat :=
  [0x30, 0x660, 0x6f0, 0x7c0, 0x966, 0x9e6, 0xa66, 0xae6, 0xb66, 0xbe6, 0xc66, 0xce6, 0xd66,
   0xde6, 0xe50, 0xed0, 0xf20, 0x1040, 0x1090, 0x17e0, 0x1810, 0x1946, 0x19d0, 0x1a80, 0x1a90,
   0x1b50, 0x1bb0, 0x1c40, 0x1c50, 0xa620, 0xa8d0, 0xa900, 0xa9d0, 0xa9f0, 0xaa50, 0xabf0,
   0xff10, 0x104a0, 0x10d30, 0x11066, 0x110f0, 0x11136, 0x111d0, 0x112f0, 0x11450, 0x114d0,
   0x11650, 0x116c0, 0x11730, 0x118e0, 0x11950, 0x11c50, 0x11d50, 0x11da0, 0x16a60, 0x16ac0,
   0x16b50, 0x1d7ce, 0x1d7d8, 0x1d7e2, 0x1d7ec, 0x1d7f6, 0x1e140, 0x1e2f0, 0x1e950, 0x1fbf0]

def digitValue? (c : Char) : Option Nat :=
  (zeroDigits.find? fun z => z ≤ c.toNat && c.toNat ≤ z + 9).map (c.toNat - ·)

/-- The complete lines without their ends, and what follows the last line end. -/
def splitLines (cs : List Char) : List (List Char) × List Char :=
  go [] [] cs
where
  go (lines : List (List Char)) (line : List Char) : List Char → List (List Char) × List Char
    | [] => (lines.reverse, line.reverse)
    | '\r' :: '\n' :: cs => go (line.reverse :: lines) [] cs
    | c :: cs =>
      if c = '\r' ∨ c = '\n' then go (line.reverse :: lines) [] cs
      else go lines (c :: line) cs

/-- All lines; the last one need not have an end. -/
def lines (cs : List Char) : List (List Char) :=
  let (complete, last) := splitLines cs
  if last.isEmpty then complete else complete ++ [last]

end Abacus.Text

/-! # Decoding UTF-8

Bytes are decoded one at a time, so that a sequence that no character has is
found at its first wrong byte. A sequence that is cut off at the end is only
known to be one there.
-/

namespace Abacus.Text.Utf8

inductive Reason where
  | invalidStart | invalidContinuation | unexpectedEnd
  deriving DecidableEq

structure Fault where
  reason : Reason
  start : Nat
  first : UInt8
  length : Nat
  deriving DecidableEq

structure Pending where
  first : UInt8
  length : Nat
  missing : Nat
  low : UInt8
  high : UInt8
  code : Nat

inductive Lead where
  | complete
  | sequence (pending : Pending)
  | invalid

/-- Bounds on the second byte exclude overlong forms, surrogates, and what lies past Unicode. -/
def lead (b : UInt8) : Lead :=
  let sequence (missing : Nat) (low high : UInt8) (code : UInt8) : Lead :=
    .sequence ⟨b, 1, missing, low, high, code.toNat⟩
  if b < 0x80 then .complete
  else if b < 0xc2 then .invalid
  else if b < 0xe0 then sequence 1 0x80 0xbf (b - 0xc0)
  else if b = 0xe0 then sequence 2 0xa0 0xbf 0
  else if b = 0xed then sequence 2 0x80 0x9f 0xd
  else if b < 0xf0 then sequence 2 0x80 0xbf (b - 0xe0)
  else if b = 0xf0 then sequence 3 0x90 0xbf 0
  else if b < 0xf4 then sequence 3 0x80 0xbf (b - 0xf0)
  else if b = 0xf4 then sequence 3 0x80 0x8f 4
  else .invalid

/-- The decoded characters are newest first; the offset is that of the next byte. -/
structure State where
  decoded : List Char := []
  offset : Nat := 0
  pending : Option Pending := none

def step (s : State) (b : UInt8) : Except Fault State :=
  match s.pending with
  | none =>
    match lead b with
    | .complete => .ok ⟨Char.ofNat b.toNat :: s.decoded, s.offset + 1, none⟩
    | .sequence p => .ok ⟨s.decoded, s.offset + 1, some p⟩
    | .invalid => .error ⟨.invalidStart, s.offset, b, 1⟩
  | some p =>
    if b < p.low || p.high < b then
      .error ⟨.invalidContinuation, s.offset - p.length, p.first, p.length⟩
    else
      let code := 64 * p.code + (b - 0x80).toNat
      if p.missing = 1 then .ok ⟨Char.ofNat code :: s.decoded, s.offset + 1, none⟩
      else
        let p := ⟨p.first, p.length + 1, p.missing - 1, 0x80, 0xbf, code⟩
        .ok ⟨s.decoded, s.offset + 1, some p⟩

/-- The characters up to the end, and the sequence that is cut off there, if one is. -/
def decode (bytes : List UInt8) : Except Fault (List Char × Option Pending) :=
  (bytes.foldlM step {}).map fun s => (s.decoded.reverse, s.pending)

/-- Only the cut off sequence is left to be blamed, so offsets count from its own start. -/
def Pending.fault (p : Pending) : Fault :=
  ⟨.unexpectedEnd, 0, p.first, p.length⟩

def hexByte (b : UInt8) : String :=
  let digits := String.ofList (Nat.toDigits 16 b.toNat)
  "0x" ++ (if b < 0x10 then "0" ++ digits else digits)

def Reason.message : Reason → String
  | invalidStart => "invalid start byte"
  | invalidContinuation => "invalid continuation byte"
  | unexpectedEnd => "unexpected end of data"

def Fault.message (f : Fault) : String :=
  let place :=
    if f.length = 1 then "byte " ++ hexByte f.first ++ " in position " ++ toString f.start
    else "bytes in position " ++ toString f.start ++ "-" ++ toString (f.start + f.length - 1)
  "'utf-8' codec can't decode " ++ place ++ ": " ++ f.reason.message

end Abacus.Text.Utf8

/-!
# Reading bytes as text

`Utf8.decodeLossy` reads bytes as UTF-8. Where they are none, the longest start of a character is
replaced by the replacement character and reading goes on behind it.
-/

namespace StubManager.Utf8

/-- What stands for bytes that are no character. -/
def replacement : Char := '\ufffd'

/-- How many octets follow the first octet of a character, and the range of the next one. -/
def expectation? (first : Nat) : Option (Nat × Nat × Nat) :=
  if first < 0x80 then some (0, 0, 0)
  else if first < 0xC2 then none
  else if first < 0xE0 then some (1, 0x80, 0xBF)
  else if first = 0xE0 then some (2, 0xA0, 0xBF)
  else if first = 0xED then some (2, 0x80, 0x9F)
  else if first < 0xF0 then some (2, 0x80, 0xBF)
  else if first = 0xF0 then some (3, 0x90, 0xBF)
  else if first < 0xF4 then some (3, 0x80, 0xBF)
  else if first = 0xF4 then some (3, 0x80, 0x8F)
  else none

/-- The value of the bits that a first octet contributes. -/
def firstBits (first : Nat) : Nat :=
  if first < 0x80 then first
  else if first < 0xE0 then first % 0x20
  else if first < 0xF0 then first % 0x10
  else first % 0x08

/-- A character under way: its bits so far, how many octets are missing, and the range of the
next one. -/
structure Pending where
  bits : Nat
  missing : Nat
  low : Nat
  high : Nat
deriving Repr

/-- Reads octets, with a character under way or between characters. -/
def decodeFrom : Option Pending → List UInt8 → List Char
  | none, [] => []
  | some _, [] => [replacement]
  | pending, octet :: more =>
    let n := octet.toNat
    let start (front : List Char) : List Char :=
      match expectation? n with
      | none => front ++ replacement :: decodeFrom none more
      | some (0, _, _) => front ++ Char.ofNat n :: decodeFrom none more
      | some (missing, low, high) =>
        front ++ decodeFrom (some { bits := firstBits n, missing, low, high }) more
    match pending with
    | none => start []
    | some p =>
      if p.low ≤ n ∧ n ≤ p.high then
        let bits := p.bits * 0x40 + n % 0x40
        if p.missing ≤ 1 then Char.ofNat bits :: decodeFrom none more
        else decodeFrom (some { bits, missing := p.missing - 1, low := 0x80, high := 0xBF }) more
      else start [replacement]

/-- Reads bytes as text. -/
def decodeLossy (bytes : ByteArray) : List Char := decodeFrom none bytes.toList

end StubManager.Utf8

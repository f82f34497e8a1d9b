import PeerCache.Text.Utf8

/-!
# Hexadecimal

A byte is written as two digits, the high half first. File names use lower-case digits and
percent escapes upper-case ones; reading takes both.
-/

namespace PeerCache.Hex

def digit (value : Nat) : Char :=
  if value < 10 then Char.ofNat (48 + value) else Char.ofNat (87 + value)

def upperDigit (value : Nat) : Char :=
  if value < 10 then Char.ofNat (48 + value) else Char.ofNat (55 + value)

def digitValue? (c : Char) : Option Nat :=
  if '0' ≤ c ∧ c ≤ '9' then some (c.toNat - 48)
  else if 'a' ≤ c ∧ c ≤ 'f' then some (c.toNat - 87)
  else if 'A' ≤ c ∧ c ≤ 'F' then some (c.toNat - 55)
  else none

def isDigit (c : Char) : Bool := (digitValue? c).isSome

/-- The number that digits write in a base of at most sixteen, the highest digit first. -/
def fromDigits (base : Nat) (digits : List Char) : Nat :=
  digits.foldl (fun n c => base * n + (digitValue? c).getD 0) 0

def encode (bytes : Bytes) : List Char :=
  bytes.flatMap fun b => [digit (b.toNat / 16), digit (b.toNat % 16)]

def decode? : List Char → Option Bytes
  | [] => some []
  | [_] => none
  | high :: low :: rest =>
    match digitValue? high, digitValue? low, decode? rest with
    | some h, some l, some bytes => some (UInt8.ofNat (16 * h + l) :: bytes)
    | _, _, _ => none

/-- A number without leading zeros, as in an escape of a code point. -/
def ofNat (n : Nat) : List Char :=
  (Nat.toDigits 16 n)

end PeerCache.Hex

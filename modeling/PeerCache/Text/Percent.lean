import PeerCache.Text.Hex

/-!
# Percent escapes

A byte outside a chosen class is written as `%` and two upper-case digits. Reading is
lenient: a `%` that two digits do not follow stands for itself.
-/

namespace PeerCache.Percent

def escape (b : UInt8) : List Char :=
  ['%', Hex.upperDigit (b.toNat / 16), Hex.upperDigit (b.toNat % 16)]

/-- Write the UTF-8 bytes of a text, escaping the characters that `keep` refuses and all
that are not ASCII. -/
def encodeText (keep : Char → Bool) (text : List Char) : List Char :=
  text.flatMap fun c =>
    if c.toNat < 128 && keep c then [c] else (String.utf8EncodeChar c).flatMap escape

/-- The byte that an escape stands for, given its first character and what follows. -/
def escaped? : Char → List Char → Option UInt8
  | '%', high :: low :: _ =>
    match Hex.digitValue? high, Hex.digitValue? low with
    | some h, some l => some (UInt8.ofNat (16 * h + l))
    | _, _ => none
  | _, _ => none

/-- Read the bytes of a text with escapes after leaving out `skip` characters, which are
the digits of an escape read already. -/
def decodeAfter : Nat → List Char → Bytes
  | _, [] => []
  | skip + 1, _ :: rest => decodeAfter skip rest
  | 0, c :: rest =>
    match escaped? c rest with
    | some b => b :: decodeAfter 2 rest
    | none => String.utf8EncodeChar c ++ decodeAfter 0 rest

def decode (text : List Char) : Bytes :=
  decodeAfter 0 text

/-- Every `%` starts an escape of two digits. -/
def wellFormed : List Char → Bool
  | [] => true
  | '%' :: rest =>
    match rest with
    | a :: b :: rest => Hex.isDigit a && Hex.isDigit b && wellFormed rest
    | _ => false
  | _ :: rest => wellFormed rest

end PeerCache.Percent

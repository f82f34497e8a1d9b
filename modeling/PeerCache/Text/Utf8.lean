/-!
# Byte strings and UTF-8

Bodies, header values and stored values are lists of bytes. Text is written as bytes in
UTF-8 and read back one byte at a time. The reader never fails: bytes that cannot be
completed to a character become one replacement character, and the byte that broke the
character off is read again as the start of the next one.
-/

namespace PeerCache

abbrev Bytes := List UInt8

namespace Utf8

def encode (text : List Char) : Bytes :=
  text.flatMap String.utf8EncodeChar

/-- Stands for bytes that are not a character. -/
def replacement : Char := '\ufffd'

/-- The bits of a character read so far, how many bytes it needs after the next one,
and the range the next one has to be in. -/
structure Unfinished where
  bits : Nat
  owed : Nat
  low : UInt8
  high : UInt8

/-- What is known after a byte: the characters it settles and the one it leaves open. -/
abbrev Progress := List Char × Option Unfinished

/-- Read the first byte of a character. The narrowed ranges after `E0`, `ED`, `F0` and
`F4` rule out overlong forms, surrogates and values past the last character. -/
def start (b : UInt8) : Progress :=
  if b < 0x80 then ([Char.ofNat b.toNat], none)
  else if b < 0xC2 then ([replacement], none)
  else if b < 0xE0 then ([], some ⟨b.toNat % 32, 0, 0x80, 0xBF⟩)
  else if b < 0xF0 then
    ([], some ⟨b.toNat % 16, 1, if b = 0xE0 then 0xA0 else 0x80, if b = 0xED then 0x9F else 0xBF⟩)
  else if b < 0xF5 then
    ([], some ⟨b.toNat % 8, 2, if b = 0xF0 then 0x90 else 0x80, if b = 0xF4 then 0x8F else 0xBF⟩)
  else ([replacement], none)

def step : Option Unfinished → UInt8 → Progress
  | none, b => start b
  | some c, b =>
    if c.low ≤ b ∧ b ≤ c.high then
      let bits := c.bits * 64 + b.toNat % 64
      match c.owed with
      | 0 => ([Char.ofNat bits], none)
      | owed + 1 => ([], some ⟨bits, owed, 0x80, 0xBF⟩)
    else
      let (settled, opened) := start b
      (replacement :: settled, opened)

def decodeFrom (unfinished : Option Unfinished) : Bytes → List Char
  | [] => if unfinished.isSome then [replacement] else []
  | b :: rest =>
    let (settled, opened) := step unfinished b
    settled ++ decodeFrom opened rest

/-- Read bytes as text, with a replacement character for each part that is not UTF-8. -/
def decodeLossy (bytes : Bytes) : List Char :=
  decodeFrom none bytes

/-- Read bytes as text, or nothing when they are not UTF-8: the text of valid bytes is the
only one that is written as those bytes. -/
def decode? (bytes : Bytes) : Option (List Char) :=
  let text := decodeLossy bytes
  if encode text = bytes then some text else none

@[simp] theorem encode_nil : encode [] = [] := rfl

@[simp] theorem encode_append (a b : List Char) : encode (a ++ b) = encode a ++ encode b := by
  simp [encode]

theorem encode_of_decode? {bytes : Bytes} {text : List Char} (h : decode? bytes = some text) :
    encode text = bytes := by
  simp only [decode?] at h
  split at h <;> simp_all

end Utf8

/-- The UTF-8 bytes of a text. -/
def utf8 (text : String) : Bytes :=
  Utf8.encode text.toList

@[simp] theorem utf8_append (a b : String) : utf8 (a ++ b) = utf8 a ++ utf8 b := by
  simp [utf8]

end PeerCache

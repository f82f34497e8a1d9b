import PeerCache.Text.Utf8

/-!
# Stored form of an entry

The bytes that an entry is stored as: numbers in groups of seven bits, the lowest first, and
lists and byte strings behind their length. A reader takes one part off the front and leaves
the rest, and it fails when the bytes end within a part or cannot be one.
-/

namespace PeerCache

inductive WireError where
  | endOfInput
  | badNumber
  | badText
  | badOption
  deriving DecidableEq, Repr

def WireError.message : WireError → String
  | endOfInput => "Hit the end of buffer, expected more data"
  | badNumber => "Found a varint that didn't terminate. Is the usize too big for this platform?"
  | badText => "Tried to parse invalid utf-8"
  | badOption => "Found an Option discriminant that wasn't 0 or 1"

/-- An entry as it is stored, before its parts are checked. -/
structure WireEntry where
  status : Nat
  headers : List (String × Bytes)
  varied : List (String × Option Bytes)
  body : Bytes
  deriving DecidableEq, Repr

namespace Wire

abbrev ByteReader (α : Type) := Bytes → Except WireError (α × Bytes)

/-- Write a number in at most `groups + 1` groups. -/
def writeGroups : Nat → Nat → Bytes
  | 0, n => [UInt8.ofNat n]
  | groups + 1, n =>
    if n < 128 then [UInt8.ofNat n]
    else UInt8.ofNat (n % 128 + 128) :: writeGroups groups (n / 128)

/-- Write a number in as many groups as it needs; ten are enough below `2 ^ 64`. -/
def writeNumber (n : Nat) : Bytes :=
  writeGroups n n

/-- Read a number in at most so many groups, the last of which may not exceed a bound. -/
def readGroups : Nat → Nat → ByteReader Nat
  | 0, _, _ => .error .badNumber
  | _ + 1, _, [] => .error .endOfInput
  | groups + 1, most, b :: rest =>
    if b < 128 then
      if groups = 0 ∧ b.toNat > most then .error .badNumber else .ok (b.toNat, rest)
    else
      match readGroups groups most rest with
      | .ok (n, rest) => .ok (b.toNat - 128 + 128 * n, rest)
      | .error e => .error e

def readStatus : ByteReader Nat :=
  readGroups 3 3

def readLength : ByteReader Nat :=
  readGroups 10 1

def readExactly : Nat → ByteReader Bytes
  | 0, rest => .ok ([], rest)
  | _ + 1, [] => .error .endOfInput
  | n + 1, b :: rest =>
    match readExactly n rest with
    | .ok (bytes, rest) => .ok (b :: bytes, rest)
    | .error e => .error e

def writeBytes (bytes : Bytes) : Bytes :=
  writeNumber bytes.length ++ bytes

def readBytes : ByteReader Bytes := fun input =>
  match readLength input with
  | .ok (n, rest) => readExactly n rest
  | .error e => .error e

def writeText (text : String) : Bytes :=
  writeBytes (utf8 text)

def readText : ByteReader String := fun input =>
  match readBytes input with
  | .error e => .error e
  | .ok (bytes, rest) =>
    match Utf8.decode? bytes with
    | some text => .ok (String.ofList text, rest)
    | none => .error .badText

def writeOption : Option Bytes → Bytes
  | none => [0]
  | some bytes => 1 :: writeBytes bytes

def readOption : ByteReader (Option Bytes)
  | [] => .error .endOfInput
  | b :: rest =>
    if b = 0 then .ok (none, rest)
    else if b = 1 then
      match readBytes rest with
      | .ok (bytes, rest) => .ok (some bytes, rest)
      | .error e => .error e
    else .error .badOption

def writePair {α : Type} (write : α → Bytes) (pair : String × α) : Bytes :=
  writeText pair.1 ++ write pair.2

def readPair {α : Type} (read : ByteReader α) : ByteReader (String × α) := fun input =>
  match readText input with
  | .error e => .error e
  | .ok (name, rest) =>
    match read rest with
    | .ok (value, rest) => .ok ((name, value), rest)
    | .error e => .error e

def writeList {α : Type} (write : α → Bytes) (items : List α) : Bytes :=
  writeNumber items.length ++ items.flatMap write

def readMany {α : Type} (read : ByteReader α) : Nat → ByteReader (List α)
  | 0, rest => .ok ([], rest)
  | n + 1, input =>
    match read input with
    | .error e => .error e
    | .ok (item, rest) =>
      match readMany read n rest with
      | .ok (items, rest) => .ok (item :: items, rest)
      | .error e => .error e

def readList {α : Type} (read : ByteReader α) : ByteReader (List α) := fun input =>
  match readLength input with
  | .ok (n, rest) => readMany read n rest
  | .error e => .error e

end Wire

namespace WireEntry

open Wire

def encode (e : WireEntry) : Bytes :=
  writeNumber e.status ++ writeList (writePair writeBytes) e.headers ++
    writeList (writePair writeOption) e.varied ++ writeBytes e.body

/-- Read an entry and what follows it. -/
def read : ByteReader WireEntry := fun input => do
  let (status, input) ← readStatus input
  let (headers, input) ← readList (readPair readBytes) input
  let (varied, input) ← readList (readPair readOption) input
  let (body, input) ← readBytes input
  return ({ status, headers, varied, body }, input)

/-- Read an entry; what follows it does not matter. -/
def decode (bytes : Bytes) : Except WireError WireEntry :=
  (read bytes).map (·.1)

end WireEntry

end PeerCache

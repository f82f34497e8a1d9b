import PeerCache.Text.Blank
import PeerCache.Text.Percent
import PeerCache.Url.Punycode

/-!
# Hosts

The host of an address. For the usual schemes it is a domain, an IPv4 address in any of its
number notations, or an IPv6 address in brackets, and it is brought to one form: domains in
lower case, addresses in their shortest notation. For other schemes it is kept as it is.
Domains are ASCII, written out or escaped. A label in the form that stands for other characters
has to stand for some; which characters a label may have is not looked up.
-/

namespace PeerCache

inductive UrlError where
  | relative
  | emptyHost
  | badPort
  | badDomain
  | badDomainCharacter
  | badIpv4
  | badIpv6
  deriving DecidableEq, Repr

def UrlError.message : UrlError → String
  | relative => "relative URL without a base"
  | emptyHost => "empty host"
  | badPort => "invalid port number"
  | badDomain => "invalid international domain name"
  | badDomainCharacter => "invalid domain character"
  | badIpv4 => "invalid IPv4 address"
  | badIpv6 => "invalid IPv6 address"

namespace Host

def isControl (c : Char) : Bool :=
  c.toNat < 32 || c.toNat == 127

def decimal (n : Nat) : List Char :=
  Nat.toDigits 10 n

/-! ## IPv4 -/

/-- Base and digits of a number: `0x` starts a hexadecimal one and `0` an octal one. -/
def splitBase : List Char → Nat × List Char
  | '0' :: 'x' :: rest => (16, rest)
  | '0' :: 'X' :: rest => (16, rest)
  | '0' :: c :: rest => (8, c :: rest)
  | digits => (10, digits)

def isDigitOf (base : Nat) (c : Char) : Bool :=
  (Hex.digitValue? c).any (· < base)

/-- One number of an IPv4 address; no digits behind a base are zero. -/
def ipv4Number? (text : List Char) : Option Nat :=
  let (base, digits) := splitBase text
  if text ≠ [] ∧ digits.all (isDigitOf base) = true then some (Hex.fromDigits base digits) else none

/-- The parts between the dots, without an empty last one. -/
def dottedParts (text : List Char) : List (List Char) :=
  let parts := text.splitOn '.'
  if parts.getLast? = some [] then parts.dropLast else parts

/-- Whether a domain has to be read as an IPv4 address. -/
def endsInNumber (text : List Char) : Bool :=
  match (dottedParts text).getLast? with
  | none => false
  | some last => (last ≠ [] && last.all Char.isDigit) || (ipv4Number? last).isSome

/-- The address of up to four numbers, the last of which fills what the others leave. -/
def ipv4? (text : List Char) : Option Nat := do
  let numbers ← (dottedParts text).mapM ipv4Number?
  let last ← numbers.getLast?
  let front := numbers.dropLast
  if front.length > 3 ∨ front.any (· > 255) ∨ last ≥ Nat.pow 256 (4 - front.length) then none
  else some (front.foldl (fun n part => 256 * n + part) 0 * Nat.pow 256 (4 - front.length) + last)

def ipv4Text (n : Nat) : List Char :=
  decimal (n / 16777216) ++ '.' :: decimal (n / 65536 % 256) ++ '.' :: decimal (n / 256 % 256) ++
    '.' :: decimal (n % 256)

/-! ## IPv6 -/

/-- A part of a dotted tail: a number below 256 without leading zeros. -/
def tailNumber? (text : List Char) : Option Nat :=
  if text = [] ∨ text.all Char.isDigit = false ∨ (text.length > 1 ∧ text.head? = some '0') ∨
      text.length > 3 ∨ Hex.fromDigits 10 text > 255 then none
  else some (Hex.fromDigits 10 text)

/-- The two pieces that a dotted tail stands for. -/
def tailPieces? (text : List Char) : Option (List Nat) :=
  match (text.splitOn '.').mapM tailNumber? with
  | some [a, b, c, d] => some [256 * a + b, 256 * c + d]
  | _ => none

/-- The pieces of an address, and how many stand before the end of the gap that `::` leaves;
the gap itself counts as one piece of zero. -/
structure Pieces where
  read : List Nat := []
  gap : Option Nat := none

/-- Read pieces from the front of a text. The first argument bounds their number. -/
def readPieces : Nat → Pieces → List Char → Option Pieces
  | _, pieces, [] => some pieces
  | 0, _, _ => none
  | limit + 1, pieces, c :: rest =>
    if pieces.read.length ≥ 8 then none
    else if c = ':' then
      if pieces.gap.isSome then none
      else
        readPieces limit
          { read := pieces.read ++ [0], gap := some (pieces.read.length + 1) } rest
    else
      let text := c :: rest
      let digits := (text.take 4).takeWhile Hex.isDigit
      let next := { pieces with read := pieces.read ++ [Hex.fromDigits 16 digits] }
      match text.drop digits.length with
      | [] => some next
      | [':'] => none
      | ':' :: more => readPieces limit next more
      | '.' :: _ =>
        if digits = [] ∨ pieces.read.length > 6 then none
        else (tailPieces? text).map fun tail => { pieces with read := pieces.read ++ tail }
      | _ => none

/-- The eight pieces of an address without its brackets. -/
def ipv6? (text : List Char) : Option (List Nat) := do
  let start : Pieces × List Char ←
    match text with
    | ':' :: ':' :: rest => some ({ read := [0], gap := some 1 }, rest)
    | ':' :: _ => none
    | [] => none
    | [_] => none
    | text => some ({}, text)
  let pieces ← readPieces 16 start.1 start.2
  match pieces.gap with
  | none => if pieces.read.length = 8 then some pieces.read else none
  | some gap =>
    if pieces.read.length > 8 then none
    else
      some (pieces.read.take gap ++ List.replicate (8 - pieces.read.length) 0 ++
        pieces.read.drop gap)

/-- The longest run of zero pieces, as its start and its length; the first of equal ones. -/
def longestZeros : Nat → List Nat → Nat × Nat
  | _, [] => (0, 0)
  | start, n :: rest =>
    let here := ((n :: rest).takeWhile (· == 0)).length
    let later := longestZeros (start + 1) rest
    if here > 0 ∧ here ≥ later.2 then (start, here) else later

def joinPieces (pieces : List Nat) : List Char :=
  [':'].intercalate (pieces.map Hex.ofNat)

/-- The pieces in hexadecimal, with `::` for the longest run of two zeros or more. -/
def ipv6Text (pieces : List Nat) : List Char :=
  let (start, length) := longestZeros 0 pieces
  if length < 2 then joinPieces pieces
  else joinPieces (pieces.take start) ++ [':', ':'] ++ joinPieces (pieces.drop (start + length))

/-! ## Hosts of either kind -/

/-- Characters that a domain may not hold. -/
def isForbiddenInDomain (c : Char) : Bool :=
  isControl c || " #/:<>?@[\\]^|%".toList.contains c

/-- Characters that the host of an unusual scheme may not hold. -/
def isForbiddenInOpaque (c : Char) : Bool :=
  c.toNat == 0 || " #/:<>?@[\\]^|".toList.contains c

/-- An address in brackets. -/
def bracketed (text : List Char) : Except UrlError (List Char) :=
  if text.getLast? = some ']' then
    match ipv6? text.tail.dropLast with
    | some pieces => .ok ('[' :: ipv6Text pieces ++ [']'])
    | none => .error .badIpv6
  else .error .badIpv6

/-- A label in the form that stands for other characters, which stands for none. -/
def isBrokenLabel (label : List Char) : Bool :=
  label.take 4 == "xn--".toList &&
    !(Punycode.decode (label.drop 4)).any fun codes => codes.any (· ≥ 128)

/-- The host of a usual scheme. -/
def ofText (text : List Char) : Except UrlError (List Char) :=
  if text.head? = some '[' then bracketed text
  else
    let bytes := Percent.decode text
    if bytes.all (· < 128) = false then .error .badDomain
    else
      let domain := Text.lower (bytes.map fun b => Char.ofNat b.toNat)
      if domain.any isForbiddenInDomain then .error .badDomain
      else if (domain.splitOn '.').any isBrokenLabel then .error .badDomain
      else if domain = [] then .error .emptyHost
      else if endsInNumber domain then
        match ipv4? domain with
        | some n => .ok (ipv4Text n)
        | none => .error .badIpv4
      else .ok domain

/-- The host of an unusual scheme, which may be empty. -/
def ofOpaque (text : List Char) : Except UrlError (List Char) :=
  if text.head? = some '[' then bracketed text
  else if text.any isForbiddenInOpaque then .error .badDomainCharacter
  else .ok (Percent.encodeText (fun c => !isControl c) text)

end Host

end PeerCache

import PeerCache.Text.Blank

/-!
# Punycode

The ASCII form of a label that has other characters. Its plain characters stand in front, and
behind the last hyphen follow numbers that say which characters go in between, and where. The
digits of a number are weighted by a bias that follows the numbers before it.
-/

namespace PeerCache.Punycode

/-- Numbers are kept in 32 bits. -/
def limit : Nat := 4294967296

def digit? (c : Char) : Option Nat :=
  if 'a' ≤ c ∧ c ≤ 'z' then some (c.toNat - 'a'.toNat)
  else if c.isDigit then some (26 + (c.toNat - '0'.toNat))
  else none

/-- A digit below the threshold of its place is the last one of its number. -/
def threshold (place bias : Nat) : Nat :=
  min 26 (max 1 (place - bias))

/-- Divide a number until it is small, and count 36 for each division. The first argument bounds
their number; six are enough for a number below the limit. -/
def shrink : Nat → Nat → Nat × Nat
  | 0, delta => (0, delta)
  | rounds + 1, delta =>
    if delta ≤ 455 then (0, delta)
    else
      let (counted, small) := shrink rounds (delta / 35)
      (counted + 36, small)

/-- The bias after a number that was read, with the characters that there are then. -/
def adapt (delta characters : Nat) (first : Bool) : Nat :=
  let damped := if first then delta / 700 else delta / 2
  let (counted, small) := shrink 6 (damped + damped / characters)
  counted + 36 * small / (small + 38)

/-- What was read so far, in the middle of a number or behind one. -/
structure Progress where
  codes : List Nat
  /-- The code that was added last. -/
  code : Nat := 128
  bias : Nat := 72
  /-- The place behind the code that was added last. -/
  start : Nat := 0
  index : Nat := 0
  weight : Nat := 1
  place : Nat := 36

def isScalar (code : Nat) : Bool :=
  code < 0xD800 || (0xDFFF < code && code < 0x110000)

/-- Read a digit; the last one of a number adds a code. -/
def Progress.read? (p : Progress) (c : Char) : Option Progress := do
  let digit ← digit? c
  let index := p.index + digit * p.weight
  let least := threshold p.place p.bias
  if index ≥ limit then none
  else if digit < least then
    let characters := p.codes.length + 1
    let code := p.code + index / characters
    let position := index % characters
    if isScalar code then
      some { codes := p.codes.insertIdx position code, code, start := position + 1
             bias := adapt (index - p.start) characters (p.start == 0), index := position + 1 }
    else none
  else
    let weight := p.weight * (36 - least)
    if weight ≥ limit then none else some { p with index, weight, place := p.place + 36 }

/-- The plain characters in front of the last hyphen, and the digits behind it. A hyphen in front
of everything does not count. -/
def split (text : List Char) : List Char × List Char :=
  let digits := (text.reverse.takeWhile (· != '-')).reverse
  let plain := text.take (text.length - digits.length - 1)
  if plain = [] then ([], text) else (plain, digits)

/-- The codes of a label that is given without its prefix. -/
def decode (text : List Char) : Option (List Nat) := do
  let (plain, digits) := split text
  let p ← digits.foldlM Progress.read? { codes := plain.map Char.toNat }
  if p.place = 36 then some p.codes else none

end PeerCache.Punycode

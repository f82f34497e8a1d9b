/-!
# Readers

A reader takes a part off the front of a text, or fails and takes nothing. Readers follow one
another as steps of a `do` block, and `a <|> b` reads as `b` where `a` fails, from the same
place.
-/

namespace PeerCache

abbrev Reader := StateT (List Char) Option

namespace Reader

def char (p : Char → Bool) : Reader Char := fun text =>
  match text with
  | c :: rest => if p c then some (c, rest) else none
  | [] => none

def literal (expected : List Char) : Reader Unit := fun text =>
  (expected.isPrefixOf? text).map fun rest => ((), rest)

/-- The characters of a class, as far as they go. -/
def span (p : Char → Bool) : Reader (List Char) := fun text =>
  some (text.takeWhile p, text.dropWhile p)

def digit : Reader Nat := do
  let c ← char Char.isDigit
  return c.toNat - 48

def twoDigits : Reader Nat := do
  return 10 * (← digit) + (← digit)

def fourDigits : Reader Nat := do
  return 100 * (← twoDigits) + (← twoDigits)

/-- One of some names, as its number in the list. -/
def oneOf (names : List String) : Reader Nat := fun text =>
  names.zipIdx.findSome? fun (name, i) =>
    (name.toList.isPrefixOf? text).map fun rest => (i, rest)

/-- Read nothing, where a text begins with some characters. -/
def sees (expected : List Char) : Reader Unit := fun text =>
  if expected.isPrefixOf text then some ((), text) else none

/-- Read nothing, where a reader fails. -/
def absent {α : Type} (part : Reader α) : Reader Unit := fun text =>
  match part text with
  | some _ => none
  | none => some ((), text)

/-- A part that may be missing. -/
def maybe {α : Type} (part : Reader α) : Reader (Option α) := fun text =>
  match part text with
  | some (a, rest) => some (some a, rest)
  | none => some (none, text)

/-- Parts one after the other, as far as they go, at most `limit` of them. -/
def many {α : Type} (part : Reader α) : Nat → Reader (List α)
  | 0 => pure []
  | limit + 1 => fun text =>
    match part text with
    | none => some ([], text)
    | some (a, rest) => (many part limit rest).map fun (more, last) => (a :: more, last)

/-- Parts with a separator between each two, at most `limit` more than the first. -/
def separated {α : Type} (part : Reader α) (separator : Reader Unit) (limit : Nat) :
    Reader (List α) := do
  let first ← part
  return first :: (← many (do separator; part) limit)

def atEnd : Reader Unit := fun text =>
  if text.isEmpty then some ((), []) else none

end Reader

end PeerCache

import PeerCache.Http.Headers

/-!
# Cache directives

The `Cache-Control` field lists directives, each a name with an optional argument. Names
count in lower case and the first of several directives with one name is the one that
counts. A request without that field may ask for `no-cache` in `Pragma`.
-/

namespace PeerCache

/-- The largest number of seconds that a directive can mean. -/
def maxDeltaSeconds : Nat := 2147483648

/-- One more digit of a number that 64 bits can hold. -/
def addDigit? (n : Nat) (c : Char) : Option Nat :=
  let next := 10 * n + (c.toNat - 48)
  if next < 18446744073709551616 then some next else none

/-- A number of seconds: digits alone, between blanks. A number that 64 bits cannot hold counts
as the largest one that there is. -/
def deltaSeconds (text : List Char) : Option Nat :=
  let digits := Text.trim text
  if digits ≠ [] ∧ digits.all Char.isDigit = true then
    some (min maxDeltaSeconds ((digits.foldlM addDigit? 0).getD maxDeltaSeconds))
  else none

structure Directives where
  /-- Names with their arguments, in the order they were given. -/
  entries : List (String × String)
  deriving DecidableEq, Repr

namespace Directives

/-- Read one part of the field; an argument loses the quotes around it. -/
def ofPart? (part : List Char) : Option (String × String) :=
  match Text.trim part with
  | [] => none
  | part =>
    let (name, argument) := Text.cut (· == '=') part
    let argument := Text.trimBy (· == '"') (Text.trim (argument.getD []))
    some (String.ofList (Text.lower (Text.trim name)), String.ofList argument)

def ofParts (parts : List (List Char)) : Directives :=
  { entries := parts.filterMap ofPart? }

/-- The directives of a response. -/
def ofHeaders (h : Headers) : Directives :=
  ofParts (h.elements HeaderName.cacheControl)

/-- Whether `Pragma` asks for `no-cache`. -/
def pragmaNoCache (h : Headers) : Bool :=
  (h.elements HeaderName.pragma).any fun part =>
    Text.lower (Text.trim part) = "no-cache".toList

/-- The directives of a request, where `Pragma` counts if `Cache-Control` is absent. -/
def ofRequest (h : Headers) : Directives :=
  if h.contains HeaderName.cacheControl then ofHeaders h
  else if pragmaNoCache h then { entries := [("no-cache", "")] }
  else { entries := [] }

def value? (d : Directives) (name : String) : Option String :=
  d.entries.lookup name

def has (d : Directives) (name : String) : Bool :=
  (d.value? name).isSome

def seconds? (d : Directives) (name : String) : Option Nat :=
  (d.value? name).bind fun argument => deltaSeconds argument.toList

end Directives

end PeerCache

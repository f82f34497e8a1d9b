import PeerCache.Text.Hex

/-!
# Listen addresses

A listen address ends in a port behind its last colon; what comes before is a host.
-/

namespace PeerCache.CommandLine

inductive ListenError where
  | noPort
  | badPort
  /-- The host has no address. -/
  | unknownHost
  /-- The address belongs to another machine, or to none. -/
  | foreign
  deriving DecidableEq, Repr

def ListenError.message : ListenError → String
  | noPort => "invalid socket address"
  | badPort => "invalid port value"
  | unknownHost => "failed to lookup address information: Name or service not known"
  | foreign => "Cannot assign requested address (os error 99)"

/-- A number of 16 bits, which may have a plus sign. -/
def port? (text : List Char) : Option Nat :=
  let digits :=
    match text with
    | '+' :: rest => rest
    | _ => text
  if digits.isEmpty || !digits.all Char.isDigit then none
  else
    let n := Hex.fromDigits 10 digits
    if n < 65536 then some n else none

structure Endpoint where
  host : List Char
  port : Nat
  deriving DecidableEq, Repr

def Endpoint.ofText (address : String) : Except ListenError Endpoint :=
  match address.toList.reverse.splitOn ':' with
  | [] | [_] => .error .noPort
  | last :: rest =>
    match port? last.reverse with
    | none => .error .badPort
    | some port => .ok { host := ([':'].intercalate rest).reverse, port }

/-- Whether a host is written as the four numbers of an address. -/
def Endpoint.isNumeric (e : Endpoint) : Bool :=
  let parts := e.host.splitOn '.'
  parts.length == 4 && parts.all fun part =>
    part.length ≤ 3 && (part.head? != some '0' || part.length == 1) &&
      ((port? part).any fun n => n ≤ 255) && part.all Char.isDigit

end PeerCache.CommandLine

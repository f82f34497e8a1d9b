import PeerCache.Cache.Directives
import PeerCache.Http.Date

/-!
# Freshness

Whether a stored response may answer a request at a time. Times are milliseconds since the
start of 1970 and directives count in seconds. The response is fresh while its lifetime
exceeds its age, and both are moved by what the request tolerates; a response that must be
revalidated lets no request stretch its lifetime.
-/

namespace PeerCache

inductive Freshness where
  /-- May be served. -/
  | fresh
  /-- Has to be checked with the origin first. -/
  | stale
  /-- The request bypasses the cache. -/
  | transparent
  deriving DecidableEq, Repr

/-- The date in a header field, in seconds. -/
def Headers.date? (h : Headers) (name : HeaderName) : Option Nat :=
  ((h.get? name).bind HeaderValue.text?).bind HeaderDate.parse?

/-- The seconds that other caches held the response, by its `Age` field. -/
def Headers.receivedAge (h : Headers) : Nat :=
  (((h.get? HeaderName.age).bind HeaderValue.text?).bind deltaSeconds).getD 0

/-- Milliseconds since a date, and none before it. -/
def elapsed (date now : Nat) : Nat :=
  now - date * 1000

/-- The age of a response with a date, in milliseconds. -/
def currentAge (response : Headers) (date now : Nat) : Nat :=
  elapsed date now + response.receivedAge * 1000

/-- The lifetime that the response gives itself, in milliseconds. -/
def ownLifetime (response : Headers) (date : Nat) : Nat :=
  match (Directives.ofHeaders response).seconds? "max-age" with
  | some seconds => seconds * 1000
  | none =>
    match response.date? HeaderName.expires with
    | some expires => (expires - date) * 1000
    | none => 0

/-- How far past its lifetime a request takes a response. -/
inductive Tolerance where
  | none
  | seconds (n : Nat)
  | unbounded
  deriving DecidableEq, Repr

/-- The tolerance of a request; a response that must be revalidated leaves none. -/
def tolerance (response request : Directives) : Tolerance :=
  if response.has "must-revalidate" then .none
  else
    match request.value? "max-stale" with
    | some "" => .unbounded
    | some argument =>
      match deltaSeconds argument.toList with
      | some n => .seconds n
      | none => .none
    | none => .none

/-- Compare lifetime and age, both in milliseconds. -/
def Tolerance.judge (t : Tolerance) (lifetime age : Nat) : Freshness :=
  match t with
  | .unbounded => .fresh
  | .seconds n => if lifetime > age - n * 1000 then .fresh else .stale
  | .none => if lifetime > age then .fresh else .stale

def freshness (response request : Headers) (now : Nat) : Freshness :=
  let own := Directives.ofHeaders response
  let asked := Directives.ofRequest request
  if asked.has "no-cache" then .transparent
  else if own.has "no-cache" then .stale
  else if asked.has "only-if-cached" then .fresh
  else
    match response.date? HeaderName.date with
    | none => .stale
    | some date =>
      let lifetime :=
        match asked.seconds? "max-age" with
        | some seconds => seconds * 1000
        | none => ownLifetime response date
      let age := currentAge response date now + (asked.seconds? "min-fresh").getD 0 * 1000
      (tolerance own asked).judge lifetime age

/-- For how long after its date a response may stand in for a failing origin. -/
inductive ErrorGrace where
  | seconds (n : Nat)
  | unbounded
  deriving DecidableEq, Repr

def Directives.errorGrace? (d : Directives) : Option ErrorGrace :=
  match d.value? "stale-if-error" with
  | none => none
  | some "" => some .unbounded
  | some argument => (deltaSeconds argument.toList).map .seconds

/-- Whether a stored response may be served because the origin fails. What the request says
goes before what the response says. -/
def canServeOnError (response request : Headers) (now : Nat) : Bool :=
  let asked := (Directives.ofRequest request).errorGrace?
  match asked.or (Directives.ofHeaders response).errorGrace? with
  | none => false
  | some .unbounded => true
  | some (.seconds n) =>
    match response.date? HeaderName.date with
    | some date => n * 1000 > elapsed date now
    | none => false

end PeerCache

import PeerCache.Http.HopByHop
import PeerCache.Uri

/-!
# Messages

Requests, responses, and the ways in which sending a request fails. An origin is anything
that answers a request; it is asked at most once for each request that enters the cache.
-/

namespace PeerCache

inductive Version where
  | http10
  | http11
  | http20
  deriving DecidableEq, Repr

namespace Version

def text : Version → String
  | http10 => "HTTP/1.0"
  | http11 => "HTTP/1.1"
  | http20 => "HTTP/2.0"

def ofText? (text : String) : Option Version :=
  [http10, http11, http20].find? fun v => v.text = text

end Version

structure Status where
  code : Nat
  valid : 100 ≤ code ∧ code ≤ 999 := by decide
  deriving DecidableEq

namespace Status

def ofNat? (code : Nat) : Option Status :=
  if h : 100 ≤ code ∧ code ≤ 999 then some ⟨code, h⟩ else none

def ok : Status := { code := 200 }
def notModified : Status := { code := 304 }
def notFound : Status := { code := 404 }
def badGateway : Status := { code := 502 }
def gatewayTimeout : Status := { code := 504 }

def isSuccess (s : Status) : Bool :=
  200 ≤ s.code && s.code < 300

def isServerError (s : Status) : Bool :=
  500 ≤ s.code && s.code < 600

end Status

structure Request where
  method : Method
  uri : Uri
  version : Version
  headers : Headers
  body : Bytes
  deriving DecidableEq

structure Response where
  status : Status
  headers : Headers
  body : Bytes
  deriving DecidableEq

/-- A response without header fields and body. -/
def Response.bare (status : Status) : Response :=
  { status, headers := .empty, body := [] }

/-- Why a request could not be sent, or got no answer. -/
inductive TransportError where
  | noPeers
  | invalidPeer (peer reason : String)
  | invalidRequest (reason : String)
  | body (reason : String)
  deriving DecidableEq, Repr

namespace TransportError

/-- The word for the kind of an error. -/
def kind : TransportError → String
  | noPeers => "NoPeers"
  | invalidPeer _ _ => "InvalidPeer"
  | invalidRequest _ => "InvalidRequest"
  | body _ => "Body"

def message : TransportError → String
  | noPeers => "no peers in pool"
  | invalidPeer peer reason => "invalid peer url " ++ peer ++ ": " ++ reason
  | invalidRequest reason => "invalid request: " ++ reason
  | body reason => "body error: " ++ reason

end TransportError

/-- What sending a request comes to. -/
abbrev Answer := Except TransportError Response

/-- Anything that answers requests. -/
abbrev Origin := Request → Answer

end PeerCache

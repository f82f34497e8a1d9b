import PeerCache.Buffer
import PeerCache.Cache.Exchange
import PeerCache.Text.Form
import PeerCache.Url.Basic

/-!
# Boundary

The side of a member that other members talk to. It serves one path and takes the address
of a resource from the parameter `q`; what comes in is turned into a request for that address
and sent through the cache. A server puts the answers on the wire: every refusal and failure
becomes an empty `502`.
-/

namespace PeerCache

inductive BoundaryError where
  | wrongPath (path : String)
  | missingTarget
  | malformedEscape
  | invalidTarget (target reason : String)
  | body (cause : TransportError)
  | origin (cause : TransportError)
  deriving DecidableEq, Repr

namespace BoundaryError

/-- The word for the kind of an error. -/
def kind : BoundaryError → String
  | wrongPath _ => "WrongPath"
  | missingTarget => "MissingTarget"
  | malformedEscape => "MalformedEscape"
  | invalidTarget _ _ => "InvalidTarget"
  | body _ => "Body"
  | origin _ => "Upstream"

def message : BoundaryError → String
  | wrongPath path => "wrong path: " ++ path
  | missingTarget => "missing target url"
  | malformedEscape => "malformed percent-encoding in query"
  | invalidTarget target reason => "invalid target url " ++ target ++ ": " ++ reason
  | body cause => "reading request body: " ++ cause.message
  | origin cause => "upstream error: " ++ cause.message

end BoundaryError

namespace Boundary

/-- The raw value of the first parameter of a query whose decoded name is `q`. -/
def rawTarget? (query : List Char) : Option (List Char) :=
  let named := (query.splitOn '&').find? fun part =>
    part ≠ [] ∧ Form.decode (Form.splitPair part).1 = ['q']
  named.map fun part => (Form.splitPair part).2

/-- Check the address that a boundary request names. -/
def checkTarget (target : List Char) : Except BoundaryError Url :=
  match Url.parse target with
  | .error e => .error (.invalidTarget (String.ofList target) e.message)
  | .ok address =>
    if address.scheme ≠ "http" ∧ address.scheme ≠ "https" then
      .error (.invalidTarget (String.ofList target) ("unsupported scheme " ++ address.scheme))
    else
      match address with
      | .hosted url => .ok url
      | .hostless _ => .error (.invalidTarget (String.ofList target) "missing host")

/-- The address that a query names. -/
def parseTarget (query : Option (List Char)) : Except BoundaryError Url :=
  match rawTarget? (query.getD []) with
  | none => .error .missingTarget
  | some raw =>
    if Percent.wellFormed raw = false then .error .malformedEscape
    else
      match Form.decode raw with
      | [] => .error .missingTarget
      | target => checkTarget target

/-- The request for the origin: for the address itself, and free of what concerned only the
connection it came by. -/
def originRequest (req : Request) (target : Url) : Except BoundaryError Request :=
  match Uri.ofText target.text with
  | .error e => .error (.invalidTarget target.text e.message)
  | .ok uri =>
    match HeaderValue.ofChars? target.hostAndPort.toList with
    | none => .error (.invalidTarget target.text "failed to parse header value")
    | some host =>
      .ok { req with
        uri, version := .http11, headers := req.headers.stripHopByHop.insert HeaderName.host host }

/-- The request for the origin that an inbound request asks for, or why it is refused. -/
def accept (path : String) (req : Request) : Except BoundaryError Request :=
  if req.uri.path ≠ path then .error (.wrongPath req.uri.path)
  else
    match parseTarget (req.uri.query.map String.toList) with
    | .error e => .error e
    | .ok target => originRequest req target

/-- What of the origin's answer goes back. The body is whole, so its length is stated anew,
except in the answer to a `HEAD`. -/
def relay (method : Method) (resp : Response) : Response :=
  let headers := resp.headers.stripHopByHop
  { resp with
    headers := if method = .head then headers else headers.remove HeaderName.contentLength }

/-- An answer of the boundary, the requests that the origin saw, and the store afterwards. -/
structure Outcome (σ : Type) where
  answer : Except BoundaryError Response
  asked : List Request := []
  store : σ

/-- What it comes to when an inbound request is handled. -/
inductive Handling (σ : Type) where
  | done (outcome : Outcome σ)
  /-- The attempt to get an answer broke off. -/
  | brokenOff (asked : List Request) (store : σ)

namespace Handling

variable {σ : Type}

def answer? : Handling σ → Option (Except BoundaryError Response)
  | .done outcome => some outcome.answer
  | .brokenOff _ _ => none

/-- Requests that the origin saw. -/
def asked : Handling σ → List Request
  | .done outcome => outcome.asked
  | .brokenOff asked _ => asked

def store : Handling σ → σ
  | .done outcome => outcome.store
  | .brokenOff _ store => store

end Handling

/-- What goes back for an exchange with the cache. -/
def conclude {σ : Type} (method : Method) (x : Exchange σ) : Outcome σ :=
  { asked := x.asked, store := x.store
    answer :=
      match x.answer with
      | .ok resp => .ok (relay method resp)
      | .error e => .error (.origin e) }

/-- Handle an inbound request whose body has been read. -/
def attempt {σ : Type} [ByteStore σ] (path : String) (origin : Origin) (now : Nat) (store : σ)
    (req : Request) : Handling σ :=
  match accept path req with
  | .error e => .done { answer := .error e, store }
  | .ok sent =>
    match PeerCache.attempt origin now store sent with
    | .done x => .done (conclude req.method x)
    | .brokenOff asked store => .brokenOff asked store

/-- A number as a header value. -/
def lengthValue (n : Nat) : Option HeaderValue :=
  HeaderValue.ofChars? (Nat.repr n).toList

/-- State the length of the body, unless it is stated. -/
def withLength (resp : Response) : Response :=
  if resp.headers.contains HeaderName.contentLength then resp
  else
    match lengthValue resp.body.length with
    | some v => { resp with headers := resp.headers.insert HeaderName.contentLength v }
    | none => resp

/-- A response as a server sends it: a `HEAD` gets no body, and a tunnel that was opened gets
neither a body nor its length. -/
def sendable (method : Method) (resp : Response) : Response :=
  if method = .connect ∧ resp.status.isSuccess = true then { resp with body := [] }
  else if method = .head then { withLength resp with body := [] }
  else withLength resp

/-- What a server sends for an answer of the boundary. -/
def onWire (method : Method) : Except BoundaryError Response → Response
  | .ok resp => sendable method resp
  | .error _ => sendable method (Response.bare .badGateway)

/-- Serve a request whose body arrives in frames: the response on the wire, unless handling breaks
off, what handling came to and the buffers afterwards. -/
def serve {σ : Type} [ByteStore σ] (path : String) (origin : Origin) (now : Nat) (store : σ)
    (buffers : Option BufferPool) (req : Request) (frames : List Frame) :
    Option Response × Handling σ × Option BufferPool :=
  let (body, buffers) := Frame.collectBody frames buffers
  let handling : Handling σ :=
    match body with
    | .ok body => attempt path origin now store { req with body }
    | .error e => .done { answer := .error (.body e), store }
  (handling.answer?.map (onWire req.method), handling, buffers)

end Boundary

end PeerCache

import PeerCache.Cache.Entry
import PeerCache.Cache.Wire

/-!
# Entries as bytes

An entry is stored through its wire form. Reading first makes room for the header lines, one
place for each line, and then checks the parts of the wire form in the order of the header
lines, the varied values and the status, so the first fault decides which error is answered.
-/

namespace PeerCache

inductive EntryError where
  | codec (cause : WireError)
  | status
  | headerName
  | headerValue
  /-- More header lines than a header map has room for names. -/
  | noRoom
  deriving DecidableEq, Repr

namespace EntryError

/-- The word for the kind of an error. -/
def kind : EntryError → String
  | codec _ => "Codec"
  | status => "Status"
  | headerName => "Header"
  | headerValue => "Header"
  | noRoom => "Panic"

def message : EntryError → String
  | codec cause => "codec: " ++ cause.message
  | status => "invalid status: invalid status code"
  | headerName => "invalid header: invalid HTTP header name"
  | headerValue => "invalid header: failed to parse header value"
  | noRoom => "size overflows MAX_SIZE: MaxSizeReached"

end EntryError

namespace Entry

def toWire (e : Entry) : WireEntry :=
  { status := e.status.code
    headers := e.headers.lines.map fun (name, v) => (name.text, v.bytes)
    varied := e.varied.map fun (name, v) => (name, v.map HeaderValue.bytes)
    body := e.body }

def readValue (bytes : Bytes) : Except EntryError HeaderValue :=
  match HeaderValue.ofBytes? bytes with
  | some v => .ok v
  | none => .error .headerValue

def readLine (line : String × Bytes) : Except EntryError (HeaderName × HeaderValue) :=
  match HeaderName.ofText? line.1 with
  | none => .error .headerName
  | some name => (readValue line.2).map fun v => (name, v)

def readVaried (pair : String × Option Bytes) : Except EntryError (String × Option HeaderValue) :=
  match pair.2 with
  | none => .ok (pair.1, none)
  | some bytes => (readValue bytes).map fun v => (pair.1, some v)

def readParts (w : WireEntry) : Except EntryError Entry := do
  let lines ← w.headers.mapM readLine
  let varied ← w.varied.mapM readVaried
  match Status.ofNat? w.status with
  | some status => return { status, headers := Headers.ofLines lines, varied, body := w.body }
  | none => throw .status

/-- The most header lines that room can be made for. -/
def mostLines : Nat := 24576

def ofWire (w : WireEntry) : Except EntryError Entry :=
  if w.headers.length ≤ mostLines then readParts w else .error .noRoom

def encode (e : Entry) : Bytes :=
  e.toWire.encode

def decode (bytes : Bytes) : Except EntryError Entry :=
  match WireEntry.decode bytes with
  | .ok w => ofWire w
  | .error cause => .error (.codec cause)

end Entry

end PeerCache

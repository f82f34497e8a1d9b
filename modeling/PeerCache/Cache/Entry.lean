import PeerCache.Cache.Freshness
import PeerCache.Http.Message

/-!
# Cache entries

A stored response with the values that its request had for the header names listed in
`Vary`. The entry answers another request only if that one has the same values. An answer
that says nothing has changed replaces the end-to-end fields that it carries, if the entry has
room for them.
-/

namespace PeerCache

structure Entry where
  status : Status
  headers : Headers
  /-- Header names by which the response varies, each with the request's first value. -/
  varied : List (String × Option HeaderValue)
  body : Bytes
  deriving DecidableEq

namespace Entry

/-- The names listed in `Vary`, in lower case. -/
def varyNames (h : Headers) : List String :=
  ((h.elements HeaderName.vary).map fun part => String.ofList (Text.lower (Text.trim part))).filter
    fun name => name ≠ ""

/-- The first value that a request has for a name, which need not be a header name. -/
def variant (request : Headers) (name : String) : Option HeaderValue :=
  (HeaderName.ofText? name).bind request.get?

/-- Give a response without a date the time of its arrival, in milliseconds. -/
def stamp (h : Headers) (now : Nat) : Headers :=
  if h.contains HeaderName.date then h
  else
    match HeaderValue.ofChars? (HeaderDate.format (now / 1000)) with
    | some v => h.insert HeaderName.date v
    | none => h

def capture (req : Request) (resp : Response) (now : Nat) : Entry :=
  let headers := stamp (resp.headers.remove HeaderName.fromCache) now
  { status := resp.status, headers, body := resp.body
    varied := (varyNames headers).map fun name => (name, variant req.headers name) }

/-- Whether the entry may answer a request; a star among the names matches no request. -/
def answers (e : Entry) (req : Request) : Bool :=
  e.varied.all fun (name, v) => name ≠ "*" && variant req.headers name = v

/-- The fields of a `304` answer that go into the entry. -/
def endToEnd (h : Headers) : Headers :=
  (h.stripHopByHop.remove HeaderName.contentLength).remove HeaderName.fromCache

/-- Take over the fields of an answer that says nothing has changed, if there is room for them. -/
def refresh? (e : Entry) (notModified : Headers) : Option Entry :=
  let fresh := endToEnd notModified
  ((e.headers.removeAll fresh.names).appendAll? fresh.lines).map fun headers => { e with headers }

/-- The response that the entry stands for, marked as coming from the cache. -/
def toResponse (e : Entry) : Response :=
  { status := e.status, body := e.body
    headers := e.headers.insert HeaderName.fromCache HeaderValue.one }

end Entry

end PeerCache

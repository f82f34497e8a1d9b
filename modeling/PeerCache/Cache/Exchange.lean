import PeerCache.Cache.Codec
import PeerCache.Store.Basic

/-!
# Exchanges through the cache

How a request is answered from a store and an origin. A `GET` or `HEAD` request without
`Range` is looked up first; what was found decides whether the origin is asked and with which
validators, and what the origin answers decides what is served and what is stored. All other
requests pass through, and those that may change the resource drop what is stored for it.

The decisions are pure functions of the stored entry, the request, the time and the answer.
The store is read once before them and written at most once after them, and its failures
count as misses. Only where there is no room the attempt breaks off, and nothing is answered:
before anything is asked, if the stored value has too many header lines to be read, or with the
origin's confirmation in hand, if its fields do not go into the entry.
-/

namespace PeerCache

def keyOf (method : Method) (uri : Uri) : String :=
  if method = Method.get then uri.text else method.text ++ " " ++ uri.text

/-- The key that a request is stored under. -/
def cacheKey (req : Request) : String :=
  keyOf req.method req.uri

namespace Request

def isCacheable (req : Request) : Bool :=
  (req.method == Method.get || req.method == Method.head) && !req.headers.contains HeaderName.range

/-- Whether the request asks for a stored response or none. -/
def onlyIfCached (req : Request) : Bool :=
  (Directives.ofRequest req.headers).has "only-if-cached"

end Request

/-- Statuses that may be stored. -/
def cacheableStatuses : List Nat :=
  [200, 203, 204, 300, 301, 404, 405, 410, 414, 501]

/-- Whether a response to a request may be stored: nothing forbids it, and it either says how
long it is fresh or can be checked later. -/
def canStore (req : Request) (resp : Response) : Bool :=
  let own := Directives.ofHeaders resp.headers
  !(Directives.ofRequest req.headers).has "no-store" && !own.has "no-store" &&
    cacheableStatuses.contains resp.status.code &&
    (own.has "max-age" || resp.headers.contains HeaderName.expires ||
      resp.headers.contains HeaderName.etag || resp.headers.contains HeaderName.lastModified)

/-- A validator to send: the entry's value of a field, unless the client sends its own. -/
def validator? (req : Request) (entry : Entry) (stored sent : HeaderName) : Option HeaderValue :=
  if req.headers.contains sent then none else entry.headers.get? stored

def addValidator (h : Headers) (name : HeaderName) : Option HeaderValue → Headers
  | some v => h.insert name v
  | none => h

/-- The request with the entry's validators, if there is any to add. -/
def conditional? (req : Request) (entry : Entry) : Option Request :=
  let tag := validator? req entry HeaderName.etag HeaderName.ifNoneMatch
  let modified := validator? req entry HeaderName.lastModified HeaderName.ifModifiedSince
  if tag.isNone && modified.isNone then none
  else
    some { req with
      headers := addValidator (addValidator req.headers HeaderName.ifNoneMatch tag)
        HeaderName.ifModifiedSince modified }

/-- What a lookup leads to. -/
inductive Plan where
  /-- Answer without asking the origin. -/
  | reply (resp : Response)
  /-- Ask the origin; nothing stored applies. -/
  | fetch
  /-- Ask the origin with a request that may carry the entry's validators. -/
  | check (entry : Entry) (sent : Request) (validates : Bool)

def plan (found : Option Entry) (req : Request) (now : Nat) : Plan :=
  match found with
  | none => if req.onlyIfCached then .reply (Response.bare .gatewayTimeout) else .fetch
  | some entry =>
    match freshness entry.headers req.headers now with
    | .fresh => .reply entry.toResponse
    | .transparent => .check entry req false
    | .stale =>
      match conditional? req entry with
      | some sent => .check entry sent true
      | none => .check entry req false

/-- What is done to the store under the request's key. -/
inductive Effect where
  | keep
  | save (entry : Entry)
  | evict
  deriving DecidableEq

/-- An answer for the client and its effect on the store. -/
structure Settlement where
  answer : Answer
  effect : Effect

/-- Serve a response that came from the origin, or was confirmed by it. -/
def deliver (req : Request) (now : Nat) (resp : Response) : Settlement :=
  { answer := .ok resp
    effect := if canStore req resp then .save (Entry.capture req resp now) else .evict }

/-- Settle the origin's answer to a request that had a stored entry, unless it confirms the entry
and there is no room for what it says. -/
def settle (req : Request) (now : Nat) (entry : Entry) (validates : Bool) :
    Answer → Option Settlement
  | .ok resp =>
    if resp.status = .notModified && validates then
      (entry.refresh? resp.headers).map fun merged => deliver req now merged.toResponse
    else if resp.status.isServerError && canServeOnError entry.headers req.headers now then
      some { answer := .ok entry.toResponse, effect := .keep }
    else some (deliver req now resp)
  | .error e =>
    if canServeOnError entry.headers req.headers now then
      some { answer := .ok entry.toResponse, effect := .keep }
    else some { answer := .error e, effect := .evict }

/-- The result of sending a request through the cache. -/
structure Exchange (σ : Type) where
  answer : Answer
  /-- Requests that the origin saw. -/
  asked : List Request
  store : σ

/-- What it comes to when a request is sent through the cache. -/
inductive Attempt (σ : Type) where
  | done (outcome : Exchange σ)
  /-- There was no room. Nothing is answered, and the store is left as reading leaves it. -/
  | brokenOff (asked : List Request) (store : σ)

namespace Attempt

variable {σ : Type}

def answer? : Attempt σ → Option Answer
  | .done outcome => some outcome.answer
  | .brokenOff _ _ => none

/-- Requests that the origin saw. -/
def asked : Attempt σ → List Request
  | .done outcome => outcome.asked
  | .brokenOff asked _ => asked

def store : Attempt σ → σ
  | .done outcome => outcome.store
  | .brokenOff _ store => store

end Attempt

variable {σ : Type} [ByteStore σ]

def Effect.apply (effect : Effect) (store : σ) (key : String) : σ :=
  match effect with
  | .keep => store
  | .save entry => (ByteStore.set store key entry.encode).after
  | .evict => (ByteStore.delete store key).after

/-- The entry stored under a key; a store that fails and bytes that are no entry are misses. -/
def load (store : σ) (key : String) : Option Entry × σ :=
  let r := ByteStore.get store key
  let entry :=
    match r.answer with
    | .ok (some bytes) => (Entry.decode bytes).toOption
    | _ => none
  (entry, r.after)

/-- Send a request that cannot be cached; one that may have changed the resource drops what
is stored for it. -/
def passThrough (origin : Origin) (store : σ) (req : Request) : Exchange σ :=
  let answer := origin req
  let changed :=
    match answer with
    | .ok resp => !req.method.isSafe && !resp.status.isServerError
    | .error _ => false
  { answer, asked := [req]
    store :=
      if changed then
        Effect.evict.apply (Effect.evict.apply store (keyOf .get req.uri)) (keyOf .head req.uri)
      else store }

/-- Whether a key cannot be read, because there is no room for what is stored. -/
def breaksOff (store : σ) (key : String) : Bool :=
  match (ByteStore.get store key).answer with
  | .ok (some bytes) =>
    match Entry.decode bytes with
    | .error .noRoom => true
    | _ => false
  | _ => false

def lookUp (origin : Origin) (now : Nat) (store : σ) (req : Request) : Attempt σ :=
  let key := cacheKey req
  let (entry, after) := load store key
  let finish (sent : Request) (s : Settlement) : Attempt σ :=
    .done { answer := s.answer, asked := [sent], store := s.effect.apply after key }
  if breaksOff store key then .brokenOff [] after
  else
    match plan (entry.filter fun e => e.answers req) req now with
    | .reply resp => .done { answer := .ok resp, asked := [], store := after }
    | .fetch =>
      match origin req with
      | .ok resp => finish req (deliver req now resp)
      | .error e => finish req { answer := .error e, effect := .keep }
    | .check entry sent validates =>
      match settle req now entry validates (origin sent) with
      | some s => finish sent s
      | none => .brokenOff [sent] after

/-- Send a request through the cache at a time. -/
def attempt (origin : Origin) (now : Nat) (store : σ) (req : Request) : Attempt σ :=
  if req.isCacheable then lookUp origin now store req else .done (passThrough origin store req)

end PeerCache

import PeerCache.Http.Message
import PeerCache.Ring
import PeerCache.Text.Form
import PeerCache.Url.Basic

/-!
# Router

Which peer a request goes to, and in what form. The key of a request is its whole target, so
the resources of one host are spread over the pool. A request that another peer owns becomes
a request for that peer's boundary with the target as the parameter `q`; one that the router
itself owns is served where it is. There is no second try: what the chosen side answers is
the answer.
-/

namespace PeerCache

/-- What all members of a pool have to agree on. -/
structure RouterConfig where
  /-- Path of the boundary on every peer. -/
  path : String := "/proxy"
  replicas : Nat := Ring.defaultReplicas
  hash : Bytes → UInt32 := Crc32.checksum

/-- The settings as diagnostics show them. -/
def RouterConfig.describe (config : RouterConfig) : String :=
  "RouterConfig \x7b path: " ++ Text.quoted config.path ++ ", replicas: " ++
    Nat.repr config.replicas ++ ", .. \x7d"

structure Router where
  config : RouterConfig
  ring : Ring
  /-- The member that the router belongs to, if it belongs to one. -/
  identity : Option String := none

/-- Where a request goes. -/
inductive Route where
  /-- To the router's own member, as it is. -/
  | here
  /-- To another peer, in this form. -/
  | forward (peer : String) (sent : Request)

/-- What a request that a router sent came to. -/
structure RouterStep where
  answer : Answer
  /-- Requests that the router's own member saw. -/
  served : List Request := []
  /-- Requests that went out to other peers. -/
  sent : List Request := []

namespace Router

def new (config : RouterConfig) : Router :=
  { config, ring := Ring.empty config.replicas config.hash }

/-- Replace the pool. -/
def setPool (router : Router) (peers : List String) : Router :=
  { router with ring := Ring.ofPeers router.config.replicas router.config.hash peers }

def peers (router : Router) : List String :=
  router.ring.peers

/-- The key of a resource: its target as it is printed, or the text itself when it is no
target. -/
def ringKey (url : String) : String :=
  match Uri.ofText url with
  | .ok uri => uri.text
  | .error _ => url

/-- The peer that owns a resource, or nothing when the pool is empty. -/
def owner? (router : Router) (url : String) : Option String :=
  router.ring.owner? (ringKey url)

/-- The value of the parameter that names a resource. -/
def queryFor (resource : String) : String :=
  "q=" ++ String.ofList (Form.encode resource.toList)

/-- The address of a resource at the boundary of a peer. -/
def boundaryUrl (config : RouterConfig) (peer resource : String) : Except TransportError Url :=
  match Url.ofText peer with
  | .error e => .error (.invalidPeer peer e.message)
  | .ok (.hostless _) => .error (.invalidPeer peer "not a base url")
  | .ok (.hosted url) =>
    .ok { url.withPath config.path with query := some (queryFor resource) }

/-- A request for the boundary of a peer. -/
def forwardTo (config : RouterConfig) (peer : String) (req : Request) :
    Except TransportError Request :=
  match boundaryUrl config peer req.uri.text with
  | .error e => .error e
  | .ok url =>
    match Uri.ofText url.text with
    | .error e => .error (.invalidRequest e.message)
    | .ok uri =>
      match HeaderValue.ofChars? url.hostAndPort.toList with
      | none => .error (.invalidRequest "failed to parse header value")
      | some host => .ok { req with uri, headers := req.headers.insert HeaderName.host host }

def route (router : Router) (req : Request) : Except TransportError Route :=
  match router.owner? req.uri.text with
  | none => .error .noPeers
  | some owner =>
    if router.identity = some owner then .ok .here
    else (forwardTo router.config owner req).map (.forward owner)

/-- Send a request; `own` answers for the router's own member, and `network` for other peers. -/
def roundTrip (router : Router) (own network : Origin) (req : Request) : RouterStep :=
  match router.route req with
  | .error e => { answer := .error e }
  | .ok .here => { answer := own req, served := [req] }
  | .ok (.forward _ sent) => { answer := network sent, sent := [sent] }

end Router

end PeerCache

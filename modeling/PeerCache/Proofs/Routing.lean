import PeerCache.Proofs.ExchangeCourses
import PeerCache.Proofs.Forwarding

/-!
# Routing

Where a request goes is decided by the owner of its target, and the owner does not depend on
how the target was written: a text and what it prints as have one key. A router calls at most
one side, and changes nothing about a request but its target and its host.
-/

namespace PeerCache

section Requests

variable {router : Router} {config : RouterConfig} {url owner peer resource : String} {uri : Uri}
  {req sent : Request}

namespace Router

/-! ## Owners -/

/-- A text has the key of the target that it is read as. If that cannot be read again, it is
its own key. -/
theorem ringKey_text (h : Uri.ofText url = .ok uri) : ringKey uri.text = ringKey url := by
  have hkey : ringKey url = uri.text := by
    rw [ringKey, h]
  rw [hkey, ringKey]
  split
  · next again hagain => exact Uri.text_parse_text h hagain
  · rfl

/-- So a request is routed to the owner of the text that its target was read from. -/
theorem owner?_text (router : Router) (h : Uri.ofText url = .ok uri) :
    router.owner? uri.text = router.owner? url := by
  rw [owner?, owner?, ringKey_text h]

/-! ## What goes out -/

/-- A request as it goes to the peer that owns its resource. -/
structure IsForwarded (config : RouterConfig) (owner : String) (req sent : Request) : Prop where
  /-- It asks for the address that its printed target has at the boundary of the owner. -/
  target : ∃ url, boundaryUrl config owner req.uri.text = .ok url ∧
    Uri.ofText url.text = .ok sent.uri
  /-- It names the host of the owner once, with its port unless the scheme implies it. -/
  host : ∃ base value, Url.ofText owner = .ok (.hosted base) ∧
    (∀ port, base.port = some port → Url.defaultPort? base.scheme.toList ≠ some port) ∧
    HeaderValue.ofChars? base.hostAndPort.toList = some value ∧
    sent.headers.values .host = [value]
  others : ∀ name, name ≠ .host → sent.headers.values name = req.headers.values name
  method : sent.method = req.method
  version : sent.version = req.version
  body : sent.body = req.body

theorem boundaryUrl_error {e : TransportError} (h : boundaryUrl config peer resource = .error e) :
    ∃ reason, e = .invalidPeer peer reason := by
  rw [boundaryUrl] at h
  split at h
  · next e' he => exact ⟨e'.message, (Except.error.inj h).symm⟩
  · exact ⟨_, (Except.error.inj h).symm⟩
  · cases h

theorem isForwarded_of_forwardTo (h : forwardTo config owner req = .ok sent) :
    IsForwarded config owner req sent := by
  obtain ⟨url, uri, host, hurl, huri, hhost, rfl⟩ := forwardTo_eq_ok h
  obtain ⟨base, hbase, hof⟩ := boundaryUrl_inv hurl
  obtain ⟨scheme, -, hassembled⟩ := Url.parse_inv hbase
  have hsame : url.hostAndPort = base.hostAndPort := by
    rw [hof, Url.hostAndPort_withPath]
  constructor
  · exact ⟨url, hurl, huri⟩
  · refine ⟨base, host, hbase, hassembled.port_ne, hsame ▸ hhost, ?_⟩
    rw [Headers.values_insert, if_pos rfl]
  · intro name hname
    rw [Headers.values_insert, if_neg hname]
  · rfl
  · rfl
  · rfl

/-- Forwarding fails at the address of the peer or at the target there. The host of an address
that was read can always be written into a field. -/
theorem forwardTo_cases (config : RouterConfig) (peer : String) (req : Request) :
    (∃ reason, boundaryUrl config peer req.uri.text = .error (.invalidPeer peer reason) ∧
        forwardTo config peer req = .error (.invalidPeer peer reason)) ∨
      (∃ target e, boundaryUrl config peer req.uri.text = .ok target ∧
        Uri.ofText target.text = .error e ∧
        forwardTo config peer req = .error (.invalidRequest e.message)) ∨
      ∃ sent, forwardTo config peer req = .ok sent := by
  rw [forwardTo]
  cases hurl : boundaryUrl config peer req.uri.text with
  | error e =>
    obtain ⟨reason, rfl⟩ := boundaryUrl_error hurl
    exact .inl ⟨reason, rfl, rfl⟩
  | ok target =>
    dsimp only
    cases huri : Uri.ofText target.text with
    | error e => exact .inr (.inl ⟨target, e, rfl, huri, rfl⟩)
    | ok uri =>
      obtain ⟨-, -, hchars⟩ := boundaryUrl_authority hurl
      obtain ⟨host, hhost⟩ := HeaderValue.exists_ofChars hchars
      dsimp only
      rw [hhost]
      exact .inr (.inr ⟨_, rfl⟩)

/-! ## Outcomes -/

/-- What may become of a request whose resource has this owner, or none. Only the last
constructor and `own` call a side, each of them once. -/
inductive Routed (router : Router) (own network : Origin) (req : Request) :
    Option String → RouterStep → Prop
  | nobody : Routed router own network req none { answer := .error .noPeers }
  | own {owner : String} (h : router.identity = some owner) :
    Routed router own network req (some owner) { answer := own req, served := [req] }
  | badPeer {owner reason : String} (h : router.identity ≠ some owner)
    (hurl : boundaryUrl router.config owner req.uri.text = .error (.invalidPeer owner reason)) :
    Routed router own network req (some owner) { answer := .error (.invalidPeer owner reason) }
  | badTarget {owner : String} {target : Url} {e : UriError} (h : router.identity ≠ some owner)
    (hurl : boundaryUrl router.config owner req.uri.text = .ok target)
    (huri : Uri.ofText target.text = .error e) :
    Routed router own network req (some owner) { answer := .error (.invalidRequest e.message) }
  | forwarded {owner : String} {sent : Request} (h : router.identity ≠ some owner)
    (hsent : IsForwarded router.config owner req sent) :
    Routed router own network req (some owner) { answer := network sent, sent := [sent] }

theorem roundTrip_of_ne (own network : Origin) (howner : router.owner? req.uri.text = some owner)
    (h : router.identity ≠ some owner) :
    router.roundTrip own network req =
      match forwardTo router.config owner req with
      | .error e => { answer := .error e }
      | .ok sent => { answer := network sent, sent := [sent] } := by
  rw [roundTrip, route_eq howner, if_neg h]
  cases forwardTo router.config owner req <;> rfl

/-- A request for a resource of another member is sent to that one, unless its address or the
target there is no good. -/
theorem routed_of_ne (own network : Origin) (howner : router.owner? req.uri.text = some owner)
    (h : router.identity ≠ some owner) :
    Routed router own network req (some owner) (router.roundTrip own network req) := by
  rw [roundTrip_of_ne own network howner h]
  obtain ⟨reason, hurl, hfail⟩ | ⟨target, e, hurl, huri, hfail⟩ | ⟨sent, hsent⟩ :=
    forwardTo_cases router.config owner req
  · rw [hfail]
    exact .badPeer h hurl
  · rw [hfail]
    exact .badTarget h hurl huri
  · rw [hsent]
    exact .forwarded h (isForwarded_of_forwardTo hsent)

end Router

/-- Routing agrees with the owner of the text that a target was read from: without an owner and
with an address that is no good no side is called, the router's own member gets its requests as
they are, and another one gets the request at its boundary. The answer is the one of the side
that was called. -/
theorem routing_follows_owner (router : Router) (own network : Origin)
    (hread : Uri.ofText url = .ok req.uri) :
    Router.Routed router own network req (router.owner? url)
      (router.roundTrip own network req) := by
  rw [← Router.owner?_text router hread]
  cases howner : router.owner? req.uri.text with
  | none =>
    rw [Router.roundTrip, Router.route, howner]
    exact .nobody
  | some owner =>
    by_cases hown : router.identity = some owner
    · rw [Router.roundTrip, Router.route_eq howner, if_pos hown]
      exact .own hown
    · exact Router.routed_of_ne own network howner hown

/-- A member routes as its router does, if its own cache answers what the member owns. -/
theorem Member.roundTrip_eq_router {σ : Type} [ByteStore σ] (m : Member σ)
    (origin network : Origin) (now : Nat) (req : Request) {own : Origin}
    (hown : m.router.route req = .ok .here →
      (attempt origin now m.store req).answer? = some (own req)) :
    (m.roundTrip origin network now req).answer? =
        some (m.router.roundTrip own network req).answer ∧
      (m.roundTrip origin network now req).sent = (m.router.roundTrip own network req).sent := by
  rw [roundTrip, Router.roundTrip]
  cases hroute : m.router.route req with
  | error e => exact ⟨rfl, rfl⟩
  | ok route =>
    cases route with
    | here => exact ⟨hown hroute, rfl⟩
    | forward peer sent => exact ⟨rfl, rfl⟩

end Requests

/-! ## A target that is not written as it prints -/

namespace LooseTarget

/-- In capitals, without a path, with an empty query and a fragment. -/
def url : String := "HTTP://o.test?#f"

def request : Request :=
  { Sample.request [] with uri := Sample.target url }

/-- The router of one of two members. -/
def router : Router :=
  { Router.new { replicas := 1 } with identity := some "http://p.test" }
    |>.setPool ["http://p.test", "http://q.test:8080"]

def own : Origin := fun _ => .error (.body "own")

def network : Origin := fun _ => .error (.body "network")

end LooseTarget

open LooseTarget in
theorem loose_target_follows_owner :
    Uri.ofText url = .ok request.uri ∧ request.uri.text = "http://o.test/?" ∧
      router.owner? url = some "http://q.test:8080" ∧
      Router.Routed router own network request (some "http://q.test:8080")
        (router.roundTrip own network request) ∧
      (router.roundTrip own network request).answer = .error (.body "network") ∧
      (router.roundTrip own network request).sent.map
          (fun sent => (sent.uri.text, sent.headers.values .host)) =
        [("http://q.test:8080/proxy?q=http%3A%2F%2Fo.test%2F%3F",
          [Sample.value "q.test:8080"])] := by
  have hread : Uri.ofText url = .ok request.uri := by decide +kernel
  have howner : router.owner? url = some "http://q.test:8080" := by decide +kernel
  have hrouted := routing_follows_owner router own network hread
  rw [howner] at hrouted
  exact ⟨hread, by decide +kernel, howner, hrouted, by decide +kernel, by decide +kernel⟩

end PeerCache

import PeerCache.Proofs.EndToEndFields
import PeerCache.Proofs.Forwarding
import PeerCache.Proofs.FreshReplies
import PeerCache.Proofs.RingLaws
import PeerCache.Proofs.VaryMatching
import PeerCache.Peer.Pool
import PeerCache.Store.Memory

/-!
# Entry points

Under which key the owner of a resource stores it. A request that enters at the owner is
stored under its target as it is written; one that another member forwards is stored under the
address that the owner's boundary reads, which is in normal form. So a resource has one entry
for all members exactly if its target is written in normal form. Otherwise the owner fetches
and stores it twice. A forwarded request has another `Host` and none of the fields that concern
the connection, so what one member had fetched is served through another one only if the response
does not vary by what differs there.
-/

namespace PeerCache

/-- The router of a member of a pool. -/
def Router.within (config : RouterConfig) (peers : List String) (name : String) : Router where
  config
  ring := Ring.ofPeers config.replicas config.hash peers
  identity := some name

/-- A member that is built for a pool routes within it. -/
theorem Member.router_build {σ : Type} (config : RouterConfig) {peers : List String}
    (hpeers : peers ≠ []) (name : String) (buffers : Option BufferPool) (store : σ) :
    (Member.build { identity := name, config, pool := peers, buffers, store }).router =
      Router.within config peers name := by
  have hsome : peers.isEmpty = false := List.isEmpty_eq_false_iff.mpr hpeers
  simp only [Member.build, hsome]
  rfl

section Members

variable {config : RouterConfig} {peers : List String} {name owner text : String}
  {req sent seen first second : Request}

/-! ## Routes -/

/-- What a member forwards goes to the owner, in the form that `forwardTo` gives it. -/
theorem Router.forward_inv {peer : String}
    (howner : (Router.within config peers name).owner? req.uri.text = some owner)
    (h : (Router.within config peers name).route req = .ok (.forward peer sent)) :
    peer = owner ∧ name ≠ owner ∧ forwardTo config owner req = .ok sent := by
  obtain ⟨hpeer, hother, hsent⟩ := route_eq_forward h
  obtain rfl := Option.some.inj (hpeer.symm.trans howner)
  exact ⟨rfl, fun hname => hother (congrArg some hname), hsent⟩

/-! ## Keys -/

section Boundary

variable (hpath : config.path = "/proxy") (hread : Uri.ofText text = .ok req.uri)
  (hweb : req.uri.IsWeb) (hsent : Router.forwardTo config owner req = .ok sent)

include hpath hread hweb hsent

/-- The boundary checks the target of the request that was forwarded. -/
theorem accept_forwarded : Boundary.accept config.path sent =
    (Boundary.checkTarget req.uri.text.toList).bind (Boundary.originRequest sent) := by
  obtain ⟨hboundary, hquery, -⟩ := Router.forwardTo_inv hpath hsent
  obtain ⟨scheme, authority, -, htext⟩ := hweb.absolute hread
  rw [hpath]
  apply Boundary.accept_queryFor hboundary hquery
  rw [htext, Uri.absolute]
  simp

/-- The boundary asks for the address that it reads, under the method of the request. -/
theorem accept_forwarded_inv (h : Boundary.accept config.path sent = .ok seen) :
    (∃ url, Url.ofText req.uri.text = .ok (.hosted url) ∧ seen.uri.text = url.text) ∧
      seen.method = req.method ∧
      ∃ peer host, seen.headers =
        (req.headers.insert .host peer).stripHopByHop.insert .host host := by
  obtain ⟨-, -, hmethod, ⟨peer, hpeer⟩, -⟩ := Router.forwardTo_inv hpath hsent
  rw [accept_forwarded hpath hread hweb hsent] at h
  cases haddress : Url.ofText req.uri.text with
  | error e =>
    rw [Url.ofText] at haddress
    rw [Boundary.checkTarget, haddress] at h
    cases h
  | ok address =>
    obtain ⟨url, rfl, hurl, hcheck⟩ := Boundary.checkTarget_of_web hweb hread haddress
    simp only [hcheck, Except.bind] at h
    obtain ⟨htext, hkept, host, hheaders⟩ := Boundary.originRequest_inv hurl h
    rw [hpeer] at hheaders
    exact ⟨⟨url, rfl, htext⟩, hkept.trans hmethod, peer, host, hheaders⟩

end Boundary

/-! ## Arrivals -/

/-- The forms in which a request for a resource can reach the cache of its owner. -/
inductive Arrives (config : RouterConfig) (peers : List String) (req : Request) : Request → Prop
  /-- It entered at the owner. -/
  | direct {name : String} (h : (Router.within config peers name).route req = .ok .here) :
    Arrives config peers req req
  /-- It entered at another member, and the boundary accepted what that one sent. -/
  | forwarded {name peer : String} {sent seen : Request}
    (h : (Router.within config peers name).route req = .ok (.forward peer sent))
    (ha : Boundary.accept config.path sent = .ok seen) : Arrives config peers req seen

/-- The boundary adds no range to a request. -/
theorem isCacheable_of_headers {host host' : HeaderValue} (hmethod : req.method = .get)
    (hrange : req.headers.contains .range = false) (hkept : seen.method = req.method)
    (hheaders : seen.headers =
      (req.headers.insert .host host).stripHopByHop.insert .host host') :
    seen.isCacheable = true := by
  have hnone : seen.headers.contains .range = false := by
    rw [Headers.contains_eq_false_iff] at hrange ⊢
    have hsent : (req.headers.insert .host host).values .range = [] := by
      rw [Headers.values_insert, if_neg (by decide), hrange]
    rw [hheaders, Headers.values_insert, if_neg (by decide), Headers.values_stripHopByHop, hsent,
      ite_self]
  rw [Request.isCacheable, hkept, hmethod, hnone]
  rfl

section Pool

variable (hpath : config.path = "/proxy") (hreplicas : 0 < config.replicas) (hpeers : peers ≠ [])
  (hread : Uri.ofText text = .ok req.uri) (hweb : req.uri.IsWeb)

theorem exists_owner_within (hreplicas : 0 < config.replicas) (hpeers : peers ≠ []) (url : String) :
    ∃ owner ∈ peers, ∀ name, (Router.within config peers name).owner? url = some owner := by
  obtain ⟨owner, hmem, howner⟩ :=
    Ring.exists_owner hreplicas config.hash hpeers (Router.ringKey url)
  exact ⟨owner, hmem, fun _ => howner⟩

include hpath hreplicas hpeers hread hweb

/-- What arrives is the request itself, or asks for the address that the boundary reads, with
other `Host` fields and without those of the connection. -/
theorem Arrives.inv (h : Arrives config peers req seen) :
    seen = req ∨
      (∃ url, Url.ofText req.uri.text = .ok (.hosted url) ∧ seen.uri.text = url.text) ∧
        seen.method = req.method ∧
        ∃ peer host, seen.headers =
          (req.headers.insert .host peer).stripHopByHop.insert .host host := by
  cases h with
  | direct h => exact .inl rfl
  | forwarded h ha =>
    obtain ⟨owner, -, howner⟩ := exists_owner_within hreplicas hpeers req.uri.text
    obtain ⟨-, -, hsent⟩ := Router.forward_inv (howner _) h
    exact .inr (accept_forwarded_inv hpath hread hweb hsent ha)

theorem Arrives.isCacheable (hget : req.method = .get)
    (hrange : req.headers.contains .range = false) (h : Arrives config peers req seen) :
    seen.isCacheable = true := by
  obtain rfl | ⟨-, hmethod, peer, host, hheaders⟩ := h.inv hpath hreplicas hpeers hread hweb
  · rw [Request.isCacheable, hget, hrange]
    rfl
  · exact isCacheable_of_headers hget hrange hmethod hheaders

end Pool

end Members

/-! ## A host in capitals -/

namespace TwoMembers

open Sample

def config : RouterConfig := { replicas := 1 }

def peers : List String := ["http://p.test", "http://q.test"]

def pool : Pool Memory where
  members := peers.map fun name =>
    (name, Member.build { identity := name, config, pool := peers, store := Memory.empty })
  client := (Router.new config).setPool peers

/-- A response that may be stored and is fresh for a minute. -/
def document : Response :=
  response .ok [(.date, epoch), (.cacheControl, value "max-age=60")] (utf8 "o")

def origin : Origin := fun _ => .ok document

/-- What the other member sends. -/
def sent : Request :=
  { Sample.request [(.host, value "q.test")] with
    uri := target "http://q.test/proxy?q=http%3A%2F%2Fo.test%2F" }

/-- What the first of them has stored. -/
def entry : Entry :=
  Entry.capture (Sample.request []) document 0

end TwoMembers

end PeerCache

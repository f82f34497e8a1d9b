import PeerCache.CommandLine.Run
import PeerCache.Proofs.ChecksumLaws
import PeerCache.Proofs.EntryPoints
import PeerCache.Proofs.RingMembership

/-!
# Clients outside a pool

Whom a client takes for the owner of a resource. Its ring has its own identity on it as well, as
if it were a member. So what it gives to a listed peer is what all members give to that peer, but
an identity that is not listed takes a part of all resources for itself. There are web addresses
in that part whatever the identity is, because addresses are hashed to every position.
-/

namespace PeerCache

/-! ## Addresses of all positions -/

namespace Uri

theorem splitQuery_of_path {rest : List Char} (h : rest.all isPathChar = true) :
    splitQuery rest = (rest, none) := by
  have hpath := List.all_eq_true.mp h
  have hfragment : '#' ∉ rest := fun hmem => absurd (hpath '#' hmem) (by decide)
  rw [splitQuery, takeWhile_of_no_fragment hfragment]
  refine Text.cut_of_not fun c hc => beq_eq_false_iff_ne.mpr ?_
  rintro rfl
  exact absurd (hpath '?' hc) (by decide)

/-- A web address that ends in the digits of a number. -/
def numbered (n : Nat) : List Char :=
  absolute "http".toList ['o'] ('/' :: Crc32.binaryDigits n)

theorem encode_numbered (n : Nat) :
    Utf8.encode (numbered n) =
      Utf8.encode "http://o/".toList ++ Utf8.encode (Crc32.binaryDigits n) := by
  have happend : numbered n = "http://o/".toList ++ Crc32.binaryDigits n := rfl
  rw [happend, Utf8.encode_append]

theorem length_encode_numbered (n : Nat) : (Utf8.encode (numbered n)).length = 41 := by
  rw [encode_numbered, List.length_append, Crc32.length_encode_binaryDigits]
  rfl

theorem isPathChar_binaryDigits (n : Nat) :
    ('/' :: Crc32.binaryDigits n).all isPathChar = true := by
  rw [List.all_cons, Crc32.binaryDigits, List.all_map, Bool.and_eq_true]
  refine ⟨by decide, List.all_eq_true.mpr fun i _ => ?_⟩
  dsimp only [Function.comp]
  split <;> decide

/-- It is read as an address that prints in the same way. -/
theorem exists_numbered (n : Nat) :
    ∃ u, parse (numbered n) = .ok u ∧ u.IsWeb ∧ u.text.toList = numbered n := by
  have hscheme := isScheme_web (.inl rfl)
  have hcheck : checkAuthority ['o'] = .ok () := rfl
  have hauth := not_endsAuthority_of_check hcheck
  have hrest : ∀ c ∈ ('/' :: Crc32.binaryDigits n).head?, endsAuthority c = true :=
    endsAuthority_slash rfl
  have hpath := isPathChar_binaryDigits n
  have hsplit := splitQuery_of_path hpath
  have hfragment : '#' ∉ '/' :: Crc32.binaryDigits n := fun hmem =>
    absurd (List.all_eq_true.mp hpath '#' hmem) (by decide)
  obtain ⟨u, hfull⟩ : ∃ u, parseFull (numbered n) = .ok u := by
    refine exists_parseFull (splitScheme_usual (.inl rfl) _ _) hauth hrest hcheck
      (List.cons_ne_nil _ _) ?_ ?_
    · rw [pathOf, hsplit]
      exact hpath
    · rw [hsplit]
      rfl
  have hlength : ¬(Utf8.encode (numbered n)).length > maxLength := by
    rw [length_encode_numbered]
    decide
  have hparse : parse (numbered n) = .ok u :=
    (parse_absolute hscheme.chars _ _).trans ((if_neg hlength).trans hfull)
  obtain ⟨-, hname, -⟩ := parse_absolute_inv hscheme.chars hauth hrest hparse
  exact ⟨u, hparse, .inl (hname hscheme), text_of_parse hscheme hauth rfl hfragment hparse⟩

end Uri

/-- Every position is the one of some web address. -/
theorem exists_address (position : UInt32) :
    ∃ url uri, Uri.ofText url = .ok uri ∧ uri.IsWeb ∧
      Crc32.checksum (utf8 (Router.ringKey url)) = position := by
  obtain ⟨n, hn⟩ := Crc32.exists_checksum (Utf8.encode "http://o/".toList) position
  obtain ⟨uri, hread, hweb, htext⟩ := Uri.exists_numbered n
  have hof : Uri.ofText (String.ofList (Uri.numbered n)) = .ok uri := by
    rw [Uri.ofText, String.toList_ofList]
    exact hread
  refine ⟨_, uri, hof, hweb, ?_⟩
  rw [Router.ringKey, hof]
  dsimp only
  rw [utf8, htext, Uri.encode_numbered]
  exact hn

/-! ## Owners -/

namespace Settings

variable {s member : Settings} {url owner : String}

/-- A listed peer runs with the list, the number of replicas and the path of some settings. -/
structure RunsIn (member s : Settings) : Prop where
  listed : member.identity ∈ s.peers
  peers : member.peers = s.peers
  replicas : member.ringReplicas = s.ringReplicas
  path : member.path = s.path

/-- The client gives a resource to a listed peer, and so does every member. -/
def RoutesAlike (s : Settings) (url : String) : Prop :=
  ∃ owner ∈ s.peers, s.clientRouter.owner? url = some owner ∧
    ∀ member : Settings, member.RunsIn s → ∀ (σ : Type) (store : σ),
      (Member.build (member.peerPlan store)).router.owner? url = some owner

/-- Members that run alike have one ring, that of the listed peers. -/
theorem RunsIn.router_build {σ : Type} (h : member.RunsIn s) (store : σ) :
    (Member.build (member.peerPlan store)).router =
      Router.within s.routerConfig s.peers member.identity := by
  have hpool : member.poolPeers = s.peers := by
    rw [poolPeers_of_mem (h.peers ▸ h.listed), h.peers]
  have hconfig : member.routerConfig = s.routerConfig := by
    rw [routerConfig, routerConfig, h.replicas, h.path]
  rw [peerPlan, hpool, hconfig]
  exact Member.router_build _ (List.ne_nil_of_mem h.listed) _ _ store

/-- What the client gives to a listed peer belongs to that peer on the ring of the listed ones. -/
theorem owner?_listed (howner : s.clientRouter.owner? url = some owner) (h : owner ∈ s.peers) :
    (Ring.ofPeers s.ringReplicas Crc32.checksum s.peers).owner? (Router.ringKey url) =
      some owner := by
  have hring : (Ring.ofPeers s.ringReplicas Crc32.checksum s.poolPeers).owner?
      (Router.ringKey url) = some owner := howner
  by_cases hmem : s.identity ∈ s.peers
  · rwa [poolPeers_of_mem hmem] at hring
  · rw [poolPeers_of_not_mem hmem] at hring
    let listed : String → Bool := fun name => name ∈ s.peers
    have hstays : (Ring.ofPeers s.ringReplicas Crc32.checksum
        ((s.peers ++ [s.identity]).filter listed)).owner? (Router.ringKey url) = some owner :=
      Ring.owner?_filter hring (decide_eq_true h)
    rwa [Ring.ofPeers_append_filter] at hstays

theorem routesAlike_iff :
    s.RoutesAlike url ↔ ∃ owner ∈ s.peers, s.clientRouter.owner? url = some owner := by
  constructor
  · rintro ⟨owner, hlisted, howner, -⟩
    exact ⟨owner, hlisted, howner⟩
  · rintro ⟨owner, hlisted, howner⟩
    refine ⟨owner, hlisted, howner, fun member hruns σ store => ?_⟩
    rw [hruns.router_build store]
    exact owner?_listed howner hlisted

/-- A client that is listed routes as the members do. -/
theorem routesAlike_of_mem (h : s.identity ∈ s.peers) (hreplicas : 0 < s.ringReplicas)
    (url : String) : s.RoutesAlike url := by
  obtain ⟨owner, hlisted, howner⟩ := Ring.exists_owner hreplicas Crc32.checksum
    (List.ne_nil_of_mem h) (Router.ringKey url)
  refine routesAlike_iff.mpr ⟨owner, hlisted, ?_⟩
  rw [← poolPeers_of_mem h] at howner
  exact howner

/-- One that is not takes some web addresses for its own. -/
theorem exists_taken_address (h : s.identity ∉ s.peers) (hreplicas : 0 < s.ringReplicas) :
    ∃ url uri, Uri.ofText url = .ok uri ∧ uri.IsWeb ∧
      s.clientRouter.owner? url = some s.identity := by
  obtain ⟨url, uri, hread, hweb, hposition⟩ :=
    exists_address (Crc32.checksum (utf8 (Nat.repr 0 ++ s.identity)))
  have howner := Ring.owner?_append_last h ⟨0, hreplicas, hposition.symm⟩
  rw [← poolPeers_of_not_mem h] at howner
  exact ⟨url, uri, hread, hweb, howner⟩

theorem replicas_pos (h : s.clientRouter.owner? url = some owner) : 0 < s.ringReplicas := by
  obtain ⟨position, -, hlast⟩ := Ring.owner?_ofPeers_eq_some_iff.mp h
  obtain ⟨-, i, hi, -⟩ := Ring.lastTaker?_inv hlast
  exact Nat.zero_lt_of_lt hi

/-- **Routing from outside.** A client routes a resource as the pool does exactly if it gives it to
a listed peer. It does so with all resources, and so with those on the web alone, exactly if its
own identity is listed, and peers have replicas. -/
theorem client_routes_as_pool_iff (s : Settings) :
    (∀ url, s.RoutesAlike url ↔ ∃ owner ∈ s.peers, s.clientRouter.owner? url = some owner) ∧
    ((∀ url, s.RoutesAlike url) ↔ s.identity ∈ s.peers ∧ 0 < s.ringReplicas) ∧
    ((∀ url uri, Uri.ofText url = .ok uri → uri.IsWeb → s.RoutesAlike url) ↔
      s.identity ∈ s.peers ∧ 0 < s.ringReplicas) := by
  have hlisted (h : ∀ url uri, Uri.ofText url = .ok uri → uri.IsWeb → s.RoutesAlike url) :
      s.identity ∈ s.peers ∧ 0 < s.ringReplicas := by
    have hreplicas : 0 < s.ringReplicas := by
      obtain ⟨url, uri, hread, hweb, -⟩ := exists_address 0
      obtain ⟨owner, -, howner, -⟩ := h url uri hread hweb
      exact replicas_pos howner
    refine ⟨?_, hreplicas⟩
    by_contra hout
    obtain ⟨url, uri, hread, hweb, htaken⟩ := exists_taken_address hout hreplicas
    obtain ⟨owner, hmem, howner, -⟩ := h url uri hread hweb
    rw [htaken] at howner
    exact hout (Option.some.inj howner ▸ hmem)
  refine ⟨fun url => routesAlike_iff, ⟨fun h => ?_, ?_⟩, ⟨hlisted, ?_⟩⟩
  · exact hlisted fun url _ _ _ => h url
  · rintro ⟨hmem, hreplicas⟩ url
    exact routesAlike_of_mem hmem hreplicas url
  · rintro ⟨hmem, hreplicas⟩ url _ _ _
    exact routesAlike_of_mem hmem hreplicas url

/-- The settings of a client that lists two peers, and of one of the peers. -/
def Pair.client : Settings :=
  { standard "" with peers := ["http://p.test", "http://q.test"], replicas := some 1 }

def Pair.second : Settings :=
  { Pair.client with identity := "http://q.test" }

/-- A client that is not listed takes a resource of a member for its own. -/
theorem unlisted_client_names_itself :
    Pair.second.RunsIn Pair.client ∧
      (Member.build (Pair.second.peerPlan ())).router.owner? "https://example.com/a.js" =
        some "http://q.test" ∧
      CommandLine.owner Pair.client "https://example.com/a.js" =
        .printed "http://127.0.0.1:4830\n" ∧
      ¬Pair.client.RoutesAlike "https://example.com/a.js" := by
  have hself : Pair.client.clientRouter.owner? "https://example.com/a.js" =
      some "http://127.0.0.1:4830" := by decide +kernel
  refine ⟨⟨by decide, rfl, rfl, rfl⟩, by decide +kernel, ?_, ?_⟩
  · rw [CommandLine.owner, hself]
    decide
  · rintro ⟨owner, hlisted, howner, -⟩
    obtain rfl := Option.some.inj (hself.symm.trans howner)
    exact absurd hlisted (by decide)

end Settings

end PeerCache

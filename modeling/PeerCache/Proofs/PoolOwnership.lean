import Mathlib.Data.List.Forall2
import Mathlib.Data.List.Induction
import PeerCache.Proofs.BufferLaws
import PeerCache.Proofs.CacheRuns
import PeerCache.Proofs.EntryPoints

/-!
# Ownership in a pool

Members with one configuration and one list of peers, and a network between them that hands a
request to the member whose authority it names. Wherever a request enters, it comes to the cache
of the member that owns its resource, or to no cache. All other members stay as they are, and
their origins see nothing. So the store of a member is made by a run of visits for resources that
the member owns.
-/

namespace PeerCache

/-! ## Trips -/

/-- A request that enters a pool at one of the members, with what it meets there. -/
structure Trip where
  entry : Nat
  req : Request
  now : Nat
  /-- The origin of each member. -/
  origins : Nat → Origin
  /-- The member that the network hands a request for an authority to. -/
  reach : String → Option Nat
  /-- How the body of a request arrives at another member. -/
  frames : Request → List Frame

/-- What a trip came to. -/
structure TripStep (σ : Type) where
  /-- The answer, unless the cache that it was to come from broke off. -/
  answer? : Option Answer
  /-- Requests that the origins saw, with the numbers of the members that sent them. -/
  asked : List (Nat × Request) := []
  members : List (Member σ)

namespace Trip

variable {σ : Type} [ByteStore σ]

/-- Hand a request to the boundary of the member that it is addressed to. -/
def deliver (t : Trip) (members : List (Member σ)) (sent : Request) : TripStep σ :=
  let authority := sent.uri.authority.getD ""
  let target := do
    let i ← t.reach authority
    let m ← members[i]?
    return (i, m)
  match target with
  | none => { answer? := some (.error (.body ("unreachable " ++ authority))), members }
  | some (i, m) =>
    let (resp, handling, m) := m.serve (t.origins i) t.now sent (t.frames sent)
    { answer? := resp.map .ok, asked := handling.asked.map (i, ·), members := members.set i m }

/-- Let the member at which the request enters send it. -/
def step (t : Trip) (members : List (Member σ)) : TripStep σ :=
  match members[t.entry]? with
  | none => { answer? := some (.error .noPeers), members }
  | some m =>
    match m.router.route t.req with
    | .error e => { answer? := some (.error e), members }
    | .ok .here =>
      let r := m.serveLocally (t.origins t.entry) t.now t.req
      { answer? := r.answer?, asked := r.asked.map (t.entry, ·)
        members := members.set t.entry r.member }
    | .ok (.forward _ sent) => t.deliver members sent

/-- The members after trips that follow one another. -/
def run (members : List (Member σ)) (trips : List Trip) : List (Member σ) :=
  trips.foldl (fun members t => (t.step members).members) members

end Trip

/-! ## Pools in one process -/

section Pool

variable {σ : Type}

/-- The trip of a request through a pool with one origin. -/
def Pool.trip (pool : Pool σ) (origin : Origin) (now i : Nat) (req : Request) : Trip where
  entry := i
  req
  now
  origins _ := origin
  reach := pool.find?
  frames sent := [.data sent.body]

theorem Pool.members_setMember (pool : Pool σ) (i : Nat) (m : Member σ) :
    (pool.setMember i m).members.map Prod.snd = (pool.members.map Prod.snd).set i m := by
  apply List.ext_getElem?
  intro j
  rw [setMember]
  dsimp only
  rw [List.getElem?_map, List.getElem?_modify, List.getElem?_set, List.getElem?_map,
    List.length_map]
  by_cases h : i = j
  · subst h
    by_cases hlt : i < pool.members.length
    · simp [hlt]
    · simp [hlt]
  · simp [h]

variable [ByteStore σ]

/-- Handing over within one process is handing over on a trip. -/
theorem Pool.deliver_eq_trip (pool : Pool σ) (origin : Origin) (now i : Nat) (req sent : Request) :
    (pool.deliver origin now sent).answer? =
        ((pool.trip origin now i req).deliver (pool.members.map Prod.snd) sent).answer? ∧
      (pool.deliver origin now sent).asked =
        ((pool.trip origin now i req).deliver (pool.members.map Prod.snd) sent).asked.map
          Prod.snd ∧
      (pool.deliver origin now sent).pool.members.map Prod.snd =
        ((pool.trip origin now i req).deliver (pool.members.map Prod.snd) sent).members := by
  rw [deliver, Trip.deliver, trip]
  dsimp only
  cases hreach : pool.find? (sent.uri.authority.getD "") with
  | none => exact ⟨rfl, rfl, rfl⟩
  | some j =>
    cases hentry : pool.members[j]? with
    | none => simp [hentry]
    | some entry =>
      simp [hentry, members_setMember, Function.comp_def]

/-- A pool in one process takes the steps of its members. -/
theorem Pool.roundTrip_eq_step (pool : Pool σ) (origin : Origin) (now : Nat) {i : Nat}
    (hi : i < pool.members.length) (req : Request) :
    (pool.roundTrip origin now (some i) req).answer? =
        ((pool.trip origin now i req).step (pool.members.map Prod.snd)).answer? ∧
      (pool.roundTrip origin now (some i) req).asked =
        ((pool.trip origin now i req).step (pool.members.map Prod.snd)).asked.map Prod.snd ∧
      (pool.roundTrip origin now (some i) req).pool.members.map Prod.snd =
        ((pool.trip origin now i req).step (pool.members.map Prod.snd)).members := by
  have hentry : pool.members[i]? = some pool.members[i] := List.getElem?_eq_getElem hi
  have hm : (pool.members.map Prod.snd)[(pool.trip origin now i req).entry]? =
      some pool.members[i].2 := by
    show (pool.members.map Prod.snd)[i]? = _
    rw [List.getElem?_map, hentry, Option.map_some]
  have hreq : (pool.trip origin now i req).req = req := rfl
  rw [roundTrip, Trip.step, hm, hreq]
  simp only [hentry, Option.bind_some, Option.map_some, Option.getD_some]
  cases hroute : pool.members[i].2.router.route req with
  | error e => exact ⟨rfl, rfl, rfl⟩
  | ok route =>
    cases route with
    | here =>
      refine ⟨rfl, ?_, members_setMember pool i _⟩
      simp [trip, Function.comp_def]
    | forward peer sent => exact deliver_eq_trip pool origin now i req sent

end Pool

/-! ## Members of one pool -/

/-- The authority that a peer is reached at. -/
def authorityOf? (name : String) : Option String :=
  match Url.ofText name with
  | .ok (.hosted url) => some (String.ofList url.authorityText)
  | _ => none

/-- Names of members: addresses with authorities of their own. -/
structure AreNames (names : List String) : Prop where
  hosted : ∀ name ∈ names, ∃ url, Url.ofText name = .ok (.hosted url)
  distinct : (names.map authorityOf?).Nodup

/-- Members of one pool: they have one configuration and one list of peers. -/
structure IsPool {σ : Type} (config : RouterConfig) (peers names : List String)
    (members : List (Member σ)) : Prop where
  routers : members.map Member.router = names.map (Router.within config peers)
  /-- Their buffers are empty while they wait, as they are from the start. -/
  clean : ∀ m ∈ members, ∀ pool ∈ m.buffers, pool.Clean

/-- A network that hands a request to the member whose authority it names, or to none. Its body
arrives as it was sent, or breaks off. -/
structure Trip.Delivers (names : List String) (t : Trip) : Prop where
  authority : ∀ authority i, t.reach authority = some i →
    ∃ name, names[i]? = some name ∧ authorityOf? name = some authority
  body : ∀ sent body, Frame.collect (t.frames sent) = .ok body → body = sent.body

/-- A network that reaches every member. -/
def reachAll (names : List String) (authority : String) : Option Nat :=
  names.findIdx? fun name => authorityOf? name = some authority

theorem reachAll_inv {names : List String} {authority : String} {i : Nat}
    (h : reachAll names authority = some i) :
    ∃ name, names[i]? = some name ∧ authorityOf? name = some authority := by
  obtain ⟨hlt, hname, -⟩ := List.findIdx?_eq_some_iff_getElem.mp h
  exact ⟨names[i], List.getElem?_eq_getElem hlt, of_decide_eq_true hname⟩

/-- Whether a member owns a resource: the peer that the ring names for it is reached at the
member's authority. -/
def Owns (config : RouterConfig) (peers names : List String) (url : String) (i : Nat) : Prop :=
  ∃ owner name authority, ((Router.new config).setPool peers).owner? url = some owner ∧
    names[i]? = some name ∧ authorityOf? owner = some authority ∧
    authorityOf? name = some authority

section Ownership

variable {config : RouterConfig} {peers names : List String} {url owner : String} {i j : Nat}

/-- No two members own a resource. -/
theorem Owns.unique (hnames : AreNames names) (hi : Owns config peers names url i)
    (hj : Owns config peers names url j) : i = j := by
  obtain ⟨owner, name, authority, howner, hname, hpeer, hauthority⟩ := hi
  obtain ⟨owner', name', authority', howner', hname', hpeer', hauthority'⟩ := hj
  obtain rfl := Option.some.inj (howner.symm.trans howner')
  obtain rfl := Option.some.inj (hpeer.symm.trans hpeer')
  have hlt : i < (names.map authorityOf?).length := by
    rw [List.length_map]
    exact (List.getElem?_eq_some_iff.mp hname).1
  apply (List.getElem?_inj hlt hnames.distinct).mp
  rw [List.getElem?_map, List.getElem?_map, hname, hname', Option.map_some, Option.map_some,
    hauthority, hauthority']

/-- The member that the ring names is the one that owns the resource. -/
theorem owns_iff (hnames : AreNames names)
    (howner : ((Router.new config).setPool peers).owner? url = some owner)
    (hname : names[i]? = some owner) : Owns config peers names url j ↔ j = i := by
  obtain ⟨address, haddress⟩ := hnames.hosted owner (List.mem_of_getElem? hname)
  have hauthority : authorityOf? owner = some (String.ofList address.authorityText) := by
    rw [authorityOf?, haddress]
  have hown : Owns config peers names url i :=
    ⟨owner, owner, _, howner, hname, hauthority, hauthority⟩
  constructor
  · intro h
    exact h.unique hnames hown
  · rintro rfl
    exact hown

end Ownership

namespace IsPool

variable {σ : Type} {config : RouterConfig} {peers names : List String}
  {members : List (Member σ)} {m m' : Member σ} {i : Nat}

theorem router (h : IsPool config peers names members) (hm : members[i]? = some m) :
    ∃ name, names[i]? = some name ∧ m.router = Router.within config peers name := by
  have hrouter : (members.map Member.router)[i]? = some m.router := by
    rw [List.getElem?_map, hm, Option.map_some]
  rw [h.routers, List.getElem?_map] at hrouter
  obtain ⟨name, hname, hwithin⟩ := Option.map_eq_some_iff.mp hrouter
  exact ⟨name, hname, hwithin.symm⟩

theorem set (h : IsPool config peers names members) (hm : members[i]? = some m)
    (hrouter : m'.router = m.router) (hclean : ∀ pool ∈ m'.buffers, pool.Clean) :
    IsPool config peers names (members.set i m') := by
  have hsame : (members.map Member.router)[i]? = some m.router := by
    rw [List.getElem?_map, hm, Option.map_some]
  obtain ⟨hlt, hget⟩ := List.getElem?_eq_some_iff.mp hsame
  constructor
  · rw [List.map_set, hrouter, ← hget, List.set_getElem_self, h.routers]
  · intro other hother
    obtain hother | rfl := List.mem_or_eq_of_mem_set hother
    · exact h.clean other hother
    · exact hclean

end IsPool

/-- Members that are built alike, under their names, are a pool. -/
theorem isPool_build {σ : Type} (config : RouterConfig) {peers : List String} (hpeers : peers ≠ [])
    (names : List String) {buffers : Option BufferPool} (hclean : ∀ pool ∈ buffers, pool.Clean)
    (store : σ) :
    IsPool config peers names (names.map fun name =>
      Member.build { identity := name, config, pool := peers, buffers, store }) := by
  constructor
  · rw [List.map_map]
    exact List.map_congr_left fun name _ => Member.router_build config hpeers name buffers store
  · intro m hm
    obtain ⟨name, -, rfl⟩ := List.mem_map.mp hm
    exact hclean

/-! ## Serving -/

section Serving

variable {σ : Type} [ByteStore σ] {config : RouterConfig} {peers names : List String}
  {m m' : Member σ} {sent : Request} {frames : List Frame}

/-- What serving a request makes of a member: a refusal, or a visit of what arrived. -/
inductive Handled (arrives : Request → Prop) (origin : Origin) (now : Nat) (m m' : Member σ) :
    List Request → Prop
  | refused (h : m'.store = m.store) : Handled arrives origin now m m' []
  | visited {seen : Request} (ha : arrives seen)
    (h : m'.store = (attempt origin now m.store seen).store) :
    Handled arrives origin now m m' (attempt origin now m.store seen).asked

/-- Serving changes the store and the buffers of a member, and leaves the buffers empty. -/
theorem Member.serve_inv (origin : Origin) (now : Nat) (hclean : ∀ pool ∈ m.buffers, pool.Clean)
    (hbody : ∀ body, Frame.collect frames = .ok body → body = sent.body) :
    (m.serve origin now sent frames).2.2.router = m.router ∧
      (∀ pool ∈ (m.serve origin now sent frames).2.2.buffers, pool.Clean) ∧
      Handled (fun seen => Boundary.accept m.path sent = .ok seen) origin now m
        (m.serve origin now sent frames).2.2 (m.serve origin now sent frames).2.1.asked := by
  obtain ⟨hcollect, hafter⟩ := Frame.collectBody_eq hclean frames
  refine ⟨rfl, hafter, ?_⟩
  simp only [serve, Boundary.serve, hcollect]
  cases hframes : Frame.collect frames with
  | error e => exact .refused rfl
  | ok body =>
    obtain rfl := hbody body hframes
    obtain ⟨hasked, hstore⟩ | ⟨seen, haccept, hasked, hstore⟩ :=
      (Boundary.attempt_ends m.path origin now m.store sent).asked_store
    · dsimp only
      rw [hasked]
      exact .refused hstore
    · dsimp only
      rw [hasked]
      exact .visited haccept hstore

end Serving

theorem Handled.imp {σ : Type} [ByteStore σ] {p q : Request → Prop} {origin : Origin} {now : Nat}
    {m m' : Member σ} {asked : List Request} (h : Handled p origin now m m' asked)
    (hpq : ∀ seen, p seen → q seen) : Handled q origin now m m' asked := by
  cases h with
  | refused h => exact .refused h
  | visited ha h => exact .visited (hpq _ ha) h

/-! ## Steps -/

section Steps

variable {σ : Type} [ByteStore σ] {config : RouterConfig} {peers names : List String} {t : Trip}
  {members after : List (Member σ)} {m m' : Member σ} {asked : List (Nat × Request)} {i : Nat}

/-- What a trip does to the members: nothing, or the owner of the resource serves what arrives
of the request. -/
inductive Stepped (config : RouterConfig) (peers names : List String) (t : Trip)
    (members : List (Member σ)) : List (Nat × Request) → List (Member σ) → Prop
  | idle : Stepped config peers names t members [] members
  | served {i : Nat} {m m' : Member σ} {asked : List Request}
    (ho : Owns config peers names t.req.uri.text i) (hm : members[i]? = some m)
    (hrouter : m'.router = m.router) (hclean : ∀ pool ∈ m'.buffers, pool.Clean)
    (h : Handled (Arrives config peers t.req) (t.origins i) t.now m m' asked) :
    Stepped config peers names t members (asked.map (i, ·)) (members.set i m')

namespace Trip

/-- A request that was forwarded is handed to the owner of its resource. -/
theorem stepped_deliver {name peer : String} {sent : Request}
    (h : IsPool config peers names members) (hd : t.Delivers names)
    (hroute : (Router.within config peers name).route t.req = .ok (.forward peer sent)) :
    Stepped config peers names t members (t.deliver members sent).asked
      (t.deliver members sent).members := by
  obtain ⟨howner, -, hsent⟩ := Router.route_eq_forward hroute
  obtain ⟨base, hbase, hauthority, -⟩ := Router.target_of_forwardTo hsent
  rw [deliver, hauthority, Option.getD_some]
  cases hreach : t.reach (String.ofList base.authorityText) with
  | none => exact .idle
  | some i =>
    cases hm : members[i]? with
    | none =>
      simp only [Option.bind_eq_bind, Option.bind_some, hm, Option.bind_none]
      exact .idle
    | some m =>
      simp only [Option.bind_eq_bind, Option.bind_some, hm, Option.pure_def]
      obtain ⟨hrouter, hclean, hhandled⟩ := Member.serve_inv (t.origins i) t.now
        (h.clean m (List.mem_of_getElem? hm)) (hd.body sent)
      obtain ⟨target, htarget, hreached⟩ := hd.authority _ i hreach
      obtain ⟨own, -, hwithin⟩ := h.router hm
      have hpeer : authorityOf? peer = some (String.ofList base.authorityText) := by
        rw [authorityOf?, hbase]
      have hpath : m.path = config.path := by
        rw [Member.path, hwithin, Router.within]
      refine .served ⟨peer, target, _, howner, htarget, hpeer, hreached⟩ hm hrouter hclean ?_
      refine hhandled.imp fun seen haccept => ?_
      rw [hpath] at haccept
      exact .forwarded hroute haccept

/-- One trip of a pool. -/
theorem stepped (hnames : AreNames names) (h : IsPool config peers names members)
    (hd : t.Delivers names) :
    Stepped config peers names t members (t.step members).asked (t.step members).members := by
  rw [step]
  cases hm : members[t.entry]? with
  | none => exact .idle
  | some m =>
    obtain ⟨name, hname, hwithin⟩ := h.router hm
    dsimp only
    cases hroute : m.router.route t.req with
    | error e => exact .idle
    | ok route =>
      rw [hwithin] at hroute
      cases route with
      | here =>
        obtain ⟨owner, howner, hidentity⟩ := Router.route_eq_here hroute
        obtain rfl := Option.some.inj hidentity
        have hown : Owns config peers names t.req.uri.text t.entry :=
          (owns_iff hnames howner hname).mpr rfl
        exact .served hown hm rfl (h.clean m (List.mem_of_getElem? hm))
          (.visited (.direct hroute) rfl)
      | forward peer sent => exact stepped_deliver h hd hroute

end Trip

namespace Stepped

theorem isPool (hs : Stepped config peers names t members asked after)
    (h : IsPool config peers names members) : IsPool config peers names after := by
  cases hs with
  | idle => exact h
  | served ho hm hrouter hclean hhandled => exact h.set hm hrouter hclean

/-- Who does not own the resource stays as it is, and its origin sees nothing. -/
theorem untouched (hs : Stepped config peers names t members asked after)
    (hi : ¬Owns config peers names t.req.uri.text i) :
    after[i]? = members[i]? ∧ ∀ call ∈ asked, call.1 ≠ i := by
  cases hs with
  | idle => exact ⟨rfl, fun call hcall => nomatch hcall⟩
  | @served j m m' asked ho hm hrouter hclean hhandled =>
    have hne : j ≠ i := by
      rintro rfl
      exact hi ho
    refine ⟨List.getElem?_set_ne hne, ?_⟩
    intro call hcall
    obtain ⟨req, -, rfl⟩ := List.mem_map.mp hcall
    exact hne

end Stepped

end Steps

/-! ## Runs -/

/-- A visit that a trip brings to the cache of a member: it is for a resource that the member owns,
and for what arrives there of the request. -/
structure Visit.ComesFrom (config : RouterConfig) (peers names : List String) (i : Nat) (v : Visit)
    (t : Trip) : Prop where
  owns : Owns config peers names t.req.uri.text i
  arrives : Arrives config peers t.req v.req
  origin : v.origin = t.origins i
  now : v.now = t.now

/-- A store is what a run of visits leaves, each of which one of the trips brought to the member, in
the order of the trips. -/
def Produced {σ : Type} [ByteStore σ] (config : RouterConfig) (peers names : List String)
    (trips : List Trip) (i : Nat) (start store : σ) : Prop :=
  ∃ visits, List.SublistForall₂ (Visit.ComesFrom config peers names i) visits trips ∧
    store = visited start visits

section Runs

variable {σ : Type} [ByteStore σ] {config : RouterConfig} {peers names : List String} {t : Trip}
  {members after : List (Member σ)} {trips : List Trip} {asked : List (Nat × Request)}
  {i : Nat} {start store : σ}

/-- A trip that brings nothing to a member leaves what its store is made by. -/
theorem Produced.mono (h : Produced config peers names trips i start store) (t : Trip) :
    Produced config peers names (trips ++ [t]) i start store := by
  obtain ⟨visits, hbrought, hstore⟩ := h
  obtain ⟨taken, hpairs, hsub⟩ := List.sublistForall₂_iff.mp hbrought
  have hmore := hsub.trans (List.sublist_append_left trips [t])
  exact ⟨visits, List.sublistForall₂_iff.mpr ⟨taken, hpairs, hmore⟩, hstore⟩

theorem Produced.visit (h : Produced config peers names trips i start store) {v : Visit}
    (hv : v.ComesFrom config peers names i t) :
    Produced config peers names (trips ++ [t]) i start (v.attempt store).store := by
  obtain ⟨visits, hbrought, rfl⟩ := h
  obtain ⟨taken, hpairs, hsub⟩ := List.sublistForall₂_iff.mp hbrought
  refine ⟨visits ++ [v], List.sublistForall₂_iff.mpr ⟨taken ++ [t], ?_, ?_⟩, ?_⟩
  · exact List.rel_append hpairs (.cons hv .nil)
  · exact hsub.append (List.Sublist.refl [t])
  · rw [visited_concat]

/-- A step adds to what a member's store is made by at most a visit for what the member owns. -/
theorem Stepped.produced (hs : Stepped config peers names t members asked after)
    (h : ∀ m, members[i]? = some m → Produced config peers names trips i start m.store) :
    ∀ m, after[i]? = some m → Produced config peers names (trips ++ [t]) i start m.store := by
  cases hs with
  | idle => exact fun m hm => (h m hm).mono t
  | @served j m m' asked ho hm hrouter hclean hhandled =>
    intro other hother
    by_cases hne : j = i
    · subst hne
      have hlt := (List.getElem?_eq_some_iff.mp hm).1
      rw [List.getElem?_set_self hlt] at hother
      obtain rfl := Option.some.inj hother
      cases hhandled with
      | refused hstore =>
        rw [hstore]
        exact (h m hm).mono t
      | @visited seen ha hstore =>
        let v : Visit := { origin := t.origins j, now := t.now, req := seen }
        rw [hstore]
        exact (h m hm).visit (v := v) ⟨ho, ha, rfl, rfl⟩
    · rw [List.getElem?_set_ne hne] at hother
      exact (h other hother).mono t

namespace Trip

theorem run_append (members : List (Member σ)) (trips : List Trip) (t : Trip) :
    run members (trips ++ [t]) = (t.step (run members trips)).members := by
  rw [run, List.foldl_append]
  rfl

/-- The members stay a pool. -/
theorem isPool_run (hnames : AreNames names) (h : IsPool config peers names members)
    (hd : ∀ t ∈ trips, t.Delivers names) :
    IsPool config peers names (run members trips) := by
  induction trips generalizing members with
  | nil => exact h
  | cons t trips ih =>
    rw [List.forall_mem_cons] at hd
    exact ih ((stepped hnames h hd.1).isPool h) hd.2

/-- The store of a member is made by visits for what the member owns. -/
theorem produced_run (hnames : AreNames names) (h : IsPool config peers names members)
    (hd : ∀ t ∈ trips, t.Delivers names) {m : Member σ} (hm : members[i]? = some m) :
    ∀ m', (run members trips)[i]? = some m' →
      Produced config peers names trips i m.store m'.store := by
  induction trips using List.reverseRecOn with
  | nil =>
    intro m' hm'
    obtain rfl := Option.some.inj (hm.symm.trans hm')
    exact ⟨[], .nil, rfl⟩
  | append_singleton trips t ih =>
    have hbefore : ∀ t ∈ trips, t.Delivers names :=
      fun t ht => hd t (List.mem_append_left _ ht)
    have hlast : t.Delivers names := hd t (List.mem_append_right _ List.mem_cons_self)
    rw [run_append]
    have hs := stepped hnames (isPool_run hnames h hbefore) hlast
    exact hs.produced (ih hbefore)

end Trip

end Runs

/-- A trip leaves everything alone but what belongs to the one owner of its resource, which is
the member that the ring names if there is one of that name. -/
structure Trip.LeavesOthers {σ : Type} [ByteStore σ] (config : RouterConfig)
    (peers names : List String) (t : Trip) (members : List (Member σ)) : Prop where
  unique : ∀ i j, Owns config peers names t.req.uri.text i →
    Owns config peers names t.req.uri.text j → i = j
  named : ∀ owner i, ((Router.new config).setPool peers).owner? t.req.uri.text = some owner →
    names[i]? = some owner → Owns config peers names t.req.uri.text i
  same : ∀ i, ¬Owns config peers names t.req.uri.text i →
    (t.step members).members[i]? = members[i]?
  silent : ∀ i, ¬Owns config peers names t.req.uri.text i →
    ∀ call ∈ (t.step members).asked, call.1 ≠ i

theorem Trip.leavesOthers {σ : Type} [ByteStore σ] {config : RouterConfig}
    {peers names : List String} {t : Trip} {members : List (Member σ)} (hnames : AreNames names)
    (h : IsPool config peers names members) (hd : t.Delivers names) :
    t.LeavesOthers config peers names members := by
  have hs := stepped hnames h hd
  constructor
  · intro i j hi hj
    exact hi.unique hnames hj
  · intro owner i howner hname
    exact (owns_iff hnames howner hname).mpr rfl
  · intro i hi
    exact (hs.untouched hi).1
  · intro i hi
    exact (hs.untouched hi).2

/-! ## Contents of stores -/

/-- Every entry in the store of a member has its lineage in a run of visits that the trips brought
to the member: it shows an answer of the member's own origin to what arrived of a request for a
resource that the member owns. -/
def Stack.HoldsOwned (s : Stack) (config : RouterConfig) (peers names : List String)
    (trips : List Trip) (i : Nat) (store : s.State) : Prop :=
  ∃ visits, List.SublistForall₂ (Visit.ComesFrom config peers names i) visits trips ∧
    s.Knows (turns s.initial visits) store

theorem Produced.holdsOwned {s : Stack} {config : RouterConfig} {peers names : List String}
    {trips : List Trip} {i : Nat} {store : s.State}
    (h : Produced config peers names trips i s.initial store) :
    s.HoldsOwned config peers names trips i store := by
  obtain ⟨visits, hbrought, rfl⟩ := h
  exact ⟨visits, hbrought, knows_visited s visits⟩

/-- Only the owner caches. In a pool, over any network that hands a request to the member whose
authority it names, each of a sequence of requests that enter anywhere leaves all members alone
but the one that owns its resource, and calls no other origin. So the store of a member is made
by visits for what the member owns, and layers that were empty hold nothing else. -/
theorem only_owner_caches {config : RouterConfig} {peers names : List String} {trips : List Trip}
    (hnames : AreNames names) (hd : ∀ t ∈ trips, t.Delivers names) :
    (∀ (σ : Type) [ByteStore σ] (members : List (Member σ)), IsPool config peers names members →
      (∀ done t rest, trips = done ++ t :: rest →
        t.LeavesOthers config peers names (Trip.run members done)) ∧
      ∀ i m m', members[i]? = some m → (Trip.run members trips)[i]? = some m' →
        Produced config peers names trips i m.store m'.store) ∧
    ∀ (s : Stack) (members : List (Member s.State)), IsPool config peers names members →
      ∀ i m m', members[i]? = some m → m.store = s.initial →
        (Trip.run members trips)[i]? = some m' →
          s.HoldsOwned config peers names trips i m'.store := by
  constructor
  · intro σ _ members hpool
    constructor
    · rintro done t rest rfl
      have hbefore : ∀ t ∈ done, t.Delivers names :=
        fun t ht => hd t (List.mem_append_left _ ht)
      have hlast := hd t (List.mem_append_right _ List.mem_cons_self)
      exact Trip.leavesOthers hnames (Trip.isPool_run hnames hpool hbefore) hlast
    · intro i m m' hm hm'
      exact Trip.produced_run hnames hpool hd hm m' hm'
  · intro s members hpool i m m' hm hempty hm'
    have hproduced := Trip.produced_run hnames hpool hd hm m' hm'
    rw [hempty] at hproduced
    exact hproduced.holdsOwned

/-! ## Two members -/

namespace SharedPool

open Sample

def config : RouterConfig := { replicas := 1 }

/-- The second name states the port that its scheme implies; the authority is `q.test`. -/
def names : List String := ["http://p.test", "http://q.test:80/"]

/-- The address of a host. -/
def address (host : String) : Url where
  scheme := "http"
  userinfo := ""
  host
  port := none
  path := "/"
  query := none
  fragment := none

def members : List (Member Memory) :=
  names.map fun name =>
    Member.build
      { identity := name, config, pool := names, buffers := some { size := 8 }, store := .empty }

/-- A request that enters at one of the members; each origin has an answer of its own, which is
fresh for a minute. -/
def trip (entry : Nat) : Trip where
  entry
  req := Sample.request []
  now := 0
  origins i _ :=
    .ok (response .ok [(.date, epoch), (.cacheControl, value "max-age=60")] (utf8 (Nat.repr i)))
  reach := reachAll names
  frames sent := [.data (sent.body.take 1), .trailers .empty, .data (sent.body.drop 1)]

theorem delivers_trip (entry : Nat) : (trip entry).Delivers names where
  authority _ _ h := reachAll_inv h
  body sent body h := by
    have hwhole : sent.body.take 1 ++ (sent.body.drop 1 ++ []) = body := Except.ok.inj h
    rw [← hwhole, List.append_nil, List.take_append_drop]

end SharedPool

open SharedPool in
/-- The second member owns the resource. It fetches it when the request enters at the first one,
and has it when the request enters anew. -/
theorem owner_fetches_for_both :
    AreNames names ∧ IsPool config names names members ∧
      (∀ t ∈ [trip 0, trip 1], t.Delivers names) ∧
      (∀ i, Owns config names names (trip 0).req.uri.text i ↔ i = 1) ∧
      ((trip 0).step members).members[0]? = members[0]? ∧
      ((trip 0).step members).asked.map Prod.fst = [1] ∧
      ((trip 1).step (Trip.run members [trip 0])).members[0]? =
        (Trip.run members [trip 0])[0]? ∧
      ((trip 1).step (Trip.run members [trip 0])).asked = [] ∧
      (Trip.run members [trip 0, trip 1]).map (fun m => m.store.entries.map Prod.fst) =
        [[], ["http://o.test/"]] ∧
      ∀ m, (Trip.run members [trip 0, trip 1])[1]? = some m →
        Stack.memory.HoldsOwned config names names [trip 0, trip 1] 1 m.store := by
  have hnames : AreNames names := by
    refine ⟨?_, by decide +kernel⟩
    rw [names, List.forall_mem_cons, List.forall_mem_singleton]
    exact ⟨⟨address "p.test", by decide +kernel⟩, ⟨address "q.test", by decide +kernel⟩⟩
  have hpool : IsPool config names names members := by
    refine isPool_build config (List.cons_ne_nil _ _) names ?_ Memory.empty
    intro pool hpool
    obtain rfl := Option.some.inj hpool
    exact BufferPool.clean_new 8
  have hd : ∀ t ∈ [trip 0, trip 1], t.Delivers names := by
    rw [List.forall_mem_cons, List.forall_mem_singleton]
    exact ⟨delivers_trip 0, delivers_trip 1⟩
  have howner : ((Router.new config).setPool names).owner? (trip 0).req.uri.text =
      some "http://q.test:80/" := by
    decide +kernel
  have howns : ∀ i, Owns config names names (trip 0).req.uri.text i ↔ i = 1 :=
    fun i => owns_iff hnames howner rfl
  have hnot : ¬Owns config names names (trip 0).req.uri.text 0 := by
    rw [howns]
    decide
  obtain ⟨hany, hstack⟩ := only_owner_caches hnames hd
  obtain ⟨hsteps, -⟩ := hany Memory members hpool
  have hfirst := hsteps [] (trip 0) [trip 1] rfl
  have hsecond := hsteps [trip 0] (trip 1) [] rfl
  have hholds : ∀ m, (Trip.run members [trip 0, trip 1])[1]? = some m →
      Stack.memory.HoldsOwned config names names [trip 0, trip 1] 1 m.store :=
    fun m hm => hstack .memory members hpool 1 _ m rfl rfl hm
  exact ⟨hnames, hpool, hd, howns, hfirst.same 0 hnot, by decide +kernel,
    hsecond.same 0 hnot, by decide +kernel, by decide +kernel, hholds⟩

end PeerCache

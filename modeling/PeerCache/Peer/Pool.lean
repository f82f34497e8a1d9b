import PeerCache.Peer.Member

/-!
# Pools

Members wired to each other. A request that a member forwards is handed to the boundary of
the member that it is addressed to, unless that one is unplugged. A client outside the pool
has a router of its own and no cache.
-/

namespace PeerCache

structure Pool (σ : Type) where
  /-- Members with the address that each of them is reached at. -/
  members : List (String × Member σ)
  client : Router
  /-- Authorities of the members that are unplugged. -/
  down : List String := []

/-- What a request that entered a pool came to. -/
structure PoolStep (σ : Type) where
  /-- The answer, unless the cache that it was to come from broke off. -/
  answer? : Option Answer
  /-- Requests that went from one side to another. -/
  hops : List Request := []
  asked : List Request := []
  pool : Pool σ

namespace Pool

variable {σ : Type}

/-- The part of an address behind the slashes. -/
def authorityOf (url : String) : List Char :=
  let text := url.toList
  match text.dropWhile (· != ':') with
  | ':' :: '/' :: '/' :: rest => rest
  | _ => text

/-- The number of the member that an authority names, if it can be reached. -/
def find? (pool : Pool σ) (authority : String) : Option Nat :=
  if pool.down.contains authority then none
  else pool.members.findIdx? fun m => authorityOf m.1 = authority.toList

def setMember (pool : Pool σ) (i : Nat) (m : Member σ) : Pool σ :=
  { pool with members := pool.members.modify i fun entry => (entry.1, m) }

/-- Tell the client and some of the members who is in the pool. -/
def setPool (pool : Pool σ) (peers : List String) (told : Nat → Bool) : Pool σ :=
  { pool with
    client := pool.client.setPool peers
    members := pool.members.zipIdx.map fun (entry, i) =>
      if told i then (entry.1, entry.2.setPool peers) else entry }

def unplug (pool : Pool σ) (authority : String) : Pool σ :=
  { pool with down := authority :: pool.down }

variable [ByteStore σ]

/-- Hand a forwarded request to the boundary that it is addressed to. -/
def deliver (pool : Pool σ) (origin : Origin) (now : Nat) (sent : Request) : PoolStep σ :=
  let authority := sent.uri.authority.getD ""
  let target := do
    let i ← pool.find? authority
    let entry ← pool.members[i]?
    return (i, entry.2)
  match target with
  | none =>
    { answer? := some (.error (.body ("unreachable " ++ authority))), hops := [sent], pool }
  | some (i, m) =>
    let (resp, handling, m) := m.serve origin now sent [.data sent.body]
    { answer? := resp.map .ok, hops := [sent], asked := handling.asked, pool := pool.setMember i m }

/-- Send a request that enters at a member, or at the client when no member is named. -/
def roundTrip (pool : Pool σ) (origin : Origin) (now : Nat) (entry : Option Nat)
    (req : Request) : PoolStep σ :=
  let member := entry.bind fun i => pool.members[i]?.map fun m => (i, m.2)
  let router := (member.map fun m => m.2.router).getD pool.client
  match router.route req, member with
  | .error e, _ => { answer? := some (.error e), pool }
  | .ok (.forward _ sent), _ => pool.deliver origin now sent
  | .ok .here, some (i, m) =>
    let r := m.serveLocally origin now req
    { answer? := r.answer?, asked := r.asked, pool := pool.setMember i r.member }
  | .ok .here, none => { answer? := some (.error .noPeers), pool }

end Pool

end PeerCache

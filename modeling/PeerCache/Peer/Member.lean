import PeerCache.Peer.Boundary
import PeerCache.Peer.Router

/-!
# Members

A member of a pool is a router and a boundary under one identity. Requests that enter at a
member go to their owner; those that it owns are answered by its own cache, the one that its
boundary serves to the others.
-/

namespace PeerCache

structure Member (σ : Type) where
  router : Router
  buffers : Option BufferPool := none
  store : σ

/-- What a member is built from. A router that is given brings its own settings and pool. -/
structure MemberPlan (σ : Type) where
  identity : String
  config : RouterConfig := {}
  router : Option Router := none
  pool : List String := []
  buffers : Option BufferPool := none
  store : σ

/-- What a request that entered at a member came to. -/
structure MemberStep (σ : Type) where
  /-- The answer, unless the member's own cache broke off. -/
  answer? : Option Answer
  /-- Requests that the member's origin saw. -/
  asked : List Request := []
  /-- Requests that went out to other peers. -/
  sent : List Request := []
  member : Member σ

namespace Member

variable {σ : Type}

/-- The router of the plan under the plan's identity; a pool that is given replaces the one
that the router had. -/
def build (plan : MemberPlan σ) : Member σ :=
  let router := { plan.router.getD (Router.new plan.config) with identity := some plan.identity }
  { router := if plan.pool.isEmpty then router else router.setPool plan.pool
    buffers := plan.buffers
    store := plan.store }

def identity (m : Member σ) : String :=
  m.router.identity.getD ""

/-- The path that the boundary serves. -/
def path (m : Member σ) : String :=
  m.router.config.path

def setPool (m : Member σ) (peers : List String) : Member σ :=
  { m with router := m.router.setPool peers }

variable [ByteStore σ]

/-- Answer a request from the member's own cache. -/
def serveLocally (m : Member σ) (origin : Origin) (now : Nat) (req : Request) : MemberStep σ :=
  let r := attempt origin now m.store req
  { answer? := r.answer?, asked := r.asked, member := { m with store := r.store } }

/-- Serve a request that another peer sent to the boundary. -/
def serve (m : Member σ) (origin : Origin) (now : Nat) (req : Request) (frames : List Frame) :
    Option Response × Boundary.Handling σ × Member σ :=
  let (resp, handling, buffers) :=
    Boundary.serve m.path origin now m.store m.buffers req frames
  (resp, handling, { m with store := handling.store, buffers })

/-- Send a request that enters at the member; `network` answers what goes to other peers. -/
def roundTrip (m : Member σ) (origin network : Origin) (now : Nat) (req : Request) :
    MemberStep σ :=
  match m.router.route req with
  | .error e => { answer? := some (.error e), member := m }
  | .ok .here => m.serveLocally origin now req
  | .ok (.forward _ sent) => { answer? := some (network sent), sent := [sent], member := m }

end Member

end PeerCache

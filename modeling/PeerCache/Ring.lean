import PeerCache.Digest.Crc32
import PeerCache.Text.Quoted

/-!
# Hash ring

A ring of 32-bit positions decides which peer owns a key. Every peer takes one position per
replica, the hash of the replica's number followed by the peer's name; a key belongs to the
first occupied position at or after its own hash, and past the last one to the first.

Positions are kept in ascending order with one peer each. When two peers meet on a
position, the one added later holds it.
-/

namespace PeerCache

structure Ring where
  replicas : Nat
  hash : Bytes → UInt32
  /-- Distinct peers in the order they were added. -/
  peers : List String
  /-- Occupied positions in ascending order. -/
  positions : List (UInt32 × String)

namespace Ring

def defaultReplicas : Nat := 50

def empty (replicas : Nat) (hash : Bytes → UInt32) : Ring :=
  { replicas, hash, peers := [], positions := [] }

/-- Give a position to a peer, taking it from the one that held it. -/
def occupy (position : UInt32) (peer : String) :
    List (UInt32 × String) → List (UInt32 × String)
  | [] => [(position, peer)]
  | held :: rest =>
    if position < held.1 then (position, peer) :: held :: rest
    else if position = held.1 then (position, peer) :: rest
    else held :: occupy position peer rest

/-- Position of the `i`-th replica of a peer. -/
def position (ring : Ring) (peer : String) (i : Nat) : UInt32 :=
  ring.hash (utf8 (Nat.repr i ++ peer))

/-- Add one peer; a peer already on the ring is left as it is. -/
def addPeer (ring : Ring) (peer : String) : Ring :=
  if peer ∈ ring.peers then ring
  else
    { ring with
      peers := ring.peers ++ [peer]
      positions := (List.range ring.replicas).foldl
        (fun held i => occupy (ring.position peer i) peer held) ring.positions }

def add (ring : Ring) (peers : List String) : Ring :=
  peers.foldl addPeer ring

def ofPeers (replicas : Nat) (hash : Bytes → UInt32) (peers : List String) : Ring :=
  (empty replicas hash).add peers

/-- The peer that owns a key, or nothing when no position is occupied. -/
def owner? (ring : Ring) (key : String) : Option String :=
  let start := ring.hash (utf8 key)
  match ring.positions.find? fun held => start ≤ held.1 with
  | some held => some held.2
  | none => ring.positions.head?.map (·.2)

def isEmpty (ring : Ring) : Bool :=
  ring.positions.isEmpty

def peerCount (ring : Ring) : Nat :=
  ring.peers.length

/-- Number of occupied positions. -/
def positionCount (ring : Ring) : Nat :=
  ring.positions.length

/-- The ring as diagnostics show it. -/
def describe (ring : Ring) : String :=
  "Ring \x7b peers: " ++ Text.quotedList ring.peers ++ ", replicas: " ++ Nat.repr ring.replicas ++
    ", vnodes: " ++ Nat.repr ring.positionCount ++ " \x7d"

@[simp] theorem add_nil (ring : Ring) : ring.add [] = ring := rfl

@[simp] theorem add_cons (ring : Ring) (peer : String) (peers : List String) :
    ring.add (peer :: peers) = (ring.addPeer peer).add peers := rfl

@[simp] theorem replicas_addPeer (ring : Ring) (peer : String) :
    (ring.addPeer peer).replicas = ring.replicas := by
  unfold addPeer; split <;> rfl

@[simp] theorem hash_addPeer (ring : Ring) (peer : String) :
    (ring.addPeer peer).hash = ring.hash := by
  unfold addPeer; split <;> rfl

end Ring

end PeerCache

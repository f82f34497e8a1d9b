import PeerCache.Ring

/-!
# Laws of the hash ring

Who can own a key. Every occupied position belongs to a peer of the ring, and a ring of some
peers with replicas has an occupied position, so each of its keys has an owner among them.
-/

namespace PeerCache.Ring

variable {position : UInt32} {peer key : String} {held : UInt32 × String}
  {positions : List (UInt32 × String)} {ring : Ring}

/-! ## Positions -/

theorem mem_occupy (h : held ∈ occupy position peer positions) :
    held = (position, peer) ∨ held ∈ positions := by
  induction positions with
  | nil => exact .inl (List.mem_singleton.mp h)
  | cons first rest ih =>
    rw [occupy] at h
    split at h
    · exact List.mem_cons.mp h
    split at h
    · exact (List.mem_cons.mp h).imp_right (List.mem_cons_of_mem first)
    · obtain rfl | h := List.mem_cons.mp h
      · exact .inr List.mem_cons_self
      · exact (ih h).imp_right (List.mem_cons_of_mem first)

theorem occupy_ne_nil (position : UInt32) (peer : String) (positions : List (UInt32 × String)) :
    occupy position peer positions ≠ [] := by
  cases positions with
  | nil => exact List.cons_ne_nil _ _
  | cons first rest =>
    rw [occupy]
    split
    · exact List.cons_ne_nil _ _
    split <;> exact List.cons_ne_nil _ _

/-- The positions after a peer has taken those of some of its replicas. -/
def occupyAll (ring : Ring) (peer : String) (numbers : List Nat)
    (positions : List (UInt32 × String)) : List (UInt32 × String) :=
  numbers.foldl (fun held i => occupy (ring.position peer i) peer held) positions

theorem mem_occupyAll {numbers : List Nat} (h : held ∈ ring.occupyAll peer numbers positions) :
    held.2 = peer ∨ held ∈ positions := by
  induction numbers generalizing positions with
  | nil => exact .inr h
  | cons i numbers ih =>
    obtain hpeer | h := ih h
    · exact .inl hpeer
    · obtain rfl | h := mem_occupy h
      · exact .inl rfl
      · exact .inr h

theorem occupyAll_ne_nil {numbers : List Nat} (h : numbers ≠ [] ∨ positions ≠ []) :
    ring.occupyAll peer numbers positions ≠ [] := by
  induction numbers generalizing positions with
  | nil => exact h.resolve_left fun hne => hne rfl
  | cons i numbers ih => exact ih (.inr (occupy_ne_nil _ peer positions))

/-! ## Owners -/

/-- Positions belong to peers of the ring, and peers that have replicas hold a position. -/
structure Sound (ring : Ring) : Prop where
  held : ∀ held ∈ ring.positions, held.2 ∈ ring.peers
  occupied : ring.peers ≠ [] → 0 < ring.replicas → ring.positions ≠ []

theorem sound_empty (replicas : Nat) (hash : Bytes → UInt32) : (empty replicas hash).Sound where
  held _ h := by cases h
  occupied h := absurd rfl h

theorem Sound.addPeer (h : ring.Sound) (peer : String) : (ring.addPeer peer).Sound := by
  rw [Ring.addPeer]
  split
  · exact h
  · constructor
    · intro held hheld
      obtain rfl | hheld := mem_occupyAll hheld
      · exact List.mem_append_right _ List.mem_cons_self
      · exact List.mem_append_left _ (h.held held hheld)
    · intro _ hreplicas
      refine occupyAll_ne_nil (.inl fun hnil => ?_)
      exact Nat.ne_of_gt hreplicas (List.range_eq_nil.mp hnil)

theorem Sound.add (h : ring.Sound) (peers : List String) : (ring.add peers).Sound := by
  induction peers generalizing ring with
  | nil => exact h
  | cons peer peers ih => exact ih (h.addPeer peer)

theorem mem_peers_addPeer {name : String} :
    name ∈ (ring.addPeer peer).peers ↔ name ∈ ring.peers ∨ name = peer := by
  rw [addPeer]
  split
  · next hmem =>
    refine ⟨.inl, ?_⟩
    rintro (h | rfl)
    · exact h
    · exact hmem
  · simp

theorem mem_peers_add {name : String} (peers : List String) :
    name ∈ (ring.add peers).peers ↔ name ∈ ring.peers ∨ name ∈ peers := by
  induction peers generalizing ring with
  | nil => simp
  | cons peer peers ih =>
    rw [add_cons, ih, mem_peers_addPeer, List.mem_cons, or_assoc]

theorem replicas_add (ring : Ring) (peers : List String) :
    (ring.add peers).replicas = ring.replicas := by
  induction peers generalizing ring with
  | nil => rfl
  | cons peer peers ih => rw [add_cons, ih, replicas_addPeer]

theorem owner?_mem_positions (h : ring.positions ≠ []) (key : String) :
    ∃ held ∈ ring.positions, ring.owner? key = some held.2 := by
  rw [owner?]
  split
  · next held hfound => exact ⟨held, List.mem_of_find?_eq_some hfound, rfl⟩
  · cases hpositions : ring.positions with
    | nil => exact absurd hpositions h
    | cons first rest => exact ⟨first, List.mem_cons_self, rfl⟩

/-- Every key has an owner among the peers that a ring is made of. -/
theorem exists_owner {replicas : Nat} (hreplicas : 0 < replicas) (hash : Bytes → UInt32)
    {peers : List String} (hpeers : peers ≠ []) (key : String) :
    ∃ owner ∈ peers, (ofPeers replicas hash peers).owner? key = some owner := by
  have hmem (name : String) : name ∈ (ofPeers replicas hash peers).peers ↔ name ∈ peers := by
    rw [ofPeers, mem_peers_add]
    exact or_iff_right List.not_mem_nil
  have hsound : (ofPeers replicas hash peers).Sound := (sound_empty replicas hash).add peers
  obtain ⟨name, hname⟩ := List.exists_mem_of_ne_nil peers hpeers
  have hsome : (ofPeers replicas hash peers).peers ≠ [] :=
    List.ne_nil_of_mem ((hmem name).mpr hname)
  have hkept : 0 < (ofPeers replicas hash peers).replicas := by
    rw [ofPeers, replicas_add]
    exact hreplicas
  obtain ⟨held, hheld, howner⟩ := owner?_mem_positions (hsound.occupied hsome hkept) key
  exact ⟨held.2, (hmem held.2).mp (hsound.held held hheld), howner⟩

end PeerCache.Ring

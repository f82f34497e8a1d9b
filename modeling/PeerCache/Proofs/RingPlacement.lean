import PeerCache.Proofs.RingLaws

/-!
# Placement on the ring

A ring seen through its list of peers. Its positions ascend, and each is held by the last of
the peers that take it, in the order in which they were added. A key is looked up clockwise:
the position found is the occupied one at the smallest distance ahead of the key. Distances are
differences of 32-bit numbers, which wrap, so a walk past the last position needs no case of
its own.
-/

namespace PeerCache.Ring

variable {replicas : Nat} {hash : Bytes → UInt32} {peers : List String} {peer owner key : String}
  {position start : UInt32} {held : UInt32 × String} {positions : List (UInt32 × String)}
  {ring : Ring}

/-! ## Positions -/

def Ascending (positions : List (UInt32 × String)) : Prop :=
  positions.Pairwise fun a b => a.1 < b.1

theorem Ascending.occupy (h : Ascending positions) (position : UInt32) (peer : String) :
    Ascending (occupy position peer positions) := by
  induction positions with
  | nil => exact List.pairwise_singleton _ _
  | cons first rest ih =>
    obtain ⟨hfirst, hrest⟩ := List.pairwise_cons.mp h
    rw [Ring.occupy]
    split
    · next hlt =>
      refine List.pairwise_cons.mpr ⟨fun held hheld => ?_, h⟩
      obtain rfl | hheld := List.mem_cons.mp hheld
      · exact hlt
      · exact UInt32.lt_trans hlt (hfirst held hheld)
    split
    · next heq =>
      subst heq
      exact List.pairwise_cons.mpr ⟨hfirst, hrest⟩
    · next hlt hne =>
      refine List.pairwise_cons.mpr ⟨fun held hheld => ?_, ih hrest⟩
      obtain rfl | hheld := mem_occupy hheld
      · exact UInt32.lt_of_le_of_ne (UInt32.not_lt.mp hlt) (Ne.symm hne)
      · exact hfirst held hheld

theorem Ascending.occupyAll (h : Ascending positions) (ring : Ring) (peer : String)
    (numbers : List Nat) : Ascending (ring.occupyAll peer numbers positions) := by
  induction numbers generalizing positions with
  | nil => exact h
  | cons i numbers ih => exact ih (h.occupy _ peer)

/-- A position that is occupied changes hands, and no other one does. -/
theorem Ascending.mem_occupy_iff (h : Ascending positions) :
    held ∈ Ring.occupy position peer positions ↔
      if held.1 = position then held.2 = peer else held ∈ positions := by
  have hpair : held = (position, peer) ↔ held.1 = position ∧ held.2 = peer := Prod.ext_iff
  induction positions with
  | nil => simp [Ring.occupy, hpair]
  | cons first rest ih =>
    obtain ⟨hfirst, hrest⟩ := List.pairwise_cons.mp h
    have hrec := ih hrest
    rw [Ring.occupy]
    split
    · next hlt =>
      have hne : held ∈ first :: rest → held.1 ≠ position := by
        intro hheld
        obtain rfl | hheld := List.mem_cons.mp hheld
        · exact (UInt32.ne_of_lt hlt).symm
        · exact (UInt32.ne_of_lt (UInt32.lt_trans hlt (hfirst held hheld))).symm
      rw [List.mem_cons, hpair]
      split <;> simp_all
    split
    · next heq =>
      have hrestne : held.1 = position → held ∉ rest := by
        intro hhere hheld
        exact UInt32.ne_of_lt (hfirst held hheld) (heq ▸ hhere.symm)
      have hfirstne : held.1 ≠ position → held ≠ first := by
        rintro hne rfl
        exact hne heq.symm
      rw [List.mem_cons, List.mem_cons, hpair]
      by_cases hhere : held.1 = position
      · simp [hhere, hrestne hhere]
      · simp [hhere, hfirstne hhere]
    · next hne =>
      have hfirstne : held.1 = position → held ≠ first := by
        rintro hhere rfl
        exact hne hhere.symm
      rw [List.mem_cons, List.mem_cons]
      apply (or_congr_right hrec).trans
      by_cases hhere : held.1 = position
      · simp [hhere, hfirstne hhere]
      · simp [hhere]

theorem Ascending.mem_occupyAll_iff (h : Ascending positions) (numbers : List Nat) :
    held ∈ ring.occupyAll peer numbers positions ↔
      if ∃ i ∈ numbers, ring.position peer i = held.1 then held.2 = peer
      else held ∈ positions := by
  induction numbers generalizing positions with
  | nil => simp [Ring.occupyAll]
  | cons i numbers ih =>
    apply (ih (h.occupy (ring.position peer i) peer)).trans
    rw [h.mem_occupy_iff]
    by_cases hrest : ∃ j ∈ numbers, ring.position peer j = held.1
    · simp [hrest]
    · by_cases hfirst : ring.position peer i = held.1
      · simp [hfirst]
      · simp [hrest, hfirst, Ne.symm hfirst]

/-! ## Holders -/

/-- A peer takes the positions that its replicas are hashed to. -/
def Takes (replicas : Nat) (hash : Bytes → UInt32) (peer : String) (position : UInt32) : Prop :=
  ∃ i < replicas, hash (utf8 (Nat.repr i ++ peer)) = position

instance : Decidable (Takes replicas hash peer position) :=
  inferInstanceAs (Decidable (∃ i, i < replicas ∧ hash (utf8 (Nat.repr i ++ peer)) = position))

def Taken (replicas : Nat) (hash : Bytes → UInt32) (peers : List String) (position : UInt32) :
    Prop :=
  ∃ peer ∈ peers, Takes replicas hash peer position

/-- The last of some peers that takes a position. -/
def lastTaker? (replicas : Nat) (hash : Bytes → UInt32) (peers : List String)
    (position : UInt32) : Option String :=
  peers.reverse.find? fun peer => Takes replicas hash peer position

theorem lastTaker?_append_singleton (peers : List String) (peer : String) :
    lastTaker? replicas hash (peers ++ [peer]) position =
      if Takes replicas hash peer position then some peer
      else lastTaker? replicas hash peers position := by
  rw [lastTaker?, List.reverse_append]
  by_cases h : Takes replicas hash peer position
  · simp [h]
  · simp [h, lastTaker?]

theorem taken_iff :
    Taken replicas hash peers position ↔
      ∃ owner, lastTaker? replicas hash peers position = some owner := by
  rw [← Option.isSome_iff_exists, lastTaker?, List.find?_isSome]
  simp [Taken]

theorem lastTaker?_inv (h : lastTaker? replicas hash peers position = some owner) :
    owner ∈ peers ∧ Takes replicas hash owner position := by
  refine ⟨List.mem_reverse.mp (List.mem_of_find?_eq_some h), ?_⟩
  simpa using List.find?_some h

/-- The last taker stays the last one when others are dropped. -/
theorem lastTaker?_filter {keep : String → Bool}
    (h : lastTaker? replicas hash peers position = some owner) (hkeep : keep owner = true) :
    lastTaker? replicas hash (peers.filter keep) position = some owner := by
  obtain ⟨htakes, later, earlier, hsplit, hlater⟩ := List.find?_eq_some_iff_append.mp h
  rw [lastTaker?, ← List.filter_reverse, hsplit, List.filter_append,
    List.filter_cons_of_pos hkeep]
  refine List.find?_eq_some_iff_append.mpr ⟨htakes, _, _, rfl, fun peer hpeer => ?_⟩
  exact hlater peer (List.mem_filter.mp hpeer).1

/-- Every position is held by the last of the peers that take it. -/
structure Placed (ring : Ring) : Prop where
  ascending : Ascending ring.positions
  holder : ∀ held, held ∈ ring.positions ↔
    lastTaker? ring.replicas ring.hash ring.peers held.1 = some held.2

theorem placed_empty (replicas : Nat) (hash : Bytes → UInt32) : (empty replicas hash).Placed where
  ascending := List.Pairwise.nil
  holder held := by simp [empty, lastTaker?]

theorem peers_addPeer (ring : Ring) (peer : String) :
    (ring.addPeer peer).peers =
      if peer ∈ ring.peers then ring.peers else ring.peers ++ [peer] := by
  rw [addPeer]
  split <;> rfl

theorem Placed.addPeer (h : ring.Placed) (peer : String) : (ring.addPeer peer).Placed := by
  rw [Ring.addPeer]
  split
  · exact h
  · refine ⟨h.ascending.occupyAll ring peer _, fun held => ?_⟩
    have htakes : (∃ i ∈ List.range ring.replicas, ring.position peer i = held.1) ↔
        Takes ring.replicas ring.hash peer held.1 := by
      simp [Takes, Ring.position]
    apply (h.ascending.mem_occupyAll_iff (List.range ring.replicas)).trans
    rw [lastTaker?_append_singleton]
    by_cases hheld : Takes ring.replicas ring.hash peer held.1
    · rw [if_pos (htakes.mpr hheld), if_pos hheld, Option.some.injEq, eq_comm]
    · rw [if_neg (mt htakes.mp hheld), if_neg hheld]
      exact h.holder held

theorem Placed.add (h : ring.Placed) (peers : List String) : (ring.add peers).Placed := by
  induction peers generalizing ring with
  | nil => exact h
  | cons peer peers ih => exact ih (h.addPeer peer)

theorem hash_add (ring : Ring) (peers : List String) : (ring.add peers).hash = ring.hash := by
  induction peers generalizing ring with
  | nil => rfl
  | cons peer peers ih => rw [add_cons, ih, hash_addPeer]

@[simp] theorem replicas_ofPeers (replicas : Nat) (hash : Bytes → UInt32) (peers : List String) :
    (ofPeers replicas hash peers).replicas = replicas :=
  replicas_add _ peers

@[simp] theorem hash_ofPeers (replicas : Nat) (hash : Bytes → UInt32) (peers : List String) :
    (ofPeers replicas hash peers).hash = hash :=
  hash_add _ peers

theorem placed_ofPeers (replicas : Nat) (hash : Bytes → UInt32) (peers : List String) :
    (ofPeers replicas hash peers).Placed :=
  (placed_empty replicas hash).add peers

theorem ofPeers_append (peers added : List String) :
    ofPeers replicas hash (peers ++ added) = (ofPeers replicas hash peers).add added :=
  List.foldl_append

@[simp] theorem mem_peers_ofPeers :
    peer ∈ (ofPeers replicas hash peers).peers ↔ peer ∈ peers := by
  rw [ofPeers, mem_peers_add]
  exact or_iff_right List.not_mem_nil

/-! ## Clockwise lookup -/

/-- The first occupied position on the way from a start. -/
structure Nearest (occupied : UInt32 → Prop) (start position : UInt32) : Prop where
  reached : occupied position
  closest : ∀ other, occupied other → position - start ≤ other - start

namespace Nearest

variable {occupied fewer : UInt32 → Prop} {other : UInt32}

theorem unique (h : Nearest occupied start position) (h' : Nearest occupied start other) :
    position = other := by
  have hdistance : position - start = other - start :=
    UInt32.le_antisymm (h.closest other h'.reached) (h'.closest position h.reached)
  simpa using hdistance

theorem mono (h : Nearest occupied start position) (hreached : fewer position)
    (hfewer : ∀ other, fewer other → occupied other) : Nearest fewer start position :=
  ⟨hreached, fun other hother => h.closest other (hfewer other hother)⟩

/-- A position that is met at once is the nearest. -/
theorem self (h : occupied start) : Nearest occupied start start where
  reached := h
  closest other _ := by
    rw [UInt32.sub_self]
    exact UInt32.zero_le

end Nearest

theorem distance_ahead (h : start ≤ position) :
    (position - start).toNat = position.toNat - start.toNat :=
  UInt32.toNat_sub_of_le _ _ h

/-- The distance to a position behind the start leads all the way round. -/
theorem distance_behind (h : position < start) :
    (position - start).toNat = 4294967296 - start.toNat + position.toNat := by
  rw [UInt32.lt_iff_toNat_lt] at h
  have := start.toNat_lt
  rw [UInt32.toNat_sub]
  omega

/-- A lookup answers with the holder of the position nearest to the key. -/
theorem owner?_nearest (h : Ascending ring.positions) (hne : ring.positions ≠ []) (key : String) :
    ∃ held ∈ ring.positions, ring.owner? key = some held.2 ∧
      ∀ other ∈ ring.positions,
        held.1 - ring.hash (utf8 key) ≤ other.1 - ring.hash (utf8 key) := by
  rw [owner?]
  generalize ring.hash (utf8 key) = start
  split
  · next held hfound =>
    obtain ⟨hahead, earlier, later, hsplit, hearlier⟩ := List.find?_eq_some_iff_append.mp hfound
    replace hahead : start ≤ held.1 := of_decide_eq_true hahead
    refine ⟨held, List.mem_of_find?_eq_some hfound, rfl, fun other hother => ?_⟩
    rw [UInt32.le_iff_toNat_le, distance_ahead hahead]
    rw [hsplit, List.mem_append, List.mem_cons] at hother
    obtain hother | rfl | hother := hother
    · have hbehind : other.1 < start := by simpa using hearlier other hother
      rw [distance_behind hbehind]
      have := held.1.toNat_lt
      omega
    · exact Nat.le_of_eq (distance_ahead hahead).symm
    · have hnext : held.1 < other.1 :=
        (List.pairwise_cons.mp (List.pairwise_append.mp (hsplit ▸ h)).2.1).1 other hother
      rw [distance_ahead (UInt32.le_trans hahead (UInt32.le_of_lt hnext))]
      rw [UInt32.lt_iff_toNat_lt] at hnext
      omega
  · next hnone =>
    obtain ⟨first, rest, hpositions⟩ := List.exists_cons_of_ne_nil hne
    have hbehind : ∀ other ∈ ring.positions, other.1 < start := by simpa using hnone
    rw [hpositions] at h hbehind ⊢
    refine ⟨first, List.mem_cons_self, rfl, fun other hother => ?_⟩
    rw [UInt32.le_iff_toNat_le, distance_behind (hbehind first List.mem_cons_self),
      distance_behind (hbehind other hother)]
    obtain rfl | hother := List.mem_cons.mp hother
    · exact Nat.le_refl _
    · have hnext := (List.pairwise_cons.mp h).1 other hother
      rw [UInt32.lt_iff_toNat_lt] at hnext
      omega

/-- Of the peers of a ring, the one that a key belongs to. -/
def Owns (replicas : Nat) (hash : Bytes → UInt32) (peers : List String) (key owner : String) :
    Prop :=
  ∃ position, Nearest (Taken replicas hash peers) (hash (utf8 key)) position ∧
    lastTaker? replicas hash peers position = some owner

theorem Owns.mem (h : Owns replicas hash peers key owner) : owner ∈ peers := by
  obtain ⟨position, -, hlast⟩ := h
  exact (lastTaker?_inv hlast).1

theorem Owns.unique {other : String} (h : Owns replicas hash peers key owner)
    (h' : Owns replicas hash peers key other) : owner = other := by
  obtain ⟨position, hnear, hlast⟩ := h
  obtain ⟨position', hnear', hlast'⟩ := h'
  rw [hnear.unique hnear', hlast'] at hlast
  exact (Option.some.inj hlast).symm

theorem Placed.exists_owner (h : ring.Placed) (hne : ring.positions ≠ []) (key : String) :
    ∃ owner, ring.owner? key = some owner ∧
      Owns ring.replicas ring.hash ring.peers key owner := by
  obtain ⟨held, hheld, howner, hclosest⟩ := owner?_nearest h.ascending hne key
  have hlast := (h.holder held).mp hheld
  refine ⟨held.2, howner, held.1, ⟨taken_iff.mpr ⟨held.2, hlast⟩, ?_⟩, hlast⟩
  intro other hother
  obtain ⟨holder, hholder⟩ := taken_iff.mp hother
  exact hclosest (other, holder) ((h.holder (other, holder)).mpr hholder)

/-- A lookup finds the peer that the key belongs to. -/
theorem Placed.owner?_eq_some_iff (h : ring.Placed) :
    ring.owner? key = some owner ↔ Owns ring.replicas ring.hash ring.peers key owner := by
  constructor
  · intro howner
    have hne : ring.positions ≠ [] := by
      intro hnil
      simp [owner?, hnil] at howner
    obtain ⟨found, hfound, hown⟩ := h.exists_owner hne key
    rw [hfound] at howner
    exact Option.some.inj howner ▸ hown
  · intro hown
    have hne : ring.positions ≠ [] := by
      obtain ⟨position, -, hlast⟩ := hown
      exact List.ne_nil_of_mem ((h.holder (position, owner)).mpr hlast)
    obtain ⟨found, hfound, hown'⟩ := h.exists_owner hne key
    rw [hfound, hown'.unique hown]

theorem owner?_ofPeers_eq_some_iff :
    (ofPeers replicas hash peers).owner? key = some owner ↔
      Owns replicas hash (ofPeers replicas hash peers).peers key owner := by
  rw [(placed_ofPeers replicas hash peers).owner?_eq_some_iff, replicas_ofPeers, hash_ofPeers]

end PeerCache.Ring

import Mathlib.Data.Finset.Card
import PeerCache.Proofs.RingPlacement

/-!
# Lookup on a ring

What a ring comes to, told without its construction. However its peers were added, in one call or
in many, the ring is that of all of them in a row, and its peers are that row without repetitions.
Its positions are the hashes of numbered names, each counted once. A key belongs to the last peer
on the smallest position that is not below the key, or on the smallest one of all.
-/

namespace PeerCache.Ring

variable {replicas : Nat} {hash : Bytes → UInt32} {peers : List String} {key owner : String}
  {position start : UInt32} {ring : Ring}

/-! ## Calls that add peers -/

/-- Add the peers of several calls, call by call. -/
def addAll (ring : Ring) (calls : List (List String)) : Ring :=
  calls.foldl add ring

theorem addAll_eq_add (ring : Ring) (calls : List (List String)) :
    ring.addAll calls = ring.add calls.flatten := by
  induction calls generalizing ring with
  | nil => rfl
  | cons call calls ih =>
    calc ring.addAll (call :: calls)
      _ = (ring.add call).add calls.flatten := ih (ring.add call)
      _ = ring.add (call ++ calls.flatten) := List.foldl_append.symm

/-- Each peer is listed where it was named first. -/
theorem peers_ofPeers (replicas : Nat) (hash : Bytes → UInt32) (peers : List String) :
    (ofPeers replicas hash peers).peers = peers.eraseDups := by
  induction peers using List.reverseRecOn with
  | nil => rfl
  | append_singleton peers peer ih =>
    rw [ofPeers_append, add_cons, add_nil, peers_addPeer, List.eraseDups_append, ← ih]
    by_cases hmem : peer ∈ peers
    · simp [hmem, List.removeAll]
    · simp [hmem, List.removeAll, List.eraseDups_cons]

/-! ## Occupied positions -/

/-- The hashes of all numbered names, with repetitions. -/
def hashes (replicas : Nat) (hash : Bytes → UInt32) (peers : List String) : List UInt32 :=
  peers.flatMap fun peer => (List.range replicas).map fun i => hash (utf8 (Nat.repr i ++ peer))

theorem mem_hashes : position ∈ hashes replicas hash peers ↔
    ∃ peer ∈ peers, ∃ i < replicas, hash (utf8 (Nat.repr i ++ peer)) = position := by
  simp [hashes]

theorem hashes_eq_nil_iff : hashes replicas hash peers = [] ↔ peers = [] ∨ replicas = 0 := by
  rw [hashes, List.flatMap_eq_nil_iff]
  simp only [List.map_eq_nil_iff, List.range_eq_nil]
  constructor
  · intro hall
    cases peers with
    | nil => exact .inl rfl
    | cons peer peers => exact .inr (hall peer List.mem_cons_self)
  · rintro (rfl | hzero) peer hpeer
    · cases hpeer
    · exact hzero

theorem Placed.mem_positions (h : ring.Placed) :
    position ∈ ring.positions.map Prod.fst ↔
      position ∈ hashes ring.replicas ring.hash ring.peers := by
  have hheld : position ∈ ring.positions.map Prod.fst ↔
      Taken ring.replicas ring.hash ring.peers position := by
    rw [taken_iff, List.mem_map]
    constructor
    · rintro ⟨held, hheld, rfl⟩
      exact ⟨held.2, (h.holder held).mp hheld⟩
    · rintro ⟨owner, howner⟩
      exact ⟨(position, owner), (h.holder (position, owner)).mpr howner, rfl⟩
  rw [hheld, mem_hashes]
  rfl

theorem Ascending.nodup {positions : List (UInt32 × String)} (h : Ascending positions) :
    (positions.map Prod.fst).Nodup :=
  List.pairwise_map.mpr (h.imp UInt32.ne_of_lt)

/-- There are as many positions as there are different hashes. -/
theorem Placed.positionCount_eq (h : ring.Placed) :
    ring.positionCount = (hashes ring.replicas ring.hash ring.peers).toFinset.card := by
  have hsame : (ring.positions.map Prod.fst).toFinset =
      (hashes ring.replicas ring.hash ring.peers).toFinset := by
    ext position
    rw [List.mem_toFinset, List.mem_toFinset, h.mem_positions]
  calc ring.positionCount
    _ = (ring.positions.map Prod.fst).length := (List.length_map Prod.fst).symm
    _ = (ring.positions.map Prod.fst).toFinset.card :=
      (List.toFinset_card_of_nodup h.ascending.nodup).symm
    _ = (hashes ring.replicas ring.hash ring.peers).toFinset.card := by rw [hsame]

/-! ## The position of a key -/

/-- The smallest position with a property. -/
structure Smallest (p : UInt32 → Prop) (position : UInt32) : Prop where
  holds : p position
  least : ∀ other, p other → position ≤ other

/-- The position that a lookup stops at: the smallest occupied one that is not below the start,
or, if there is none, the smallest occupied one. -/
inductive StopsAt (occupied : UInt32 → Prop) (start position : UInt32) : Prop
  | ahead (h : Smallest (fun p => occupied p ∧ start ≤ p) position)
  | around (hnone : ∀ p, occupied p → ¬start ≤ p) (h : Smallest occupied position)

section Nearest

variable {occupied : UInt32 → Prop} {other : UInt32}

/-- Positions ahead of the start come in their order. -/
theorem distance_le_ahead (h : start ≤ position) (h' : start ≤ other) :
    position - start ≤ other - start ↔ position ≤ other := by
  rw [UInt32.le_iff_toNat_le, distance_ahead h, distance_ahead h', UInt32.le_iff_toNat_le]
  rw [UInt32.le_iff_toNat_le] at h h'
  omega

/-- So do those behind it. -/
theorem distance_le_behind (h : position < start) (h' : other < start) :
    position - start ≤ other - start ↔ position ≤ other := by
  have := start.toNat_lt
  rw [UInt32.le_iff_toNat_le, distance_behind h, distance_behind h', UInt32.le_iff_toNat_le]
  omega

/-- Those ahead come before those behind. -/
theorem distance_lt_of_behind (h : start ≤ position) (h' : other < start) :
    position - start < other - start := by
  have := position.toNat_lt
  rw [UInt32.lt_iff_toNat_lt, distance_ahead h, distance_behind h']
  rw [UInt32.le_iff_toNat_le] at h
  omega

/-- The first occupied position clockwise is the one that a lookup stops at. -/
theorem nearest_iff_stopsAt :
    Nearest occupied start position ↔ StopsAt occupied start position := by
  constructor
  · intro ⟨hreached, hclosest⟩
    by_cases hahead : start ≤ position
    · refine .ahead ⟨⟨hreached, hahead⟩, ?_⟩
      rintro other ⟨hother, hother'⟩
      exact (distance_le_ahead hahead hother').mp (hclosest other hother)
    · have hbehind : position < start := UInt32.not_le.mp hahead
      -- one ahead of the start would be closer than the position itself
      have hnone : ∀ p, occupied p → ¬start ≤ p := by
        intro p hp hle
        exact UInt32.not_lt.mpr (hclosest p hp) (distance_lt_of_behind hle hbehind)
      refine .around hnone ⟨hreached, fun other hother => ?_⟩
      exact (distance_le_behind hbehind (UInt32.not_le.mp (hnone other hother))).mp
        (hclosest other hother)
  · intro hstops
    cases hstops with
    | ahead h =>
      obtain ⟨⟨hreached, hahead⟩, hleast⟩ := h
      refine ⟨hreached, fun other hother => ?_⟩
      by_cases hother' : start ≤ other
      · exact (distance_le_ahead hahead hother').mpr (hleast other ⟨hother, hother'⟩)
      · exact UInt32.le_of_lt (distance_lt_of_behind hahead (UInt32.not_le.mp hother'))
    | around hnone h =>
      refine ⟨h.holds, fun other hother => ?_⟩
      have hbehind : position < start := UInt32.not_le.mp (hnone position h.holds)
      have hbehind' : other < start := UInt32.not_le.mp (hnone other hother)
      exact (distance_le_behind hbehind hbehind').mpr (h.least other hother)

end Nearest

/-! ## The owner of a key -/

/-- The last of some peers with a numbered name that is hashed to a position. -/
def LastOn (replicas : Nat) (hash : Bytes → UInt32) (peers : List String) (position : UInt32)
    (owner : String) : Prop :=
  ∃ earlier later, peers = earlier ++ owner :: later ∧ Takes replicas hash owner position ∧
    ∀ peer ∈ later, ¬Takes replicas hash peer position

theorem lastTaker?_eq_some_iff_lastOn :
    lastTaker? replicas hash peers position = some owner ↔
      LastOn replicas hash peers position owner := by
  rw [lastTaker?, List.find?_eq_some_iff_append]
  simp only [decide_eq_true_eq, Bool.not_eq_true', decide_eq_false_iff_not]
  constructor
  · rintro ⟨htakes, later, earlier, hsplit, hlater⟩
    refine ⟨earlier.reverse, later.reverse, ?_, htakes, fun peer hpeer => ?_⟩
    · rw [← List.reverse_reverse peers, hsplit]
      simp
    · exact hlater peer (List.mem_reverse.mp hpeer)
  · rintro ⟨earlier, later, rfl, htakes, hlater⟩
    refine ⟨htakes, later.reverse, earlier.reverse, by simp, fun peer hpeer => ?_⟩
    exact hlater peer (List.mem_reverse.mp hpeer)

theorem owner?_eq_some_iff_stopsAt (h : ring.Placed) :
    ring.owner? key = some owner ↔
      ∃ position,
        StopsAt (· ∈ hashes ring.replicas ring.hash ring.peers) (ring.hash (utf8 key)) position ∧
        LastOn ring.replicas ring.hash ring.peers position owner := by
  have htaken : Taken ring.replicas ring.hash ring.peers =
      (· ∈ hashes ring.replicas ring.hash ring.peers) :=
    funext fun position => propext mem_hashes.symm
  rw [h.owner?_eq_some_iff, Owns, htaken]
  simp only [nearest_iff_stopsAt, lastTaker?_eq_some_iff_lastOn]

/-- Only a ring without a position has no owner. -/
theorem owner?_eq_none_iff (h : ring.Placed) :
    ring.owner? key = none ↔ ring.peers = [] ∨ ring.replicas = 0 := by
  have hpositions : ring.owner? key = none ↔ ring.positions = [] := by
    constructor
    · intro hnone
      by_contra hne
      obtain ⟨owner, howner, -⟩ := h.exists_owner hne key
      rw [hnone] at howner
      cases howner
    · intro hnil
      simp [owner?, hnil]
  have hhashes : ring.positions = [] ↔ hashes ring.replicas ring.hash ring.peers = [] := by
    rw [← List.map_eq_nil_iff (f := Prod.fst), List.eq_nil_iff_forall_not_mem,
      List.eq_nil_iff_forall_not_mem]
    exact forall_congr' fun position => not_congr h.mem_positions
  rw [hpositions, hhashes, hashes_eq_nil_iff]

/-- **A ring and its lookups.** Whatever the hash, and in whichever calls the peers were added: the
ring is that of all peers in a row; it lists each of them where it was named first; its positions
are the hashes of numbered names, and it counts each of these once. A key has no owner exactly if
there are no peers or no replicas. Otherwise its owner is the last peer on the position that the
lookup stops at. -/
theorem lookup_of_added_peers (replicas : Nat) (hash : Bytes → UInt32)
    (calls : List (List String)) :
    let ring := (empty replicas hash).addAll calls
    ring = ofPeers replicas hash calls.flatten ∧
      ring.peers = calls.flatten.eraseDups ∧
      (∀ position, position ∈ ring.positions.map Prod.fst ↔
        ∃ peer ∈ ring.peers, ∃ i < replicas, hash (utf8 (Nat.repr i ++ peer)) = position) ∧
      ring.positionCount = (hashes replicas hash ring.peers).toFinset.card ∧
      ∀ key, (ring.owner? key = none ↔ ring.peers = [] ∨ replicas = 0) ∧
        ∀ owner, ring.owner? key = some owner ↔
          ∃ position, StopsAt (· ∈ hashes replicas hash ring.peers) (hash (utf8 key)) position ∧
            LastOn replicas hash ring.peers position owner := by
  intro ring
  have hring : ring = ofPeers replicas hash calls.flatten := addAll_eq_add _ calls
  have hplaced : ring.Placed := hring ▸ placed_ofPeers replicas hash calls.flatten
  have hreplicas : ring.replicas = replicas := by rw [hring, replicas_ofPeers]
  have hhash : ring.hash = hash := by rw [hring, hash_ofPeers]
  refine ⟨hring, by rw [hring, peers_ofPeers], ?_, ?_, fun key => ⟨?_, fun owner => ?_⟩⟩
  · intro position
    rw [hplaced.mem_positions, hreplicas, hhash, mem_hashes]
  · rw [hplaced.positionCount_eq, hreplicas, hhash]
  · rw [owner?_eq_none_iff hplaced, hreplicas]
  · rw [owner?_eq_some_iff_stopsAt hplaced, hreplicas, hhash]

/-- By the lengths of their names with a digit in front, the peers are on 2, 4 and 6. The keys are
hashed before the first position, onto one, and past the last one. -/
example :
    let ring :=
      (empty 2 fun bytes => UInt32.ofNat bytes.length).addAll [["ccc", "a"], ["a", "bbbbb"]]
    (ring.positionCount, ["k", "kkkk", "kkkkkkk"].map ring.owner?) =
      (3, [some "a", some "ccc", some "a"]) := by decide +kernel

end PeerCache.Ring

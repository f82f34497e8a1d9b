import Mathlib.Data.List.Perm.Basic
import PeerCache.Proofs.RingPlacement
import PeerCache.Settings

/-!
# Membership of the ring

What a change of the peers does to the owners of keys. A peer that stays keeps every key that
it owns, so peers that leave give up their keys alone and peers that join gain keys for
themselves alone. The order in which peers are listed matters exactly when two of them meet on
a position: then the one listed later holds it, and the text that is hashed there is a key that
tells two orders apart.
-/

namespace PeerCache.Ring

variable {replicas : Nat} {hash : Bytes → UInt32} {peers order order' : List String}
  {peer owner key : String} {position : UInt32} {keep : String → Bool} {ring : Ring}

/-! ## Joining and leaving -/

/-- Dropping names from a list of joining peers drops them from the ring. -/
theorem peers_add_filter {kept : Ring} (h : kept.peers = ring.peers.filter keep)
    (names : List String) :
    (kept.add (names.filter keep)).peers = (ring.add names).peers.filter keep := by
  induction names generalizing ring kept with
  | nil => exact h
  | cons name names ih =>
    by_cases hkeep : keep name = true
    · rw [List.filter_cons_of_pos hkeep, add_cons, add_cons]
      apply ih
      rw [peers_addPeer, peers_addPeer, h]
      by_cases hmem : name ∈ ring.peers <;> simp [hmem, hkeep]
    · rw [List.filter_cons_of_neg hkeep, add_cons]
      apply ih
      rw [peers_addPeer, h]
      split <;> simp [hkeep]

theorem peers_ofPeers_filter (replicas : Nat) (hash : Bytes → UInt32) (peers : List String)
    (keep : String → Bool) :
    (ofPeers replicas hash (peers.filter keep)).peers =
      (ofPeers replicas hash peers).peers.filter keep :=
  peers_add_filter rfl peers

theorem Taken.of_filter (h : Taken replicas hash (peers.filter keep) position) :
    Taken replicas hash peers position := by
  obtain ⟨peer, hpeer, htakes⟩ := h
  exact ⟨peer, (List.mem_filter.mp hpeer).1, htakes⟩

/-- An owner that stays keeps its keys. -/
theorem Owns.filter (h : Owns replicas hash peers key owner) (hkeep : keep owner = true) :
    Owns replicas hash (peers.filter keep) key owner := by
  obtain ⟨position, hnear, hlast⟩ := h
  have hstays := lastTaker?_filter hlast hkeep
  exact ⟨position, hnear.mono (taken_iff.mpr ⟨owner, hstays⟩) fun _ => Taken.of_filter, hstays⟩

theorem owner?_filter (h : (ofPeers replicas hash peers).owner? key = some owner)
    (hkeep : keep owner = true) :
    (ofPeers replicas hash (peers.filter keep)).owner? key = some owner := by
  rw [owner?_ofPeers_eq_some_iff] at h ⊢
  rw [peers_ofPeers_filter]
  exact h.filter hkeep

theorem owner?_mem (h : (ofPeers replicas hash peers).owner? key = some owner) :
    owner ∈ peers :=
  mem_peers_ofPeers.mp (owner?_ofPeers_eq_some_iff.mp h).mem

/-- A ring that owns nothing owns nothing without some of its peers. -/
theorem owner?_filter_of_none (h : (ofPeers replicas hash peers).owner? key = none) :
    (ofPeers replicas hash (peers.filter keep)).owner? key = none := by
  apply Option.eq_none_iff_forall_ne_some.mpr
  intro owner howner
  obtain ⟨position, hnear, -⟩ := owner?_ofPeers_eq_some_iff.mp howner
  rw [peers_ofPeers_filter] at hnear
  obtain ⟨holder, hholder⟩ := taken_iff.mp hnear.reached.of_filter
  have hplaced := placed_ofPeers replicas hash peers
  have hmem : (position, holder) ∈ (ofPeers replicas hash peers).positions := by
    rw [hplaced.holder, replicas_ofPeers, hash_ofPeers]
    exact hholder
  obtain ⟨found, hfound, -⟩ := hplaced.exists_owner (List.ne_nil_of_mem hmem) key
  rw [h] at hfound
  cases hfound

theorem add_of_mem {names : List String} (h : ∀ name ∈ names, name ∈ ring.peers) :
    ring.add names = ring := by
  induction names with
  | nil => rfl
  | cons name names ih =>
    have hname : ring.addPeer name = ring := if_pos (h name List.mem_cons_self)
    rw [add_cons, hname]
    exact ih fun other hother => h other (List.mem_cons_of_mem name hother)

/-- The peers that were there first make the ring that was there first. -/
theorem ofPeers_append_filter (replicas : Nat) (hash : Bytes → UInt32)
    (peers added : List String) :
    ofPeers replicas hash ((peers ++ added).filter fun name => name ∈ peers) =
      ofPeers replicas hash peers := by
  have hall : peers.filter (fun name => name ∈ peers) = peers :=
    List.filter_eq_self.mpr fun name hname => decide_eq_true hname
  rw [List.filter_append, hall, ofPeers_append]
  apply add_of_mem
  intro name hname
  exact mem_peers_ofPeers.mpr (of_decide_eq_true (List.mem_filter.mp hname).2)

/-- A key whose owner stays on the ring stays with it. So peers that leave give up only keys of
their own, and keys move to no other peers than those that join. -/
theorem minimal_disruption (replicas : Nat) (hash : Bytes → UInt32) (peers : List String)
    (keep : String → Bool) :
    (∀ key owner, (ofPeers replicas hash peers).owner? key = some owner →
      owner ∈ peers.filter keep →
      (ofPeers replicas hash (peers.filter keep)).owner? key = some owner) ∧
    (∀ key, (ofPeers replicas hash (peers.filter keep)).owner? key ≠
        (ofPeers replicas hash peers).owner? key →
      ∃ owner ∈ peers, keep owner = false ∧
        (ofPeers replicas hash peers).owner? key = some owner) ∧
    ∀ added key, (ofPeers replicas hash (peers ++ added)).owner? key ≠
        (ofPeers replicas hash peers).owner? key →
      ∃ owner ∈ added, owner ∉ peers ∧
        (ofPeers replicas hash (peers ++ added)).owner? key = some owner := by
  refine ⟨fun key owner howner hmem => ?_, fun key hmoved => ?_, fun added key hmoved => ?_⟩
  · exact owner?_filter howner (List.mem_filter.mp hmem).2
  · cases howner : (ofPeers replicas hash peers).owner? key with
    | none => exact absurd ((owner?_filter_of_none howner).trans howner.symm) hmoved
    | some owner =>
      refine ⟨owner, owner?_mem howner, ?_, rfl⟩
      apply Bool.eq_false_iff.mpr
      intro hkeep
      exact hmoved ((owner?_filter howner hkeep).trans howner.symm)
  · -- The old peers are those that stay when the added ones leave again.
    let old : String → Bool := fun name => name ∈ peers
    have hback : ofPeers replicas hash ((peers ++ added).filter old) =
        ofPeers replicas hash peers := ofPeers_append_filter replicas hash peers added
    cases howner : (ofPeers replicas hash (peers ++ added)).owner? key with
    | none =>
      have hnone : (ofPeers replicas hash ((peers ++ added).filter old)).owner? key = none :=
        owner?_filter_of_none howner
      rw [hback] at hnone
      exact absurd (howner.trans hnone.symm) hmoved
    | some owner =>
      have hnew : owner ∉ peers := by
        intro hold
        have hstays : (ofPeers replicas hash ((peers ++ added).filter old)).owner? key =
            some owner := owner?_filter howner (decide_eq_true hold)
        rw [hback] at hstays
        exact hmoved (howner.trans hstays.symm)
      obtain hold | hadded := List.mem_append.mp (owner?_mem howner)
      · exact absurd hold hnew
      · exact ⟨owner, hadded, hnew, rfl⟩

/-- Two names of one length meet on a position. When the first of them leaves, the second one
keeps the key there. -/
theorem collision_survives_leaving :
    let hash : Bytes → UInt32 := fun bytes => UInt32.ofNat bytes.length
    let keep : String → Bool := fun name => name != "bb"
    (ofPeers 1 hash ["a", "bb", "cc"]).owner? "key" = some "cc" ∧
      "cc" ∈ ["a", "bb", "cc"].filter keep ∧
      (ofPeers 1 hash (["a", "bb", "cc"].filter keep)).owner? "key" = some "cc" := by
  intro hash keep
  have howner : (ofPeers 1 hash ["a", "bb", "cc"]).owner? "key" = some "cc" := by decide +kernel
  have hstays : "cc" ∈ ["a", "bb", "cc"].filter keep := by decide
  exact ⟨howner, hstays, (minimal_disruption 1 hash _ keep).1 "key" "cc" howner hstays⟩

/-! ## Order -/

/-- Two peers of a list meet on a position. -/
def SharedPosition (replicas : Nat) (hash : Bytes → UInt32) (peers : List String) : Prop :=
  ∃ a ∈ peers, ∃ b ∈ peers, a ≠ b ∧ ∃ i < replicas, ∃ j < replicas,
    hash (utf8 (Nat.repr i ++ a)) = hash (utf8 (Nat.repr j ++ b))

/-- Lists of the same peers, in any order and with any repetitions. -/
def SameMembers (order order' : List String) : Prop :=
  ∀ peer, peer ∈ order ↔ peer ∈ order'

theorem Takes.eq_of_not_shared (h : ¬SharedPosition replicas hash peers) {a b : String}
    (ha : a ∈ peers) (hb : b ∈ peers) (htakes : Takes replicas hash a position)
    (htakes' : Takes replicas hash b position) : a = b := by
  obtain ⟨i, hi, hia⟩ := htakes
  obtain ⟨j, hj, hjb⟩ := htakes'
  by_contra hne
  exact h ⟨a, ha, b, hb, hne, i, hi, j, hj, hia.trans hjb.symm⟩

theorem lastTaker?_eq_some_iff (h : ¬SharedPosition replicas hash peers)
    (hsame : SameMembers order peers) :
    lastTaker? replicas hash order position = some owner ↔
      owner ∈ peers ∧ Takes replicas hash owner position := by
  constructor
  · intro hlast
    obtain ⟨hmem, htakes⟩ := lastTaker?_inv hlast
    exact ⟨(hsame owner).mp hmem, htakes⟩
  · rintro ⟨hmem, htakes⟩
    obtain ⟨last, hlast⟩ := taken_iff.mp ⟨owner, (hsame owner).mpr hmem, htakes⟩
    obtain ⟨hmem', htakes'⟩ := lastTaker?_inv hlast
    rw [hlast, htakes'.eq_of_not_shared h ((hsame last).mp hmem') hmem htakes]

theorem taken_congr (hsame : SameMembers order peers) (position : UInt32) :
    Taken replicas hash order position ↔ Taken replicas hash peers position :=
  exists_congr fun peer => and_congr_left fun _ => hsame peer

/-- Where no two peers meet, the owner is told by the members alone. -/
theorem owner?_eq_some_iff_of_not_shared (h : ¬SharedPosition replicas hash peers)
    (hsame : SameMembers order peers) :
    (ofPeers replicas hash order).owner? key = some owner ↔
      ∃ position, Nearest (Taken replicas hash peers) (hash (utf8 key)) position ∧
        owner ∈ peers ∧ Takes replicas hash owner position := by
  have hmembers : SameMembers (ofPeers replicas hash order).peers peers :=
    fun peer => mem_peers_ofPeers.trans (hsame peer)
  have htaken : Taken replicas hash (ofPeers replicas hash order).peers =
      Taken replicas hash peers := funext fun position => propext (taken_congr hmembers position)
  rw [owner?_ofPeers_eq_some_iff, Owns, htaken]
  exact exists_congr fun position => and_congr_right fun _ => lastTaker?_eq_some_iff h hmembers

theorem owner?_congr (h : ¬SharedPosition replicas hash peers) (hsame : SameMembers order peers)
    (hsame' : SameMembers order' peers) (key : String) :
    (ofPeers replicas hash order).owner? key = (ofPeers replicas hash order').owner? key := by
  apply Option.ext
  intro owner
  rw [owner?_eq_some_iff_of_not_shared h hsame, owner?_eq_some_iff_of_not_shared h hsame']

/-- A peer that comes last owns the keys that are hashed to its positions. -/
theorem owner?_append_last (hnew : peer ∉ peers)
    (htakes : Takes replicas hash peer (hash (utf8 key))) :
    (ofPeers replicas hash (peers ++ [peer])).owner? key = some peer := by
  have hlist : (ofPeers replicas hash (peers ++ [peer])).peers =
      (ofPeers replicas hash peers).peers ++ [peer] := by
    rw [ofPeers_append, add_cons, add_nil, peers_addPeer, if_neg (mt mem_peers_ofPeers.mp hnew)]
  have hlast : lastTaker? replicas hash (ofPeers replicas hash (peers ++ [peer])).peers
      (hash (utf8 key)) = some peer := by
    rw [hlist, lastTaker?_append_singleton, if_pos htakes]
  rw [owner?_ofPeers_eq_some_iff]
  exact ⟨hash (utf8 key), .self (taken_iff.mpr ⟨peer, hlast⟩), hlast⟩

/-- The list of a peer that is named last, as a member lists a pool that leaves it out. -/
def namedLast (peer : String) (peers : List String) : List String :=
  peers.erase peer ++ [peer]

theorem namedLast_perm (h : peer ∈ peers) : (namedLast peer peers).Perm peers :=
  (List.perm_append_singleton peer _).trans (List.perm_cons_erase h).symm

/-- Two peers that meet on a position each own the text hashed there when they come last. -/
theorem SharedPosition.separates (h : SharedPosition replicas hash peers) (hd : peers.Nodup) :
    ∃ a ∈ peers, ∃ b ∈ peers, ∃ key,
      (ofPeers replicas hash (namedLast a peers)).owner? key ≠
        (ofPeers replicas hash (namedLast b peers)).owner? key := by
  obtain ⟨a, ha, b, hb, hne, i, hi, j, hj, hmeet⟩ := h
  refine ⟨a, ha, b, hb, Nat.repr i ++ a, ?_⟩
  rw [namedLast, owner?_append_last hd.not_mem_erase ⟨i, hi, rfl⟩]
  rw [namedLast, owner?_append_last hd.not_mem_erase ⟨j, hj, hmeet.symm⟩]
  exact fun heq => hne (Option.some.inj heq)

/-- The settings of a peer that finds the others listed, and itself left out. -/
def settingsOf (peer : String) (peers : List String) : Settings :=
  { Settings.standard "" with identity := peer, peers := peers.erase peer }

theorem poolPeers_settingsOf (hd : peers.Nodup) (peer : String) :
    (settingsOf peer peers).poolPeers = namedLast peer peers :=
  Settings.poolPeers_of_not_mem hd.not_mem_erase

/-- All orders of some peers, and all members that list them, agree on every owner if and only
if no two of the peers meet on a position. -/
theorem owners_agree_iff_no_shared_position (replicas : Nat) (hash : Bytes → UInt32)
    {peers : List String} (hd : peers.Nodup) :
    ((∀ order order' : List String, order.Perm peers → order'.Perm peers → ∀ key,
        (ofPeers replicas hash order).owner? key = (ofPeers replicas hash order').owner? key) ↔
      ¬SharedPosition replicas hash peers) ∧
    ((∀ s s' : Settings, SameMembers s.poolPeers peers → SameMembers s'.poolPeers peers → ∀ key,
        (ofPeers replicas hash s.poolPeers).owner? key =
          (ofPeers replicas hash s'.poolPeers).owner? key) ↔
      ¬SharedPosition replicas hash peers) := by
  refine ⟨⟨fun hagree hshared => ?_, fun h order order' hperm hperm' key => ?_⟩,
    ⟨fun hagree hshared => ?_, fun h s s' hsame hsame' key => owner?_congr h hsame hsame' key⟩⟩
  · obtain ⟨a, ha, b, hb, key, hdiffer⟩ := hshared.separates hd
    exact hdiffer (hagree _ _ (namedLast_perm ha) (namedLast_perm hb) key)
  · exact owner?_congr h (fun _ => hperm.mem_iff) (fun _ => hperm'.mem_iff) key
  · obtain ⟨a, ha, b, hb, key, hdiffer⟩ := hshared.separates hd
    have hsame {name : String} (hname : name ∈ peers) :
        SameMembers (settingsOf name peers).poolPeers peers := by
      rw [poolPeers_settingsOf hd]
      exact fun _ => (namedLast_perm hname).mem_iff
    have hkey := hagree _ _ (hsame ha) (hsame hb) key
    rw [poolPeers_settingsOf hd, poolPeers_settingsOf hd] at hkey
    exact hdiffer hkey

/-- A name with a digit before it meets the name without it under every hash, so the order of
the two matters on a ring of the usual kind. -/
theorem digit_before_name_separates_orders :
    let peers := ["x", "1x"]
    peers.Nodup ∧
      ¬∀ order order' : List String, order.Perm peers → order'.Perm peers → ∀ key,
        (ofPeers defaultReplicas Crc32.checksum order).owner? key =
          (ofPeers defaultReplicas Crc32.checksum order').owner? key := by
  intro peers
  have hd : peers.Nodup := by decide
  have htext : Nat.repr 11 ++ "x" = Nat.repr 1 ++ "1x" := by decide
  have hshared : SharedPosition defaultReplicas Crc32.checksum peers :=
    ⟨"x", by decide, "1x", by decide, by decide, 11, by decide, 1, by decide, by rw [htext]⟩
  refine ⟨hd, fun hagree => ?_⟩
  exact (owners_agree_iff_no_shared_position defaultReplicas Crc32.checksum hd).1.mp hagree hshared

end PeerCache.Ring

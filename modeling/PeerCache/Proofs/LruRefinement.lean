import PeerCache.Proofs.LruIndexLaws
import PeerCache.Store.Memory

/-!
# The LRU layer over a memory store

An LRU layer over an empty memory store is a bounded recency list: it gives the same answers,
lists the same keys in the same order, and the memory store holds exactly the pairs of the
list, after every sequence of calls.
-/

namespace PeerCache

namespace Lru

/-- The layer lists the keys and sizes of a recency list within its capacity, and the memory
store below holds the pairs of that list. -/
structure Represents (s : Lru Memory) (l : RecencyList) : Prop where
  index : s.index = l.index
  content : s.inner.entries.Perm l
  bounded : l.bytes ≤ s.capacity ∨ l.length = 1

theorem entries_deleteAll (m : Memory) (victims : List String) :
    (deleteAll m victims).entries = m.entries.filter fun e => !victims.contains e.1 := by
  induction victims generalizing m with
  | nil => exact (List.filter_eq_self.mpr fun _ _ => rfl).symm
  | cons victim victims ih =>
    apply (ih (m.erase victim)).trans
    simp only [Memory.erase, List.filter_filter, List.contains_cons, Bool.not_or]
    exact List.filter_congr fun e _ => Bool.and_comm _ _

namespace Represents

variable {s : Lru Memory} {l : RecencyList}

theorem nodup (h : s.Represents l) : l.keys.Nodup :=
  (h.content.map Prod.fst).nodup_iff.mp s.inner.distinct

theorem find? (h : s.Represents l) (key : String) : s.inner.find? key = l.lookup key :=
  RecencyList.lookup_perm h.content h.nodup key

theorem usedBytes (h : s.Represents l) : s.inner.usedBytes = l.bytes :=
  RecencyList.bytes_perm h.content

theorem get (h : s.Represents l) (key : String) :
    (s.get key).answer = .ok (l.get key).1 ∧ (s.get key).after.Represents (l.get key).2 := by
  have hsize : s.index.size? key = (l.lookup key).map List.length := by
    rw [h.index, RecencyList.size?_index]
  rw [Lru.get]
  cases hl : l.lookup key with
  | none =>
    rw [hsize, hl, RecencyList.get_of_lookup_none hl]
    exact ⟨rfl, h⟩
  | some value =>
    have hfound : s.inner.find? key = some value := (h.find? key).trans hl
    have hperm := RecencyList.cons_without_perm h.nodup hl
    rw [hsize, hl, RecencyList.get_of_lookup hl]
    refine ⟨congrArg Except.ok hfound, ?_, h.content.trans hperm.symm, ?_⟩
    · change s.index.promote key = _
      rw [h.index, RecencyList.promote_index h.nodup, RecencyList.get_of_lookup hl]
    · rw [RecencyList.bytes_perm hperm, hperm.length_eq]
      exact h.bounded

/-- The victims are deleted before the new pair is written, so what is left below is what the
list keeps. -/
theorem set (h : s.Represents l) (key : String) (value : Bytes) :
    (s.set key value).answer = .ok () ∧
      (s.set key value).after.Represents (l.step s.capacity (.set key value)).2 := by
  let full : RecencyList := (key, value) :: l.without key
  let kept : RecencyList := (RecencyList.fit s.capacity full).tail
  let dropped := RecencyList.evicted s.capacity full
  have hfit : RecencyList.fit s.capacity full = (key, value) :: kept :=
    RecencyList.fit_cons s.capacity _ _
  have hsplit : kept ++ dropped = l.without key := by
    have := RecencyList.fit_append_evicted s.capacity full
    rw [hfit] at this
    exact (List.cons.inj this).2
  have hmoved : (s.index.record key value.length).evict s.capacity =
      (dropped.keys.reverse, (RecencyList.fit s.capacity full).index) := by
    rw [h.index, RecencyList.record_index h.nodup, RecencyList.evict_index]
  have hset : s.set key value =
      (ByteStore.set (deleteAll s.inner dropped.keys.reverse) key value).within fun inner =>
        { s with index := (RecencyList.fit s.capacity full).index, inner } := by
    rw [Lru.set]
    rw [hmoved]
  have hnodup : (kept ++ dropped).keys.Nodup := hsplit ▸ RecencyList.nodup_without h.nodup key
  have hkept : (l.without key).filter (fun e => !dropped.keys.contains e.1) = kept := by
    rw [← hsplit, List.filter_append, List.filter_eq_self.mpr, List.filter_eq_nil_iff.mpr,
      List.append_nil]
    · intro e he
      have hmem : e.1 ∈ dropped.keys := List.mem_map_of_mem he
      simpa using hmem
    · intro e he
      have hne : e.1 ∉ dropped.keys := by
        intro hmem
        rw [RecencyList.keys, List.map_append, List.nodup_append] at hnodup
        exact hnodup.2.2 _ (List.mem_map_of_mem he) _ hmem rfl
      simpa using hne
  rw [hset]
  refine ⟨rfl, rfl, ?_, RecencyList.fit_bounded s.capacity full⟩
  change ((deleteAll s.inner dropped.keys.reverse).insert key value).entries.Perm
    (RecencyList.fit s.capacity full)
  rw [hfit]
  apply List.Perm.cons _
  have hrest : ((deleteAll s.inner dropped.keys.reverse).erase key).entries =
      (s.inner.entries.filter fun e => e.1 != key).filter
        fun e => !dropped.keys.contains e.1 := by
    simp only [Memory.erase, entries_deleteAll, List.filter_filter, List.contains_reverse]
    exact List.filter_congr fun e _ => Bool.and_comm _ _
  rw [hrest, ← hkept]
  exact (h.content.filter _).filter _

theorem delete (h : s.Represents l) (key : String) :
    (s.delete key).answer = .ok () ∧ (s.delete key).after.Represents (l.without key) := by
  refine ⟨rfl, ?_, h.content.filter _, ?_⟩
  · change s.index.remove key = _
    rw [h.index, RecencyList.remove_index h.nodup]
  · have hlength : (l.without key).length ≤ l.length := List.length_filter_le _ _
    have hbytes := RecencyList.bytes_without_le l key
    change (l.without key).bytes ≤ s.capacity ∨ (l.without key).length = 1
    rcases h.bounded with hb | hone
    · exact .inl (Nat.le_trans hbytes hb)
    · by_cases hempty : l.without key = []
      · rw [hempty]
        exact .inl (Nat.zero_le _)
      · have := List.length_pos_iff.mpr hempty
        exact .inr (by omega)

/-- One call. -/
theorem run (h : s.Represents l) (call : StoreCall) :
    (call.run s).answer = .ok (l.step s.capacity call).1 ∧
      (call.run s).after.Represents (l.step s.capacity call).2 := by
  cases call with
  | get key => exact h.get key
  | set key value =>
    refine ⟨?_, (h.set key value).2⟩
    exact congrArg (Except.map fun _ => none) (h.set key value).1
  | delete key =>
    refine ⟨?_, (h.delete key).2⟩
    exact congrArg (Except.map fun _ => none) (h.delete key).1

/-- Any number of calls. -/
theorem runAll (h : s.Represents l) (calls : List StoreCall) :
    (StoreCall.runAll s calls).1 = (l.runAll s.capacity calls).1.map .ok ∧
      (StoreCall.runAll s calls).2.Represents (l.runAll s.capacity calls).2 := by
  induction calls generalizing s l with
  | nil => exact ⟨rfl, h⟩
  | cons call rest ih =>
    obtain ⟨hanswer, hafter⟩ := h.run call
    obtain ⟨hanswers, hlast⟩ := ih hafter
    rw [capacity_run] at hanswers hlast
    refine ⟨?_, hlast⟩
    change (call.run s).answer :: (StoreCall.runAll (call.run s).after rest).1 = _
    rw [hanswer, hanswers]
    rfl

end Represents

/-- An LRU layer over an empty memory store. -/
def overMemory (capacity : Nat) : Lru Memory :=
  { capacity, inner := Memory.empty }

theorem represents_overMemory (capacity : Nat) : (overMemory capacity).Represents [] where
  index := rfl
  content := .nil
  bounded := .inl (Nat.zero_le _)

end Lru

/-- An LRU layer over an empty memory store answers as a bounded recency list does and holds
exactly its pairs. Its running total is exact and within the capacity unless a single value is
larger, a key that is set is listed first, the arithmetic of the total never leaves its range,
and the index is the same over any other store. -/
theorem lru_refines_recencyList (capacity : Nat) (calls : List StoreCall)
    (hsmall : StoreCall.totalSize calls < Nat.pow 2 64) :
    let lru := StoreCall.runAll (Lru.overMemory capacity) calls
    let list := RecencyList.runAll capacity [] calls
    lru.1 = list.1.map .ok ∧
      lru.2.index.keys = list.2.keys ∧
      lru.2.index.entries.length = list.2.length ∧
      lru.2.index.used = list.2.bytes ∧
      lru.2.inner.entries.Perm list.2 ∧
      lru.2.index.used = LruIndex.total lru.2.index.entries ∧
      lru.2.index.used = lru.2.inner.usedBytes ∧
      (lru.2.index.used ≤ capacity ∨ lru.2.index.entries.length = 1) ∧
      (∀ key value,
        ((StoreCall.set key value).run lru.2).after.index.keys.head? = some key) ∧
      calls.foldlM (LruIndex.step? capacity) {} = some lru.2.index ∧
      ∀ (τ : Type) [ByteStore τ] (below : τ),
        (StoreCall.runAll ({ capacity, inner := below } : Lru τ) calls).2.index =
          lru.2.index := by
  intro lru list
  obtain ⟨hanswers, hstate⟩ := (Lru.represents_overMemory capacity).runAll calls
  have hindex : lru.2.index = list.2.index := hstate.index
  have hcapacity : lru.2.capacity = capacity := Lru.capacity_runAll _ calls
  have hlength : lru.2.index.entries.length = list.2.length := by
    rw [hindex]
    exact List.length_map _
  have hbounded := hstate.bounded
  rw [hcapacity] at hbounded
  refine ⟨hanswers, ?_, hlength, ?_, hstate.content, ?_, ?_, ?_, ?_, ?_, ?_⟩
  · rw [hindex, RecencyList.keys_index]
  · rw [hindex, RecencyList.used_index]
  · rw [hindex]
    exact (RecencyList.total_sizes _).symm
  · rw [hindex]
    exact hstate.usedBytes.symm
  · rw [hlength, hindex]
    exact hbounded
  · intro key value
    have hnext := (hstate.run (.set key value)).2.index
    rw [hnext, RecencyList.keys_index]
    change (RecencyList.keys (RecencyList.fit _ _)).head? = some key
    rw [RecencyList.fit_cons]
    rfl
  · have hchecked := RecencyList.foldlM_step? capacity (l := []) List.nodup_nil calls
      (by rw [RecencyList.bytes_nil]; omega)
    rw [hindex]
    exact hchecked
  · intro τ _ below
    rw [Lru.index_runAll, Lru.index_runAll]
    rfl

/-- Reading the older of two values keeps it, so the other one makes room for a third. -/
theorem lru_read_value_survives :
    let calls : List StoreCall :=
      [.set "a" [1, 2], .set "b" [3, 4], .get "a", .set "c" [5], .get "b"]
    StoreCall.totalSize calls < Nat.pow 2 64 ∧
      (StoreCall.runAll (Lru.overMemory 4) calls).1 =
        [.ok none, .ok none, .ok (some [1, 2]), .ok none, .ok none] ∧
      (StoreCall.runAll (Lru.overMemory 4) calls).2.index.keys = ["c", "a"] := by
  intro calls
  have hsmall : StoreCall.totalSize calls < Nat.pow 2 64 := by decide
  obtain ⟨hanswers, hkeys, -⟩ := lru_refines_recencyList 4 calls hsmall
  refine ⟨hsmall, hanswers.trans ?_, hkeys.trans ?_⟩
  · rfl
  · rfl

end PeerCache

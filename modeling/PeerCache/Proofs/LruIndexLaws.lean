import PeerCache.Proofs.RecencyList

/-!
# Laws of the index of an LRU layer

The index moves by itself. Its next state is a function of the call alone, so it is the same
over any store below, whatever that answers. The 64-bit total in it is exact: no subtraction
goes below zero, and no sum leaves the range while the values set stay below `2 ^ 64` bytes
together.
-/

namespace PeerCache

namespace StoreCall

variable {σ : Type} [ByteStore σ]

/-- Make a call on a store. Only `get` answers more than its success. -/
def run (s : σ) : StoreCall → Reply σ (Option Bytes)
  | get key => ByteStore.get s key
  | set key value =>
    { answer := (ByteStore.set s key value).answer.map fun _ => none
      after := (ByteStore.set s key value).after }
  | delete key =>
    { answer := (ByteStore.delete s key).answer.map fun _ => none
      after := (ByteStore.delete s key).after }

/-- The answers to calls one after another, and the store after the last. -/
def runAll (s : σ) : List StoreCall → List (Except StoreError (Option Bytes)) × σ
  | [] => ([], s)
  | call :: rest =>
    let (answers, last) := runAll (call.run s).after rest
    ((call.run s).answer :: answers, last)

/-- The bytes that a call brings in. -/
def size : StoreCall → Nat
  | set _ value => value.length
  | _ => 0

/-- The bytes that calls bring in together. -/
def totalSize (calls : List StoreCall) : Nat :=
  calls.foldr (fun call n => call.size + n) 0

@[simp] theorem totalSize_cons (call : StoreCall) (calls : List StoreCall) :
    totalSize (call :: calls) = call.size + totalSize calls := rfl

end StoreCall

/-! ## The index on its own -/

namespace LruIndex

/-- What a call makes of the index. -/
def step (capacity : Nat) (index : LruIndex) : StoreCall → LruIndex
  | .get key => index.promote key
  | .set key value => ((index.record key value.length).evict capacity).2
  | .delete key => index.remove key

def sub? (a b : Nat) : Option Nat :=
  if b ≤ a then some (a - b) else none

/-- A sum that has to stay within 64 bits. -/
def add? (a b : Nat) : Option Nat :=
  if a + b < Nat.pow 2 64 then some (a + b) else none

/-- `remove` with a subtraction that may not go below zero. -/
def remove? (index : LruIndex) (key : String) : Option LruIndex :=
  match index.size? key with
  | some size => (sub? index.used size).map fun used => { entries := index.without key, used }
  | none => some index

/-- `record` with checked arithmetic. -/
def record? (index : LruIndex) (key : String) (size : Nat) : Option LruIndex :=
  match index.size? key with
  | some old =>
    ((sub? index.used old).bind fun rest => add? rest size).map fun used =>
      { entries := (key, size) :: index.without key, used }
  | none =>
    (add? index.used size).map fun used => { entries := (key, size) :: index.entries, used }

/-- What `dropOldest` leaves, with a subtraction that may not go below zero. -/
def dropOldest? (capacity : Nat) :
    List (String × Nat) → Nat → Option (List (String × Nat) × Nat)
  | oldest :: next :: rest, used =>
    if used > capacity then
      (sub? used oldest.2).bind fun used => dropOldest? capacity (next :: rest) used
    else some (oldest :: next :: rest, used)
  | left, used => some (left, used)

def evict? (capacity : Nat) (index : LruIndex) : Option LruIndex :=
  (dropOldest? capacity index.entries.reverse index.used).map fun (left, used) =>
    { entries := left.reverse, used }

/-- `step` with checked arithmetic: nothing where a subtraction would go below zero or a sum
would leave the 64 bits of the total. -/
def step? (capacity : Nat) (index : LruIndex) : StoreCall → Option LruIndex
  | .get key => some (index.promote key)
  | .set key value => (index.record? key value.length).bind (evict? capacity)
  | .delete key => index.remove? key

theorem sub?_of_le {a b : Nat} (h : b ≤ a) : sub? a b = some (a - b) :=
  if_pos h

theorem add?_of_lt {a b : Nat} (h : a + b < Nat.pow 2 64) : add? a b = some (a + b) :=
  if_pos h

/-- The sum of the sizes of some entries. -/
def total (entries : List (String × Nat)) : Nat :=
  entries.foldr (fun e n => e.2 + n) 0

theorem total_append (a b : List (String × Nat)) : total (a ++ b) = total a + total b := by
  induction a with
  | nil => simp [total]
  | cons e a ih => simp only [total, List.cons_append, List.foldr_cons] at ih ⊢; omega

theorem total_reverse (entries : List (String × Nat)) : total entries.reverse = total entries := by
  induction entries with
  | nil => rfl
  | cons e rest ih =>
    rw [List.reverse_cons, total_append, ih]
    simp only [total, List.foldr_cons, List.foldr_nil]
    omega

/-- An exact total is at least the oldest size, so the loop never subtracts too much. -/
theorem dropOldest?_eq (capacity : Nat) (entries : List (String × Nat)) :
    dropOldest? capacity entries (total entries) =
      some (dropOldest capacity entries (total entries)).2 := by
  induction entries with
  | nil => rfl
  | cons oldest rest ih =>
    cases rest with
    | nil => rfl
    | cons next rest =>
      have htotal : total (oldest :: next :: rest) = oldest.2 + total (next :: rest) := rfl
      rw [dropOldest?, dropOldest]
      split
      · rw [sub?_of_le (by omega), htotal, Nat.add_sub_cancel_left, Option.bind_some, ih]
      · rfl

theorem evict?_eq (capacity : Nat) {index : LruIndex} (h : index.used = total index.entries) :
    index.evict? capacity = some (index.evict capacity).2 := by
  rw [evict?, h, ← total_reverse, dropOldest?_eq]
  simp [evict, h, total_reverse]

end LruIndex

namespace Lru

variable {σ : Type} [ByteStore σ]

@[simp] theorem capacity_run (s : Lru σ) (call : StoreCall) :
    (call.run s).after.capacity = s.capacity := by
  cases call with
  | get key =>
    change (s.get key).after.capacity = s.capacity
    rw [get]
    split <;> rfl
  | set key value => rfl
  | delete key => rfl

@[simp] theorem index_run (s : Lru σ) (call : StoreCall) :
    (call.run s).after.index = s.index.step s.capacity call := by
  cases call with
  | get key =>
    change (s.get key).after.index = s.index.promote key
    rw [get]
    split
    · next h => simp [LruIndex.promote, h]
    · rfl
  | set key value => rfl
  | delete key => rfl

theorem capacity_runAll (s : Lru σ) (calls : List StoreCall) :
    (StoreCall.runAll s calls).2.capacity = s.capacity := by
  induction calls generalizing s with
  | nil => rfl
  | cons call rest ih => exact (ih (call.run s).after).trans (capacity_run s call)

/-- The index after calls does not depend on the store below. -/
theorem index_runAll (s : Lru σ) (calls : List StoreCall) :
    (StoreCall.runAll s calls).2.index = calls.foldl (LruIndex.step s.capacity) s.index := by
  induction calls generalizing s with
  | nil => rfl
  | cons call rest ih =>
    have h := ih (call.run s).after
    rw [capacity_run, index_run] at h
    exact h

end Lru

/-! ## The index of a list -/

namespace RecencyList

variable {l : RecencyList} {key : String} {value : Bytes}

theorem total_sizes (l : RecencyList) : LruIndex.total (sizes l) = bytes l := by
  induction l with
  | nil => rfl
  | cons p l ih => exact congrArg (p.2.length + ·) ih

/-- The index of a list moves as the list does. -/
theorem index_step (capacity : Nat) (hd : (keys l).Nodup) (call : StoreCall) :
    (index l).step capacity call = index (l.step capacity call).2 := by
  cases call with
  | get key => exact promote_index hd key
  | set key value =>
    change (((index l).record key value.length).evict capacity).2 = _
    rw [record_index hd, evict_index]
    rfl
  | delete key => exact remove_index hd key

theorem bytes_step_le (capacity : Nat) (hd : (keys l).Nodup) (call : StoreCall) :
    bytes (l.step capacity call).2 ≤ bytes l + call.size := by
  cases call with
  | get key =>
    change bytes (l.get key).2 ≤ bytes l
    cases h : l.lookup key with
    | none => rw [get_of_lookup_none h]
    | some value =>
      rw [get_of_lookup h, bytes_cons, bytes_of_lookup hd h]
  | set key value =>
    have hfit := bytes_fit_le capacity ((key, value) :: l.without key)
    have hrest := bytes_without_le l key
    rw [bytes_cons] at hfit
    change bytes (fit capacity ((key, value) :: l.without key)) ≤ bytes l + value.length
    change _ ≤ value.length + _ at hfit
    omega
  | delete key => exact Nat.le_trans (bytes_without_le l key) (Nat.le_add_right _ _)

/-- While the bytes stay in range, checked arithmetic goes through and changes nothing. -/
theorem index_step? (capacity : Nat) (hd : (keys l).Nodup) (call : StoreCall)
    (hsmall : bytes l + call.size < Nat.pow 2 64) :
    (index l).step? capacity call = some (index (l.step capacity call).2) := by
  rw [← index_step capacity hd]
  cases call with
  | get key => rfl
  | set key value =>
    have hrecord : (index l).record? key value.length =
        some (index ((key, value) :: l.without key)) := by
      change bytes l + value.length < _ at hsmall
      rw [LruIndex.record?]
      rw [← record_index hd, LruIndex.record, size?_index]
      cases h : l.lookup key with
      | none => rw [Option.map_none, used_index, LruIndex.add?_of_lt hsmall]; rfl
      | some old =>
        have hold := bytes_of_lookup hd h
        have hle : old.length ≤ bytes l := by omega
        have hsum : bytes l - old.length + value.length < Nat.pow 2 64 := by omega
        simp only [Option.map_some, used_index, LruIndex.sub?_of_le hle, Option.bind_some,
          LruIndex.add?_of_lt hsum]
    change ((index l).record? key value.length).bind _ = _
    rw [hrecord, Option.bind_some, LruIndex.evict?_eq capacity (total_sizes _).symm]
    change _ = some (((index l).record key value.length).evict capacity).2
    rw [record_index hd]
  | delete key =>
    change (index l).remove? key = some ((index l).remove key)
    rw [LruIndex.remove?, LruIndex.remove]
    rw [size?_index]
    cases h : l.lookup key with
    | none => rfl
    | some old =>
      have hold := bytes_of_lookup hd h
      have hle : old.length ≤ bytes l := by omega
      simp only [Option.map_some, used_index, LruIndex.sub?_of_le hle]

/-- A run of the checked index stays exact while the bytes held and those still to come fit
the total. -/
theorem foldlM_step? (capacity : Nat) (hd : (keys l).Nodup) (calls : List StoreCall)
    (hsmall : bytes l + StoreCall.totalSize calls < Nat.pow 2 64) :
    calls.foldlM (LruIndex.step? capacity) (index l) =
      some (index (l.runAll capacity calls).2) := by
  induction calls generalizing l with
  | nil => rfl
  | cons call rest ih =>
    rw [StoreCall.totalSize_cons] at hsmall
    have hle := bytes_step_le capacity hd call
    rw [List.foldlM_cons, index_step? capacity hd call (by omega)]
    exact ih (nodup_step capacity hd call) (by omega)

end RecencyList

end PeerCache

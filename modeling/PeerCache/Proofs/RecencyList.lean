import Mathlib.Data.List.Infix
import PeerCache.Proofs.LookupLaws
import PeerCache.Store.Lru

/-!
# Bounded recency lists

The plain account of a store with a byte budget: a list of keys with their values, most
recently used first. Reading a key moves it to the front. Setting one puts it there and then
keeps the longest front part of the list whose values fit the budget, and the first pair in
any case.

The index of an LRU layer holds the keys of such a list with the sizes of the values. Each
operation of the index is shown to be the operation of the list, and its running total to be
the bytes of the list; the eviction loop is one induction on the list from its end.
-/

namespace PeerCache

/-- A call on a store. -/
inductive StoreCall where
  | get (key : String)
  | set (key : String) (value : Bytes)
  | delete (key : String)

/-- Keys with their values, most recently used first. -/
abbrev RecencyList := List (String × Bytes)

namespace RecencyList

def keys (l : RecencyList) : List String :=
  l.map Prod.fst

/-- The keys with the sizes of their values. -/
def sizes (l : RecencyList) : List (String × Nat) :=
  l.map fun p => (p.1, p.2.length)

/-- Total length of the values. -/
def bytes (l : RecencyList) : Nat :=
  l.foldr (fun p n => p.2.length + n) 0

def without (l : RecencyList) (key : String) : RecencyList :=
  l.filter fun p => p.1 != key

/-- The longest non-empty front part whose values fit a capacity; the first pair alone when
there is none. -/
def fit (capacity : Nat) (l : RecencyList) : RecencyList :=
  (l.inits.filter fun front : RecencyList => !front.isEmpty && front.bytes ≤ capacity).getLast?.getD
    (l.take 1)

/-- Read a key, which moves it to the front. -/
def get (l : RecencyList) (key : String) : Option Bytes × RecencyList :=
  match l.lookup key with
  | some value => (some value, (key, value) :: l.without key)
  | none => (none, l)

/-- What a call answers and the list it leaves. Only `get` answers anything. -/
def step (capacity : Nat) (l : RecencyList) : StoreCall → Option Bytes × RecencyList
  | .get key => l.get key
  | .set key value => (none, fit capacity ((key, value) :: l.without key))
  | .delete key => (none, l.without key)

/-- The answers to calls one after another, and the list after the last. -/
def runAll (capacity : Nat) (l : RecencyList) :
    List StoreCall → List (Option Bytes) × RecencyList
  | [] => ([], l)
  | call :: rest =>
    let (answers, last) := runAll capacity (l.step capacity call).2 rest
    ((l.step capacity call).1 :: answers, last)

variable {l : RecencyList} {key : String} {value : Bytes} {capacity : Nat}

@[simp] theorem keys_cons (p : String × Bytes) (l : RecencyList) :
    keys (p :: l) = p.1 :: keys l := rfl

@[simp] theorem bytes_nil : bytes [] = 0 := rfl

@[simp] theorem bytes_cons (p : String × Bytes) (l : RecencyList) :
    bytes (p :: l) = p.2.length + bytes l := rfl

theorem bytes_append (l m : RecencyList) : bytes (l ++ m) = bytes l + bytes m := by
  induction l with
  | nil => simp
  | cons p l ih => simp only [List.cons_append, bytes_cons, ih]; omega

@[simp] theorem sizes_cons (p : String × Bytes) (l : RecencyList) :
    sizes (p :: l) = (p.1, p.2.length) :: sizes l := rfl

theorem map_fst_sizes (l : RecencyList) : (sizes l).map (·.1) = keys l := by
  simp [sizes, keys, Function.comp_def]

theorem lookup_sizes (l : RecencyList) (key : String) :
    (sizes l).lookup key = (l.lookup key).map List.length := by
  induction l with
  | nil => rfl
  | cons p l ih =>
    rw [sizes_cons, List.lookup_cons, List.lookup_cons]
    split <;> simp [ih]

theorem without_sizes (l : RecencyList) (key : String) :
    ((sizes l).filter fun e => e.1 != key) = sizes (l.without key) := by
  simp [sizes, without, List.filter_map, Function.comp_def]

@[simp] theorem keys_without (l : RecencyList) (key : String) :
    keys (l.without key) = (keys l).filter fun k => k != key := by
  simp [keys, without, List.filter_map, Function.comp_def]

theorem not_mem_keys_without (l : RecencyList) (key : String) : key ∉ keys (l.without key) := by
  simp

theorem nodup_without (h : (keys l).Nodup) (key : String) : (keys (l.without key)).Nodup := by
  rw [keys_without]
  exact h.filter _

theorem without_of_not_mem (h : key ∉ keys l) : l.without key = l := by
  apply List.filter_eq_self.mpr
  intro p hp
  have : p.1 ≠ key := by
    intro he
    exact h (he ▸ List.mem_map_of_mem hp)
  simpa using this

/-- Lists of the same pairs with distinct keys find the same values. -/
theorem lookup_perm {m : RecencyList} (h : m.Perm l) (hd : (keys l).Nodup) (key : String) :
    m.lookup key = l.lookup key := by
  have hm : (keys m).Nodup := (h.map Prod.fst).nodup_iff.mpr hd
  cases hl : l.lookup key with
  | some value => exact lookup_of_mem hm (h.mem_iff.mpr (mem_of_lookup hl))
  | none =>
    apply Option.eq_none_iff_forall_ne_some.mpr
    intro value hv
    have := lookup_of_mem hd (h.mem_iff.mp (mem_of_lookup hv))
    rw [hl] at this
    cases this

/-- Moving a pair to the front keeps the pairs. -/
theorem cons_without_perm (hd : (keys l).Nodup) (h : l.lookup key = some value) :
    ((key, value) :: l.without key).Perm l := by
  induction l with
  | nil => cases h
  | cons p l ih =>
    rw [keys_cons, List.nodup_cons] at hd
    rw [List.lookup_cons] at h
    by_cases hk : key = p.1
    · have hv : p.2 = value := by simpa [hk] using h
      have hrest : without (p :: l) key = l := by
        rw [without, List.filter_cons_of_neg (by simp [hk])]
        exact without_of_not_mem (hk ▸ hd.1)
      rw [hrest, hk, ← hv]
    · have hl : l.lookup key = some value := by simpa [beq_eq_false_iff_ne.mpr hk] using h
      have hrest : without (p :: l) key = p :: without l key :=
        List.filter_cons_of_pos (by simpa using fun he => hk he.symm)
      rw [hrest]
      exact (List.Perm.swap p (key, value) _).trans ((ih hd.2 hl).cons p)

theorem bytes_perm {m : RecencyList} (h : l.Perm m) : bytes l = bytes m := by
  induction h with
  | nil => rfl
  | cons p _ ih => exact congrArg (p.2.length + ·) ih
  | swap p q l => simp only [bytes_cons]; omega
  | trans _ _ ih₁ ih₂ => exact ih₁.trans ih₂

/-- With distinct keys, a key that is found accounts for its value's bytes and the rest of the
list for the others. -/
theorem bytes_of_lookup (hd : (keys l).Nodup) (h : l.lookup key = some value) :
    bytes l = value.length + bytes (l.without key) :=
  (bytes_perm (cons_without_perm hd h)).symm

theorem bytes_without_le (l : RecencyList) (key : String) : bytes (l.without key) ≤ bytes l := by
  induction l with
  | nil => exact Nat.le_refl 0
  | cons p l ih =>
    rw [without] at ih ⊢
    rw [List.filter_cons]
    split
    · exact Nat.add_le_add_left ih _
    · exact Nat.le_trans ih (Nat.le_add_left _ _)

/-! ## Fitting -/

@[simp] theorem fit_nil (capacity : Nat) : fit capacity [] = [] := by
  simp [fit]

/-- A list that fits is kept, and one that does not is fitted without its last pair, unless
that is the only one. -/
theorem fit_append_singleton (capacity : Nat) (l : RecencyList) (p : String × Bytes) :
    fit capacity (l ++ [p]) =
      if bytes (l ++ [p]) ≤ capacity ∨ l = [] then l ++ [p] else fit capacity l := by
  have hinits : (l ++ [p]).inits = l.inits ++ [l ++ [p]] := by simp [List.inits_append]
  simp only [fit]
  rw [hinits, List.filter_append]
  by_cases hfits : bytes (l ++ [p]) ≤ capacity
  · rw [if_pos (.inl hfits)]
    have hlast : ([l ++ [p]].filter fun front : RecencyList =>
        !front.isEmpty && front.bytes ≤ capacity) = [l ++ [p]] := by
      simp only [List.filter_cons, List.filter_nil]
      simp [hfits]
    rw [hlast, List.getLast?_append]
    simp
  · have hlast : ([l ++ [p]].filter fun front : RecencyList =>
        !front.isEmpty && front.bytes ≤ capacity) = [] := by
      simp only [List.filter_cons, List.filter_nil]
      simp [hfits]
    rw [hlast, List.append_nil]
    by_cases hl : l = []
    · subst hl
      simp
    · obtain ⟨q, rest, rfl⟩ := List.exists_cons_of_ne_nil hl
      rw [if_neg fun h => h.elim hfits hl]
      simp

theorem fit_isPrefix (capacity : Nat) (l : RecencyList) : fit capacity l <+: l := by
  induction l using List.reverseRecOn with
  | nil => simp
  | append_singleton l p ih =>
    rw [fit_append_singleton]
    split
    · exact List.prefix_rfl
    · exact ih.trans (List.prefix_append l [p])

/-- Fitting keeps the first pair. -/
theorem head?_fit (capacity : Nat) (l : RecencyList) : (fit capacity l).head? = l.head? := by
  induction l using List.reverseRecOn with
  | nil => simp
  | append_singleton l p ih =>
    rw [fit_append_singleton]
    split
    · rfl
    · next h =>
      have hl : l ≠ [] := by
        intro he
        exact h (.inr he)
      rw [ih, List.head?_append_of_ne_nil _ hl]

/-- What is kept fits the capacity, or is a single pair. -/
theorem fit_bounded (capacity : Nat) (l : RecencyList) :
    bytes (fit capacity l) ≤ capacity ∨ (fit capacity l).length = 1 := by
  induction l using List.reverseRecOn with
  | nil => simp
  | append_singleton l p ih =>
    rw [fit_append_singleton]
    split
    · next h =>
      rcases h with h | rfl
      · exact .inl h
      · exact .inr rfl
    · exact ih

/-- The pairs that fitting drops. -/
def evicted (capacity : Nat) (l : RecencyList) : RecencyList :=
  l.drop (fit capacity l).length

theorem fit_append_evicted (capacity : Nat) (l : RecencyList) :
    fit capacity l ++ evicted capacity l = l :=
  List.prefix_append_drop (fit_isPrefix capacity l) |>.symm

theorem evicted_append_singleton (capacity : Nat) {l : RecencyList} {p : String × Bytes}
    (h : ¬(bytes (l ++ [p]) ≤ capacity ∨ l = [])) :
    evicted capacity (l ++ [p]) = evicted capacity l ++ [p] := by
  simp only [evicted]
  rw [fit_append_singleton, if_neg h, List.drop_append_of_le_length (fit_isPrefix capacity l).length_le]

theorem bytes_fit_le (capacity : Nat) (l : RecencyList) : bytes (fit capacity l) ≤ bytes l := by
  have h := congrArg bytes (fit_append_evicted capacity l)
  rw [bytes_append] at h
  omega

/-- A pair set first is still first after the list is fitted. -/
theorem fit_cons (capacity : Nat) (p : String × Bytes) (l : RecencyList) :
    fit capacity (p :: l) = p :: (fit capacity (p :: l)).tail := by
  have h := head?_fit capacity (p :: l)
  cases hf : fit capacity (p :: l) with
  | nil => rw [hf] at h; cases h
  | cons q rest =>
    rw [hf] at h
    rw [Option.some.inj h, List.tail_cons]

/-! ## The index of a list -/

/-- The index of an LRU layer that holds the pairs of a list. -/
def index (l : RecencyList) : LruIndex :=
  { entries := sizes l, used := bytes l }

@[simp] theorem entries_index (l : RecencyList) : (index l).entries = sizes l := rfl

@[simp] theorem used_index (l : RecencyList) : (index l).used = bytes l := rfl

@[simp] theorem keys_index (l : RecencyList) : (index l).keys = keys l :=
  map_fst_sizes l

@[simp] theorem size?_index (l : RecencyList) (key : String) :
    (index l).size? key = (l.lookup key).map List.length :=
  lookup_sizes l key

@[simp] theorem without_index (l : RecencyList) (key : String) :
    (index l).without key = sizes (l.without key) :=
  without_sizes l key

theorem get_of_lookup (h : l.lookup key = some value) :
    l.get key = (some value, (key, value) :: l.without key) := by
  simp [get, h]

theorem get_of_lookup_none (h : l.lookup key = none) : l.get key = (none, l) := by
  simp [get, h]

theorem nodup_step (capacity : Nat) (hd : (keys l).Nodup) (call : StoreCall) :
    (keys (l.step capacity call).2).Nodup := by
  cases call with
  | get key =>
    change (keys (l.get key).2).Nodup
    cases h : l.lookup key with
    | none => rw [get_of_lookup_none h]; exact hd
    | some value =>
      rw [get_of_lookup h]
      exact ((cons_without_perm hd h).map Prod.fst).nodup_iff.mpr hd
  | set key value =>
    have hfull : (keys ((key, value) :: l.without key)).Nodup :=
      List.nodup_cons.mpr ⟨not_mem_keys_without l key, nodup_without hd key⟩
    exact ((fit_isPrefix capacity _).sublist.map Prod.fst).nodup hfull
  | delete key => exact nodup_without hd key

theorem promote_index (hd : (keys l).Nodup) (key : String) :
    (index l).promote key = index (l.get key).2 := by
  rw [LruIndex.promote]
  rw [size?_index]
  cases h : l.lookup key with
  | none => rw [get_of_lookup_none h]; rfl
  | some value =>
    rw [get_of_lookup h, Option.map_some, without_index]
    simp only [index, sizes_cons, bytes_cons]
    rw [bytes_of_lookup hd h]

theorem remove_index (hd : (keys l).Nodup) (key : String) :
    (index l).remove key = index (l.without key) := by
  rw [LruIndex.remove]
  rw [size?_index]
  cases h : l.lookup key with
  | none => rw [without_of_not_mem (not_mem_names_of_lookup h)]; rfl
  | some value =>
    rw [Option.map_some, without_index, used_index]
    simp only [index]
    rw [bytes_of_lookup hd h, Nat.add_sub_cancel_left]

theorem record_index (hd : (keys l).Nodup) (key : String) (value : Bytes) :
    (index l).record key value.length = index ((key, value) :: l.without key) := by
  rw [LruIndex.record]
  rw [size?_index]
  cases h : l.lookup key with
  | none =>
    rw [without_of_not_mem (not_mem_names_of_lookup h)]
    simp only [Option.map_none, index, sizes_cons, bytes_cons, Nat.add_comm]
  | some old =>
    rw [Option.map_some, without_index, used_index]
    simp only [index, sizes_cons, bytes_cons]
    rw [bytes_of_lookup hd h, Nat.add_sub_cancel_left, Nat.add_comm]

theorem dropOldest_cons (capacity : Nat) (oldest : String × Nat) {rest : List (String × Nat)}
    (h : rest ≠ []) (used : Nat) :
    LruIndex.dropOldest capacity (oldest :: rest) used =
      if used > capacity then
        (oldest.1 :: (LruIndex.dropOldest capacity rest (used - oldest.2)).1,
          (LruIndex.dropOldest capacity rest (used - oldest.2)).2)
      else ([], oldest :: rest, used) := by
  obtain ⟨next, rest, rfl⟩ := List.exists_cons_of_ne_nil h
  rfl

/-- The eviction loop fits the list, and its victims are the pairs that do not fit, the last
one first. -/
theorem dropOldest_sizes (capacity : Nat) (l : RecencyList) :
    LruIndex.dropOldest capacity (sizes l).reverse (bytes l) =
      ((keys (evicted capacity l)).reverse, (sizes (fit capacity l)).reverse,
        bytes (fit capacity l)) := by
  induction l using List.reverseRecOn with
  | nil => simp [LruIndex.dropOldest, sizes, evicted, keys]
  | append_singleton l p ih =>
    have hrev : (sizes (l ++ [p])).reverse = (p.1, p.2.length) :: (sizes l).reverse := by
      simp [sizes]
    by_cases h : bytes (l ++ [p]) ≤ capacity ∨ l = []
    · have hfit : fit capacity (l ++ [p]) = l ++ [p] := by
        rw [fit_append_singleton, if_pos h]
      have hevicted : evicted capacity (l ++ [p]) = [] := by
        rw [evicted, hfit, List.drop_length]
      rw [hfit, hevicted, hrev]
      rcases h with h | rfl
      · by_cases hl : l = []
        · subst hl; rfl
        · rw [dropOldest_cons _ _ (by simpa [sizes] using hl), if_neg (by omega)]
          rfl
      · rfl
    · rw [fit_append_singleton, if_neg h, evicted_append_singleton capacity h, hrev]
      have hl : (sizes l).reverse ≠ [] := by simpa [sizes] using fun he => h (.inr he)
      have hover : bytes (l ++ [p]) > capacity := Nat.lt_of_not_le fun he => h (.inl he)
      have hrest : bytes (l ++ [p]) - p.2.length = bytes l := by
        rw [bytes_append, bytes_cons, bytes_nil]
        omega
      rw [dropOldest_cons _ _ hl, if_pos hover, hrest, ih]
      simp [keys]

theorem evict_index (capacity : Nat) (l : RecencyList) :
    (index l).evict capacity =
      ((keys (evicted capacity l)).reverse, index (fit capacity l)) := by
  simp only [LruIndex.evict, entries_index, used_index, dropOldest_sizes, List.reverse_reverse]
  rfl

end RecencyList

end PeerCache

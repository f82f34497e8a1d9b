import PeerCache.Proofs.LruIndexLaws
import PeerCache.Proofs.StoreContents

/-!
# What an LRU layer serves over a failing store

The store below holds a value per key, and each of its operations may fail. Some of its values
may have come there behind the back of the layer. The past of a layer is a list of turns: what
happened, what was answered and which keys were evicted.

A served value is settled when its key was set to it with success, and since then was neither
deleted nor evicted nor set again. The index alone does not see to that. A set lists its key
before it has reached the store below, and a set that fails leaves the key listed, so a value
that was deleted, evicted or never set can be served again. The main statement says which part
of the past decides: a served value is settled as soon as one set of its key has succeeded
since the key was last deleted, evicted or written behind the back of the layer. The invariant
of a run ties the index to the keys that the past lists and the values below to those that it
settles.
-/

namespace PeerCache

/-! ## Stores that are maps -/

/-- A store that holds one value per key, seen through a lookup. Each operation does its work or
fails, and one that fails changes no value. -/
structure MapLike {σ : Type} [ByteStore σ] (find? : σ → String → Option Bytes) : Prop where
  get_answer : ∀ s key value, (ByteStore.get s key).answer = .ok value → value = find? s key
  get_after : ∀ s key, find? (ByteStore.get s key).after = find? s
  set_done : ∀ s key value, (ByteStore.set s key value).answer = .ok () → ∀ k,
    find? (ByteStore.set s key value).after k = if k = key then some value else find? s k
  set_failed : ∀ s key value e, (ByteStore.set s key value).answer = .error e →
    find? (ByteStore.set s key value).after = find? s
  delete_done : ∀ s key, (ByteStore.delete s key).answer = .ok () → ∀ k,
    find? (ByteStore.delete s key).after k = if k = key then none else find? s k
  delete_failed : ∀ s key e, (ByteStore.delete s key).answer = .error e →
    find? (ByteStore.delete s key).after = find? s

theorem Memory.mapLike : MapLike Memory.find? where
  get_answer _ _ _ h := (Except.ok.inj h).symm
  get_after _ _ := rfl
  set_done s key value _ k := s.find?_insert key k value
  set_failed _ _ _ _ h := by cases h
  delete_done s key _ k := s.find?_erase key k
  delete_failed _ _ _ h := by cases h

/-- The call sets or deletes the key. -/
def StoreCall.Writes (key : String) : StoreCall → Prop
  | get _ => False
  | set k _ => k = key
  | delete k => k = key

/-- A layer refused an operation and left the store below alone, or answered what that answered. -/
def Reply.RefusesOrPasses {σ τ α : Type} (inner : τ → σ) (s : τ) (below : Reply σ α)
    (r : Reply τ α) : Prop :=
  (∃ e, r.answer = .error e ∧ inner r.after = inner s) ∨
    (r.answer = below.answer ∧ inner r.after = below.after)

theorem Faulty.guarded_refusesOrPasses {σ α : Type} (s : Faulty σ) (keys : List String)
    (operation key : String) (run : σ → Reply σ α) :
    Reply.RefusesOrPasses Faulty.inner s (run s.inner) (s.guarded keys operation key run) := by
  rw [guarded]
  split
  · exact .inl ⟨_, rfl, rfl⟩
  · exact .inr ⟨rfl, rfl⟩

theorem Flaky.attempt_refusesOrPasses {σ α : Type} (s : Flaky σ) (operation : String)
    (run : σ → Reply σ α) :
    Reply.RefusesOrPasses Flaky.inner s (run s.inner) (s.attempt operation run) := by
  rw [attempt]
  split
  · exact .inl ⟨_, rfl, rfl⟩
  · exact .inr ⟨rfl, rfl⟩

namespace MapLike

variable {σ τ : Type} [ByteStore σ] [ByteStore τ] {find? : σ → String → Option Bytes} {s : σ}
  {key : String} {held : Bytes}

/-- A layer whose operations each refuse or pass on is a map when the store below is one. -/
theorem layer (h : MapLike find?) (inner : τ → σ)
    (hget : ∀ s key, Reply.RefusesOrPasses inner s (ByteStore.get (inner s) key)
      (ByteStore.get s key))
    (hset : ∀ s key value, Reply.RefusesOrPasses inner s (ByteStore.set (inner s) key value)
      (ByteStore.set s key value))
    (hdelete : ∀ s key, Reply.RefusesOrPasses inner s (ByteStore.delete (inner s) key)
      (ByteStore.delete s key)) :
    MapLike fun s : τ => find? (inner s) where
  get_answer s key value hok := by
    rcases hget s key with ⟨e, he, -⟩ | ⟨ha, -⟩
    · rw [he] at hok; cases hok
    · exact h.get_answer _ _ _ (ha ▸ hok)
  get_after s key := by
    rcases hget s key with ⟨e, -, hs⟩ | ⟨-, hs⟩
    · rw [hs]
    · rw [hs, h.get_after]
  set_done s key value hok := by
    rcases hset s key value with ⟨e, he, -⟩ | ⟨ha, hs⟩
    · rw [he] at hok; cases hok
    · rw [hs]; exact h.set_done _ _ _ (ha ▸ hok)
  set_failed s key value e herror := by
    rcases hset s key value with ⟨e, -, hs⟩ | ⟨ha, hs⟩
    · rw [hs]
    · rw [hs]; exact h.set_failed _ _ _ _ (ha ▸ herror)
  delete_done s key hok := by
    rcases hdelete s key with ⟨e, he, -⟩ | ⟨ha, hs⟩
    · rw [he] at hok; cases hok
    · rw [hs]; exact h.delete_done _ _ (ha ▸ hok)
  delete_failed s key e herror := by
    rcases hdelete s key with ⟨e, -, hs⟩ | ⟨ha, hs⟩
    · rw [hs]
    · rw [hs]; exact h.delete_failed _ _ _ (ha ▸ herror)

theorem faulty (h : MapLike find?) : MapLike fun s : Faulty σ => find? s.inner :=
  h.layer Faulty.inner (fun s key => s.guarded_refusesOrPasses _ _ key _)
    (fun s key _ => s.guarded_refusesOrPasses _ _ key _)
    (fun s key => s.guarded_refusesOrPasses _ _ key _)

theorem flaky (h : MapLike find?) : MapLike fun s : Flaky σ => find? s.inner :=
  h.layer Flaky.inner (fun s _ => s.attempt_refusesOrPasses _ _)
    (fun s _ _ => s.attempt_refusesOrPasses _ _) (fun s _ => s.attempt_refusesOrPasses _ _)

/-- A call changes no value but that of the key it writes, and that only if it succeeds. -/
theorem find?_run (h : MapLike find?) {call : StoreCall}
    (hkept : call.Writes key → ∀ r, (call.run s).answer ≠ .ok r) :
    find? (call.run s).after key = find? s key := by
  cases call with
  | get k => exact congrFun (h.get_after s k) key
  | set k value =>
    change find? (ByteStore.set s k value).after key = _
    cases ha : (ByteStore.set s k value).answer with
    | error e => rw [h.set_failed s k value e ha]
    | ok u =>
      rw [h.set_done s k value ha]
      refine if_neg fun hk => hkept hk.symm none ?_
      rw [StoreCall.run, ha]
      rfl
  | delete k =>
    change find? (ByteStore.delete s k).after key = _
    cases ha : (ByteStore.delete s k).answer with
    | error e => rw [h.delete_failed s k e ha]
    | ok u =>
      rw [h.delete_done s k ha]
      refine if_neg fun hk => hkept hk.symm none ?_
      rw [StoreCall.run, ha]
      rfl

/-- Deleting other keys changes nothing, whatever the answers are. -/
theorem find?_deleteAll (h : MapLike find?) {keys : List String} (hkey : key ∉ keys) :
    find? (Lru.deleteAll s keys) key = find? s key := by
  induction keys generalizing s with
  | nil => rfl
  | cons k rest ih =>
    rw [List.mem_cons, not_or] at hkey
    have hk : find? (StoreCall.run s (.delete k)).after key = find? s key :=
      h.find?_run fun hwrites => absurd (Eq.symm hwrites) hkey.1
    exact (ih hkey.2).trans hk

end MapLike

/-! ## The past of a layer -/

/-- What happens to an LRU layer and the store below it. -/
inductive LruEvent where
  | call (call : StoreCall)
  /-- A call on the store below, behind the back of the layer. -/
  | behind (call : StoreCall)

/-- An event with its answer and the keys it evicted. -/
structure LruTurn where
  event : LruEvent
  answer : Except StoreError (Option Bytes)
  evicted : List String

/-- The keys that a call drops from the index to make room. -/
def LruIndex.victims (capacity : Nat) (index : LruIndex) : StoreCall → List String
  | .set key value => ((index.record key value.length).evict capacity).1
  | _ => []

namespace Lru

variable {σ : Type} [ByteStore σ]

def turn (s : Lru σ) : LruEvent → LruTurn
  | .call call =>
    { event := .call call, answer := (call.run s).answer, evicted := s.index.victims s.capacity call }
  | .behind call => { event := .behind call, answer := (call.run s.inner).answer, evicted := [] }

def afterEvent (s : Lru σ) : LruEvent → Lru σ
  | .call call => (call.run s).after
  | .behind call => { s with inner := (call.run s.inner).after }

/-- The turns of events one after another, and the layer after the last. -/
def history (s : Lru σ) : List LruEvent → List LruTurn × Lru σ
  | [] => ([], s)
  | event :: rest =>
    let (turns, last) := history (s.afterEvent event) rest
    (s.turn event :: turns, last)

end Lru

namespace LruTurn

def Succeeds (t : LruTurn) : Prop :=
  ∃ r, t.answer = .ok r

/-- The turn set a key, whatever came of it. -/
def Sets (key : String) (t : LruTurn) : Prop :=
  ∃ value, t.event = .call (.set key value)

/-- The turn set a key to a value with success. -/
def Stores (key : String) (value : Bytes) (t : LruTurn) : Prop :=
  t.event = .call (.set key value) ∧ t.Succeeds

/-- The turn deleted or evicted a key, whatever the store below answered. -/
def Unlists (key : String) (t : LruTurn) : Prop :=
  t.event = .call (.delete key) ∨ key ∈ t.evicted

/-- The turn set or deleted a key behind the back of the layer. -/
def WritesBehind (key : String) (t : LruTurn) : Prop :=
  ∃ call : StoreCall, t.event = .behind call ∧ call.Writes key ∧ t.Succeeds

end LruTurn

/-- Some turn was a `P`, and no turn after it a `Q`. -/
def Since {α : Type} (P Q : α → Prop) (past : List α) : Prop :=
  ∃ before turn rest, past = before ++ turn :: rest ∧ P turn ∧ ∀ t ∈ rest, ¬Q t

/-- The key was set to the value with success, and since then neither deleted nor evicted nor
set again with success. -/
def Settled (key : String) (value : Bytes) : List LruTurn → Prop :=
  Since (LruTurn.Stores key value) fun t => t.Unlists key ∨ ∃ other, t.Stores key other

/-- The key was set, and since then neither deleted nor evicted. -/
def Listed (key : String) : List LruTurn → Prop :=
  Since (LruTurn.Sets key) (LruTurn.Unlists key)

/-- A set of the key has succeeded, and since then the key was neither deleted nor evicted nor
written behind the back of the layer. -/
def Backed (key : String) : List LruTurn → Prop :=
  Since (fun t => ∃ value, t.Stores key value) fun t => t.Unlists key ∨ t.WritesBehind key

@[simp] theorem since_nil {α : Type} (P Q : α → Prop) : ¬Since P Q [] := by
  simp [Since]

/-- The last turn decides, or leaves it to the turns before. -/
theorem since_snoc {α : Type} {P Q : α → Prop} {past : List α} {t : α} :
    Since P Q (past ++ [t]) ↔ P t ∨ (Since P Q past ∧ ¬Q t) := by
  constructor
  · rintro ⟨before, turn, rest, hsplit, hP, hQ⟩
    cases rest using List.reverseRecOn with
    | nil =>
      obtain rfl := List.singleton_inj.mp (List.append_inj' hsplit rfl).2
      exact .inl hP
    | append_singleton rest last =>
      rw [← List.cons_append, ← List.append_assoc] at hsplit
      obtain ⟨rfl, hlast⟩ := List.append_inj' hsplit rfl
      obtain rfl := List.singleton_inj.mp hlast
      have hrest : ∀ u ∈ rest, ¬Q u := fun u hu => hQ u (List.mem_append_left _ hu)
      exact .inr ⟨⟨before, turn, rest, rfl, hP, hrest⟩, hQ _ (by simp)⟩
  · rintro (hP | ⟨⟨before, turn, rest, rfl, hP, hQ⟩, hlast⟩)
    · exact ⟨past, t, [], rfl, hP, by simp⟩
    · refine ⟨before, turn, rest ++ [t], by simp, hP, ?_⟩
      intro u hu
      rcases List.mem_append.mp hu with hu | hu
      · exact hQ u hu
      · rwa [List.mem_singleton.mp hu]

/-- The first turn counts where no turn after it undoes it. -/
theorem since_cons {α : Type} {P Q : α → Prop} {t : α} {rest : List α} :
    Since P Q (t :: rest) ↔ (P t ∧ ∀ u ∈ rest, ¬Q u) ∨ Since P Q rest := by
  constructor
  · rintro ⟨before, turn, after, hsplit, hP, hQ⟩
    cases before with
    | nil =>
      obtain ⟨rfl, rfl⟩ := List.cons.inj hsplit
      exact .inl ⟨hP, hQ⟩
    | cons first before =>
      obtain ⟨rfl, rfl⟩ := List.cons.inj hsplit
      exact .inr ⟨before, turn, after, rfl, hP, hQ⟩
  · rintro (⟨hP, hQ⟩ | ⟨before, turn, after, rfl, hP, hQ⟩)
    · exact ⟨[], t, rest, rfl, hP, hQ⟩
    · exact ⟨t :: before, turn, after, rfl, hP, hQ⟩

/-- A key that is backed is listed. -/
theorem Backed.listed {key : String} {past : List LruTurn} (h : Backed key past) :
    Listed key past := by
  obtain ⟨before, turn, rest, rfl, ⟨value, hset, -⟩, hkept⟩ := h
  exact ⟨before, turn, rest, rfl, ⟨value, hset⟩, fun t ht hunlists => hkept t ht (.inl hunlists)⟩

/-- Only a write behind the back of the layer comes between settled and backed. -/
theorem Settled.backed {key : String} {value : Bytes} {past : List LruTurn}
    (h : Settled key value past) :
    Backed key past ∨ ∃ turn ∈ past, turn.WritesBehind key := by
  obtain ⟨before, turn, rest, rfl, hstores, hkept⟩ := h
  by_cases hbehind : ∃ t ∈ rest, t.WritesBehind key
  · obtain ⟨t, ht, hwrites⟩ := hbehind
    exact .inr ⟨t, by simp [ht], hwrites⟩
  · refine .inl ⟨before, turn, rest, rfl, ⟨value, hstores⟩, ?_⟩
    rintro t ht (hunlists | hwrites)
    · exact hkept t ht (.inl hunlists)
    · exact hbehind ⟨t, ht, hwrites⟩

/-! ## What the index and the store below know of the past -/

/-- The keys listed after a call are the key it sets and those listed before that it neither
deletes nor evicts. -/
theorem RecencyList.mem_keys_step {l : RecencyList} (hd : (keys l).Nodup) (capacity : Nat)
    (call : StoreCall) (key : String) :
    key ∈ keys (l.step capacity call).2 ↔ (∃ value, call = .set key value) ∨
      (key ∈ keys l ∧ call ≠ .delete key ∧ key ∉ (index l).victims capacity call) := by
  cases call with
  | get k =>
    suffices key ∈ keys (l.get k).2 ↔ key ∈ keys l by simpa [step, LruIndex.victims] using this
    cases hk : l.lookup k with
    | none => rw [get_of_lookup_none hk]
    | some value =>
      rw [get_of_lookup hk]
      exact ((cons_without_perm hd hk).map Prod.fst).mem_iff
  | set k value =>
    let full := (k, value) :: l.without k
    have hfull : (keys full).Nodup :=
      List.nodup_cons.mpr ⟨not_mem_keys_without l k, nodup_without hd k⟩
    have hsplit : keys full = keys (fit capacity full) ++ keys (evicted capacity full) := by
      rw [keys, keys, keys, ← List.map_append, fit_append_evicted]
    have hvictims : (index l).victims capacity (.set k value) =
        (keys (evicted capacity full)).reverse := by
      change (((index l).record k value.length).evict capacity).1 = _
      rw [record_index hd, evict_index]
    change key ∈ keys (fit capacity full) ↔ _
    rw [hvictims, List.mem_reverse]
    by_cases hk : k = key
    · have hfirst : key ∈ keys (fit capacity full) := by
        rw [show fit capacity full = _ from fit_cons capacity (k, value) (l.without k)]
        simp [hk]
      simp [hfirst, hk]
    · have hmem : key ∈ keys l ↔ key ∈ keys full := by
        simp [full, Ne.symm hk]
      rw [hsplit, List.nodup_append] at hfull
      rw [hmem, hsplit, List.mem_append]
      constructor
      · intro hfit
        exact .inr ⟨.inl hfit, by simp, fun hevicted => hfull.2.2 key hfit key hevicted rfl⟩
      · rintro (⟨other, hset⟩ | ⟨hall, -, hnot⟩)
        · exact absurd (StoreCall.set.inj hset).1 hk
        · exact hall.resolve_right hnot
  | delete k =>
    change key ∈ keys (l.without k) ↔ _
    rw [keys_without, List.mem_filter]
    simp [LruIndex.victims, ne_comm]

/-- What holds of a layer and its past: the index lists exactly the keys that the past lists,
and a backed key holds the value it is settled on. -/
structure Tracks {σ : Type} (find? : σ → String → Option Bytes) (past : List LruTurn)
    (s : Lru σ) : Prop where
  index : ∃ l : RecencyList, l.keys.Nodup ∧ s.index = l.index
  listed : ∀ key, key ∈ s.index.keys ↔ Listed key past
  backed : ∀ key, Backed key past →
    ∃ value, Settled key value past ∧ find? s.inner key = some value

namespace Tracks

variable {σ : Type} {find? : σ → String → Option Bytes} {past : List LruTurn} {s : Lru σ}

theorem opened (capacity : Nat) (below : σ) :
    Tracks find? [] ({ capacity, inner := below } : Lru σ) where
  index := ⟨[], List.nodup_nil, rfl⟩
  listed key := ⟨fun hkey => by simp [LruIndex.keys] at hkey, fun h => absurd h (since_nil _ _)⟩
  backed _ h := absurd h (since_nil _ _)

variable [ByteStore σ]

/-- An event keeps the value below of a key that it does not set with success, delete, evict or
write behind the back of the layer. -/
theorem find?_afterEvent (hmap : MapLike find?) {event : LruEvent} {key : String}
    (hstores : ¬∃ value, (s.turn event).Stores key value) (hunlists : ¬(s.turn event).Unlists key)
    (hbehind : ¬(s.turn event).WritesBehind key) :
    find? (s.afterEvent event).inner key = find? s.inner key := by
  cases event with
  | behind call =>
    exact hmap.find?_run fun hwrites r hr => hbehind ⟨call, rfl, hwrites, r, hr⟩
  | call call =>
    cases call with
    | get k =>
      change find? (s.get k).after.inner key = _
      rw [Lru.get]
      split
      · rfl
      · exact congrFun (hmap.get_after s.inner k) key
    | set k value =>
      have hvictims : key ∉ s.index.victims s.capacity (.set k value) :=
        fun hevicted => hunlists (.inr hevicted)
      let below := Lru.deleteAll s.inner (s.index.victims s.capacity (.set k value))
      have hset : find? (StoreCall.run below (.set k value)).after key = find? below key := by
        refine hmap.find?_run fun hwrites r hr => hstores ⟨value, ?_, r, hr⟩
        rw [← show k = key from hwrites]
        rfl
      exact hset.trans (hmap.find?_deleteAll hvictims)
    | delete k =>
      have hne : k ≠ key := fun hk => hunlists (.inl (by rw [← hk]; rfl))
      have hdelete : find? (StoreCall.run s.inner (.delete k)).after key = find? s.inner key :=
        hmap.find?_run fun hwrites => absurd hwrites hne
      exact hdelete

/-- A value set with success is the one held below. -/
theorem find?_of_stores (hmap : MapLike find?) {event : LruEvent} {key : String} {value : Bytes}
    (h : (s.turn event).Stores key value) :
    find? (s.afterEvent event).inner key = some value := by
  obtain ⟨hevent, r, hr⟩ := h
  obtain rfl : event = .call (.set key value) := by cases event <;> exact hevent
  let below := Lru.deleteAll s.inner (s.index.victims s.capacity (.set key value))
  change (ByteStore.set below key value).answer.map _ = .ok r at hr
  change find? (ByteStore.set below key value).after key = some value
  cases hok : (ByteStore.set below key value).answer with
  | error e => rw [hok] at hr; cases hr
  | ok u => rw [hmap.set_done below key value hok, if_pos rfl]

/-- The list of an index takes a step with each call on the layer. -/
theorem index_call (h : Tracks find? past s) (call : StoreCall) :
    ∃ l : RecencyList, l.keys.Nodup ∧ s.index = l.index ∧
      (s.afterEvent (.call call)).index = (l.step s.capacity call).2.index := by
  obtain ⟨l, hd, hl⟩ := h.index
  refine ⟨l, hd, hl, ?_⟩
  rw [← RecencyList.index_step s.capacity hd, ← hl]
  exact Lru.index_run s call

theorem listed_snoc (h : Tracks find? past s) (event : LruEvent) (key : String) :
    key ∈ (s.afterEvent event).index.keys ↔ Listed key (past ++ [s.turn event]) := by
  rw [Listed, since_snoc, ← Listed, ← h.listed]
  cases event with
  | behind call => simp [Lru.afterEvent, Lru.turn, LruTurn.Sets, LruTurn.Unlists]
  | call call =>
    obtain ⟨l, hd, hl, hstep⟩ := h.index_call call
    rw [hstep, hl, RecencyList.keys_index, RecencyList.keys_index, RecencyList.mem_keys_step hd]
    simp [Lru.turn, LruTurn.Sets, LruTurn.Unlists, hl]

theorem backed_snoc (hmap : MapLike find?) (h : Tracks find? past s) {event : LruEvent}
    {key : String} (hbacked : Backed key (past ++ [s.turn event])) :
    ∃ value, Settled key value (past ++ [s.turn event]) ∧
      find? (s.afterEvent event).inner key = some value := by
  by_cases hstores : ∃ value, (s.turn event).Stores key value
  · obtain ⟨value, hvalue⟩ := hstores
    exact ⟨value, since_snoc.mpr (.inl hvalue), find?_of_stores hmap hvalue⟩
  · -- the last turn keeps both what backs the key and the value below
    obtain ⟨hpast, hkept⟩ := (since_snoc.mp hbacked).resolve_left hstores
    rw [not_or] at hkept
    obtain ⟨value, hsettled, hheld⟩ := h.backed key hpast
    have hlast : ¬((s.turn event).Unlists key ∨ ∃ other, (s.turn event).Stores key other) :=
      not_or.mpr ⟨hkept.1, hstores⟩
    refine ⟨value, since_snoc.mpr (.inr ⟨hsettled, hlast⟩), ?_⟩
    rw [find?_afterEvent hmap hstores hkept.1 hkept.2, hheld]

theorem event (hmap : MapLike find?) (h : Tracks find? past s) (event : LruEvent) :
    Tracks find? (past ++ [s.turn event]) (s.afterEvent event) where
  index := by
    cases event with
    | behind call => exact h.index
    | call call =>
      obtain ⟨l, hd, -, hstep⟩ := h.index_call call
      exact ⟨_, RecencyList.nodup_step s.capacity hd call, hstep⟩
  listed := h.listed_snoc event
  backed _ hbacked := h.backed_snoc hmap hbacked

theorem history (hmap : MapLike find?) (h : Tracks find? past s) (events : List LruEvent) :
    Tracks find? (past ++ (s.history events).1) (s.history events).2 := by
  induction events generalizing past s with
  | nil => simpa [Lru.history] using h
  | cons event rest ih =>
    have hrest := ih (h.event hmap event)
    rwa [List.append_assoc] at hrest

/-- What a layer answers for a key: a miss unless the past lists the key, and otherwise what the
store below answers. -/
theorem answer_get (h : Tracks find? past s) (key : String) :
    (¬Listed key past ∧ (ByteStore.get s key).answer = .ok none) ∨
      (Listed key past ∧ (ByteStore.get s key).answer = (ByteStore.get s.inner key).answer) := by
  change (_ ∧ (s.get key).answer = _) ∨ (_ ∧ (s.get key).answer = _)
  have hmem : key ∈ s.index.keys ↔ s.index.size? key ≠ none := by
    simp [LruIndex.keys, LruIndex.size?, List.lookup_eq_none_iff]
  rw [← h.listed, hmem, Lru.get]
  split
  · next hsize => exact .inl ⟨not_not_intro hsize, rfl⟩
  · next size hsize => exact .inr ⟨by simp [hsize], rfl⟩

/-- A backed key answers its settled value, if it answers at all. -/
theorem get_of_backed (hmap : MapLike find?) (h : Tracks find? past s) {key : String}
    {answer : Option Bytes} (hbacked : Backed key past)
    (hanswer : (ByteStore.get s key).answer = .ok answer) :
    ∃ value, Settled key value past ∧ answer = some value := by
  obtain ⟨value, hsettled, hheld⟩ := h.backed key hbacked
  rcases h.answer_get key with ⟨hnot, -⟩ | ⟨-, hsame⟩
  · exact absurd hbacked.listed hnot
  · rw [hsame] at hanswer
    exact ⟨value, hsettled, (hmap.get_answer _ _ _ hanswer).trans hheld⟩

end Tracks

/-- **A layer serves the settled value of a backed key.** Over any store that is a map and may
fail, and after any events, a served value belongs to a key that was set and not deleted or
evicted since. It is the settled value if a set of the key has succeeded since the key was last
deleted, evicted or written behind the back of the layer; such a key is never a miss. Without
such a set no value is settled, unless the key was written behind the back of the layer. -/
theorem lru_serves_settled_value {σ : Type} [ByteStore σ]
    {find? : σ → String → Option Bytes} (hmap : MapLike find?) (capacity : Nat) (below : σ)
    (events : List LruEvent) (key : String) :
    let run := ({ capacity, inner := below } : Lru σ).history events
    (∀ value, (ByteStore.get run.2 key).answer = .ok (some value) →
      Listed key run.1 ∧ (Backed key run.1 → Settled key value run.1)) ∧
    (Backed key run.1 → (ByteStore.get run.2 key).answer ≠ .ok none) ∧
    (∀ value, Settled key value run.1 →
      Backed key run.1 ∨ ∃ t ∈ run.1, t.WritesBehind key) := by
  intro run
  have hrun : Tracks find? run.1 run.2 := (Tracks.opened capacity below).history hmap events
  refine ⟨fun value hserved => ⟨?_, fun hbacked => ?_⟩, fun hbacked hmiss => ?_,
    fun value => Settled.backed⟩
  · rcases hrun.answer_get key with ⟨-, hmiss⟩ | ⟨hlisted, -⟩
    · rw [hserved] at hmiss
      cases hmiss
    · exact hlisted
  · obtain ⟨settled, hsettled, hvalue⟩ := hrun.get_of_backed hmap hbacked hserved
    rwa [Option.some.inj hvalue]
  · obtain ⟨settled, -, hvalue⟩ := hrun.get_of_backed hmap hbacked hmiss
    cases hvalue

namespace FailedSet

/-- A value of the store below that never came through the layer, and a set that fails. -/
def strayRun : List LruTurn × Lru (Faulty Memory) :=
  let below : Faulty Memory :=
    { faults := { set := ["k"] }, inner := Memory.empty.insert "k" [115] }
  ({ capacity := 100, inner := below } : Lru (Faulty Memory)).history [.call (.set "k" [110])]

/-- A value that is deleted from the layer while the store below refuses, and a set that fails. -/
def deletedRun : List LruTurn × Lru (Flaky Memory) :=
  let below : Flaky Memory := { fails := fun n => n == 1 || n == 2, inner := Memory.empty }
  ({ capacity := 100, inner := below } : Lru (Flaky Memory)).history
    [.call (.set "k" [118]), .call (.delete "k"), .call (.set "k" [110])]

/-- The second set evicts `a`, which the store below keeps, and the last set fails. -/
def evictedRun : List LruTurn × Lru (Flaky Memory) :=
  let below : Flaky Memory := { fails := fun n => n == 1 || n == 3, inner := Memory.empty }
  ({ capacity := 3, inner := below } : Lru (Flaky Memory)).history
    [.call (.set "a" [1, 1]), .call (.set "k" [2, 2]), .call (.set "k" [3])]

theorem strayRun_past : strayRun.1 =
    [{ event := .call (.set "k" [110]), answer := .error (.task "injected set"),
       evicted := [] }] := rfl

theorem deletedRun_past : deletedRun.1 =
    [{ event := .call (.set "k" [118]), answer := .ok none, evicted := [] },
      { event := .call (.delete "k"), answer := .error (.task "failed delete"), evicted := [] },
      { event := .call (.set "k" [110]), answer := .error (.task "failed set"),
        evicted := [] }] := rfl

theorem evictedRun_past : evictedRun.1 =
    [{ event := .call (.set "a" [1, 1]), answer := .ok none, evicted := [] },
      { event := .call (.set "k" [2, 2]), answer := .ok none, evicted := ["a"] },
      { event := .call (.set "k" [3]), answer := .error (.task "failed set"),
        evicted := [] }] := rfl

end FailedSet

/-- A set that fails after an eviction that failed too leaves the settled value to be served,
and of the evicted key nothing is served, though the store below still holds its value. -/
theorem failed_set_leaves_settled_value :
    (MapLike fun s : Flaky Memory => s.inner.find?) ∧
    (ByteStore.get FailedSet.evictedRun.2 "k").answer = .ok (some [2, 2]) ∧
    Backed "k" FailedSet.evictedRun.1 ∧ Settled "k" [2, 2] FailedSet.evictedRun.1 ∧
    ¬Listed "a" FailedSet.evictedRun.1 ∧
    FailedSet.evictedRun.2.inner.inner.find? "a" = some [1, 1] := by
  have hmap : MapLike fun s : Flaky Memory => s.inner.find? := Memory.mapLike.flaky
  have hserved : (ByteStore.get FailedSet.evictedRun.2 "k").answer = .ok (some [2, 2]) := rfl
  have hbacked : Backed "k" FailedSet.evictedRun.1 := by
    rw [FailedSet.evictedRun_past]
    simp [Backed, since_cons, LruTurn.Stores, LruTurn.Succeeds, LruTurn.Unlists,
      LruTurn.WritesBehind]
  have hlisted : ¬Listed "a" FailedSet.evictedRun.1 := by
    rw [FailedSet.evictedRun_past]
    simp [Listed, since_cons, LruTurn.Sets, LruTurn.Unlists]
  obtain ⟨hserves, -, -⟩ := lru_serves_settled_value hmap 3 _ _ "k"
  exact ⟨hmap, hserved, hbacked, (hserves _ hserved).2 hbacked, hlisted, rfl⟩

/-- A set that fails brings back a value that never came through the layer, and one that was
deleted from it. -/
theorem failed_set_serves_unsettled_value :
    ((MapLike fun s : Faulty Memory => s.inner.find?) ∧
      (ByteStore.get FailedSet.strayRun.2 "k").answer = .ok (some [115]) ∧
      ¬Settled "k" [115] FailedSet.strayRun.1) ∧
    ((MapLike fun s : Flaky Memory => s.inner.find?) ∧
      (ByteStore.get FailedSet.deletedRun.2 "k").answer = .ok (some [118]) ∧
      ¬Settled "k" [118] FailedSet.deletedRun.1) := by
  refine ⟨⟨Memory.mapLike.faulty, rfl, ?_⟩, ⟨Memory.mapLike.flaky, rfl, ?_⟩⟩
  · rw [FailedSet.strayRun_past]
    simp [Settled, since_cons, LruTurn.Stores, LruTurn.Succeeds]
  · rw [FailedSet.deletedRun_past]
    simp [Settled, since_cons, LruTurn.Stores, LruTurn.Succeeds, LruTurn.Unlists]

end PeerCache

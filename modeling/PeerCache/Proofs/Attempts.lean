import Mathlib.Data.List.Induction
import PeerCache.Proofs.KeyLaws
import PeerCache.Proofs.StoredEntries

/-!
# Runs of attempts

Requests go through the cache one after another, each with its own time and origin. A run is told
by the store that it leaves, and by its turns: the attempts with the stores that they found. What
every attempt keeps holds before each turn of a run and after the last one.
-/

namespace PeerCache

/-- A request that enters the cache, with the time and the origin that it meets. -/
structure Visit where
  origin : Origin
  now : Nat
  req : Request

/-- A visit with the store that it found and what came of it. -/
structure Turn (σ : Type) where
  visit : Visit
  before : σ
  outcome : Attempt σ

section Runs

variable {σ : Type} [ByteStore σ]

def Visit.attempt (v : Visit) (store : σ) : Attempt σ :=
  PeerCache.attempt v.origin v.now store v.req

/-- The store after visits that follow one another. -/
def visited (store : σ) (visits : List Visit) : σ :=
  visits.foldl (fun store v => (v.attempt store).store) store

def Visit.turn (v : Visit) (store : σ) : Turn σ :=
  { visit := v, before := store, outcome := v.attempt store }

/-- The turns of visits that follow one another; each finds the store that those before it leave. -/
def turns (start : σ) (visits : List Visit) : List (Turn σ) :=
  visits.mapIdx fun n v => v.turn (visited start (visits.take n))

theorem Visit.course (v : Visit) (store : σ) :
    Course v.origin v.now store v.req (v.attempt store) :=
  attempt_course v.origin v.now store v.req

theorem Visit.course_of_done {v : Visit} {store : σ} {x : Exchange σ}
    (h : v.attempt store = .done x) : Course v.origin v.now store v.req (.done x) :=
  h ▸ v.course store

/-- A turn whose outcome took a course. -/
def Turn.Follows (t : Turn σ) : Prop :=
  Course t.visit.origin t.visit.now t.before t.visit.req t.outcome

/-- A request that cannot be cached is passed through. -/
theorem Visit.attempt_of_not_cacheable {v : Visit} (h : v.req.isCacheable = false) (store : σ) :
    v.attempt store = .done (passThrough v.origin store v.req) := by
  rw [attempt, PeerCache.attempt, h]
  rfl

/-! ## Stores along a run -/

variable {start : σ} {visits : List Visit} {n : Nat} {t : Turn σ}

theorem visited_concat (store : σ) (visits : List Visit) (v : Visit) :
    visited store (visits ++ [v]) = (v.attempt (visited store visits)).store :=
  List.foldl_append

/-- What every attempt of a run keeps holds after the run, said of the visits made so far. -/
theorem visited_invariant {I : List Visit → σ → Prop} (h : I [] start)
    (hstep : ∀ front v, I front (visited start front) →
      I (front ++ [v]) (v.attempt (visited start front)).store) (visits : List Visit) :
    I visits (visited start visits) := by
  induction visits using List.reverseRecOn with
  | nil => exact h
  | append_singleton front v ih =>
    rw [visited_concat]
    exact hstep front v ih

/-! ## Turns -/

theorem getElem?_turns (start : σ) (visits : List Visit) (n : Nat) :
    (turns start visits)[n]? =
      visits[n]?.map fun v => v.turn (visited start (visits.take n)) :=
  List.getElem?_mapIdx

theorem take_turns (start : σ) (visits : List Visit) (n : Nat) :
    (turns start visits).take n = turns start (visits.take n) := by
  apply List.ext_getElem?
  intro i
  rw [List.getElem?_take, getElem?_turns, getElem?_turns, List.getElem?_take]
  split
  · next hi => rw [List.take_take, Nat.min_eq_left (Nat.le_of_lt hi)]
  · rfl

theorem turns_concat (start : σ) (visits : List Visit) (v : Visit) :
    turns start (visits ++ [v]) = turns start visits ++ [v.turn (visited start visits)] := by
  rw [turns, turns, List.mapIdx_append]
  congr 1
  · apply List.mapIdx_eq_mapIdx_iff.mpr
    intro i hi
    rw [List.take_append_of_le_length (Nat.le_of_lt hi)]
  · simp

/-- What every turn keeps holds before each turn of a run. -/
theorem turns_invariant {I : List (Turn σ) → σ → Prop} (h : I [] start)
    (hstep : ∀ past (t : Turn σ), t.Follows → I past t.before → I (past ++ [t]) t.outcome.store)
    (ht : (turns start visits)[n]? = some t) :
    t.Follows ∧ I ((turns start visits).take n) t.before := by
  rw [getElem?_turns] at ht
  obtain ⟨v, -, rfl⟩ := Option.map_eq_some_iff.mp ht
  refine ⟨v.course _, ?_⟩
  rw [take_turns]
  refine visited_invariant (I := fun front store => I (turns start front) store) h ?_ _
  intro front w hfront
  rw [turns_concat]
  exact hstep _ _ (w.course _) hfront

end Runs

/-! ## Stores over a stack -/

/-- Two requests whose keys differ while the base of a stack takes them for one. -/
def Stack.Confuses (s : Stack) (a b : Request) : Prop :=
  cacheKey a ≠ cacheKey b ∧ s.slot (cacheKey a) = s.slot (cacheKey b)

/-- Two requests for one resource, as far as a stack can tell. -/
def Stack.Same (s : Stack) (a b : Request) : Prop :=
  (a.method = b.method ∧ a.uri.text = b.uri.text) ∨ s.Confuses a b

theorem Stack.same_of_slot {s : Stack} {a b : Request}
    (h : s.slot (cacheKey a) = s.slot (cacheKey b)) : s.Same a b := by
  by_cases hkey : cacheKey a = cacheKey b
  · exact .inl (cacheKey_eq_iff.mp hkey)
  · exact .inr ⟨hkey, h⟩

/-- An attempt keeps a property of slots and values that the value has which it writes. -/
theorem Stack.Keeps.attempt {s : Stack} {P : String → Bytes → Prop} {store : s.State}
    (h : s.Keeps P store) {v : Visit}
    (hk : ∀ e, Stores v.origin v.now store v.req (v.attempt store) e →
      P (s.slot (cacheKey v.req)) e.encode) : s.Keeps P (v.attempt store).store :=
  h.course (v.course store) hk

/-- An attempt keeps a property that the entry has which it stores. -/
theorem Stack.Holds.attempt {s : Stack} {P : String → Entry → Prop} {store : s.State}
    (h : s.Holds P store) {v : Visit}
    (hk : ∀ e, Stores v.origin v.now store v.req (v.attempt store) e →
      P (s.slot (cacheKey v.req)) e) : s.Holds P (v.attempt store).store :=
  h.course (v.course store) hk

end PeerCache

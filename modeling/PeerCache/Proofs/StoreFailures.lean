import PeerCache.Proofs.EntryCodec
import PeerCache.Proofs.ExchangeCourses
import PeerCache.Store.Faulty
import PeerCache.Store.Memory

/-!
# Failures of the store

How much of a store can be seen from outside. Two stores that come to the same thing when a
request is looked up give the client the same answer and have the origin see the same requests,
whatever else is in them and whichever of their operations fail. A read that fails and bytes
that are no entry are the same as nothing stored. Only a value that there is no room to read
shows: the attempt breaks off on it, where it would go on if nothing were stored.
-/

namespace PeerCache

/-- What the client and the origin see of an attempt: the answer, if there is one, and the requests
that are sent. -/
def Attempt.seen {σ : Type} (a : Attempt σ) : Option Answer × List Request :=
  (a.answer?, a.asked)

section Stores

variable {σ τ : Type} [ByteStore σ] [ByteStore τ] {a : σ} {b : τ} {origin : Origin} {now : Nat}
  {req : Request} {key : String} {bytes : Bytes}

/-! ## Lookups -/

theorem load_of_error {cause : EntryError}
    (hget : (ByteStore.get a key).answer = .ok (some bytes))
    (hdecode : Entry.decode bytes = .error cause) : (load a key).1 = none := by
  rw [load]
  simp only [hget, hdecode]
  rfl

theorem breaksOff_of_noRoom (hget : (ByteStore.get a key).answer = .ok (some bytes))
    (hdecode : Entry.decode bytes = .error .noRoom) : breaksOff a key = true := by
  rw [breaksOff]
  simp only [hget, hdecode]

theorem found_congr (h : (load a (cacheKey req)).1 = (load b (cacheKey req)).1) :
    found a req = found b req := by
  rw [found, found]
  rw [h]

/-! ## What is seen -/

/-- A plan is made from what was found alone, and the store is not asked again. -/
theorem lookUp_seen_congr (h : found a req = found b req)
    (hb : breaksOff a (cacheKey req) = breaksOff b (cacheKey req)) (origin : Origin) (now : Nat) :
    (lookUp origin now a req).seen = (lookUp origin now b req).seen := by
  rw [lookUp_eq, lookUp_eq, h, hb]
  split
  · rfl
  · cases plan (found b req) req now with
    | reply resp => rfl
    | fetch => rfl
    | check e sent validates =>
      dsimp only
      cases settle req now e validates (origin sent) <;> rfl

theorem attempt_seen_congr
    (h : req.isCacheable = true → (load a (cacheKey req)).1 = (load b (cacheKey req)).1)
    (hb : req.isCacheable = true → breaksOff a (cacheKey req) = breaksOff b (cacheKey req))
    (origin : Origin) (now : Nat) :
    (attempt origin now a req).seen = (attempt origin now b req).seen := by
  rw [attempt, attempt]
  cases hc : req.isCacheable with
  | true => exact lookUp_seen_congr (found_congr (h hc)) (hb hc) origin now
  | false => rfl

/-- Nothing is answered and nothing is sent exactly if the lookup breaks off. -/
theorem seen_eq_nothing_iff (hc : req.isCacheable = true) (origin : Origin) (now : Nat) :
    (attempt origin now a req).seen = (none, []) ↔ breaksOff a (cacheKey req) = true := by
  constructor
  · intro hseen
    have c := attempt_course origin now a req
    generalize attempt origin now a req = x at c hseen
    cases c with
    | unread _ hb => exact hb
    | passed | refused | fetched | missed | fresh | confirmed | unmerged | covered | replaced |
      failed => cases hseen
  · intro hb
    rw [attempt_of_breaksOff hc hb]
    rfl

/-- **Failures of the store.** Two stores in which the lookup of a request comes to the same entry,
or to none, answer it in the same way and send the same requests to the origin, whatever their
other operations come to, exactly if the lookup breaks off in both or in neither. -/
theorem same_lookup_same_answer_iff (origin : Origin) (now : Nat) (a : σ) (b : τ) (req : Request)
    (h : req.isCacheable = true → (load a (cacheKey req)).1 = (load b (cacheKey req)).1) :
    (attempt origin now a req).seen = (attempt origin now b req).seen ↔
      (req.isCacheable = true →
        breaksOff a (cacheKey req) = breaksOff b (cacheKey req)) := by
  constructor
  · intro hseen hc
    rw [Bool.eq_iff_iff, ← seen_eq_nothing_iff hc origin now, ← seen_eq_nothing_iff hc origin now,
      hseen]
  · intro hb
    exact attempt_seen_congr h hb origin now

end Stores

/-! ## A layer that fails -/

namespace FailingWrites

open Sample

/-- A response that has to be checked each time. -/
def document : Response :=
  response .ok [(.date, epoch), (.cacheControl, value "max-age=0"), (.etag, value "\"1\"")]
    (utf8 "o")

def store : Memory := (attempt (fun _ => .ok document) 0 Memory.empty (request [])).store

/-- The same store under a layer that lets nothing be written. -/
def sealed : Faulty Memory :=
  { faults := { set := ["*"], delete := ["*"] }, inner := store }

end FailingWrites

open FailingWrites in
theorem same_answer_over_failing_writes :
    let req := Sample.request []
    (req.isCacheable = true → (load sealed (cacheKey req)).1 = (load store (cacheKey req)).1) ∧
    breaksOff sealed (cacheKey req) = breaksOff store (cacheKey req) ∧
    ∀ origin, (attempt origin 1000 sealed req).seen = (attempt origin 1000 store req).seen := by
  intro req
  have hload : req.isCacheable = true →
      (load sealed (cacheKey req)).1 = (load store (cacheKey req)).1 := by
    decide +kernel
  have hbreaks : breaksOff sealed (cacheKey req) = breaksOff store (cacheKey req) := by
    decide +kernel
  refine ⟨hload, hbreaks, fun origin => ?_⟩
  exact (same_lookup_same_answer_iff origin 1000 sealed store req hload).mpr fun _ => hbreaks

/-! ## A value without room -/

namespace Entry

theorem decode_crowded {more : Nat} (hshort : Wire.Short (more + 1)) (hroom : mostLines ≤ more) :
    decode (crowded more).encode = .error .noRoom := by
  rw [decode_encode (fits_crowded hshort), length_lines_crowded,
    if_neg (Nat.not_le.mpr (Nat.lt_succ_of_le hroom))]

end Entry

namespace CrowdedValue

def req : Request := Sample.request []

def answer : Response := Sample.response .ok [] (utf8 "o")

/-- Bytes that one line too many was written into, under the key of the request. -/
def store : Memory :=
  Memory.empty.insert (cacheKey req) (Entry.crowded Entry.mostLines).encode

theorem get_store : (ByteStore.get store (cacheKey req)).answer =
    .ok (some (Entry.crowded Entry.mostLines).encode) :=
  congrArg Except.ok (Memory.find?_insert_self ..)

theorem decode_value :
    Entry.decode (Entry.crowded Entry.mostLines).encode = .error .noRoom :=
  Entry.decode_crowded (show Entry.mostLines + 1 < Nat.pow 2 64 by decide) (Nat.le_refl _)

end CrowdedValue

open CrowdedValue in
/-- The lookup finds no entry, as in an empty store. Over the empty store the request is answered
by the origin, and over the other one it is not answered at all. -/
theorem value_without_room_shows :
    (load store (cacheKey req)).1 = (load Memory.empty (cacheKey req)).1 ∧
    (attempt (fun _ => .ok answer) 0 store req).seen = (none, []) ∧
    (attempt (fun _ => .ok answer) 0 Memory.empty req).seen = (some (.ok answer), [req]) := by
  refine ⟨load_of_error get_store decode_value, ?_, by decide +kernel⟩
  have hcacheable : req.isCacheable = true := by decide +kernel
  exact (seen_eq_nothing_iff hcacheable _ 0).mpr (breaksOff_of_noRoom get_store decode_value)

end PeerCache

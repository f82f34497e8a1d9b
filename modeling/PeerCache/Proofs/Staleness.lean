import PeerCache.Proofs.CacheRuns
import PeerCache.Proofs.FreshnessLaws

/-!
# Staleness

How old the entries are that a run serves without asking the origin. The age of a response is
counted from its date, and a date in the future counts as no age at all. So a request without
directives gets an entry that was stored or confirmed less than its lifetime ago, unless the
entry's own date lies after that time. From that date on the lifetime is kept again.
-/

namespace PeerCache

/-- A turn stores an entry, or stores it again after the origin confirmed it. -/
def Turn.Stores {s : Stack} (t : Turn s.State) (e : Entry) : Prop :=
  PeerCache.Stores t.visit.origin t.visit.now t.before t.visit.req t.outcome e

section Run

variable {s : Stack} {past : List (Turn s.State)} {store : s.State} {visits : List Visit}

/-- An entry was stored at a turn of the past, under its slot. -/
def Sourced (past : List (Turn s.State)) (slot : String) (e : Entry) : Prop :=
  ∃ w ∈ past, w.Stores e ∧ s.slot (cacheKey w.visit.req) = slot

theorem Sourced.mono {slot : String} {e : Entry} (h : Sourced past slot e) (t : Turn s.State) :
    Sourced (past ++ [t]) slot e := by
  obtain ⟨w, hw, h⟩ := h
  exact ⟨w, List.mem_append_left _ hw, h⟩

/-- One turn keeps the invariant that everything in the store was stored at a turn. -/
theorem Turn.Follows.sourced {t : Turn s.State} (c : t.Follows)
    (h : s.Holds (Sourced past) t.before) : s.Holds (Sourced (past ++ [t])) t.outcome.store := by
  apply (h.mono fun _ _ hs => hs.mono t).course c
  intro e he
  exact ⟨t, by simp, he, rfl⟩

/-! ## Clocks -/

theorem visits_turns (store : s.State) (visits : List Visit) :
    (turns store visits).map Turn.visit = visits := by
  apply List.ext_getElem?
  intro n
  rw [List.getElem?_map, getElem?_turns, Option.map_map]
  exact Option.map_id'

/-- Earlier turns have earlier times, if the clock never goes back. -/
theorem now_le_of_mem_take (hclock : visits.Pairwise fun v w => v.now ≤ w.now) {n : Nat}
    {t w : Turn s.State} (ht : (turns store visits)[n]? = some t)
    (hw : w ∈ (turns store visits).take n) : w.visit.now ≤ t.visit.now := by
  rw [← visits_turns store visits, List.pairwise_map, List.pairwise_iff_getElem] at hclock
  obtain ⟨i, hi, rfl⟩ := List.mem_take_iff_getElem.mp hw
  obtain ⟨hn, rfl⟩ := List.getElem?_eq_some_iff.mp ht
  exact hclock i n (by omega) hn (by omega)

/-! ## Ages -/

/-- A response within its lifetime is so from any time on, or from its date if that is later. -/
theorem lt_of_currentAge_lt {response : Headers} {date now lifetime : Nat}
    (h : currentAge response date now < lifetime) (stored : Nat) :
    now + response.receivedAge * 1000 < max stored (date * 1000) + lifetime := by
  unfold currentAge elapsed at h
  omega

/-- A request without directives that is answered without asking gets a fresh entry. -/
theorem Turn.Follows.fresh_of_bare {t : Turn s.State} (c : t.Follows)
    (hc : t.visit.req.headers.contains HeaderName.cacheControl = false)
    (hp : t.visit.req.headers.contains HeaderName.pragma = false)
    (hasked : t.outcome.asked = []) {answer : Answer} (hanswer : t.outcome.answer? = some answer) :
    ∃ e, found t.before t.visit.req = some e ∧
      freshness e.headers t.visit.req.headers t.visit.now = .fresh ∧
      answer = .ok e.toResponse := by
  rw [Turn.Follows] at c
  cases ho : t.outcome with
  | brokenOff asked store =>
    rw [ho] at hanswer
    cases hanswer
  | done x =>
    rw [ho] at c hasked hanswer
    obtain rfl := Option.some.inj hanswer
    obtain ⟨-, ⟨-, hwants, -⟩ | ⟨e, hf, hfresh, hserved⟩⟩ := c.of_not_asked hasked
    · rw [Request.onlyIfCached, Directives.ofRequest_of_bare hc hp] at hwants
      cases hwants
    · exact ⟨e, hf, hfresh, hserved⟩

/-- **Bounded staleness.** If a request without directives is answered without a call to the origin,
the answer is an entry that was stored or confirmed at an earlier turn, at a time that is not after
the present one. Whenever that was, the present age, with the age that the entry came with, is less
than its lifetime, counted from that time or from the entry's date if that is later. -/
theorem staleness_bounded (s : Stack) (visits : List Visit)
    (hclock : visits.Pairwise fun v w => v.now ≤ w.now) (n : Nat) (t : Turn s.State)
    (ht : (turns s.initial visits)[n]? = some t)
    (hc : t.visit.req.headers.contains HeaderName.cacheControl = false)
    (hp : t.visit.req.headers.contains HeaderName.pragma = false)
    (hasked : t.outcome.asked = []) {answer : Answer} (hanswer : t.outcome.answer? = some answer) :
    ∃ e date, found t.before t.visit.req = some e ∧ answer = .ok e.toResponse ∧
      e.headers.date? HeaderName.date = some date ∧
      (∃ w ∈ (turns s.initial visits).take n, w.Stores e ∧ s.Same w.visit.req t.visit.req) ∧
      ∀ w ∈ (turns s.initial visits).take n, w.Stores e →
        w.visit.now ≤ t.visit.now ∧
          t.visit.now + e.headers.receivedAge * 1000 <
            max w.visit.now (date * 1000) + ownLifetime e.headers date := by
  obtain ⟨hfollows, hsourced⟩ := turns_invariant (I := fun past => s.Holds (Sourced past))
    (Stack.Holds.initial s _) (fun _ _ c h => c.sourced h) ht
  obtain ⟨e, hf, hfresh, hserved⟩ := hfollows.fresh_of_bare hc hp hasked hanswer
  obtain ⟨date, hdate, hage⟩ := WithinLifetime.of_bare hc hp hfresh
  refine ⟨e, date, hf, hserved, hdate, ?_, ?_⟩
  · obtain ⟨⟨w, hw, hstores, hslot⟩, -⟩ := hsourced.of_found hf
    exact ⟨w, hw, hstores, Stack.same_of_slot hslot⟩
  · intro w hw _
    exact ⟨now_le_of_mem_take hclock ht hw, lt_of_currentAge_lt hage w.visit.now⟩

end Run

/-! ## A date in the future -/

namespace FutureDate

open Sample

/-- A response that is dated an hour ahead and fresh for a minute. -/
def document (body : String) : Response :=
  response .ok [(.date, value "Thu, 01 Jan 1970 01:00:00 GMT"), (.cacheControl, value "max-age=60")]
    (utf8 body)

/-- Two requests for it, the second one some time after the first. -/
def visits (later : Nat) : List Visit :=
  [⟨fun _ => .ok (document "old"), 0, request []⟩,
    ⟨fun _ => .ok (document "new"), later, request []⟩]

def entry : Entry := Entry.capture (request []) (document "old") 0

end FutureDate

open FutureDate in
/-- Fifty minutes after it was stored for a minute, the entry is served without asking. -/
theorem future_date_outlives_lifetime :
    (visits 3000000).Pairwise (fun v w => v.now ≤ w.now) ∧
    ∃ t, (turns Stack.memory.initial (visits 3000000))[1]? = some t ∧
      t.visit.req.headers.contains .cacheControl = false ∧
      t.visit.req.headers.contains .pragma = false ∧ t.outcome.asked = [] ∧
      t.outcome.answer? = some (.ok entry.toResponse) ∧
      found t.before t.visit.req = some entry ∧
      entry.headers.date? .date = some 3600 ∧
      ∀ w ∈ (turns Stack.memory.initial (visits 3000000)).take 1, w.Stores (s := .memory) entry →
        ¬t.visit.now - w.visit.now < ownLifetime entry.headers 3600 := by
  refine ⟨by decide +kernel, _, rfl, by decide +kernel, by decide +kernel, by decide +kernel,
    by decide +kernel, by decide +kernel, by decide +kernel, ?_⟩
  intro w hw _
  obtain rfl := List.mem_singleton.mp hw
  decide +kernel

open FutureDate in
/-- Half a minute after its date the entry is served, and the bound counts from the date. -/
theorem staleness_bounded_from_date :
    (visits 3630000).Pairwise (fun v w => v.now ≤ w.now) ∧
    ∃ t, (turns Stack.memory.initial (visits 3630000))[1]? = some t ∧
      t.visit.req.headers.contains .cacheControl = false ∧
      t.visit.req.headers.contains .pragma = false ∧ t.outcome.asked = [] ∧
      t.outcome.answer? = some (.ok entry.toResponse) ∧
      ∃ e date, found t.before t.visit.req = some e ∧
        Except.ok entry.toResponse = (.ok e.toResponse : Answer) ∧
        e.headers.date? .date = some date ∧
        (∃ w ∈ (turns Stack.memory.initial (visits 3630000)).take 1,
          w.Stores (s := .memory) e ∧ Stack.memory.Same w.visit.req t.visit.req) ∧
        ∀ w ∈ (turns Stack.memory.initial (visits 3630000)).take 1, w.Stores (s := .memory) e →
          w.visit.now ≤ t.visit.now ∧
            t.visit.now + e.headers.receivedAge * 1000 <
              max w.visit.now (date * 1000) + ownLifetime e.headers date := by
  have hclock : (visits 3630000).Pairwise (fun v w => v.now ≤ w.now) := by decide +kernel
  obtain ⟨t, ht⟩ : ∃ t, (turns Stack.memory.initial (visits 3630000))[1]? = some t := ⟨_, rfl⟩
  have hturn : (turns Stack.memory.initial (visits 3630000))[1]?.map
      (fun t => (t.visit.req.headers.contains .cacheControl,
        t.visit.req.headers.contains .pragma, t.outcome.asked, t.outcome.answer?)) =
      some (false, false, [], some (.ok entry.toResponse)) := by
    decide +kernel
  rw [ht] at hturn
  obtain ⟨hc, hp, hasked, hanswer⟩ : t.visit.req.headers.contains .cacheControl = false ∧
      t.visit.req.headers.contains .pragma = false ∧ t.outcome.asked = [] ∧
      t.outcome.answer? = some (.ok entry.toResponse) := by
    simpa using hturn
  exact ⟨hclock, t, ht, hc, hp, hasked, hanswer,
    staleness_bounded .memory (visits 3630000) hclock 1 t ht hc hp hasked hanswer⟩

end PeerCache

import PeerCache.Proofs.StorageRules

/-!
# Fresh replies

What was fetched once is served again. The answer to a request is captured and written, and no
visit that concerns other keys touches the value; so the same request finds the entry, which
holds the request's own values, and while the entry is fresh it is the reply.
-/

namespace PeerCache

/-! ## Visits that leave a key alone -/

/-- A visit concerns no key but others, and changes no resource but others. -/
def Visit.Apart (v : Visit) (req : Request) : Prop :=
  (v.req.isCacheable = true → cacheKey v.req ≠ cacheKey req) ∧
    (v.req.method ∉ [Method.get, .head, .options, .trace] → v.req.uri.text ≠ req.uri.text)

section Memory

variable {m : Memory} {req : Request} {v : Visit} {key : String}

theorem Effect.find?_apply (effect : Effect) {other : String} (h : key ≠ other) :
    (effect.apply m other).find? key = m.find? key := by
  cases effect with
  | keep => rfl
  | save e => exact (Memory.find?_insert m other key e.encode).trans (if_neg h)
  | evict => exact (Memory.find?_erase m other key).trans (if_neg h)

theorem find?_settled (h : key ≠ cacheKey req) (sent : Request) (s : Settlement) :
    (settled m req sent s).store.find? key = m.find? key :=
  s.effect.find?_apply h

/-- A visit to other keys leaves the value of a key as it is. -/
theorem Visit.Apart.find? (h : v.Apart req) :
    (v.attempt m).store.find? (cacheKey req) = m.find? (cacheKey req) := by
  have c := v.course m
  generalize v.attempt m = a at c
  cases c with
  | passed hpassed =>
    rcases store_passThrough v.origin m v.req with hsame | ⟨hmethod, hdropped⟩
    · exact congrArg (Memory.find? · (cacheKey req)) hsame
    · have huri := h.2 (Method.isSafe_eq_false_iff.mp hmethod)
      rw [Attempt.store, hdropped,
        Effect.find?_apply _ (keyOf_ne_cacheKey .head huri).symm,
        Effect.find?_apply _ (keyOf_ne_cacheKey .get huri).symm]
  | unread | refused | fresh | unmerged => rfl
  | confirmed hv => exact find?_settled (h.1 hv.cacheable).symm _ _
  | fetched hother | missed hother | covered hother | replaced hother | failed hother =>
    exact find?_settled (h.1 hother).symm _ _

theorem find?_visited {visits : List Visit} (h : ∀ v ∈ visits, v.Apart req) :
    (visited m visits).find? (cacheKey req) = m.find? (cacheKey req) := by
  induction visits generalizing m with
  | nil => rfl
  | cons v visits ih =>
    rw [List.forall_mem_cons] at h
    exact (ih h.2).trans h.1.find?

/-! ## Reading a stored entry -/

variable {e : Entry}

theorem breaksOff_eq (hfits : e.toWire.Fits) (h : m.find? key = some e.encode) :
    breaksOff m key = decide (Entry.mostLines < e.headers.lines.length) := by
  have hget : (ByteStore.get m key).answer = .ok (some e.encode) := congrArg Except.ok h
  rw [breaksOff, hget]
  dsimp only
  rw [Entry.decode_encode hfits]
  by_cases hroom : e.headers.lines.length ≤ Entry.mostLines
  · rw [if_pos hroom, decide_eq_false (Nat.not_lt.mpr hroom)]
  · rw [if_neg hroom, decide_eq_true (Nat.lt_of_not_le hroom)]

theorem found_eq_some (hfits : e.toWire.Fits) (hroom : e.headers.lines.length ≤ Entry.mostLines)
    (h : m.find? (cacheKey req) = some e.encode) (hanswers : e.answers req = true) :
    found m req = some e := by
  have hget : (ByteStore.get m (cacheKey req)).answer = .ok (some e.encode) :=
    congrArg Except.ok h
  rw [found, load, hget]
  dsimp only
  rw [Entry.decode_encode hfits, if_pos hroom]
  exact Option.filter_eq_some_iff.mpr ⟨rfl, hanswers⟩

/-- What is captured for a request answers it again, unless a star matches nothing. -/
theorem Entry.answers_capture {resp : Response} (h : "*" ∉ Entry.varyNames resp.headers)
    (req : Request) (now : Nat) : (Entry.capture req resp now).answers req = true := by
  rw [Entry.answers_iff, Entry.varied_capture]
  intro pair hpair
  obtain ⟨name, hname, rfl⟩ := List.mem_map.mp hpair
  exact ⟨fun hstar => h (hstar ▸ hname), rfl⟩

end Memory

/-! ## Replies -/

/-- A visit asks the origin, gets a response that may be stored, and stores it. -/
structure Visit.Fetches {σ : Type} [ByteStore σ] (v : Visit) (store : σ) (resp : Response) :
    Prop where
  cacheable : v.req.isCacheable = true
  allowed : canStore v.req resp = true
  attempt : ∃ sent, v.origin sent = .ok resp ∧
    v.attempt store = .done (settled store v.req sent (deliver v.req v.now resp))

/-- An answer to a request for which nothing is stored is stored if it may be. -/
theorem Visit.fetches_of_miss {σ : Type} [ByteStore σ] {v : Visit} {store : σ} {resp : Response}
    (h : v.req.isCacheable = true) (hs : canStore v.req resp = true)
    (hb : breaksOff store (cacheKey v.req) = false) (hf : found store v.req = none)
    (ho : v.req.onlyIfCached = false) (hr : v.origin v.req = .ok resp) : v.Fetches store resp :=
  ⟨h, hs, v.req, hr, attempt_of_miss h hb hf ho hr v.now⟩

/-- A reply shows a response that was received at a time: the same status, the same body, and for
each name the same values in the same order, but for the mark of a replay and for the date, which
a response without one gets on arrival. -/
structure Reproduces (resp : Response) (received : Nat) (reply : Response) : Prop where
  status : reply.status = resp.status
  body : reply.body = resp.body
  marked : reply.headers.values .fromCache = [.one]
  dated : resp.headers.contains .date = true →
    reply.headers.values .date = resp.headers.values .date
  stamped : resp.headers.contains .date = false →
    ∃ v : HeaderValue, v.bytes = Utf8.encode (HeaderDate.format (received / 1000)) ∧
      reply.headers.values .date = [v]
  others : ∀ name, name ≠ .fromCache → name ≠ .date →
    reply.headers.values name = resp.headers.values name

theorem reproduces_capture (req : Request) (resp : Response) (now : Nat) :
    Reproduces resp now (Entry.capture req resp now).toResponse := by
  obtain ⟨v, hbytes, hv⟩ := Entry.values_capture_date req resp now
  have hdate : (Entry.capture req resp now).toResponse.headers.values .date =
      if resp.headers.contains .date then resp.headers.values .date else [v] :=
    ((Entry.values_toResponse _ _).trans (if_neg (by decide))).trans hv
  constructor
  · rfl
  · rfl
  · exact (Entry.values_toResponse _ _).trans (if_pos rfl)
  · intro hd
    rw [hdate, if_pos hd]
  · intro hd
    rw [hdate, hd]
    exact ⟨v, hbytes, rfl⟩
  · intro name hm hd
    rw [Entry.values_toResponse, if_neg hm, Entry.values_capture req resp now hd hm]

/-- A fetched answer lies under the key of its request. -/
theorem Visit.Fetches.find? {m : Memory} {v : Visit} {resp : Response} (h : v.Fetches m resp) :
    (v.attempt m).store.find? (cacheKey v.req) =
      some (Entry.capture v.req resp v.now).encode := by
  obtain ⟨sent, -, hattempt⟩ := h.attempt
  rw [hattempt, deliver, if_pos h.allowed]
  exact Memory.find?_insert_self ..

/-- **Fresh replies.** A response that was fetched and stored is the reply to the same request, after
any visits that concern other keys and change other resources, at any time at which it is fresh.
The origin is not asked and the store stays as it is. Only a response with more header lines than
there is room for is never read again. -/
theorem fresh_answer_replayed (m : Memory) (v w : Visit) (resp : Response) (visits : List Visit)
    (hfetches : v.Fetches m resp) (hstar : "*" ∉ Entry.varyNames resp.headers)
    (hfits : (Entry.capture v.req resp v.now).toWire.Fits)
    (hapart : ∀ u ∈ visits, u.Apart v.req) (hsame : w.req = v.req)
    (hfresh : freshness (Entry.capture v.req resp v.now).headers v.req.headers w.now = .fresh) :
    ((Entry.capture v.req resp v.now).headers.lines.length ≤ Entry.mostLines →
      ∃ reply, Reproduces resp v.now reply ∧
        w.attempt (visited (v.attempt m).store visits) =
          .done { answer := .ok reply, asked := []
                  store := visited (v.attempt m).store visits }) ∧
    (Entry.mostLines < (Entry.capture v.req resp v.now).headers.lines.length →
      w.attempt (visited (v.attempt m).store visits) =
        .brokenOff [] (visited (v.attempt m).store visits)) := by
  have hstored := (find?_visited hapart).trans hfetches.find?
  -- All that is used of the store is the value under the key.
  generalize visited (v.attempt m).store visits = after at hstored
  have hbreaks := breaksOff_eq hfits hstored
  obtain ⟨origin, now, req⟩ := w
  obtain rfl : req = v.req := hsame
  constructor
  · intro hroom
    have hanswers := Entry.answers_capture hstar v.req v.now
    have hfound := found_eq_some hfits hroom hstored hanswers
    exact ⟨_, reproduces_capture v.req resp v.now,
      attempt_of_fresh hfetches.cacheable hfound hfresh origin⟩
  · intro hroom
    rw [decide_eq_true hroom] at hbreaks
    exact attempt_of_breaksOff hfetches.cacheable hbreaks origin now

/-! ## A response that varies -/

namespace Varying

open Sample

/-- A response without a date, with two values of one name among others. -/
def document : Response :=
  response .ok [(.etag, value "\"1\""), (.vary, value "Accept, Via"), (.etag, value "\"2\""),
    (.cacheControl, value "max-age=60")] (utf8 "o")

def reading : Visit :=
  ⟨fun _ => .ok document, 1500, request [(accept, value "x"), (accept, value "y")]⟩

/-- Two requests for another address, one of which changes what lies there. -/
def others : List Visit :=
  [⟨fun _ => .ok document, 2000, { request [] with uri := target "http://p.test/" }⟩,
    ⟨fun _ => .ok document, 2000,
      { request [] with method := ⟨"POST", by decide⟩, uri := target "http://p.test/" }⟩]

def again : Visit :=
  { reading with origin := fun _ => .error .noPeers, now := 60999 }

def entry : Entry :=
  Entry.capture reading.req document 1500

end Varying

open Varying in
theorem fresh_answer_replayed_varying :
    reading.Fetches Memory.empty document ∧ (∀ u ∈ others, u.Apart reading.req) ∧
    freshness entry.headers reading.req.headers again.now = .fresh ∧
    ∃ reply, Reproduces document 1500 reply ∧
      again.attempt (visited (reading.attempt Memory.empty).store others) =
        .done { answer := .ok reply, asked := []
                store := visited (reading.attempt Memory.empty).store others } := by
  have hfetches : reading.Fetches Memory.empty document :=
    Visit.fetches_of_miss (by decide +kernel) (by decide +kernel) rfl rfl (by decide +kernel) rfl
  have hapart : ∀ u ∈ others, u.Apart reading.req := by
    unfold Visit.Apart
    decide +kernel
  have hfresh : freshness entry.headers reading.req.headers again.now = .fresh := by
    decide +kernel
  have hread : Entry.decode entry.encode = .ok entry := by decide +kernel
  obtain ⟨hfits, hroom⟩ := Entry.fits_of_decode hread
  exact ⟨hfetches, hapart, hfresh, (fresh_answer_replayed Memory.empty reading again document others
    hfetches (by decide +kernel) hfits hapart rfl hfresh).1 hroom⟩

/-! ## A response without room -/

open Sample CrowdedAnswer in
/-- The response may be stored, matches its own request and is fresh, and the request that follows
is not answered. -/
theorem crowded_answer_not_replayed :
    overfull.Fetches Memory.empty (answer Entry.mostLines) ∧
    Entry.varyNames (answer Entry.mostLines).headers = [] ∧
    (entry Entry.mostLines).toWire.Fits ∧
    freshness (entry Entry.mostLines).headers (request []).headers 0 = .fresh ∧
    ∀ outcome, overfull.attempt (overfull.attempt Memory.empty).store ≠ .done outcome := by
  have hshort : Wire.Short (Entry.mostLines + 3) :=
    show Entry.mostLines + 3 < Nat.pow 2 64 by decide
  have hfits := fits_entry hshort
  have hcacheable : overfull.req.isCacheable = true := by decide +kernel
  have hkey : cacheKey overfull.req = "http://o.test/" := by decide +kernel
  have hfetches : overfull.Fetches Memory.empty (answer Entry.mostLines) :=
    Visit.fetches_of_miss hcacheable (by decide +kernel) rfl rfl (by decide +kernel) rfl
  have hfresh : freshness (entry Entry.mostLines).headers (request []).headers 0 = .fresh := by
    rw [headers_entry]
    decide +kernel
  refine ⟨hfetches, by decide +kernel, hfits, hfresh, ?_⟩
  intro outcome
  have hstored : (overfull.attempt Memory.empty).store.find? (cacheKey overfull.req) =
      some (entry Entry.mostLines).encode := by
    rw [store_overfull, hkey, Memory.find?_insert_self]
  have hbreaks := breaksOff_eq hfits hstored
  rw [length_lines_entry, decide_eq_true (by decide)] at hbreaks
  rw [Visit.attempt, attempt_of_breaksOff hcacheable hbreaks]
  intro hdone
  cases hdone

end PeerCache

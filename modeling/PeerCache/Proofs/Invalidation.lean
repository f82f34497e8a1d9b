import PeerCache.Proofs.Attempts
import PeerCache.Proofs.FileMap

/-!
# Invalidation

A request that may have changed a resource drops what is stored for it, under the keys that
later requests for the resource look up, and nothing else, because keys tell requests apart. From
then on every entry under these keys was answered by an origin after the change: an entry is
stored from such an answer, or merged into an entry that was there, of which the same holds.
-/

namespace PeerCache

/-! ## Slots without values -/

namespace Stack

variable {s : Stack} {store : s.State} {key slot : String}

/-- Whether the base has no value under a slot. -/
def Lacks (s : Stack) (slot : String) (store : s.State) : Prop :=
  s.Keeps (fun other _ => other ≠ slot) store

/-- A deletion that answers that it is done reached the base. -/
theorem lacks_of_delete (h : (ByteStore.delete store key).answer = .ok ()) :
    s.Lacks (s.slot key) (ByteStore.delete store key).after := by
  -- Only the layers that fail keep a deletion from the store below, and then they say so.
  induction s with
  | memory =>
    rintro other value hv rfl
    have hfound : (Memory.erase store other).find? other = some value := Except.ok.inj hv
    rw [Memory.find?_erase, if_pos rfl] at hfound
    cases hfound
  | files base =>
    intro other value hv hslot
    have hnone := FileStore.get_delete h
    rw [← FileStore.get_of_fileName hslot] at hnone
    cases hnone.symm.trans hv
  | lru capacity inner ih => exact ih h
  | slow read write inner ih => exact ih h
  | faulty faults inner ih =>
    change (Faulty.guarded store _ _ _ _).answer = _ at h
    change (faulty faults inner).Lacks _ (Faulty.guarded store _ _ _ _).after
    rw [Faulty.guarded] at h ⊢
    split at h
    · cases h
    · next hpass =>
      rw [if_neg hpass]
      exact ih h
  | flaky fails inner ih =>
    change (Flaky.attempt store _ _).answer = _ at h
    change (flaky fails inner).Lacks _ (Flaky.attempt store _ _).after
    rw [Flaky.attempt] at h ⊢
    split at h
    · cases h
    · next hpass =>
      rw [if_neg hpass]
      exact ih h

end Stack

/-! ## Requests that change a resource -/

section Changes

variable {σ : Type} [ByteStore σ]

/-- The origin answers, and not with a server error. -/
def Visit.Changes (v : Visit) : Prop :=
  ∃ resp, v.origin v.req = .ok resp ∧ ¬(500 ≤ resp.status.code ∧ resp.status.code ≤ 599)

/-- Both deletions that a change is followed by answer that they are done. -/
def Visit.Drops (v : Visit) (store : σ) : Prop :=
  (ByteStore.delete store (keyOf .get v.req.uri)).answer = .ok () ∧
    (ByteStore.delete (Effect.evict.apply store (keyOf .get v.req.uri))
      (keyOf .head v.req.uri)).answer = .ok ()

theorem Status.isServerError_iff {status : Status} :
    status.isServerError = true ↔ 500 ≤ status.code ∧ status.code ≤ 599 := by
  rw [isServerError, Bool.and_eq_true, decide_eq_true_iff, decide_eq_true_iff]
  omega

variable {v : Visit}

theorem Visit.attempt_of_changes (hmethod : v.req.method.isSafe = false) (h : v.Changes)
    (store : σ) : (v.attempt store).store =
      Effect.evict.apply (Effect.evict.apply store (keyOf .get v.req.uri))
        (keyOf .head v.req.uri) := by
  obtain ⟨resp, hr, hstatus⟩ := h
  rw [← Status.isServerError_iff, Bool.not_eq_true] at hstatus
  rw [attempt_of_not_cacheable (Request.isCacheable_of_not_safe hmethod)]
  simp only [Attempt.store, passThrough, hr, hmethod, hstatus]
  rfl

/-- A request that changes nothing leaves the store as it was. -/
theorem Visit.attempt_of_not_changes (hmethod : v.req.method.isSafe = false) (h : ¬v.Changes)
    (store : σ) :
    v.attempt store = .done { answer := v.origin v.req, asked := [v.req], store } := by
  rw [attempt_of_not_cacheable (Request.isCacheable_of_not_safe hmethod)]
  cases hr : v.origin v.req with
  | ok resp =>
    have herror : resp.status.isServerError = true := by
      rw [Status.isServerError_iff]
      exact Decidable.not_not.mp fun hstatus => h ⟨resp, hr, hstatus⟩
    simp only [passThrough, hr, hmethod, herror]
    rfl
  | error e =>
    simp only [passThrough, hr]
    rfl

end Changes

/-! ## What was answered since -/

section Since

variable {s : Stack} {start : s.State} {visits front : List Visit} {v : Visit} {slot : String}
  {req : Request} {resp : Response} {e : Entry}

/-- An origin answered at a visit of a run to a request that can be cached. -/
def AnsweredSince (start : s.State) (visits : List Visit) (req : Request) (resp : Response) :
    Prop :=
  ∃ front v x sent, front ++ [v] <+: visits ∧ v.req = req ∧ req.isCacheable = true ∧
    v.attempt (visited start front) = .done x ∧ x.asked = [sent] ∧ AddsValidators req sent ∧
    v.origin sent = .ok resp

/-- An entry shows an answer of the run to a request with the slot. -/
def Recent (start : s.State) (visits : List Visit) (slot : String) (e : Entry) : Prop :=
  ∃ first resp, AnsweredSince start visits first resp ∧ s.slot (cacheKey first) = slot ∧
    e.status = resp.status ∧ e.body = resp.body

theorem Recent.mono (h : Recent start front slot e) (v : Visit) :
    Recent start (front ++ [v]) slot e := by
  obtain ⟨first, resp, ⟨before, w, x, sent, hp, h⟩, hslot, hshows⟩ := h
  exact ⟨first, resp, ⟨before, w, x, sent, hp.trans (List.prefix_append _ _), h⟩, hslot, hshows⟩

/-- Whether all that is stored under a slot shows answers of the run. -/
def RecentAt (start : s.State) (slot : String) (visits : List Visit) (store : s.State) : Prop :=
  s.Holds (fun other e => other = slot → Recent start visits slot e) store

theorem Stack.Lacks.recentAt (h : s.Lacks slot start) : RecentAt start slot [] start := by
  intro key value hv e _ heq
  exact absurd heq (h key value hv)

/-- A visit stores what it was answered, or what it had confirmed. -/
theorem RecentAt.attempt (h : RecentAt start slot front (visited start front)) (v : Visit) :
    RecentAt start slot (front ++ [v]) (v.attempt (visited start front)).store := by
  have hmore : s.Holds (fun other e => other = slot → Recent start (front ++ [v]) slot e)
      (visited start front) :=
    Stack.Holds.mono h fun _ _ hr heq => (hr heq).mono v
  apply hmore.attempt
  intro e hstores hslot
  generalize hx : v.attempt (visited start front) = x at hstores
  cases hstores with
  | answered hc ha hr hs =>
    exact ⟨v.req, _, ⟨front, v, _, _, List.prefix_rfl, rfl, hc, hx, rfl, ha, hr⟩, hslot, rfl, rfl⟩
  | confirmed hv hm hs =>
    -- The entry that is merged was under the same slot, so it is recent itself.
    obtain ⟨hold, -⟩ := hmore.of_found hv.found
    obtain ⟨first, resp, hanswered, hfirst, hstatus, hbody⟩ := hold hslot
    exact ⟨first, resp, hanswered, hfirst, (Entry.status_of_refresh? hm).trans hstatus,
      (Entry.body_of_refresh? hm).trans hbody⟩

theorem Stack.Lacks.recent (h : s.Lacks slot start) (visits : List Visit) :
    RecentAt start slot visits (visited start visits) :=
  visited_invariant h.recentAt (fun _ v hfront => hfront.attempt v) visits

/-- A reply comes from the origin now, or it is no stored one, or it shows an answer of the run. -/
def Current (start : s.State) (visits : List Visit) (w : Visit) (x : Exchange s.State)
    (reply : Response) : Prop :=
  (∃ sent, x.asked = [sent] ∧ w.origin sent = .ok reply) ∨
    (x.asked = [] ∧ reply = Response.bare .gatewayTimeout) ∨
    ∃ first resp, AnsweredSince start visits first resp ∧ s.Same first w.req ∧
      reply.status = resp.status ∧ reply.body = resp.body

theorem Recent.current {w : Visit} {x : Exchange s.State} {reply : Response}
    (h : Recent start visits (s.slot (cacheKey w.req)) e)
    (hstatus : reply.status = e.status) (hbody : reply.body = e.body) :
    Current start visits w x reply := by
  obtain ⟨first, resp, hanswered, hslot, hs, hb⟩ := h
  exact .inr (.inr ⟨first, resp, hanswered, Stack.same_of_slot hslot,
    hstatus.trans hs, hbody.trans hb⟩)

/-- A request whose slot had no value at the start of a run gets no older reply. -/
theorem current_of_recentAt {w : Visit} {store : s.State} {x : Exchange s.State} {reply : Response}
    (h : w.req.isCacheable = true → RecentAt start (s.slot (cacheKey w.req)) visits store)
    (c : Course w.origin w.now store w.req (.done x)) (hx : x.answer = .ok reply) :
    Current start visits w x reply := by
  have hfound : ∀ {e}, w.req.isCacheable = true → found store w.req = some e →
      Recent start visits (s.slot (cacheKey w.req)) e :=
    fun hc hf => ((h hc).of_found hf).1 rfl
  cases c with
  | passed hc => exact .inl ⟨w.req, rfl, hx⟩
  | refused hc hf ho => exact .inr (.inl ⟨rfl, (Except.ok.inj hx).symm⟩)
  | fetched hc hf hr => exact .inl ⟨w.req, rfl, hr.trans hx⟩
  | missed hc hf hr => cases hx
  | fresh hc hf hfresh =>
    cases hx
    exact (hfound hc hf).current rfl rfl
  | confirmed hv hm =>
    cases hx
    exact (hfound hv.cacheable hv.found).current (Entry.status_of_refresh? hm)
      (Entry.body_of_refresh? hm)
  | covered hc hf hp hr =>
    cases hx
    exact (hfound hc hf).current rfl rfl
  | replaced hc hf hp hr hconf hcov => exact .inl ⟨_, rfl, hr.trans hx⟩
  | failed hc hf hp hr hcov => cases hx

/-- A change leaves nothing under the keys that requests for the resource look up. -/
theorem Visit.lacks {store : s.State} (hmethod : v.req.method.isSafe = false)
    (hchanges : v.Changes) (hdrops : v.Drops store) (hc : req.isCacheable = true)
    (huri : req.uri.text = v.req.uri.text) :
    s.Lacks (s.slot (cacheKey req)) (v.attempt store).store := by
  rw [attempt_of_changes hmethod hchanges, cacheKey, keyOf_congr huri]
  rcases Request.method_of_cacheable hc with hm | hm
  · rw [hm]
    exact Stack.Keeps.evict (Stack.lacks_of_delete hdrops.1) _
  · rw [hm]
    exact Stack.lacks_of_delete hdrops.2

/-- **Invalidation.** When a request that is not safe has changed a resource, and the deletions that
follow are done, no later request for the resource is answered with what an origin sent before:
every reply comes from the origin then, is the refusal of a request that wants a stored response,
or shows an answer that was given since. A request that changes nothing leaves the store as it
was. -/
theorem change_invalidates (s : Stack) (store : s.State) (v : Visit)
    (hmethod : v.req.method ∉ [Method.get, .head, .options, .trace]) :
    (v.Changes → v.Drops store → ∀ (visits : List Visit) (w : Visit) (x : Exchange s.State)
      (reply : Response), w.req.uri.text = v.req.uri.text →
      w.attempt (visited (v.attempt store).store visits) = .done x → x.answer = .ok reply →
      Current (v.attempt store).store visits w x reply) ∧
    (¬v.Changes → v.attempt store = .done { answer := v.origin v.req, asked := [v.req], store }) := by
  rw [← Method.isSafe_eq_false_iff] at hmethod
  constructor
  · intro hchanges hdrops visits w x reply huri hx hreply
    apply current_of_recentAt (fun hc => ?_) (Visit.course_of_done hx) hreply
    exact (Visit.lacks hmethod hchanges hdrops hc huri).recent visits
  · intro hchanges
    exact Visit.attempt_of_not_changes hmethod hchanges store

end Since

/-! ## A resource that is written anew -/

namespace WrittenAnew

open Sample

def document (body : String) : Response :=
  response .ok [(.date, epoch), (.cacheControl, value "max-age=60")] (utf8 body)

def reading (body : String) : Visit :=
  ⟨fun _ => .ok (document body), 0, request []⟩

def writing : Visit :=
  ⟨fun _ => .ok (response .ok [] []), 0, { request [] with method := ⟨"PATCH", by decide⟩ }⟩

/-- A store with the old document. -/
def store : Memory :=
  visited Memory.empty [reading "old"]

/-- What the first of two requests after the change has stored. -/
def entry : Entry := Entry.capture (request []) (document "new") 0

/-- The last of two requests after the change, which is answered from the store. -/
def replayed : Exchange Memory :=
  { answer := .ok entry.toResponse, asked := []
    store := visited (writing.attempt store).store [reading "new"] }

end WrittenAnew

open Sample WrittenAnew in
theorem change_invalidates_old_document :
    writing.Changes ∧ writing.Drops store ∧
    (reading "newer").attempt (visited (writing.attempt store).store [reading "new"]) =
      .done replayed ∧
    replayed.asked = [] ∧
    ∃ reply, replayed.answer = .ok reply ∧
      Current (s := .memory) (writing.attempt store).store [reading "new"] (reading "newer")
        replayed reply := by
  have hchanges : writing.Changes := ⟨response .ok [] [], rfl, by decide⟩
  have hdrops : writing.Drops store := ⟨rfl, rfl⟩
  have hx : (reading "newer").attempt (visited (writing.attempt store).store [reading "new"]) =
      .done replayed :=
    attempt_of_fresh (e := entry) (by decide +kernel) (by decide +kernel) (by decide +kernel) _
  refine ⟨hchanges, hdrops, hx, rfl, entry.toResponse, rfl, ?_⟩
  exact (change_invalidates .memory store writing (by decide)).1 hchanges hdrops
    [reading "new"] (reading "newer") replayed entry.toResponse rfl hx rfl

/-! ## Keys that are dropped -/

/-- **Keys.** Two requests have one key exactly if they have one method and one printed address. So
what a change drops, under two keys and no other, is what is stored for the `GET` and the `HEAD`
request for the address. -/
theorem keys_tell_requests_apart :
    (∀ a b : Request, cacheKey a = cacheKey b ↔ a.method = b.method ∧ a.uri.text = b.uri.text) ∧
      ∀ (σ : Type) [ByteStore σ] (store : σ) (v : Visit) (got headed : Request),
        v.req.method ∉ [Method.get, .head, .options, .trace] → v.Changes →
        got.method = .get → got.uri.text = v.req.uri.text →
        headed.method = .head → headed.uri.text = v.req.uri.text →
        (v.attempt store).store =
          (ByteStore.delete (ByteStore.delete store (cacheKey got)).after (cacheKey headed)).after := by
  refine ⟨fun a b => cacheKey_eq_iff, ?_⟩
  intro σ _ store v got headed hmethod hchanges hget hgot hhead hheaded
  rw [← Method.isSafe_eq_false_iff] at hmethod
  have hfirst : keyOf .get v.req.uri = cacheKey got := keyOf_eq_iff.mpr ⟨hget.symm, hgot.symm⟩
  have hsecond : keyOf .head v.req.uri = cacheKey headed :=
    keyOf_eq_iff.mpr ⟨hhead.symm, hheaded.symm⟩
  rw [Visit.attempt_of_changes hmethod hchanges, hfirst, hsecond]
  rfl

open Sample WrittenAnew in
theorem keys_tell_writing_apart :
    writing.req.method ∉ [Method.get, .head, .options, .trace] ∧ writing.Changes ∧
      (writing.attempt store).store =
        (ByteStore.delete (ByteStore.delete store (cacheKey (request []))).after
          (cacheKey { request [] with method := .head })).after := by
  have hmethod : writing.req.method ∉ [Method.get, .head, .options, .trace] := by decide
  have hchanges : writing.Changes := ⟨response .ok [] [], rfl, by decide⟩
  exact ⟨hmethod, hchanges, keys_tell_requests_apart.2 Memory store writing (request [])
    { request [] with method := .head } hmethod hchanges rfl rfl rfl rfl⟩

end PeerCache

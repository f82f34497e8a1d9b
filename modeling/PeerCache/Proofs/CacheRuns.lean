import Mathlib.Logic.ExistsUnique
import PeerCache.Proofs.Attempts

/-!
# Runs of the cache

Requests go through the cache one after another, each with its own time and origin, over any
stack of layers. Every one of them is forwarded, refused, answered by a replay, or not answered
because there is no room, and a replay shows what an origin answered earlier in the run. The
values that a replayed response varies by are those of the request that it was given to, or of
the last one for which an origin confirmed it with a `Vary` of its own.

The invariant of a run gives every entry in the store its lineage: the answer that it was captured
from, and the confirmations that it was captured again with. It is stated for the slot of the
entry's key, so two requests may be confused only where two keys have one hash.
-/

namespace PeerCache

section Past

variable {s : Stack} {past : List (Turn s.State)} {i : Nat} {first : Turn s.State} {req : Request}
  {resp : Response}

/-! ## The past of a run -/

/-- An origin answered at a turn of the past to a request that can be cached. -/
def Answered (past : List (Turn s.State)) (i : Nat) (first : Turn s.State) (resp : Response) :
    Prop :=
  ∃ sent, past[i]? = some first ∧ first.visit.req.isCacheable = true ∧
    first.outcome.asked = [sent] ∧ AddsValidators first.visit.req sent ∧
    first.visit.origin sent = .ok resp

/-- The request that a stored response answers, with the names that it varies by. -/
structure Mark where
  request : Request
  names : List String

/-- A request has the values of the marked one. -/
def Mark.Matches (mark : Mark) (req : Request) : Prop :=
  ∀ name ∈ mark.names, name ≠ "*" ∧
    Entry.variant req.headers name = Entry.variant mark.request.headers name

/-- The mark after a confirmation: the request that was confirmed, if the confirmation names what
the response varies by, and otherwise the mark that was there. -/
def Mark.confirmed (mark : Mark) (req : Request) (conf : Response) : Mark :=
  if (Entry.endToEnd conf.headers).contains HeaderName.vary then
    { request := req, names := Entry.varyNames (Entry.endToEnd conf.headers) }
  else mark

/-- How an entry came from the answer at a turn of the past: it was captured with the answer, and
captured again, for the same resource, at each later turn whose origin confirmed it. The last of
these turns and the mark go with the entry. -/
inductive Lineage (past : List (Turn s.State)) (i : Nat) (first : Turn s.State) (resp : Response) :
    Nat → Entry → Mark → Prop
  | captured (ha : Answered past i first resp) (hs : canStore first.visit.req resp = true) :
    Lineage past i first resp i (Entry.capture first.visit.req resp first.visit.now)
      { request := first.visit.req, names := Entry.varyNames resp.headers }
  | confirmed {last j : Nat} {e merged : Entry} {mark : Mark} {t : Turn s.State} {sent : Request}
    {conf : Response} (h : Lineage past i first resp last e mark) (hj : last < j)
    (ht : past[j]? = some t) (hsame : s.Same first.visit.req t.visit.req)
    (hv : Validates t.visit.origin t.visit.now t.before t.visit.req e sent conf)
    (hm : e.refresh? conf.headers = some merged)
    (hs : canStore t.visit.req merged.toResponse = true) :
    Lineage past i first resp j (Entry.capture t.visit.req merged.toResponse t.visit.now)
      (mark.confirmed t.visit.req conf)

/-- A reply made from an entry shows the answer that the entry came from, which was given to a
request for the same resource, and the request has the values of the entry's mark. -/
def Replays (past : List (Turn s.State)) (e : Entry) (req : Request) (reply : Response) : Prop :=
  ∃ i first resp last mark, Lineage past i first resp last e mark ∧
    s.Same first.visit.req req ∧ reply.status = resp.status ∧ reply.body = resp.body ∧
    mark.Matches req

/-! ## Classes of turns -/

inductive Kind where
  | forwarded
  | refused
  | replayed
  | brokenOff

/-- A stored entry stands in for the answer of the origin, which confirms the entry or fails. -/
def Visit.StandsIn (v : Visit) (e : Entry) (sent : Request) : Prop :=
  (∃ resp, v.origin sent = .ok resp ∧ resp.status = .notModified ∧ sent ≠ v.req) ∨
    Covers e v.req v.now (v.origin sent)

/-- Whether a turn is of a kind, seen from the turns before it. -/
def Turn.Is (past : List (Turn s.State)) (t : Turn s.State) : Kind → Prop
  | .forwarded => ∃ sent, t.outcome.asked = [sent] ∧ AddsValidators t.visit.req sent ∧
      t.outcome.answer? = some (t.visit.origin sent) ∧
      ∀ e, t.visit.req.isCacheable = true → found t.before t.visit.req = some e →
        ¬t.visit.StandsIn e sent
  | .refused => t.outcome.asked = [] ∧
      t.outcome.answer? = some (.ok (Response.bare .gatewayTimeout)) ∧
      t.visit.req.isCacheable = true ∧ t.visit.req.onlyIfCached = true ∧
      found t.before t.visit.req = none
  | .replayed => ∃ e reply, t.visit.req.isCacheable = true ∧
      found t.before t.visit.req = some e ∧ t.outcome.answer? = some (.ok reply) ∧
      reply.headers.values HeaderName.fromCache = [HeaderValue.one] ∧
      Replays past e t.visit.req reply ∧
      ((t.outcome.asked = [] ∧
          freshness e.headers t.visit.req.headers t.visit.now = .fresh) ∨
        ∃ sent, t.outcome.asked = [sent] ∧ AddsValidators t.visit.req sent ∧
          t.visit.StandsIn e sent)
  | .brokenOff => t.outcome.answer? = none ∧ t.visit.req.isCacheable = true ∧
      t.outcome.store = (load t.before (cacheKey t.visit.req)).2 ∧
      ((t.outcome.asked = [] ∧ breaksOff t.before (cacheKey t.visit.req) = true) ∨
        ∃ e sent conf, t.outcome.asked = [sent] ∧
          Validates t.visit.origin t.visit.now t.before t.visit.req e sent conf ∧
          e.refresh? conf.headers = none)

/-! ## Lineages -/

theorem Answered.lt (h : Answered past i first resp) : i < past.length := by
  obtain ⟨_, hi, _⟩ := h
  exact (List.getElem?_eq_some_iff.mp hi).1

theorem Answered.mono (h : Answered past i first resp) (t : Turn s.State) :
    Answered (past ++ [t]) i first resp := by
  have hlt := h.lt
  obtain ⟨sent, hi, h⟩ := h
  exact ⟨sent, (List.getElem?_append_left hlt).trans hi, h⟩

namespace Lineage

variable {last : Nat} {e : Entry} {mark : Mark}

theorem last_lt (h : Lineage past i first resp last e mark) : last < past.length := by
  cases h with
  | captured ha => exact ha.lt
  | confirmed _ _ ht => exact (List.getElem?_eq_some_iff.mp ht).1

theorem mono (h : Lineage past i first resp last e mark) (t : Turn s.State) :
    Lineage (past ++ [t]) i first resp last e mark := by
  induction h with
  | captured ha hs => exact .captured (ha.mono t) hs
  | confirmed h hj ht hsame hv hm hs ih =>
    have hlt := (List.getElem?_eq_some_iff.mp ht).1
    exact .confirmed ih hj ((List.getElem?_append_left hlt).trans ht) hsame hv hm hs

/-- An entry keeps the status and the body of the answer that it came from. -/
theorem status_body (h : Lineage past i first resp last e mark) :
    e.status = resp.status ∧ e.body = resp.body := by
  induction h with
  | captured => exact ⟨rfl, rfl⟩
  | confirmed _ _ _ _ _ hm _ ih =>
    exact ⟨(Entry.status_of_refresh? hm).trans ih.1, (Entry.body_of_refresh? hm).trans ih.2⟩

theorem varyNames_eq (h : Lineage past i first resp last e mark) :
    Entry.varyNames e.headers = mark.names := by
  induction h with
  | captured => exact Entry.varyNames_capture ..
  | confirmed _ _ _ _ _ hm _ ih =>
    rw [Entry.varyNames_capture, Entry.varyNames_toResponse, Entry.varyNames_of_refresh? hm,
      Mark.confirmed, apply_ite Mark.names, ih]

/-- An entry holds the values of the request that marks it. A confirmation without a `Vary` of its
own leaves the marked one, whose values the confirmed request has. -/
theorem varied_eq (h : Lineage past i first resp last e mark) :
    e.varied = mark.names.map fun name => (name, Entry.variant mark.request.headers name) := by
  induction h with
  | captured => exact Entry.varied_capture ..
  | @confirmed last j e merged mark t sent conf h hj ht hsame hv hm hs ih =>
    rw [Entry.varied_capture, Entry.varyNames_toResponse, Entry.varyNames_of_refresh? hm,
      Mark.confirmed]
    by_cases hvary : (Entry.endToEnd conf.headers).contains HeaderName.vary = true
    · rw [if_pos hvary, if_pos hvary]
    · rw [if_neg hvary, if_neg hvary, h.varyNames_eq]
      refine List.map_congr_left fun name hname => ?_
      have hpair : (name, Entry.variant mark.request.headers name) ∈ e.varied := by
        rw [ih]
        exact List.mem_map_of_mem hname
      have hanswers := (Option.filter_eq_some_iff.mp hv.found).2
      rw [(Entry.answers_iff.mp hanswers _ hpair).2]

theorem matches_of_answers (h : Lineage past i first resp last e mark)
    (ha : e.answers req = true) : mark.Matches req := by
  intro name hname
  have hpair : (name, Entry.variant mark.request.headers name) ∈ e.varied := by
    rw [h.varied_eq]
    exact List.mem_map_of_mem hname
  exact Entry.answers_iff.mp ha _ hpair

end Lineage

/-! ## What is known of a stored entry -/

/-- An entry under a slot came from an answer of the past to a request with that slot. -/
def Known (s : Stack) (past : List (Turn s.State)) (slot : String) (e : Entry) : Prop :=
  ∃ i first resp last mark, Lineage past i first resp last e mark ∧
    s.slot (cacheKey first.visit.req) = slot

/-- The invariant of a run: every entry that the base can answer with is known. -/
def Stack.Knows (s : Stack) (past : List (Turn s.State)) (store : s.State) : Prop :=
  s.Holds (Known s past) store

theorem Known.mono {slot : String} {e : Entry} (h : Known s past slot e) (t : Turn s.State) :
    Known s (past ++ [t]) slot e := by
  obtain ⟨i, first, resp, last, mark, hline, hslot⟩ := h
  exact ⟨i, first, resp, last, mark, hline.mono t, hslot⟩

/-- A matching entry that is known replays to the request. -/
theorem Known.replays {e : Entry} {reply : Response} (h : Known s past (s.slot (cacheKey req)) e)
    (ha : e.answers req = true) (hstatus : reply.status = e.status)
    (hbody : reply.body = e.body) : Replays past e req reply := by
  obtain ⟨i, first, resp, last, mark, hline, hslot⟩ := h
  obtain ⟨hs, hb⟩ := hline.status_body
  exact ⟨i, first, resp, last, mark, hline, Stack.same_of_slot hslot, hstatus.trans hs,
    hbody.trans hb, hline.matches_of_answers ha⟩

theorem knows_initial (s : Stack) : s.Knows [] s.initial :=
  .initial s _

/-- One turn keeps the invariant, with the turn itself added to the past. -/
theorem Turn.Follows.knows {t : Turn s.State} (c : t.Follows) (h : s.Knows past t.before) :
    s.Knows (past ++ [t]) t.outcome.store := by
  have hlast : (past ++ [t])[past.length]? = some t := by simp
  apply (h.mono fun _ _ hk => hk.mono t).course c
  intro e he
  obtain ⟨⟨origin, now, req⟩, before, outcome⟩ := t
  change Stores origin now before req outcome e at he
  cases he with
  | @answered hc sent ha resp hr hs =>
    have hline := Lineage.captured ⟨sent, hlast, hc, rfl, ha, hr⟩ hs
    exact ⟨_, _, resp, _, _, hline, rfl⟩
  | @confirmed old merged sent conf hv hm hs =>
    obtain ⟨⟨i, first, resp, last, mark, hline, hslot⟩, -⟩ := h.of_found hv.found
    have hagain := Lineage.confirmed (hline.mono _) hline.last_lt hlast
      (Stack.same_of_slot hslot) hv hm hs
    exact ⟨i, first, resp, _, _, hagain, hslot⟩

/-- After a run from an empty store every entry is known from its turns. -/
theorem knows_visited (s : Stack) (visits : List Visit) :
    s.Knows (turns s.initial visits) (visited s.initial visits) := by
  refine visited_invariant (I := fun front store => s.Knows (turns s.initial front) store)
    (knows_initial s) ?_ visits
  intro front v hfront
  rw [turns_concat]
  exact Turn.Follows.knows (t := v.turn _) (v.course _) hfront

/-! ## What a turn shows -/

/-- A request that is not the client's own was made to confirm an entry. -/
theorem validates_of_ne {e : Entry} {sent : Request} {now : Nat} {validates : Bool}
    (hp : plan (some e) req now = .check e sent validates) (hne : sent ≠ req) :
    validates = true := by
  obtain ⟨-, ⟨h, -⟩ | ⟨-, h⟩⟩ := plan_some_check hp
  · exact h
  · exact absurd h hne

/-- An answer that neither confirms nor covers for an entry leaves it aside. -/
theorem Visit.not_standsIn {v : Visit} {e : Entry} {sent : Request} {validates : Bool}
    (hp : plan (some e) v.req v.now = .check e sent validates)
    (hconf : ¬Confirms validates (v.origin sent)) (hcov : ¬Covers e v.req v.now (v.origin sent)) :
    ¬v.StandsIn e sent := by
  rintro (⟨resp, hr, h304, hne⟩ | hcov')
  · apply hconf
    rw [hr]
    exact ⟨h304, validates_of_ne hp hne⟩
  · exact hcov hcov'

theorem Visit.standsIn_of_confirmed {v : Visit} {e : Entry} {sent : Request}
    (hp : plan (some e) v.req v.now = .check e sent true) (hr : v.origin sent = .ok resp)
    (h304 : resp.status = .notModified) : v.StandsIn e sent := by
  obtain ⟨-, ⟨-, hsent⟩ | ⟨h, -⟩⟩ := plan_some_check hp
  · exact .inl ⟨resp, hr, h304, conditional_ne hsent⟩
  · cases h

/-- A reply made from an entry carries the mark of a replay and nothing else under its name. -/
theorem values_fromCache (e : Entry) :
    e.toResponse.headers.values HeaderName.fromCache = [HeaderValue.one] :=
  (e.values_toResponse _).trans (if_pos rfl)

theorem Turn.Follows.asked_le {t : Turn s.State} (c : t.Follows) : t.outcome.asked.length ≤ 1 := by
  obtain ⟨⟨origin, now, req⟩, before, outcome⟩ := t
  change Course origin now before req outcome at c
  cases c <;> simp [Attempt.asked, settled, passThrough]

theorem Turn.Follows.exists_kind {t : Turn s.State} (c : t.Follows)
    (h : s.Knows past t.before) : ∃ kind, t.Is past kind := by
  obtain ⟨⟨origin, now, req⟩, before, outcome⟩ := t
  change Course origin now before req outcome at c
  have hreplays : ∀ {e : Entry}, found before req = some e → ∀ {reply : Response},
      reply.status = e.status → reply.body = e.body → Replays past e req reply := by
    intro e hf reply hstatus hbody
    obtain ⟨hknown, hanswers⟩ := h.of_found hf
    exact hknown.replays hanswers hstatus hbody
  cases c with
  | passed hc =>
    refine ⟨.forwarded, req, rfl, .refl req, rfl, fun e hcacheable => ?_⟩
    exact absurd hcacheable (Bool.eq_false_iff.mp hc)
  | unread hc hb => exact ⟨.brokenOff, rfl, hc, rfl, .inl ⟨rfl, hb⟩⟩
  | refused hc hf ho => exact ⟨.refused, rfl, rfl, hc, ho, hf⟩
  | fetched hc hf hr =>
    refine ⟨.forwarded, req, rfl, .refl req, congrArg some hr.symm, fun e _ hsome => ?_⟩
    exact absurd (hf.symm.trans hsome) nofun
  | missed hc hf hr =>
    refine ⟨.forwarded, req, rfl, .refl req, congrArg some hr.symm, fun e _ hsome => ?_⟩
    exact absurd (hf.symm.trans hsome) nofun
  | @fresh hc e hf hfresh =>
    exact ⟨.replayed, e, e.toResponse, hc, hf, rfl, values_fromCache e, hreplays hf rfl rfl,
      .inl ⟨rfl, hfresh⟩⟩
  | @confirmed e merged sent conf hv hm =>
    exact ⟨.replayed, e, merged.toResponse, hv.cacheable, hv.found, rfl, values_fromCache _,
      hreplays hv.found (Entry.status_of_refresh? hm) (Entry.body_of_refresh? hm),
      .inr ⟨sent, rfl, .of_plan hv.plan,
        Visit.standsIn_of_confirmed hv.plan hv.answer hv.status⟩⟩
  | @unmerged e sent conf hv hm =>
    exact ⟨.brokenOff, rfl, hv.cacheable, rfl, .inr ⟨e, sent, conf, rfl, hv, hm⟩⟩
  | @covered hc e hf sent validates hp hr =>
    exact ⟨.replayed, e, e.toResponse, hc, hf, rfl, values_fromCache e, hreplays hf rfl rfl,
      .inr ⟨sent, rfl, .of_plan hp, .inr hr⟩⟩
  | @replaced hc e hf sent validates hp resp hr hconf hcov =>
    refine ⟨.forwarded, sent, rfl, .of_plan hp, congrArg some hr.symm, fun e' _ hsome => ?_⟩
    obtain rfl := Option.some.inj (hf.symm.trans hsome)
    exact Visit.not_standsIn hp hconf hcov
  | @failed hc e hf sent validates hp err hr hcov =>
    refine ⟨.forwarded, sent, rfl, .of_plan hp, congrArg some hr.symm, fun e' _ hsome => ?_⟩
    obtain rfl := Option.some.inj (hf.symm.trans hsome)
    refine Visit.not_standsIn hp ?_ hcov
    change ¬Confirms validates (origin sent)
    rw [hr]
    exact id

section Unique

variable {t : Turn s.State}

theorem Turn.not_forwarded_refused (h : t.Is past .forwarded) (h' : t.Is past .refused) :
    False := by
  obtain ⟨sent, hasked, -⟩ := h
  obtain ⟨hnone, -⟩ := h'
  exact List.cons_ne_nil sent [] (hasked.symm.trans hnone)

theorem Turn.not_forwarded_replayed (h : t.Is past .forwarded) (h' : t.Is past .replayed) :
    False := by
  obtain ⟨sent, hasked, -, -, hout⟩ := h
  obtain ⟨e, reply, hc, hf, -, -, -, ⟨hnone, -⟩ | ⟨sent', hasked', -, hin⟩⟩ := h'
  · exact List.cons_ne_nil sent [] (hasked.symm.trans hnone)
  · obtain rfl := List.head_eq_of_cons_eq (hasked.symm.trans hasked')
    exact hout e hc hf hin

theorem Turn.not_refused_replayed (h : t.Is past .refused) (h' : t.Is past .replayed) :
    False := by
  obtain ⟨-, -, -, -, hnone⟩ := h
  obtain ⟨e, reply, -, hsome, -⟩ := h'
  exact absurd (hnone.symm.trans hsome) nofun

/-- A turn that broke off gives no answer, and every other one does. -/
theorem Turn.answer?_eq_none_iff {kind : Kind} (h : t.Is past kind) :
    t.outcome.answer? = none ↔ kind = .brokenOff := by
  cases kind with
  | forwarded =>
    obtain ⟨sent, -, -, hanswer, -⟩ := h
    simp [hanswer]
  | refused =>
    obtain ⟨-, hanswer, -⟩ := h
    simp [hanswer]
  | replayed =>
    obtain ⟨e, reply, -, -, hanswer, -⟩ := h
    simp [hanswer]
  | brokenOff => exact iff_of_true h.1 rfl

/-- No turn is of two kinds. -/
theorem Turn.kind_unique {k k' : Kind} (h : t.Is past k) (h' : t.Is past k') : k = k' := by
  have hbroken : k = .brokenOff ↔ k' = .brokenOff :=
    (answer?_eq_none_iff h).symm.trans (answer?_eq_none_iff h')
  cases k with
  | forwarded =>
    cases k' with
    | forwarded => rfl
    | refused => exact (not_forwarded_refused h h').elim
    | replayed => exact (not_forwarded_replayed h h').elim
    | brokenOff => exact hbroken.mpr rfl
  | refused =>
    cases k' with
    | forwarded => exact (not_forwarded_refused h' h).elim
    | refused => rfl
    | replayed => exact (not_refused_replayed h h').elim
    | brokenOff => exact hbroken.mpr rfl
  | replayed =>
    cases k' with
    | forwarded => exact (not_forwarded_replayed h' h).elim
    | refused => exact (not_refused_replayed h' h).elim
    | replayed => rfl
    | brokenOff => exact hbroken.mpr rfl
  | brokenOff => exact (hbroken.mp rfl).symm

end Unique

/-! ## Runs -/

/-- Every turn of a run from an empty store asks the origin at most once, and it is of one of
four kinds: the answer of the origin, to the request or to the request with validators added; a
refusal, without asking, of a request that wants a stored response and finds none; a replay of
what an origin answered earlier in the run; or no answer, where there is no room to read what is
stored or to merge what the origin confirms. -/
theorem cache_run_sound (s : Stack) (visits : List Visit) (n : Nat) (t : Turn s.State)
    (ht : (turns s.initial visits)[n]? = some t) :
    t.outcome.asked.length ≤ 1 ∧ ∃! kind, t.Is ((turns s.initial visits).take n) kind := by
  obtain ⟨hfollows, hknows⟩ := turns_invariant (I := fun past => s.Knows past) (knows_initial s)
    (fun _ _ c h => c.knows h) ht
  obtain ⟨kind, hkind⟩ := hfollows.exists_kind hknows
  exact ⟨hfollows.asked_le, kind, hkind, fun k hk => Turn.kind_unique hk hkind⟩

end Past

/-! ## A confirmation that changes what a response varies by -/

namespace VaryChange

open Sample

def acceptLanguage : HeaderName := ⟨"accept-language", by decide⟩

/-- A request that accepts a kind of document in a language. -/
def request (kind language : HeaderValue) : Request :=
  Sample.request [(accept, kind), (acceptLanguage, language)]

/-- A document, which varies by the kind that is accepted. -/
def document : Response :=
  response .ok [(.date, epoch), (.etag, value "\"1\""), (.vary, value "Accept")] (utf8 "hallo")

/-- The document has not changed, is fresh from now on, and varies by the language. -/
def confirmation : Response :=
  response .notModified
    [(.cacheControl, value "max-age=60"), (.vary, value "Accept-Language")] []

def other : Response :=
  response .ok [(.date, epoch)] (utf8 "bonjour")

/-- The document as the second request leaves it. -/
def shown : Entry where
  status := .ok
  headers := Headers.ofLines [(.date, epoch), (.etag, value "\"1\""),
    (.cacheControl, value "max-age=60"), (.vary, value "Accept-Language")]
  varied := [("accept-language", some (value "fr"))]
  body := utf8 "hallo"

def visits : List Visit :=
  [⟨fun _ => .ok document, 0, request (value "x") (value "de")⟩,
    ⟨fun _ => .ok confirmation, 0, request (value "x") (value "fr")⟩,
    ⟨fun _ => .ok other, 0, request (value "y") (value "fr")⟩]

end VaryChange

open Sample VaryChange in
/-- The second of three requests has the document confirmed and marks it anew, so the third is
answered by a replay, although it does not have the values of the only request that an origin
answered with the document. -/
theorem replay_past_vary_change :
    ∃ t reply, (turns Stack.memory.initial visits)[2]? = some t ∧ t.outcome.asked = [] ∧
      t.outcome.answer? = some (.ok reply) ∧ reply ≠ Response.bare .gatewayTimeout ∧
      ∀ i first resp, Answered (s := .memory) ((turns Stack.memory.initial visits).take 2) i first
        resp → reply.body = resp.body →
        ∃ name ∈ Entry.varyNames resp.headers,
          Entry.variant t.visit.req.headers name ≠
            Entry.variant first.visit.req.headers name := by
  obtain ⟨t, ht⟩ : ∃ t, (turns Stack.memory.initial visits)[2]? = some t := ⟨_, rfl⟩
  have hseen : (turns Stack.memory.initial visits)[2]?.map
      (fun t => (t.visit.req, t.outcome.asked, t.outcome.answer?)) =
      some (VaryChange.request (value "y") (value "fr"), [], some (.ok shown.toResponse)) := by
    decide +kernel
  rw [ht] at hseen
  obtain ⟨hreq, hasked, hanswer⟩ : t.visit.req = VaryChange.request (value "y") (value "fr") ∧
      t.outcome.asked = [] ∧ t.outcome.answer? = some (.ok shown.toResponse) := by
    simpa using hseen
  refine ⟨t, shown.toResponse, ht, hasked, hanswer, by decide, ?_⟩
  rintro i first resp ⟨sent, hi, -, -, -, hr⟩ hsame
  rw [hreq]
  match i, hi with
  | 0, hi =>
    cases hi
    cases hr
    exact ⟨"accept", by decide +kernel, by decide +kernel⟩
  | 1, hi =>
    cases hi
    cases hr
    cases hsame
  | _ + 2, hi => cases hi

theorem cache_run_sound_past_vary_change :
    ∃ t, (turns Stack.memory.initial VaryChange.visits)[2]? = some t ∧
      t.outcome.asked.length ≤ 1 ∧
      ∃! kind, t.Is (s := .memory) ((turns Stack.memory.initial VaryChange.visits).take 2) kind :=
  ⟨_, rfl, cache_run_sound .memory VaryChange.visits 2 _ rfl⟩

end PeerCache

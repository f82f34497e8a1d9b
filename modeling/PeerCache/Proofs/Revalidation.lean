import PeerCache.Proofs.ExchangeCourses
import PeerCache.Store.Memory

/-!
# Revalidation

What the origin was asked when it confirmed a stored entry. The request that goes out carries
the validators of the client where it has some, and those of the entry elsewhere. An answer
that nothing has changed speaks about the entry only if the validators that decide are the
entry's: the tag if one was sent, and the date otherwise. This holds unless the client sent a
tag of its own that is not the entry's, in which case the confirmation of the client's copy is
taken for one of the entry.
-/

namespace PeerCache

/-- A request asks about an entry: the tags in it, or the date if it has no tag, are exactly
what the entry has. -/
def AsksAbout (e : Entry) (sent : Request) : Prop :=
  if sent.headers.contains HeaderName.ifNoneMatch then
    ∃ tag, e.headers.get? HeaderName.etag = some tag ∧
      sent.headers.values HeaderName.ifNoneMatch = [tag]
  else
    ∃ date, e.headers.get? HeaderName.lastModified = some date ∧
      sent.headers.values HeaderName.ifModifiedSince = [date]

/-- The tags of the client, if it sent any, are the one tag of an entry. -/
def HoldsCopy (e : Entry) (req : Request) : Prop :=
  req.headers.contains HeaderName.ifNoneMatch = true →
    ∃ tag, e.headers.get? HeaderName.etag = some tag ∧
      req.headers.values HeaderName.ifNoneMatch = [tag]

variable {req sent : Request} {e : Entry}

theorem eq_toList_iff {α : Type} {v : Option α} (h : v ≠ none) (l : List α) :
    l = v.toList ↔ ∃ a, v = some a ∧ l = [a] := by
  cases v with
  | none => exact absurd rfl h
  | some a => simp

/-- With tags of its own, the client decides what is asked. -/
theorem asksAbout_of_tags (h : conditional? req e = some sent)
    (hc : req.headers.contains HeaderName.ifNoneMatch = true) :
    AsksAbout e sent ↔ ∃ tag, e.headers.get? HeaderName.etag = some tag ∧
      req.headers.values HeaderName.ifNoneMatch = [tag] := by
  obtain ⟨htag, -⟩ := values_conditional h
  rw [if_pos hc] at htag
  have hsent : sent.headers.contains HeaderName.ifNoneMatch = true := by
    rw [Headers.contains_iff] at hc ⊢
    rwa [htag]
  rw [AsksAbout]
  rw [if_pos hsent, htag]

/-- Without tags of the client, the entry's validators are the ones that decide. -/
theorem asksAbout_of_no_tags (h : conditional? req e = some sent)
    (hc : req.headers.contains HeaderName.ifNoneMatch = false) : AsksAbout e sent := by
  obtain ⟨htag, hmodified⟩ := values_conditional h
  rw [hc, if_neg Bool.false_ne_true] at htag
  rw [AsksAbout]
  cases hetag : e.headers.get? HeaderName.etag with
  | some tag =>
    rw [hetag] at htag
    have hsent : sent.headers.contains HeaderName.ifNoneMatch = true := by
      rw [Headers.contains_iff, htag]
      exact List.cons_ne_nil tag []
    rw [if_pos hsent]
    exact ⟨tag, rfl, htag⟩
  | none =>
    rw [hetag] at htag
    have hsent : sent.headers.contains HeaderName.ifNoneMatch = false :=
      Headers.contains_eq_false_iff.mpr htag
    -- nothing but the date can have been added, so the client sent none
    obtain ⟨hadded | hadded, -⟩ := conditional?_eq_some h
    · exact absurd hetag (validator?_ne_none hadded).2
    · obtain ⟨hdate, hsome⟩ := validator?_ne_none hadded
      rw [hdate, if_neg Bool.false_ne_true] at hmodified
      rw [hsent, if_neg Bool.false_ne_true]
      exact (eq_toList_iff hsome _).mp hmodified

theorem asksAbout_iff (h : conditional? req e = some sent) :
    AsksAbout e sent ↔ HoldsCopy e req := by
  cases hc : req.headers.contains HeaderName.ifNoneMatch with
  | true =>
    rw [asksAbout_of_tags h hc]
    exact ⟨fun htag _ => htag, fun htag => htag hc⟩
  | false =>
    apply iff_of_true (asksAbout_of_no_tags h hc)
    intro htrue
    exact absurd (hc.symm.trans htrue) Bool.false_ne_true

section Exchange

variable {σ : Type} [ByteStore σ] {origin : Origin} {now : Nat} {store : σ} {resp : Response}

theorem plan_of_conditional {now : Nat} (hs : freshness e.headers req.headers now = .stale)
    (h : conditional? req e = some sent) : plan (some e) req now = .check e sent true := by
  simp only [plan, hs, h]

theorem Validates.conditional (h : Validates origin now store req e sent resp) :
    conditional? req e = some sent := by
  obtain ⟨-, ⟨-, hsent⟩ | ⟨hfalse, -⟩⟩ := plan_some_check h.plan
  · exact hsent
  · cases hfalse

/-- Where a confirmation is taken for one of the stored entry, the entry is served and stored
again, if it has room for the fields of the answer, and the origin was asked about it exactly if
the tags of the client, if it sent any, are the one of the entry. -/
theorem validation_asks_about_entry_iff (h : Validates origin now store req e sent resp) :
    (attempt origin now store req).asked = [sent] ∧
      (∀ merged, e.refresh? resp.headers = some merged →
        attempt origin now store req = .done
          { answer := .ok merged.toResponse, asked := [sent]
            store := (deliver req now merged.toResponse).effect.apply
              (load store (cacheKey req)).2 (cacheKey req) }) ∧
      (e.refresh? resp.headers = none →
        attempt origin now store req = .brokenOff [sent] (load store (cacheKey req)).2) ∧
      (AsksAbout e sent ↔ HoldsCopy e req) := by
  rw [h.attempt_eq]
  refine ⟨?_, fun merged hm => ?_, fun hm => ?_, asksAbout_iff h.conditional⟩
  · cases e.refresh? resp.headers <;> rfl
  · rw [hm]
    rfl
  · rw [hm]
    rfl

end Exchange

/-! ## A client with a newer copy -/

namespace NewerCopy

open Sample

/-- What is stored: the first version of a document. -/
def first : Response :=
  response .ok [(.date, epoch), (.etag, value "\"1\""), (.lastModified, epoch)] (utf8 "old")

/-- The document is now in its second version. An origin that is asked for it with the tag of
that version says that it has not changed. -/
def origin (req : Request) : Answer :=
  if req.headers.values .ifNoneMatch = [value "\"2\""] then
    .ok (response .notModified [(.etag, value "\"2\"")] [])
  else .ok (response .ok [(.date, epoch), (.etag, value "\"2\"")] (utf8 "new"))

def entry : Entry := Entry.capture (request []) first 0

def store : Memory := (attempt (fun _ => .ok first) 0 Memory.empty (request [])).store

/-- The client has the second version. -/
def revisit : Request := request [(.ifNoneMatch, value "\"2\"")]

def asked : Request := request [(.ifNoneMatch, value "\"2\""), (.ifModifiedSince, epoch)]

def confirmation : Response := response .notModified [(.etag, value "\"2\"")] []

/-- The first version under the tag of the second one. -/
def relabeled : Entry :=
  { entry with headers := Headers.ofLines [(.date, epoch), (.lastModified, epoch),
      (.etag, value "\"2\"")] }

theorem refresh?_entry : entry.refresh? confirmation.headers = some relabeled := by
  decide +kernel

end NewerCopy

open NewerCopy in
/-- The confirmation of the client's copy is taken for one of the stored entry, and the first
version goes out under the tag of the second one. -/
theorem newer_copy_relabels_entry :
    Validates origin 0 store revisit entry asked confirmation ∧ ¬AsksAbout entry asked ∧
      ∃ reply, (attempt origin 0 store revisit).answer? = some (.ok reply) ∧
        reply.body = first.body ∧
        reply.headers.values .etag = [Sample.value "\"2\""] := by
  have h : Validates origin 0 store revisit entry asked confirmation :=
    { cacheable := by decide +kernel
      found := by decide +kernel
      plan := plan_of_conditional (by decide +kernel) (by decide +kernel)
      answer := if_pos (by decide +kernel)
      status := rfl }
  refine ⟨h, ?_, relabeled.toResponse, ?_, rfl, by decide +kernel⟩
  · rw [asksAbout_iff h.conditional]
    intro hcopy
    obtain ⟨tag, hentry, hclient⟩ := hcopy (by decide +kernel)
    have hfirst : entry.headers.get? .etag = some (Sample.value "\"1\"") := by decide +kernel
    have hsecond : revisit.headers.values .ifNoneMatch = [Sample.value "\"2\""] := by
      decide +kernel
    rw [hfirst] at hentry
    rw [hsecond, ← Option.some.inj hentry] at hclient
    exact absurd (List.head_eq_of_cons_eq hclient) (by decide +kernel)
  · rw [h.attempt_eq, refresh?_entry]
    rfl

open NewerCopy in
theorem validation_asks_about_entry_without_tags :
    let origin : Origin := fun _ => .ok confirmation
    let req := Sample.request []
    let sent := Sample.request [(.ifNoneMatch, Sample.value "\"1\""),
      (.ifModifiedSince, Sample.epoch)]
    Validates origin 0 store req entry sent confirmation ∧
      (attempt origin 0 store req).asked = [sent] ∧
      (attempt origin 0 store req).answer? = some (.ok relabeled.toResponse) ∧
      (AsksAbout entry sent ↔ HoldsCopy entry req) := by
  intro origin req sent
  have h : Validates origin 0 store req entry sent confirmation :=
    { cacheable := by decide +kernel
      found := by decide +kernel
      plan := plan_of_conditional (by decide +kernel) (by decide +kernel)
      answer := rfl
      status := rfl }
  obtain ⟨hasked, hserved, -, habout⟩ := validation_asks_about_entry_iff h
  refine ⟨h, hasked, ?_, habout⟩
  rw [hserved relabeled refresh?_entry]
  rfl

end PeerCache

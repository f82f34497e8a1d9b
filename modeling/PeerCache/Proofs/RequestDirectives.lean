import PeerCache.Proofs.ExchangeCourses
import PeerCache.Proofs.FreshnessLaws
import PeerCache.Store.Memory

/-!
# Directives of requests

What a client can bring about with the directives of its request. A response that must be
revalidated is served past its own lifetime, without asking the origin, exactly for requests
that want nothing but a stored response or whose `max-age` is longer than what the response
has. And a request that wants nothing but a stored response is sent to the origin all the
same, exactly where the entry that it finds or the request itself has `no-cache`.
-/

namespace PeerCache

/-! ## Responses that must be revalidated -/

/-- A request leaves a response its lifetime, whatever the time is. Its `max-age` is compared
with the lifetime, or with the age that the response came with if that is already greater. -/
def LeavesLifetime (response request : Headers) : Prop :=
  ForbidsReplay response request ∨
    ((Directives.ofRequest request).has "only-if-cached" = false ∧
      ∀ date n, response.date? HeaderName.date = some date →
        (Directives.ofRequest request).seconds? "max-age" = some n →
        n * 1000 ≤ max (ownLifetime response date) (response.receivedAge * 1000) +
          ((Directives.ofRequest request).seconds? "min-fresh").getD 0 * 1000)

/-- A response reaches every age from the one on that it came with. -/
theorem exists_currentAge_eq (response : Headers) (date : Nat) {age : Nat}
    (h : response.receivedAge * 1000 ≤ age) : ∃ now, currentAge response date now = age := by
  refine ⟨date * 1000 + (age - response.receivedAge * 1000), ?_⟩
  unfold currentAge elapsed
  omega

theorem exists_past_lifetime (response : Headers) : ∃ now, ¬WithinLifetime response now := by
  cases hdate : response.date? HeaderName.date with
  | none =>
    refine ⟨0, ?_⟩
    rintro ⟨date, hsome, -⟩
    exact absurd (hdate.symm.trans hsome) nofun
  | some date =>
    obtain ⟨now, hage⟩ := exists_currentAge_eq response date
      (Nat.le_max_right (ownLifetime response date) (response.receivedAge * 1000))
    refine ⟨now, ?_⟩
    rintro ⟨date', hsome, hwithin⟩
    obtain rfl := Option.some.inj (hdate.symm.trans hsome)
    omega

section Lifetime

variable {response request : Headers}
  (hm : (Directives.ofHeaders response).has "must-revalidate" = true)

include hm

theorem fresh_iff_of_mustRevalidate {now : Nat} : freshness response request now = .fresh ↔
    ¬ForbidsReplay response request ∧
      ((Directives.ofRequest request).has "only-if-cached" = true ∨
        ∃ date, response.date? HeaderName.date = some date ∧
          countedAge response (Directives.ofRequest request) date now <
            grantedLifetime response (Directives.ofRequest request) date) := by
  rw [freshness_eq_fresh_iff, tolerance_of_mustRevalidate hm]
  rfl

theorem LeavesLifetime.within (h : LeavesLifetime response request) {now : Nat}
    (hfresh : freshness response request now = .fresh) : WithinLifetime response now := by
  obtain ⟨hforbid, hfresh⟩ := (fresh_iff_of_mustRevalidate hm).mp hfresh
  obtain ⟨hcached, hmax⟩ := h.resolve_left hforbid
  obtain hwants | ⟨date, hdate, hage⟩ := hfresh
  · exact absurd (hcached.symm.trans hwants) Bool.false_ne_true
  · refine ⟨date, hdate, ?_⟩
    unfold countedAge grantedLifetime at hage
    cases hasked : (Directives.ofRequest request).seconds? "max-age" with
    | none =>
      simp only [hasked] at hage
      omega
    | some n =>
      have hn := hmax date n hdate hasked
      have hreceived : response.receivedAge * 1000 ≤ currentAge response date now :=
        Nat.le_add_left ..
      simp only [hasked] at hage
      omega

/-- A request that never has the response served past its lifetime leaves it. The times to look
at are the end of the lifetime, and any time after it for a request that takes whatever is
stored. -/
theorem LeavesLifetime.of_within
    (h : ∀ now, freshness response request now = .fresh → WithinLifetime response now) :
    LeavesLifetime response request := by
  by_cases hforbid : ForbidsReplay response request
  · exact .inl hforbid
  refine .inr ⟨?_, ?_⟩
  · rw [← Bool.not_eq_true]
    intro hwants
    obtain ⟨now, hpast⟩ := exists_past_lifetime response
    exact hpast (h now ((fresh_iff_of_mustRevalidate hm).mpr ⟨hforbid, .inl hwants⟩))
  · intro date n hdate hasked
    refine Nat.le_of_not_lt fun hlong => ?_
    obtain ⟨now, hage⟩ := exists_currentAge_eq response date
      (Nat.le_max_right (ownLifetime response date) (response.receivedAge * 1000))
    have hfresh : freshness response request now = .fresh := by
      refine (fresh_iff_of_mustRevalidate hm).mpr ⟨hforbid, .inr ⟨date, hdate, ?_⟩⟩
      rw [countedAge, hage, grantedLifetime, hasked]
      exact hlong
    obtain ⟨date', hdate', hwithin⟩ := h now hfresh
    obtain rfl := Option.some.inj (hdate.symm.trans hdate')
    omega

end Lifetime

/-- **Responses that must be revalidated.** Such a response is never fresh past its own lifetime,
and never served past it without asking the origin, exactly if the request leaves it its
lifetime. -/
theorem must_revalidate_absolute_iff (e : Entry) (req : Request)
    (hm : (Directives.ofHeaders e.headers).has "must-revalidate" = true) :
    ((∀ now, freshness e.headers req.headers now = .fresh → WithinLifetime e.headers now) ↔
      LeavesLifetime e.headers req.headers) ∧
    ∀ {σ : Type} [ByteStore σ] (store : σ), req.isCacheable = true → found store req = some e →
      ((∀ origin now, (attempt origin now store req).asked = [] →
          WithinLifetime e.headers now) ↔ LeavesLifetime e.headers req.headers) := by
  have hfresh : (∀ now, freshness e.headers req.headers now = .fresh →
      WithinLifetime e.headers now) ↔ LeavesLifetime e.headers req.headers :=
    ⟨.of_within hm, fun h _ => h.within hm⟩
  refine ⟨hfresh, ?_⟩
  intro σ _ store hc hf
  rw [← hfresh]
  constructor
  · intro h now hnow
    refine h (fun _ => .ok (Response.bare .notFound)) now ?_
    exact (not_asked_iff_fresh hc hf).mpr hnow
  · intro h origin now hasked
    exact h now ((not_asked_iff_fresh hc hf).mp hasked)

namespace Sample

/-- A request with directives. -/
def asking (directives : String) : Request :=
  request [(.cacheControl, value directives)]

/-- A response with directives. -/
def directed (directives : String) : Response :=
  response .ok [(.date, epoch), (.cacheControl, value directives)] (utf8 "o")

/-- A store that a response was fetched into. -/
def holding (resp : Response) : Memory :=
  (attempt (fun _ => .ok resp) 0 Memory.empty (request [])).store

end Sample

namespace Revalidated

open Sample

/-- A response that is fresh for a minute and must be revalidated after it. -/
def document : Response := directed "max-age=60, must-revalidate"

def entry : Entry := Entry.capture (request []) document 0

def store : Memory := holding document

theorem mustRevalidate : (Directives.ofHeaders entry.headers).has "must-revalidate" = true := by
  decide +kernel

theorem date_entry : entry.headers.date? .date = some 0 := by
  decide +kernel

end Revalidated

open Sample Revalidated in
theorem shorter_max_age_keeps_lifetime :
    (Directives.ofHeaders entry.headers).has "must-revalidate" = true ∧
    (asking "max-age=30").isCacheable = true ∧ found store (asking "max-age=30") = some entry ∧
    LeavesLifetime entry.headers (asking "max-age=30").headers ∧
    (∀ now, freshness entry.headers (asking "max-age=30").headers now = .fresh →
      WithinLifetime entry.headers now) ∧
    ∀ origin now, (attempt origin now store (asking "max-age=30")).asked = [] →
      WithinLifetime entry.headers now := by
  obtain ⟨hfresh, hunasked⟩ := must_revalidate_absolute_iff entry (asking "max-age=30")
    mustRevalidate
  have hc : (asking "max-age=30").isCacheable = true := by decide +kernel
  have hf : found store (asking "max-age=30") = some entry := by decide +kernel
  have hleaves : LeavesLifetime entry.headers (asking "max-age=30").headers := by
    refine .inr ⟨by decide +kernel, ?_⟩
    intro date n hdate hasked
    obtain rfl := Option.some.inj (date_entry.symm.trans hdate)
    have hn : (Directives.ofRequest (asking "max-age=30").headers).seconds? "max-age" =
        some 30 := by decide +kernel
    obtain rfl := Option.some.inj (hn.symm.trans hasked)
    decide +kernel
  exact ⟨mustRevalidate, hc, hf, hleaves, hfresh.mpr hleaves,
    (hunasked store hc hf).mpr hleaves⟩

open Sample Revalidated in
/-- After a hundred seconds the response is past its minute and is served without asking, to a
request with a longer `max-age` and to one that takes whatever is stored. -/
theorem client_directive_outlives_lifetime :
    (Directives.ofHeaders entry.headers).has "must-revalidate" = true ∧
    ¬WithinLifetime entry.headers 100000 ∧
    ∀ req ∈ [asking "max-age=1000", asking "only-if-cached"],
      found store req = some entry ∧ freshness entry.headers req.headers 100000 = .fresh ∧
        ∀ origin, (attempt origin 100000 store req).asked = [] := by
  refine ⟨mustRevalidate, ?_, ?_⟩
  · rintro ⟨date, hdate, hage⟩
    obtain rfl := Option.some.inj (date_entry.symm.trans hdate)
    exact absurd hage (by decide +kernel)
  · have hserved : ∀ req ∈ [asking "max-age=1000", asking "only-if-cached"],
        req.isCacheable = true ∧ found store req = some entry ∧
          freshness entry.headers req.headers 100000 = .fresh := by
      decide +kernel
    intro req hreq
    obtain ⟨hc, hf, hfresh⟩ := hserved req hreq
    exact ⟨hf, hfresh, fun _ => (not_asked_iff_fresh hc hf).mpr hfresh⟩

/-! ## Requests for a stored response or none -/

section OnlyIfCached

variable {σ : Type} [ByteStore σ] {now : Nat} {store : σ} {req : Request}

theorem fresh_iff_of_onlyIfCached {e : Entry} (ho : req.onlyIfCached = true) :
    freshness e.headers req.headers now = .fresh ↔ ¬ForbidsReplay e.headers req.headers := by
  rw [freshness_eq_fresh_iff]
  exact and_iff_left (.inl ho)

/-- **Requests for a stored response or none.** The origin is not asked exactly if a replay of the
entry that the request finds is not forbidden. The answer is then that entry, or an empty `504`
where there is none, unless there is no room to read what is stored: then nothing is answered. -/
theorem only_if_cached_unasked_iff (origin : Origin) (now : Nat) (store : σ) (req : Request)
    (hc : req.isCacheable = true) (ho : req.onlyIfCached = true) :
    ((attempt origin now store req).asked = [] ↔
      ∀ e, found store req = some e → ¬ForbidsReplay e.headers req.headers) ∧
    ((attempt origin now store req).asked = [] → attempt origin now store req =
      if breaksOff store (cacheKey req) then .brokenOff [] (load store (cacheKey req)).2
      else
        .done
          { answer := .ok (match found store req with
              | some e => e.toResponse
              | none => Response.bare .gatewayTimeout)
            asked := [], store := (load store (cacheKey req)).2 }) := by
  cases hf : found store req with
  | none =>
    cases hb : breaksOff store (cacheKey req) with
    | true =>
      rw [attempt_of_breaksOff hc hb]
      exact ⟨iff_of_true rfl nofun, fun _ => rfl⟩
    | false =>
      rw [attempt_of_refused hc hb hf ho]
      exact ⟨iff_of_true rfl nofun, fun _ => rfl⟩
  | some e =>
    rw [not_asked_iff_fresh hc hf, breaksOff_of_found hf]
    constructor
    · rw [fresh_iff_of_onlyIfCached ho]
      constructor
      · rintro hfree e' ⟨⟩
        exact hfree
      · intro hfree
        exact hfree e rfl
    · intro hfresh
      exact attempt_of_fresh hc hf hfresh origin

end OnlyIfCached

open Sample in
theorem stale_entry_served_unasked :
    let req := asking "only-if-cached, max-age=0"
    let store := holding (directed "max-age=0")
    let origin : Origin := fun _ => .error (.body "down")
    req.isCacheable = true ∧ req.onlyIfCached = true ∧ (found store req).isSome = true ∧
    ((attempt origin 100000 store req).asked = [] ↔
      ∀ e, found store req = some e → ¬ForbidsReplay e.headers req.headers) ∧
    (attempt origin 100000 store req).answer? =
      some (.ok (Entry.capture (request []) (directed "max-age=0") 0).toResponse) := by
  intro req store origin
  have hc : req.isCacheable = true := by decide +kernel
  have ho : req.onlyIfCached = true := by decide +kernel
  have hf : found store req = some (Entry.capture (request []) (directed "max-age=0") 0) := by
    decide +kernel
  obtain ⟨hiff, hanswer⟩ := only_if_cached_unasked_iff origin 100000 store req hc ho
  have hfree : ∀ e, found store req = some e → ¬ForbidsReplay e.headers req.headers := by
    rw [hf]
    rintro e ⟨⟩
    decide +kernel
  refine ⟨hc, ho, by rw [hf]; rfl, hiff, ?_⟩
  rw [hanswer (hiff.mpr hfree), breaksOff_of_found hf, hf]
  rfl

open Sample in
/-- With `no-cache` in the request or in the stored response, the origin is asked by a request
that wants nothing but a stored response, and has one. -/
theorem no_cache_asks_despite_only_if_cached :
    let bypassing := asking "no-cache, only-if-cached"
    let plain := asking "only-if-cached"
    let fresh := holding (directed "max-age=60")
    let checked := holding (directed "no-cache, max-age=60")
    let origin : Origin := fun _ => .error (.body "down")
    (bypassing.isCacheable = true ∧ bypassing.onlyIfCached = true ∧
      (found fresh bypassing).isSome = true ∧
      (attempt origin 0 fresh bypassing).asked = [bypassing]) ∧
    (plain.isCacheable = true ∧ plain.onlyIfCached = true ∧
      (found checked plain).isSome = true ∧
      (attempt origin 0 checked plain).asked = [plain]) := by
  decide +kernel

end PeerCache

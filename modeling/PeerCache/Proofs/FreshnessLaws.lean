import PeerCache.Cache.Freshness
import PeerCache.Proofs.HeaderLaws

/-!
# Laws of freshness

When a stored response is fresh for a request. Either side can forbid a replay with `no-cache`;
otherwise the response is fresh if the request wants nothing but a stored response, or if the
lifetime that counts for the request exceeds the age that counts for it. What is left without
directives of the request is the age of the response against its own lifetime.
-/

namespace PeerCache

/-! ## Directives -/

/-- A request without the two fields that carry them has no directives. -/
theorem Directives.ofRequest_of_bare {h : Headers}
    (hc : h.contains HeaderName.cacheControl = false)
    (hp : h.contains HeaderName.pragma = false) :
    Directives.ofRequest h = { entries := [] } := by
  have hnone : Directives.pragmaNoCache h = false := by
    rw [Headers.contains_eq_false_iff] at hp
    simp [Directives.pragmaNoCache, Headers.elements, hp]
  rw [Directives.ofRequest]
  rw [hc, hnone]
  rfl

/-- A replay is forbidden by `no-cache` of the request or of the response. -/
def ForbidsReplay (response request : Headers) : Prop :=
  (Directives.ofRequest request).has "no-cache" = true ∨
    (Directives.ofHeaders response).has "no-cache" = true

instance (response request : Headers) : Decidable (ForbidsReplay response request) :=
  inferInstanceAs (Decidable (_ ∨ _))

/-! ## Lifetime and age -/

/-- The lifetime of a response in the eyes of a request, whose `max-age` replaces it. -/
def grantedLifetime (response : Headers) (asked : Directives) (date : Nat) : Nat :=
  match asked.seconds? "max-age" with
  | some seconds => seconds * 1000
  | none => ownLifetime response date

/-- The age of a response in the eyes of a request, which adds its `min-fresh`. -/
def countedAge (response : Headers) (asked : Directives) (date now : Nat) : Nat :=
  currentAge response date now + (asked.seconds? "min-fresh").getD 0 * 1000

/-- A response has a date and is younger than the lifetime that it gives itself. -/
def WithinLifetime (response : Headers) (now : Nat) : Prop :=
  ∃ date, response.date? HeaderName.date = some date ∧
    currentAge response date now < ownLifetime response date

/-- Lifetime and age that a tolerance lets pass. -/
def Tolerance.Admits : Tolerance → Nat → Nat → Prop
  | .unbounded, _, _ => True
  | .seconds n, lifetime, age => age - n * 1000 < lifetime
  | .none, lifetime, age => age < lifetime

theorem Tolerance.judge_eq_fresh_iff {t : Tolerance} {lifetime age : Nat} :
    t.judge lifetime age = .fresh ↔ t.Admits lifetime age := by
  cases t <;> simp [judge, Admits]

theorem tolerance_of_mustRevalidate {own : Directives} (h : own.has "must-revalidate" = true)
    (asked : Directives) : tolerance own asked = .none :=
  if_pos h

theorem tolerance_of_bare (own : Directives) : tolerance own { entries := [] } = .none := by
  rw [tolerance]
  split <;> rfl

/-! ## Verdicts -/

variable {response request : Headers} {now : Nat}

/-- What a response is for a request that leaves the decision to lifetime and age. -/
theorem freshness_of_date (hforbid : ¬ForbidsReplay response request)
    (hcached : (Directives.ofRequest request).has "only-if-cached" = false) {date : Nat}
    (hdate : response.date? HeaderName.date = some date) :
    freshness response request now =
      (tolerance (Directives.ofHeaders response) (Directives.ofRequest request)).judge
        (grantedLifetime response (Directives.ofRequest request) date)
        (countedAge response (Directives.ofRequest request) date now) := by
  obtain ⟨hasked, hown⟩ := not_or.mp hforbid
  rw [freshness]
  dsimp only
  rw [if_neg hasked, if_neg hown, hcached, if_neg Bool.false_ne_true, hdate]
  rfl

/-- A response is fresh if no side forbids the replay and the request takes whatever is stored, or
the tolerance admits its lifetime and its age. -/
theorem freshness_eq_fresh_iff : freshness response request now = .fresh ↔
    ¬ForbidsReplay response request ∧
      ((Directives.ofRequest request).has "only-if-cached" = true ∨
        ∃ date, response.date? HeaderName.date = some date ∧
          (tolerance (Directives.ofHeaders response) (Directives.ofRequest request)).Admits
            (grantedLifetime response (Directives.ofRequest request) date)
            (countedAge response (Directives.ofRequest request) date now)) := by
  by_cases hforbid : ForbidsReplay response request
  · refine iff_of_false ?_ fun h => h.1 hforbid
    rw [freshness]
    rcases hforbid with hasked | hown
    · simp [hasked]
    · simp only [hown, if_true]
      split <;> simp
  · obtain ⟨hasked, hown⟩ := not_or.mp hforbid
    cases hcached : (Directives.ofRequest request).has "only-if-cached" with
    | true => simp [freshness, hasked, hown, hcached, hforbid]
    | false =>
      cases hdate : response.date? HeaderName.date with
      | none => simp [freshness, hasked, hown, hcached, hdate]
      | some date =>
        rw [freshness_of_date hforbid hcached hdate, Tolerance.judge_eq_fresh_iff]
        simp [hforbid]

/-- Without directives of the request, the response's own lifetime decides. -/
theorem WithinLifetime.of_bare (hc : request.contains HeaderName.cacheControl = false)
    (hp : request.contains HeaderName.pragma = false)
    (h : freshness response request now = .fresh) : WithinLifetime response now := by
  obtain ⟨-, hfresh⟩ := freshness_eq_fresh_iff.mp h
  rw [Directives.ofRequest_of_bare hc hp, tolerance_of_bare] at hfresh
  obtain hcached | ⟨date, hdate, hage⟩ := hfresh
  · cases hcached
  · exact ⟨date, hdate, hage⟩

end PeerCache

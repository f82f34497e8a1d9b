import PeerCache.Proofs.RequestDirectives

/-!
# Arithmetic of freshness

Freshness as an inequality. Lifetime and tolerance stand on one side, the age and the rest of the
lifetime that a request wants on the other, as numbers without bounds. What is computed takes the
tolerance off the age, which stops at zero. So it agrees with the inequality, but for a response
without any lifetime: no number of seconds makes it fresh, even if it is younger than that.
-/

namespace PeerCache

variable {own asked : Directives} {response request : Headers} {date lifetime age : Nat}

/-- Milliseconds past its lifetime for which a request takes a response. -/
def grantedStretch (own asked : Directives) : Nat :=
  if own.has "must-revalidate" then 0 else (asked.seconds? "max-stale").getD 0 * 1000

/-- A request takes a response of any age, unless it must be revalidated. -/
def TakesAnyAge (own asked : Directives) : Prop :=
  own.has "must-revalidate" = false ∧ asked.value? "max-stale" = some ""

instance (own asked : Directives) : Decidable (TakesAnyAge own asked) :=
  inferInstanceAs (Decidable (_ ∧ _))

theorem grantedStretch_of_lenient (h : own.has "must-revalidate" = false) :
    grantedStretch own asked = (asked.seconds? "max-stale").getD 0 * 1000 := by
  rw [grantedStretch, h, if_neg Bool.false_ne_true]

/-- A tolerance is taken off the age. -/
theorem tolerance_admits_iff : (tolerance own asked).Admits lifetime age ↔
    TakesAnyAge own asked ∨ age - grantedStretch own asked < lifetime := by
  cases hm : own.has "must-revalidate" with
  | true =>
    rw [tolerance_of_mustRevalidate hm, grantedStretch, if_pos hm]
    simp [TakesAnyAge, hm, Tolerance.Admits]
  | false =>
    rw [grantedStretch_of_lenient hm, tolerance, hm, if_neg Bool.false_ne_true,
      Directives.seconds?]
    cases hv : asked.value? "max-stale" with
    | none => simp [TakesAnyAge, hv, Tolerance.Admits]
    | some argument =>
      by_cases hbare : argument = ""
      · subst hbare
        simp [TakesAnyAge, hm, hv, Tolerance.Admits]
      · cases hn : deltaSeconds argument.toList <;>
          simp [TakesAnyAge, hv, hbare, hn, Tolerance.Admits]

theorem Tolerance.judge_of_ne_fresh {t : Tolerance} (h : t.judge lifetime age ≠ .fresh) :
    t.judge lifetime age = .stale := by
  cases t with
  | unbounded => exact absurd rfl h
  | seconds n =>
    rw [judge] at h ⊢
    exact if_neg fun hlt => h (if_pos hlt)
  | none =>
    rw [judge] at h ⊢
    exact if_neg fun hlt => h (if_pos hlt)

/-- When a response is fresh, by its date and by what the request asks. -/
theorem fresh_iff_stretched {now : Nat} : freshness response request now = .fresh ↔
    ¬ForbidsReplay response request ∧
      ((Directives.ofRequest request).has "only-if-cached" = true ∨
        ∃ date, response.date? HeaderName.date = some date ∧
          (TakesAnyAge (Directives.ofHeaders response) (Directives.ofRequest request) ∨
            countedAge response (Directives.ofRequest request) date now -
                grantedStretch (Directives.ofHeaders response) (Directives.ofRequest request) <
              grantedLifetime response (Directives.ofRequest request) date)) := by
  rw [freshness_eq_fresh_iff]
  simp only [tolerance_admits_iff]

/-- **Freshness as an inequality.** A response with a date, for a request that leaves the decision
to lifetime and age, is fresh if the request takes any age, or if it has a lifetime and this with
the tolerance exceeds the age with the rest that is wanted; otherwise it is stale. The inequality
alone gives the verdict exactly if the response has a lifetime, or the tolerance does not exceed
the other side, or the request takes any age. -/
theorem fresh_iff_inequality (hdate : response.date? HeaderName.date = some date)
    (hforbid : ¬ForbidsReplay response request)
    (hcached : (Directives.ofRequest request).has "only-if-cached" = false) (now : Nat) :
    let own := Directives.ofHeaders response
    let asked := Directives.ofRequest request
    let lifetime := grantedLifetime response asked date
    let stretch := grantedStretch own asked
    let age := countedAge response asked date now
    (freshness response request now = .fresh ↔
      TakesAnyAge own asked ∨ (0 < lifetime ∧ age < lifetime + stretch)) ∧
    (freshness response request now ≠ .fresh → freshness response request now = .stale) ∧
    ((freshness response request now = .fresh ↔
        TakesAnyAge own asked ∨ age < lifetime + stretch) ↔
      TakesAnyAge own asked ∨ 0 < lifetime ∨ stretch ≤ age) := by
  intro own asked lifetime stretch age
  have hfresh : freshness response request now = .fresh ↔
      TakesAnyAge own asked ∨ (0 < lifetime ∧ age < lifetime + stretch) := by
    rw [freshness_of_date hforbid hcached hdate, Tolerance.judge_eq_fresh_iff,
      tolerance_admits_iff]
    have hsub : age - stretch < lifetime ↔ 0 < lifetime ∧ age < lifetime + stretch := by
      omega
    exact or_congr_right hsub
  refine ⟨hfresh, fun hne => ?_, ?_⟩
  · rw [freshness_of_date hforbid hcached hdate] at hne ⊢
    exact Tolerance.judge_of_ne_fresh hne
  · rw [hfresh]
    by_cases hany : TakesAnyAge own asked
    · simp [hany]
    · simp only [hany, false_or]
      omega

open Sample in
/-- A minute and the hundred seconds of the request exceed a hundred seconds of age and the ten
seconds that the request wants to be left. -/
theorem stretched_lifetime_is_fresh :
    let entry := Entry.capture (Sample.request []) (directed "max-age=60") 0
    let request := (asking "max-stale=100, min-fresh=10").headers
    entry.headers.date? HeaderName.date = some 0 ∧
    ¬ForbidsReplay entry.headers request ∧
    (Directives.ofRequest request).has "only-if-cached" = false ∧
    freshness entry.headers request 100000 = .fresh := by
  intro entry request
  have hdate : entry.headers.date? HeaderName.date = some 0 := by decide +kernel
  have hforbid : ¬ForbidsReplay entry.headers request := by decide +kernel
  have hcached : (Directives.ofRequest request).has "only-if-cached" = false := by decide +kernel
  refine ⟨hdate, hforbid, hcached, ?_⟩
  obtain ⟨hfresh, -, -⟩ := fresh_iff_inequality hdate hforbid hcached 100000
  exact hfresh.mpr (.inr (by decide +kernel))

open Sample in
/-- A response of five seconds without a lifetime is stale for a request that takes it a hundred
seconds past its lifetime, and fresh for one that takes any age. -/
theorem no_lifetime_is_not_stretched :
    let entry := Entry.capture (Sample.request []) (directed "max-age=0") 0
    let own := Directives.ofHeaders entry.headers
    let asked := Directives.ofRequest (asking "max-stale=100").headers
    entry.headers.date? HeaderName.date = some 0 ∧
    ¬ForbidsReplay entry.headers (asking "max-stale=100").headers ∧
    asked.has "only-if-cached" = false ∧
    countedAge entry.headers asked 0 5000 <
      grantedLifetime entry.headers asked 0 + grantedStretch own asked ∧
    freshness entry.headers (asking "max-stale=100").headers 5000 = .stale ∧
    freshness entry.headers (asking "max-stale").headers 5000 = .fresh := by
  decide +kernel

end PeerCache

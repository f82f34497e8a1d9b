import PeerCache.Proofs.FreshnessArithmetic

/-!
# Added directives

What one more directive in a request does to the verdict of freshness. With `min-fresh` a request
asks for more and never makes a response fresh; with `max-stale` it asks for less and never makes
one stale. A `max-age` takes the place of the response's own lifetime, also where it is longer, so
it makes a response fresh exactly while the age that counts is between the two.
-/

namespace PeerCache

variable {response plain request : Headers} {own : Directives} {name other argument : String}
  {date now : Nat}

/-! ## Requests with one more directive -/

/-- Without `Pragma`, a request has the directives that its `Cache-Control` lists. -/
theorem Directives.ofRequest_of_no_pragma {h : Headers}
    (hp : h.contains HeaderName.pragma = false) :
    Directives.ofRequest h = Directives.ofHeaders h := by
  cases hc : h.contains HeaderName.cacheControl with
  | true => rw [ofRequest, if_pos hc]
  | false =>
    have hnone : h.elements HeaderName.cacheControl = [] := by
      rw [Headers.contains_eq_false_iff] at hc
      simp [Headers.elements, hc]
    rw [ofRequest_of_bare hc hp, ofHeaders, hnone]
    rfl

/-- One request asks as another one does, and for one thing more. The new directive is listed
anywhere among the others, however they are spread over lines. -/
structure Adds (name argument : String) (plain request : Headers) : Prop where
  lacks : (Directives.ofRequest plain).has name = false
  inserted : ∃ front back, (Directives.ofHeaders plain).entries = front ++ back ∧
    (Directives.ofHeaders request).entries = front ++ (name, argument) :: back
  pragma_plain : plain.contains HeaderName.pragma = false
  pragma_request : request.contains HeaderName.pragma = false

namespace Adds

theorem value? (h : Adds name argument plain request) (other : String) :
    (Directives.ofRequest request).value? other =
      if other = name then some argument else (Directives.ofRequest plain).value? other := by
  obtain ⟨front, back, hplain, hrequest⟩ := h.inserted
  have hlacks := h.lacks
  rw [Directives.ofRequest_of_no_pragma h.pragma_plain] at hlacks ⊢
  rw [Directives.ofRequest_of_no_pragma h.pragma_request]
  simp only [Directives.has, Directives.value?, hplain, hrequest, List.lookup_append,
    List.lookup_cons] at hlacks ⊢
  by_cases hother : other = name
  · subst hother
    rw [Option.isSome_eq_false_iff, Option.isNone_iff_eq_none, Option.or_eq_none_iff] at hlacks
    rw [hlacks.1, if_pos rfl, beq_self_eq_true]
    rfl
  · rw [if_neg hother, beq_false_of_ne hother]

/-- The other directives stay as they are. -/
theorem value?_of_ne (h : Adds name argument plain request) (hne : other ≠ name) :
    (Directives.ofRequest request).value? other = (Directives.ofRequest plain).value? other := by
  rw [h.value?, if_neg hne]

theorem has_of_ne (h : Adds name argument plain request) (hne : other ≠ name) :
    (Directives.ofRequest request).has other = (Directives.ofRequest plain).has other := by
  rw [Directives.has, h.value?_of_ne hne]
  rfl

theorem seconds?_of_ne (h : Adds name argument plain request) (hne : other ≠ name) :
    (Directives.ofRequest request).seconds? other =
      (Directives.ofRequest plain).seconds? other := by
  rw [Directives.seconds?, h.value?_of_ne hne]
  rfl

theorem seconds?_added (h : Adds name argument plain request) :
    (Directives.ofRequest request).seconds? name = deltaSeconds argument.toList := by
  rw [Directives.seconds?, h.value?, if_pos rfl]
  rfl

theorem seconds?_plain (h : Adds name argument plain request) :
    (Directives.ofRequest plain).seconds? name = none := by
  have hnone : (Directives.ofRequest plain).value? name = none := by
    simpa [Directives.has] using h.lacks
  rw [Directives.seconds?, hnone]
  rfl

/-! What a verdict is made of depends on one directive each. -/

theorem forbidsReplay_iff (h : Adds name argument plain request) (hne : "no-cache" ≠ name) :
    ForbidsReplay response request ↔ ForbidsReplay response plain := by
  rw [ForbidsReplay, h.has_of_ne hne]
  rfl

theorem takesAnyAge_iff (h : Adds name argument plain request) (hne : "max-stale" ≠ name) :
    TakesAnyAge own (Directives.ofRequest request) ↔
      TakesAnyAge own (Directives.ofRequest plain) := by
  rw [TakesAnyAge, h.value?_of_ne hne]
  rfl

theorem grantedStretch_eq (h : Adds name argument plain request) (hne : "max-stale" ≠ name) :
    grantedStretch own (Directives.ofRequest request) =
      grantedStretch own (Directives.ofRequest plain) := by
  rw [grantedStretch, h.seconds?_of_ne hne]
  rfl

theorem grantedLifetime_eq (h : Adds name argument plain request) (hne : "max-age" ≠ name) :
    grantedLifetime response (Directives.ofRequest request) date =
      grantedLifetime response (Directives.ofRequest plain) date := by
  rw [grantedLifetime, h.seconds?_of_ne hne]
  rfl

theorem countedAge_eq (h : Adds name argument plain request) (hne : "min-fresh" ≠ name) :
    countedAge response (Directives.ofRequest request) date now =
      countedAge response (Directives.ofRequest plain) date now := by
  rw [countedAge, h.seconds?_of_ne hne]
  rfl

end Adds

/-! ## What each directive does -/

/-- With `min-fresh` the age that counts is greater, and nothing else changes. -/
theorem fresh_of_minFresh (h : Adds "min-fresh" argument plain request)
    (hfresh : freshness response request now = .fresh) :
    freshness response plain now = .fresh := by
  obtain ⟨hforbid, hrest⟩ := fresh_iff_stretched.mp hfresh
  rw [h.forbidsReplay_iff (by decide)] at hforbid
  rw [h.has_of_ne (by decide)] at hrest
  refine fresh_iff_stretched.mpr ⟨hforbid, hrest.imp_right ?_⟩
  rintro ⟨date, hdate, hage⟩
  refine ⟨date, hdate, hage.imp (h.takesAnyAge_iff (by decide)).mp fun hlt => ?_⟩
  rw [h.grantedStretch_eq (by decide), h.grantedLifetime_eq (by decide)] at hlt
  have hgrows : countedAge response (Directives.ofRequest plain) date now ≤
      countedAge response (Directives.ofRequest request) date now := by
    rw [countedAge, countedAge, h.seconds?_plain]
    exact Nat.le_add_right ..
  omega

/-- With `max-stale` the request gets a tolerance that it did not have. -/
theorem fresh_of_maxStale (h : Adds "max-stale" argument plain request)
    (hfresh : freshness response plain now = .fresh) :
    freshness response request now = .fresh := by
  obtain ⟨hforbid, hrest⟩ := fresh_iff_stretched.mp hfresh
  rw [← h.forbidsReplay_iff (by decide)] at hforbid
  rw [← h.has_of_ne (by decide)] at hrest
  refine fresh_iff_stretched.mpr ⟨hforbid, hrest.imp_right ?_⟩
  rintro ⟨date, hdate, hage⟩
  refine ⟨date, hdate, .inr ?_⟩
  rw [h.countedAge_eq (by decide), h.grantedLifetime_eq (by decide)]
  obtain ⟨-, hany⟩ | hlt := hage
  · have hlacks := h.lacks
    rw [Directives.has, hany] at hlacks
    cases hlacks
  · have hnone : grantedStretch (Directives.ofHeaders response) (Directives.ofRequest plain) = 0 := by
      rw [grantedStretch, h.seconds?_plain]
      exact ite_self 0
    omega

/-- For a request the age that counts, less the tolerance, has reached the response's own lifetime
and not yet another one. -/
def BetweenLifetimes (response : Headers) (asked : Directives) (lifetime now : Nat) : Prop :=
  ∃ date, response.date? HeaderName.date = some date ∧
    ownLifetime response date ≤
      countedAge response asked date now - grantedStretch (Directives.ofHeaders response) asked ∧
    countedAge response asked date now - grantedStretch (Directives.ofHeaders response) asked <
      lifetime

/-- With `max-age` another lifetime counts, which may be the longer one. -/
theorem fresh_by_maxAge_iff {n : Nat} (h : Adds "max-age" argument plain request)
    (hn : deltaSeconds argument.toList = some n) :
    (freshness response request now = .fresh ∧ freshness response plain now ≠ .fresh) ↔
      ¬ForbidsReplay response plain ∧
        (Directives.ofRequest plain).has "only-if-cached" = false ∧
        ¬TakesAnyAge (Directives.ofHeaders response) (Directives.ofRequest plain) ∧
        BetweenLifetimes response (Directives.ofRequest plain) (n * 1000) now := by
  have hlifetime (date : Nat) :
      grantedLifetime response (Directives.ofRequest request) date = n * 1000 := by
    rw [grantedLifetime, h.seconds?_added, hn]
  have hown (date : Nat) : grantedLifetime response (Directives.ofRequest plain) date =
      ownLifetime response date := by
    rw [grantedLifetime, h.seconds?_plain]
  have hrequest : freshness response request now = .fresh ↔
      ¬ForbidsReplay response plain ∧
        ((Directives.ofRequest plain).has "only-if-cached" = true ∨
          ∃ date, response.date? HeaderName.date = some date ∧
            (TakesAnyAge (Directives.ofHeaders response) (Directives.ofRequest plain) ∨
              countedAge response (Directives.ofRequest plain) date now -
                  grantedStretch (Directives.ofHeaders response) (Directives.ofRequest plain) <
                n * 1000)) := by
    rw [fresh_iff_stretched, h.forbidsReplay_iff (by decide), h.has_of_ne (by decide)]
    simp only [h.takesAnyAge_iff (show "max-stale" ≠ "max-age" by decide), hlifetime,
      h.countedAge_eq (show "min-fresh" ≠ "max-age" by decide),
      h.grantedStretch_eq (show "max-stale" ≠ "max-age" by decide)]
  rw [ne_eq, hrequest, fresh_iff_stretched]
  simp only [hown]
  constructor
  · rintro ⟨⟨hforbid, hrest⟩, hstale⟩
    obtain ⟨hcached, hpast⟩ := not_or.mp fun hplain => hstale ⟨hforbid, hplain⟩
    obtain ⟨date, hdate, hage⟩ := hrest.resolve_left hcached
    obtain ⟨hany, hpast⟩ := not_or.mp fun hplain => hpast ⟨date, hdate, hplain⟩
    exact ⟨hforbid, Bool.eq_false_iff.mpr hcached, hany, date, hdate, Nat.le_of_not_lt hpast,
      hage.resolve_left hany⟩
  · rintro ⟨hforbid, hcached, hany, date, hdate, hpast, hwithin⟩
    refine ⟨⟨hforbid, .inr ⟨date, hdate, .inr hwithin⟩⟩, ?_⟩
    rintro ⟨-, hwants | ⟨date', hdate', hage⟩⟩
    · exact absurd (hcached.symm.trans hwants) Bool.false_ne_true
    · obtain rfl := Option.some.inj (hdate.symm.trans hdate')
      exact hage.elim hany (Nat.not_lt_of_le hpast)

/-- **Directives that narrow or widen.** For any response, at any time: a `min-fresh` that is added
to a request makes no response fresh, and a `max-stale` with any argument or none leaves a fresh
one fresh. A valid `max-age` makes a response fresh that was not exactly if lifetime and age decide
for the request, which does not take any age, and the age that counts, less the tolerance, is
between the response's own lifetime and the added one. -/
theorem added_directives_narrow_or_widen (response plain request : Headers) (argument : String)
    (now : Nat) :
    (Adds "min-fresh" argument plain request → freshness response request now = .fresh →
      freshness response plain now = .fresh) ∧
    (Adds "max-stale" argument plain request → freshness response plain now = .fresh →
      freshness response request now = .fresh) ∧
    ∀ n, Adds "max-age" argument plain request → deltaSeconds argument.toList = some n →
      ((freshness response request now = .fresh ∧ freshness response plain now ≠ .fresh) ↔
        ¬ForbidsReplay response plain ∧
          (Directives.ofRequest plain).has "only-if-cached" = false ∧
          ¬TakesAnyAge (Directives.ofHeaders response) (Directives.ofRequest plain) ∧
          BetweenLifetimes response (Directives.ofRequest plain) (n * 1000) now) :=
  ⟨fresh_of_minFresh, fresh_of_maxStale, fun _ hadds hn => fresh_by_maxAge_iff hadds hn⟩

open Sample in
/-- At fifty seconds of a minute: with a tolerance the response stays fresh, and it would be fresh
without the ten seconds that another request wants to be left. An added `max-age` of forty seconds
revives nothing. -/
theorem added_directives_at_fifty_seconds :
    let headers := (Entry.capture (Sample.request []) (directed "max-age=60") 0).headers
    let plain := (asking "max-stale=5").headers
    let wanting := (asking "max-stale=5, Min-Fresh=10").headers
    let sooner := (asking "max-age=40,max-stale=5").headers
    let bare := (Sample.request []).headers
    (Adds "min-fresh" "10" plain wanting ∧ freshness headers wanting 50000 = .fresh ∧
      freshness headers plain 50000 = .fresh) ∧
    (Adds "max-stale" "5" bare plain ∧ freshness headers bare 50000 = .fresh ∧
      freshness headers plain 50000 = .fresh) ∧
    (Adds "max-age" "40" plain sooner ∧ deltaSeconds "40".toList = some 40 ∧
      ¬(freshness headers sooner 50000 = .fresh ∧ freshness headers plain 50000 ≠ .fresh)) := by
  intro headers plain wanting sooner bare
  have hwanting : Adds "min-fresh" "10" plain wanting :=
    { lacks := by decide +kernel
      inserted := ⟨[("max-stale", "5")], [], by decide +kernel⟩
      pragma_plain := by decide +kernel
      pragma_request := by decide +kernel }
  have hplain : Adds "max-stale" "5" bare plain :=
    { lacks := by decide +kernel
      inserted := ⟨[], [], by decide +kernel⟩
      pragma_plain := by decide +kernel
      pragma_request := by decide +kernel }
  have hsooner : Adds "max-age" "40" plain sooner :=
    { lacks := by decide +kernel
      inserted := ⟨[], [("max-stale", "5")], by decide +kernel⟩
      pragma_plain := by decide +kernel
      pragma_request := by decide +kernel }
  have hwantingFresh : freshness headers wanting 50000 = .fresh := by decide +kernel
  have hbareFresh : freshness headers bare 50000 = .fresh := by decide +kernel
  have hn : deltaSeconds "40".toList = some 40 := by decide +kernel
  obtain ⟨hnarrows, -, -⟩ := added_directives_narrow_or_widen headers plain wanting "10" 50000
  obtain ⟨-, hwidens, -⟩ := added_directives_narrow_or_widen headers bare plain "5" 50000
  obtain ⟨-, -, hreplaces⟩ := added_directives_narrow_or_widen headers plain sooner "40" 50000
  have hplainFresh : freshness headers plain 50000 = .fresh := hnarrows hwanting hwantingFresh
  refine ⟨⟨hwanting, hwantingFresh, hplainFresh⟩, ⟨hplain, hbareFresh, hwidens hplain hbareFresh⟩,
    hsooner, hn, ?_⟩
  rw [hreplaces 40 hsooner hn]
  rintro ⟨-, -, -, date, hdate, hpast, -⟩
  have hepoch : headers.date? HeaderName.date = some 0 := by decide +kernel
  obtain rfl := Option.some.inj (hepoch.symm.trans hdate)
  exact absurd hpast (by decide +kernel)

open Sample Revalidated in
/-- A hundred seconds after its date, a response that is fresh for a minute and must be revalidated
after it is stale. A request with `max-age=1000` and nothing else finds it fresh. -/
theorem longer_max_age_revives :
    let plain := (Sample.request []).headers
    let asked := (asking "max-age=1000").headers
    Adds "max-age" "1000" plain asked ∧ deltaSeconds "1000".toList = some 1000 ∧
      (Directives.ofHeaders entry.headers).has "must-revalidate" = true ∧
      freshness entry.headers plain 100000 = .stale ∧
      freshness entry.headers asked 100000 = .fresh := by
  intro plain asked
  have hasked : Adds "max-age" "1000" plain asked :=
    { lacks := by decide +kernel
      inserted := ⟨[], [], by decide +kernel⟩
      pragma_plain := by decide +kernel
      pragma_request := by decide +kernel }
  exact ⟨hasked, by decide +kernel⟩

end PeerCache

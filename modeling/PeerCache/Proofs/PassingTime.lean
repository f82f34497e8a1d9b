import PeerCache.Proofs.DateRoundTrip
import PeerCache.Proofs.EntryCodec
import PeerCache.Proofs.EntryLaws
import PeerCache.Proofs.FreshnessArithmetic
import PeerCache.Proofs.SecondsLaws

/-!
# Freshness as time passes

What time does to a verdict. Only the age of a response depends on the time, and it never falls.
So a response that is no longer fresh for a request stays so, and one that may no longer stand in
for a failing origin may not do it later, also if it was first looked at before its own date. A
response without a date gets the time of its capture as one, down to the second, and its lifetime
is counted from there, also when the entry was stored and read.
-/

namespace PeerCache

/-! ## Ages and times -/

section Monotone

variable {response request : Headers} {date earlier later : Nat}

theorem elapsed_mono (h : earlier ≤ later) : elapsed date earlier ≤ elapsed date later :=
  Nat.sub_le_sub_right h (date * 1000)

theorem countedAge_mono (asked : Directives) (h : earlier ≤ later) :
    countedAge response asked date earlier ≤ countedAge response asked date later :=
  Nat.add_le_add_right (Nat.add_le_add_right (elapsed_mono h) _) _

/-- A tolerance that lets an age pass lets every lower age pass. -/
theorem Tolerance.Admits.of_le {t : Tolerance} {lifetime age younger : Nat}
    (h : t.Admits lifetime age) (hle : younger ≤ age) : t.Admits lifetime younger := by
  cases t with
  | unbounded => trivial
  | seconds n => exact Nat.lt_of_le_of_lt (Nat.sub_le_sub_right hle (n * 1000)) h
  | none => exact Nat.lt_of_le_of_lt hle h

theorem fresh_of_fresh_later (h : earlier ≤ later)
    (hfresh : freshness response request later = .fresh) :
    freshness response request earlier = .fresh := by
  rw [freshness_eq_fresh_iff] at hfresh ⊢
  obtain ⟨hforbid, hcached | ⟨date, hdate, hage⟩⟩ := hfresh
  · exact ⟨hforbid, .inl hcached⟩
  · exact ⟨hforbid, .inr ⟨date, hdate, hage.of_le (countedAge_mono _ h)⟩⟩

theorem Tolerance.judge_ne_transparent {t : Tolerance} {lifetime age : Nat} :
    t.judge lifetime age ≠ .transparent := by
  intro h
  have hne : t.judge lifetime age ≠ .fresh := by
    rw [h]
    nofun
  exact absurd (h.symm.trans (judge_of_ne_fresh hne)) nofun

/-- The cache is bypassed by requests with `no-cache`, whatever the response and the time are. -/
theorem freshness_eq_transparent_iff {now : Nat} : freshness response request now = .transparent ↔
    (Directives.ofRequest request).has "no-cache" = true := by
  refine ⟨fun h => ?_, fun hasked => if_pos hasked⟩
  by_contra hasked
  rw [freshness] at h
  dsimp only at h
  rw [if_neg hasked] at h
  -- What is left are verdicts of fresh and stale, and that of a tolerance.
  split at h
  · cases h
  · split at h
    · cases h
    · split at h
      · cases h
      · exact Tolerance.judge_ne_transparent h

/-! ## Standing in for the origin -/

/-- How long after its date a grace lets a response stand in. -/
def ErrorGrace.Covers (response : Headers) (now : Nat) : ErrorGrace → Prop
  | .unbounded => True
  | .seconds n => ∃ date, response.date? HeaderName.date = some date ∧ elapsed date now < n * 1000

theorem canServeOnError_iff {now : Nat} : canServeOnError response request now = true ↔
    ∃ grace : ErrorGrace, (Directives.ofRequest request).errorGrace?.or
        (Directives.ofHeaders response).errorGrace? = some grace ∧ grace.Covers response now := by
  rw [canServeOnError]
  cases (Directives.ofRequest request).errorGrace?.or (Directives.ofHeaders response).errorGrace? with
  | none => simp
  | some grace =>
    cases grace with
    | unbounded => simp [ErrorGrace.Covers]
    | seconds n => cases hdate : response.date? HeaderName.date <;> simp [ErrorGrace.Covers, hdate]

theorem ErrorGrace.Covers.of_le {grace : ErrorGrace} (hcovers : grace.Covers response later)
    (h : earlier ≤ later) : grace.Covers response earlier := by
  cases grace with
  | unbounded => trivial
  | seconds n =>
    obtain ⟨date, hdate, hlt⟩ := hcovers
    exact ⟨date, hdate, Nat.lt_of_le_of_lt (elapsed_mono h) hlt⟩

/-- **Staleness is irreversible.** What is fresh at a time, or may stand in for a failing origin,
was so at every earlier time, before its date too; and a request bypasses the cache at all times
or at none. -/
theorem staleness_irreversible (response request : Headers) (h : earlier ≤ later) :
    (freshness response request later = .fresh → freshness response request earlier = .fresh) ∧
    (freshness response request earlier = .transparent ↔
      freshness response request later = .transparent) ∧
    (canServeOnError response request later = true →
      canServeOnError response request earlier = true) := by
  refine ⟨fresh_of_fresh_later h, ?_, fun hserves => ?_⟩
  · rw [freshness_eq_transparent_iff, freshness_eq_transparent_iff]
  · obtain ⟨grace, hgrace, hcovers⟩ := canServeOnError_iff.mp hserves
    exact canServeOnError_iff.mpr ⟨grace, hgrace, hcovers.of_le h⟩

end Monotone

namespace Overdue

open Sample

/-- A response of a hundred seconds after the start of 1970, fresh for a minute and good for two
if the origin fails. -/
def document : Response :=
  response .ok [(.date, value "Thu, 01 Jan 1970 00:01:40 GMT"),
    (.cacheControl, value "max-age=60, stale-if-error=120")] (utf8 "o")

end Overdue

open Sample Overdue in
/-- What is fresh and may stand in a millisecond before it has only ten seconds left was fresh and
could stand in before its own date. -/
theorem fresh_before_its_date :
    let asked := (asking "min-fresh=10").headers
    50000 ≤ 149999 ∧ freshness document.headers asked 149999 = .fresh ∧
      freshness document.headers asked 50000 = .fresh ∧
      canServeOnError document.headers asked 149999 = true ∧
      canServeOnError document.headers asked 50000 = true := by
  intro asked
  have hle : 50000 ≤ 149999 := by decide
  obtain ⟨hfresh, -, hserves⟩ := staleness_irreversible document.headers asked hle
  have hlate : freshness document.headers asked 149999 = .fresh := by decide +kernel
  have hlateServes : canServeOnError document.headers asked 149999 = true := by decide +kernel
  exact ⟨hle, hlate, hfresh hlate, hlateServes, hserves hlateServes⟩

/-! ## Dates from the capture -/

/-- A header map has a second as its date, and from there on requests without directives find it
fresh for so many seconds. -/
structure FreshFor (response : Headers) (second lifetime : Nat) : Prop where
  date : response.date? HeaderName.date = some second
  fresh_iff : ∀ request : Headers, request.contains HeaderName.cacheControl = false →
    request.contains HeaderName.pragma = false → ∀ now, second * 1000 ≤ now →
      (freshness response request now = .fresh ↔ now < (second + lifetime) * 1000)

/-- A response without an age from other caches and with a `max-age` is fresh for so long. -/
theorem freshFor_of_maxAge {response : Headers} {second lifetime : Nat}
    (hdate : response.date? HeaderName.date = some second)
    (hage : response.contains HeaderName.age = false)
    (hcache : (Directives.ofHeaders response).has "no-cache" = false)
    (hmax : (Directives.ofHeaders response).seconds? "max-age" = some lifetime) :
    FreshFor response second lifetime := by
  refine ⟨hdate, fun request hc hp now hnow => ?_⟩
  have hbare := Directives.ofRequest_of_bare hc hp
  have hforbid : ¬ForbidsReplay response request := by
    rintro (hasked | hown)
    · rw [hbare] at hasked
      cases hasked
    · exact absurd (hcache.symm.trans hown) Bool.false_ne_true
  have hreceived : response.receivedAge = 0 := by
    rw [Headers.receivedAge, Headers.get?_eq_head?, Headers.contains_eq_false_iff.mp hage]
    rfl
  have hlifetime : grantedLifetime response { entries := [] } second = lifetime * 1000 := by
    change ownLifetime response second = _
    rw [ownLifetime, hmax]
  have hcounted : countedAge response { entries := [] } second now = now - second * 1000 := by
    change elapsed second now + response.receivedAge * 1000 + 0 = _
    rw [hreceived]
    rfl
  rw [freshness_of_date hforbid (by rw [hbare]; rfl) hdate, Tolerance.judge_eq_fresh_iff, hbare,
    tolerance_of_bare, hlifetime, hcounted]
  change now - second * 1000 < lifetime * 1000 ↔ _
  omega

namespace Entry

/-- A captured response without a date has the second of its capture as one. -/
theorem date?_capture (req : Request) {resp : Response} {now : Nat}
    (hnow : now < 253402300800000) (hdate : resp.headers.contains HeaderName.date = false) :
    (capture req resp now).headers.date? HeaderName.date = some (now / 1000) := by
  obtain ⟨v, hbytes, hvalues⟩ := values_capture_date req resp now
  rw [hdate, if_neg Bool.false_ne_true] at hvalues
  have htext := HeaderValue.text?_of_bytes (HeaderDate.isPrintable_format (now / 1000)) hbytes
  rw [Headers.date?, Headers.get?_eq_head?, hvalues, List.head?_cons, Option.bind_some, htext,
    Option.bind_some]
  exact HeaderDate.parse?_format (by omega)

/-- **A stamped date counts from the capture.** A response without a date and an age that is captured
before the year 10000 has the second of its capture as its date, and is fresh until its `max-age`
has passed since then, or the largest number of seconds that counts. The same holds of what is read
of its stored form, which can be read exactly if there is room for its lines. -/
theorem stamped_date_counts_from_capture (req : Request) {resp : Response} {now s : Nat}
    {argument : String} (hnow : now < 253402300800000)
    (hdate : resp.headers.contains HeaderName.date = false)
    (hage : resp.headers.contains HeaderName.age = false)
    (hcache : (Directives.ofHeaders resp.headers).has "no-cache" = false)
    (hmax : (Directives.ofHeaders resp.headers).value? "max-age" = some argument)
    (hs : MeansSeconds argument.toList s) :
    let e := capture req resp now
    FreshFor e.headers (now / 1000) (min s (Nat.pow 2 31)) ∧
    (e.toWire.Fits →
      (e.headers.lines.length ≤ mostLines → ∃ stored, decode e.encode = .ok stored ∧
        FreshFor stored.headers (now / 1000) (min s (Nat.pow 2 31))) ∧
      (mostLines < e.headers.lines.length → decode e.encode = .error .noRoom)) := by
  intro e
  have hseconds : (Directives.ofHeaders e.headers).seconds? "max-age" =
      some (min s (Nat.pow 2 31)) := by
    rw [directives_capture, Directives.seconds?, hmax, Option.bind_some, deltaSeconds_of_means hs,
      Nat.min_comm]
    rfl
  have hfresh : FreshFor e.headers (now / 1000) (min s (Nat.pow 2 31)) := by
    refine freshFor_of_maxAge (date?_capture req hnow hdate) ?_ ?_ hseconds
    · rwa [contains_capture req resp now (by decide) (by decide)]
    · rwa [directives_capture]
  refine ⟨hfresh, fun hfits => ⟨fun hroom => ⟨e, ?_, hfresh⟩, fun hcrowd => ?_⟩⟩
  · rw [decode_encode hfits, if_pos hroom]
  · rw [decode_encode hfits, if_neg (Nat.not_le.mpr hcrowd)]

namespace Undated

open Sample

/-- A response without a date, which a cache before this one replayed, with more seconds than
count. -/
def document : Response :=
  response .ok [(.fromCache, .one), (.cacheControl, value "public , MAX-AGE = \"0009999999999\"")]
    (utf8 "o")

/-- The last millisecond of the leap day of the year 2000. -/
def leapDay : Nat := 951868799999

/-- When the lifetime of a response ends that is captured on the leap day. -/
def deadline : Nat := (951868799 + 2147483648) * 1000

end Undated

open Sample Undated in
theorem leap_day_counts_from_its_second :
    let e := capture (request []) document leapDay
    leapDay < 253402300800000 ∧ document.headers.contains .date = false ∧
    document.headers.contains .age = false ∧
    (Directives.ofHeaders document.headers).has "no-cache" = false ∧
    (Directives.ofHeaders document.headers).value? "max-age" = some "0009999999999" ∧
    MeansSeconds "0009999999999".toList 9999999999 ∧ e.toWire.Fits ∧
    e.headers.lines.length ≤ mostLines ∧ e.headers.date? .date = some 951868799 ∧
    ∃ stored, decode e.encode = .ok stored ∧ stored.headers.date? .date = some 951868799 ∧
      freshness stored.headers (request []).headers (deadline - 1) = .fresh ∧
      freshness stored.headers (request []).headers deadline ≠ .fresh := by
  intro e
  have hdate : document.headers.contains .date = false := by decide +kernel
  have hage : document.headers.contains .age = false := by decide +kernel
  have hcache : (Directives.ofHeaders document.headers).has "no-cache" = false := by
    decide +kernel
  have hmax : (Directives.ofHeaders document.headers).value? "max-age" = some "0009999999999" := by
    decide +kernel
  have hs : MeansSeconds "0009999999999".toList 9999999999 := by decide +kernel
  have hdecode : decode e.encode = .ok e := by decide +kernel
  obtain ⟨hfits, hroom⟩ := fits_of_decode hdecode
  have hnow : leapDay < 253402300800000 := by decide
  obtain ⟨hfresh, hstored⟩ :=
    stamped_date_counts_from_capture (request []) hnow hdate hage hcache hmax hs
  obtain ⟨stored, hread, hagain⟩ := (hstored hfits).1 hroom
  refine ⟨hnow, hdate, hage, hcache, hmax, hs, hfits, hroom, hfresh.date, stored, hread,
    hagain.date, ?_, ?_⟩
  · exact (hagain.fresh_iff _ rfl rfl (deadline - 1) (by decide)).mpr (by decide)
  · exact mt (hagain.fresh_iff _ rfl rfl deadline (by decide)).mp (by decide)

namespace CrowdedCapture

open Sample

/-- A response without a date that is fresh for a minute, with so many more values of one name
than one. -/
def document (more : Nat) : Response where
  status := .ok
  headers := {
    fields := [⟨.cacheControl, value "max-age=60", []⟩, ⟨.etag, .one, List.replicate more .one⟩]
    distinct := show [HeaderName.cacheControl, .etag].Nodup by decide }
  body := utf8 "o"

def entry (more : Nat) : Entry :=
  capture (request []) (document more) 0

theorem lines_entry (more : Nat) : (entry more).headers.lines =
    (.cacheControl, value "max-age=60") :: List.replicate (more + 1) (.etag, .one) ++
      [(.date, epoch)] := by
  have hfields : (entry more).headers.fields =
      (document more).headers.fields ++ [⟨.date, epoch, []⟩] := rfl
  rw [Headers.lines, hfields]
  simp [document, Field.values, List.replicate_succ]

theorem length_lines_entry (more : Nat) : (entry more).headers.lines.length = more + 3 := by
  rw [lines_entry]
  simp

theorem fits_entry {more : Nat} (hshort : Wire.Short (more + 3)) : (entry more).toWire.Fits := by
  have hvalues : ∀ v ∈ [value "max-age=60", .one, epoch], v.bytes.length < Nat.pow 2 64 := by
    decide +kernel
  have hbody : (utf8 "o").length < Nat.pow 2 64 := by decide +kernel
  refine fits_of_values hvalues ?_ ?_ rfl hbody
  · rwa [length_lines_entry]
  · intro line hline
    rw [lines_entry] at hline
    simp only [List.cons_append, List.mem_cons, List.mem_append, List.mem_replicate,
      List.not_mem_nil, or_false] at hline ⊢
    rcases hline with rfl | ⟨-, rfl⟩ | rfl <;> simp

end CrowdedCapture

open Sample CrowdedCapture in
/-- A response that gets its date on capture, with more lines than there is room for, is not read
again. -/
theorem crowded_capture_not_read :
    (document mostLines).headers.contains .date = false ∧
    (document mostLines).headers.contains .age = false ∧
    (Directives.ofHeaders (document mostLines).headers).has "no-cache" = false ∧
    (Directives.ofHeaders (document mostLines).headers).value? "max-age" = some "60" ∧
    MeansSeconds "60".toList 60 ∧
    decode (capture (request []) (document mostLines) 0).encode = .error .noRoom := by
  have hshort : Wire.Short (mostLines + 3) := show mostLines + 3 < Nat.pow 2 64 by decide
  refine ⟨rfl, rfl, by decide +kernel, by decide +kernel, by decide, ?_⟩
  change decode (entry mostLines).encode = _
  rw [decode_encode (fits_entry hshort), length_lines_entry, if_neg (by decide)]

end Entry

end PeerCache

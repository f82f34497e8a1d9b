import PeerCache.Cache.Entry
import PeerCache.Proofs.DateLaws
import PeerCache.Proofs.HeaderLaws

/-!
# Laws of cache entries

What an entry takes from a response, what it remembers of the request, and what an answer
that confirms it changes. Only the values of `Vary` decide which values of the request are
remembered, and neither the date that is added on arrival nor the mark of a replay is one of
them.
-/

namespace PeerCache.Entry

/-! ## Status and body -/

@[simp] theorem status_capture (req : Request) (resp : Response) (now : Nat) :
    (capture req resp now).status = resp.status := rfl

@[simp] theorem body_capture (req : Request) (resp : Response) (now : Nat) :
    (capture req resp now).body = resp.body := rfl

@[simp] theorem status_toResponse (e : Entry) : e.toResponse.status = e.status := rfl

@[simp] theorem body_toResponse (e : Entry) : e.toResponse.body = e.body := rfl

/-! ## Varied names -/

theorem varyNames_congr {h k : Headers}
    (hv : h.values HeaderName.vary = k.values HeaderName.vary) : varyNames h = varyNames k := by
  rw [varyNames, varyNames, Headers.elements_congr hv]

theorem vary_ne_date : HeaderName.vary ≠ HeaderName.date := by decide

theorem vary_ne_fromCache : HeaderName.vary ≠ HeaderName.fromCache := by decide

theorem values_stamp (h : Headers) (now : Nat) {n : HeaderName} (hn : n ≠ HeaderName.date) :
    (stamp h now).values n = h.values n := by
  rw [stamp]
  split
  · rfl
  · split
    · rw [Headers.values_insert, if_neg hn]
    · rfl

/-- Capturing keeps every field but the date and the mark of a replay. -/
theorem values_capture (req : Request) (resp : Response) (now : Nat) {n : HeaderName}
    (hd : n ≠ HeaderName.date) (hm : n ≠ HeaderName.fromCache) :
    (capture req resp now).headers.values n = resp.headers.values n := by
  rw [capture]
  rw [values_stamp _ now hd, Headers.values_remove, if_neg hm]

theorem contains_capture (req : Request) (resp : Response) (now : Nat) {n : HeaderName}
    (hd : n ≠ .date) (hm : n ≠ .fromCache) :
    (capture req resp now).headers.contains n = resp.headers.contains n :=
  Headers.contains_congr (values_capture req resp now hd hm)

theorem directives_capture (req : Request) (resp : Response) (now : Nat) :
    Directives.ofHeaders (capture req resp now).headers = Directives.ofHeaders resp.headers :=
  congrArg Directives.ofParts
    (Headers.elements_congr (values_capture req resp now (by decide) (by decide)))

/-- Headers without a date get the time of arrival as one. -/
theorem values_stamp_date (h : Headers) (now : Nat) :
    ∃ v : HeaderValue, v.bytes = Utf8.encode (HeaderDate.format (now / 1000)) ∧
      (stamp h now).values HeaderName.date =
        if h.contains HeaderName.date then h.values HeaderName.date else [v] := by
  obtain ⟨v, hv, hbytes⟩ := HeaderDate.exists_value (now / 1000)
  refine ⟨v, hbytes, ?_⟩
  rw [stamp, hv]
  split
  · rfl
  · rw [Headers.values_insert, if_pos rfl]

theorem values_capture_date (req : Request) (resp : Response) (now : Nat) :
    ∃ v : HeaderValue, v.bytes = Utf8.encode (HeaderDate.format (now / 1000)) ∧
      (capture req resp now).headers.values HeaderName.date =
        if resp.headers.contains HeaderName.date then resp.headers.values HeaderName.date
        else [v] := by
  obtain ⟨v, hbytes, hv⟩ :=
    values_stamp_date (resp.headers.remove HeaderName.fromCache) now
  have hkept : (resp.headers.remove HeaderName.fromCache).values HeaderName.date =
      resp.headers.values HeaderName.date :=
    (Headers.values_remove ..).trans (if_neg (by decide))
  rw [Headers.contains_congr hkept, hkept] at hv
  exact ⟨v, hbytes, hv⟩

theorem values_capture_fromCache (req : Request) (resp : Response) (now : Nat) :
    (capture req resp now).headers.values HeaderName.fromCache = [] := by
  rw [capture]
  rw [values_stamp _ now (by decide), Headers.values_remove, if_pos rfl]

/-- A response with a date and without the mark of a replay is captured as it is. -/
theorem headers_capture {resp : Response} (hd : resp.headers.contains HeaderName.date = true)
    (hm : resp.headers.contains HeaderName.fromCache = false) (req : Request) (now : Nat) :
    (capture req resp now).headers = resp.headers := by
  rw [capture]
  rw [Headers.remove_of_fresh hm, stamp, if_pos hd]

theorem varyNames_capture (req : Request) (resp : Response) (now : Nat) :
    varyNames (capture req resp now).headers = varyNames resp.headers :=
  varyNames_congr (values_capture req resp now vary_ne_date vary_ne_fromCache)

theorem varied_capture (req : Request) (resp : Response) (now : Nat) :
    (capture req resp now).varied =
      (varyNames resp.headers).map fun name => (name, variant req.headers name) :=
  congrArg (List.map fun name => (name, variant req.headers name)) (varyNames_capture req resp now)

theorem answers_iff {e : Entry} {req : Request} : e.answers req = true ↔
    ∀ pair ∈ e.varied, pair.1 ≠ "*" ∧ variant req.headers pair.1 = pair.2 := by
  rw [answers]
  simp [List.all_eq_true]

/-! ## Responses made from an entry -/

theorem values_toResponse (e : Entry) (n : HeaderName) :
    e.toResponse.headers.values n =
      if n = HeaderName.fromCache then [HeaderValue.one] else e.headers.values n :=
  Headers.values_insert _ _ _ n

theorem varyNames_toResponse (e : Entry) : varyNames e.toResponse.headers = varyNames e.headers :=
  varyNames_congr ((values_toResponse e _).trans (if_neg vary_ne_fromCache))

/-! ## Confirmation -/

section Confirmation

variable {e merged : Entry} {notModified : Headers}

/-- A merge changes nothing but the headers. -/
theorem eq_of_refresh? (h : e.refresh? notModified = some merged) :
    merged = { e with
      headers := (e.headers.removeAll (endToEnd notModified).names).appendAll
        (endToEnd notModified).lines } := by
  rw [refresh?, Option.map_eq_some_iff] at h
  obtain ⟨headers, hheaders, hmerged⟩ := h
  rw [← hmerged, Headers.eq_of_appendAll? hheaders]

theorem status_of_refresh? (h : e.refresh? notModified = some merged) :
    merged.status = e.status := by
  rw [eq_of_refresh? h]

theorem body_of_refresh? (h : e.refresh? notModified = some merged) : merged.body = e.body := by
  rw [eq_of_refresh? h]

theorem varied_of_refresh? (h : e.refresh? notModified = some merged) :
    merged.varied = e.varied := by
  rw [eq_of_refresh? h]

/-- The fields of the answer replace those of the same names. -/
theorem values_of_refresh? (h : e.refresh? notModified = some merged) (n : HeaderName) :
    merged.headers.values n =
      if (endToEnd notModified).values n = [] then e.headers.values n
      else (endToEnd notModified).values n := by
  rw [eq_of_refresh? h]
  dsimp only
  rw [Headers.values_appendAll, Headers.values_removeAll, Headers.lines_filter]
  by_cases hv : (endToEnd notModified).values n = []
  · have hn : n ∉ (endToEnd notModified).names := fun hm => Headers.mem_names_iff.mp hm hv
    rw [if_neg hn, if_pos hv, hv, List.append_nil]
  · rw [if_pos (Headers.mem_names_iff.mpr hv), if_neg hv, List.nil_append]

theorem varyNames_of_refresh? (h : e.refresh? notModified = some merged) :
    varyNames merged.headers =
      if (endToEnd notModified).contains HeaderName.vary then varyNames (endToEnd notModified)
      else varyNames e.headers := by
  have hvalues := values_of_refresh? h HeaderName.vary
  split
  · next hv => exact varyNames_congr (hvalues.trans (if_neg (Headers.contains_iff.mp hv)))
  · next hv =>
    rw [Bool.not_eq_true, Headers.contains_eq_false_iff] at hv
    exact varyNames_congr (hvalues.trans (if_pos hv))

end Confirmation

end PeerCache.Entry

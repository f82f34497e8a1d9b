import PeerCache.Cache.Exchange
import PeerCache.Proofs.UriLaws

/-!
# Laws of cache keys

Two requests have one key only if they have the same method and the same address. The key of a
`GET` request is the address alone; in every other key a blank stands between the method and the
address. A blank stands in no method and in no address, so the first one tells where to cut.
-/

namespace PeerCache

theorem Request.isCacheable_iff {req : Request} : req.isCacheable = true ↔
    (req.method = .get ∨ req.method = .head) ∧ req.headers.contains .range = false := by
  simp [isCacheable]

theorem Request.method_of_cacheable {req : Request} (h : req.isCacheable = true) :
    req.method = Method.get ∨ req.method = Method.head :=
  (isCacheable_iff.mp h).1

theorem Method.isSafe_eq_false_iff {m : Method} :
    m.isSafe = false ↔ m ∉ [Method.get, .head, .options, .trace] := by
  simp [isSafe, and_assoc]

theorem Request.isCacheable_of_not_safe {req : Request} (h : req.method.isSafe = false) :
    req.isCacheable = false := by
  rw [Bool.eq_false_iff]
  intro hc
  rcases Request.method_of_cacheable hc with hm | hm <;> rw [hm] at h <;> cases h

theorem Method.eq_of_text {m n : Method} (h : m.text = n.text) : m = n := by
  cases m
  cases n
  cases h
  rfl

theorem Method.blank_not_mem_text (m : Method) : ' ' ∉ m.text.toList := by
  intro h
  exact absurd (List.all_eq_true.mp m.valid.2 ' ' h) (by decide)

section Keys

variable {m n : Method} {u v : Uri}

theorem keyOf_congr (h : u.text = v.text) (m : Method) : keyOf m u = keyOf m v := by
  rw [keyOf, keyOf, h]

theorem toList_keyOf (hm : m ≠ .get) (u : Uri) :
    (keyOf m u).toList = m.text.toList ++ ' ' :: u.text.toList := by
  rw [keyOf, if_neg hm]
  simp

/-- The key of a `GET` request has no blank, and every other key has one. -/
theorem keyOf_ne_text (hm : m ≠ .get) (u v : Uri) : keyOf m u ≠ v.text := by
  intro h
  have hblank : ' ' ∉ v.text.toList := v.not_mem_text (by decide)
  apply hblank
  rw [← h, toList_keyOf hm]
  simp

/-- A key of another method is cut at its first blank. -/
theorem cut_keyOf (hm : m ≠ .get) (u : Uri) :
    Text.cut (· == ' ') (keyOf m u).toList = (m.text.toList, some u.text.toList) := by
  rw [toList_keyOf hm]
  refine Text.cut_append (fun c hc => ?_) rfl
  rw [beq_eq_false_iff_ne]
  rintro rfl
  exact m.blank_not_mem_text hc

theorem keyOf_eq_iff : keyOf m u = keyOf n v ↔ m = n ∧ u.text = v.text := by
  constructor
  · intro h
    by_cases hm : m = .get <;> by_cases hn : n = .get
    · refine ⟨hm.trans hn.symm, ?_⟩
      rwa [keyOf, keyOf, if_pos hm, if_pos hn] at h
    · have hget : keyOf m u = u.text := if_pos hm
      exact absurd (h.symm.trans hget) (keyOf_ne_text hn v u)
    · have hget : keyOf n v = v.text := if_pos hn
      exact absurd (h.trans hget) (keyOf_ne_text hm u v)
    · have hcut := cut_keyOf hm u
      rw [h, cut_keyOf hn v, Prod.mk.injEq, Option.some.injEq] at hcut
      exact ⟨Method.eq_of_text (String.toList_inj.mp hcut.1).symm,
        (String.toList_inj.mp hcut.2).symm⟩
  · rintro ⟨rfl, htext⟩
    exact keyOf_congr htext m

end Keys

theorem cacheKey_eq_iff {a b : Request} :
    cacheKey a = cacheKey b ↔ a.method = b.method ∧ a.uri.text = b.uri.text :=
  keyOf_eq_iff

/-- A key made from another address is another key. -/
theorem keyOf_ne_cacheKey {req : Request} {uri : Uri} (m : Method)
    (huri : uri.text ≠ req.uri.text) : keyOf m uri ≠ cacheKey req :=
  fun h => huri (keyOf_eq_iff.mp h).2

end PeerCache

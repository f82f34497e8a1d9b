/-!
# Laws of answers that may fail

What a success of a composed computation says of its parts, and what a computation over a list
answers when each step succeeds.
-/

namespace PeerCache

variable {ε α β : Type}

theorem exists_of_map_ok {f : α → β} {x : Except ε α} {b : β} (h : x.map f = .ok b) :
    ∃ a, x = .ok a ∧ f a = b := by
  cases x with
  | error e => cases h
  | ok a => exact ⟨a, rfl, Except.ok.inj h⟩

theorem eq_error_of_map {f : α → β} {x : Except ε α} {e : ε} (h : x.map f = .error e) :
    x = .error e := by
  cases x with
  | error e' => exact congrArg Except.error (Except.error.inj h)
  | ok a => cases h

theorem exists_of_bind_ok {f : α → Except ε β} {x : Except ε α} {b : β}
    (h : (x >>= f) = .ok b) : ∃ a, x = .ok a ∧ f a = .ok b := by
  cases x with
  | error e => cases h
  | ok a => exact ⟨a, rfl, h⟩

theorem mapM_ok {f : β → Except ε α} {g : α → β} (h : ∀ a, f (g a) = .ok a)
    (items : List α) : (items.map g).mapM f = .ok items := by
  induction items with
  | nil => rfl
  | cons a items ih =>
    rw [List.map_cons, List.mapM_cons, h, ih]
    rfl

/-- Each result of a computation over a list comes from one of its items. -/
theorem mapM_inv {f : α → Except ε β} {items : List α} {out : List β}
    (h : items.mapM f = .ok out) :
    out.length = items.length ∧ ∀ b ∈ out, ∃ a ∈ items, f a = .ok b := by
  induction items generalizing out with
  | nil =>
    cases h
    simp
  | cons a items ih =>
    rw [List.mapM_cons] at h
    obtain ⟨b, hfirst, h⟩ := exists_of_bind_ok h
    obtain ⟨bs, hrest, h⟩ := exists_of_bind_ok h
    cases h
    obtain ⟨hlength, hfrom⟩ := ih hrest
    refine ⟨congrArg (· + 1) hlength, ?_⟩
    intro c hc
    rcases List.mem_cons.mp hc with rfl | hc
    · exact ⟨a, List.mem_cons_self, hfirst⟩
    · obtain ⟨a', ha', hc⟩ := hfrom c hc
      exact ⟨a', List.mem_cons_of_mem a ha', hc⟩

end PeerCache

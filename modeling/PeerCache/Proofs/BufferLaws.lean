import PeerCache.Buffer

/-!
# Laws of buffers

The buffers that wait in a pool are empty. So a body that is drained through the pool is the
one that is drained without it, whatever room the buffer was handed out with, and the buffers
that come back are empty again.
-/

namespace PeerCache

namespace Buffer

variable (b : Buffer)

@[simp] theorem contents_reserve (more : Nat) : (b.reserve more).contents = b.contents := by
  unfold reserve
  dsimp only
  split
  · rfl
  · split <;> rfl

@[simp] theorem contents_write (bytes : Bytes) :
    (b.write bytes).contents = b.contents ++ bytes := by
  simp only [write, contents_reserve]

end Buffer

namespace BufferPool

/-- Every buffer that waits to be used again is empty. -/
def Clean (pool : BufferPool) : Prop :=
  ∀ b ∈ pool.idle, b.contents = []

variable {pool : BufferPool}

theorem clean_new (size : Nat) : Clean { size } := by
  intro b hb
  cases hb

/-- A clean pool hands out an empty buffer. -/
theorem Clean.get (h : pool.Clean) : pool.get.1.contents = [] ∧ pool.get.2.Clean := by
  rw [BufferPool.get]
  split
  · next b rest hidle =>
    have hmem : ∀ c ∈ b :: rest, c.contents = [] := by
      rw [← hidle]
      exact h
    rw [List.forall_mem_cons] at hmem
    exact ⟨(b.contents_reserve pool.size).trans hmem.1, hmem.2⟩
  · exact ⟨rfl, h⟩

theorem Clean.put (h : pool.Clean) (b : Buffer) : (pool.put b).Clean := by
  rw [BufferPool.put]
  split
  · intro c hc
    obtain rfl | hc := List.mem_cons.mp hc
    · rfl
    · exact h c hc
  · exact h

end BufferPool

namespace Frame

/-- Draining fails as it does without a buffer, and adds the body to what the buffer holds. -/
theorem drain_eq (frames : List Frame) (b : Buffer) :
    (drain frames b).1 = (collect frames).map (fun _ => ()) ∧
      ∀ body, collect frames = .ok body → (drain frames b).2.contents = b.contents ++ body := by
  induction frames generalizing b with
  | nil =>
    refine ⟨rfl, fun body hbody => ?_⟩
    obtain rfl := Except.ok.inj hbody
    exact (List.append_nil _).symm
  | cons frame rest ih =>
    cases frame with
    | data bytes =>
      obtain ⟨hanswer, hcontents⟩ := ih (b.write bytes)
      rw [drain, collect]
      cases hrest : collect rest with
      | error e =>
        rw [hrest] at hanswer
        exact ⟨hanswer, fun body hbody => nomatch hbody⟩
      | ok tail =>
        rw [hrest] at hanswer
        refine ⟨hanswer, fun body hbody => ?_⟩
        obtain rfl := Except.ok.inj hbody
        rw [hcontents tail hrest, Buffer.contents_write, List.append_assoc]
    | trailers headers => exact ih b
    | failure text => exact ⟨rfl, fun body hbody => nomatch hbody⟩

/-- Draining through a clean pool is draining without one, and leaves the pool clean. -/
theorem collectThrough_eq {pool : BufferPool} (h : pool.Clean) (frames : List Frame) :
    (collectThrough frames pool).1 = collect frames ∧ (collectThrough frames pool).2.Clean := by
  obtain ⟨hempty, hclean⟩ := h.get
  rw [collectThrough]
  generalize pool.get = handed at hempty hclean
  obtain ⟨b, left⟩ := handed
  dsimp only at hempty hclean ⊢
  obtain ⟨hanswer, hcontents⟩ := drain_eq frames b
  generalize drain frames b = drained at hanswer hcontents
  obtain ⟨answer, filled⟩ := drained
  cases hbody : collect frames with
  | error e =>
    rw [hbody] at hanswer
    obtain rfl : answer = .error e := hanswer
    exact ⟨rfl, hclean.put filled⟩
  | ok body =>
    rw [hbody] at hanswer
    obtain rfl : answer = .ok () := hanswer
    have hwhole : filled.contents = body := by
      rw [hcontents body hbody, hempty, List.nil_append]
    exact ⟨congrArg Except.ok hwhole, hclean.put _⟩

/-- A body does not depend on the pool that it is drained through, if there is one. -/
theorem collectBody_eq {buffers : Option BufferPool} (h : ∀ pool ∈ buffers, pool.Clean)
    (frames : List Frame) :
    (collectBody frames buffers).1 = collect frames ∧
      ∀ pool ∈ (collectBody frames buffers).2, pool.Clean := by
  cases buffers with
  | none => exact ⟨rfl, fun pool hpool => nomatch hpool⟩
  | some pool =>
    obtain ⟨hbody, hclean⟩ := collectThrough_eq (h pool rfl) frames
    refine ⟨hbody, fun after hafter => ?_⟩
    obtain rfl := Option.some.inj hafter
    exact hclean

end Frame

end PeerCache

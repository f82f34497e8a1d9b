import PeerCache.Proofs.BufferLaws

/-!
# Bodies through a used pool

The users of a pool take buffers, write to them, split their contents off and return them in any
order, drain bodies through the pool, and may return buffers that it never handed out. Where a
buffer lies in memory is not theirs to say: while a part that was split off is still in use, the
buffer moves instead of growing in place.

One use of a pool keeps what waits in it empty and within its limit. So after any run of uses a
buffer that is handed out is empty and has room, and a body that is drained through the pool is
the one that is drained without it.
-/

namespace PeerCache

namespace Buffer

variable (b : Buffer)

/-- Where the bytes were is left open by what is reserved, but not that there is room. -/
theorem room_reserve (more : Nat) : b.contents.length + more ≤ (b.reserve more).capacity := by
  unfold reserve
  dsimp only
  split
  · assumption
  · split
    · next h => exact h.1
    · rw [capacity]
      dsimp only
      omega

/-- A buffer that lies at another place of another allocation. -/
def movedTo (b : Buffer) (place : Nat × Nat) : Buffer :=
  { b with offset := place.1, allocated := place.2 }

end Buffer

/-! ## What every use keeps -/

namespace BufferPool

/-- A pool of a buffer size holds empty buffers, and no more than its limit. -/
structure Sound (size : Nat) (pool : BufferPool) : Prop where
  size_eq : pool.size = size
  clean : pool.Clean
  bounded : pool.idle.length ≤ maxIdle

variable {size : Nat} {pool : BufferPool}

theorem length_idle_get (pool : BufferPool) :
    pool.get.2.idle.length = pool.idle.length - 1 := by
  rw [get]
  split
  · next b rest hidle => simp [hidle]
  · next hidle => simp [hidle]

theorem length_idle_put (pool : BufferPool) (b : Buffer) :
    (pool.put b).idle.length =
      if pool.idle.length < maxIdle then pool.idle.length + 1 else pool.idle.length := by
  rw [put]
  split <;> rfl

theorem size_get (pool : BufferPool) : pool.get.2.size = pool.size := by
  rw [get]
  split <;> rfl

theorem size_put (pool : BufferPool) (b : Buffer) : (pool.put b).size = pool.size := by
  rw [put]
  split <;> rfl

/-- A buffer that is handed out has room, whether it was used before or is new. -/
theorem room_get (pool : BufferPool) : pool.size ≤ pool.get.1.capacity := by
  rw [get]
  split
  · next b rest _ => exact Nat.le_trans (Nat.le_add_left ..) (b.room_reserve pool.size)
  · exact Nat.le_refl _

theorem sound_new (size : Nat) : Sound size { size } where
  size_eq := rfl
  clean := clean_new size
  bounded := Nat.zero_le _

theorem Sound.get (h : pool.Sound size) : pool.get.2.Sound size where
  size_eq := (size_get pool).trans h.size_eq
  clean := h.clean.get.2
  bounded := by
    rw [length_idle_get]
    exact Nat.le_trans (Nat.sub_le ..) h.bounded

theorem Sound.put (h : pool.Sound size) (b : Buffer) : (pool.put b).Sound size where
  size_eq := (size_put pool b).trans h.size_eq
  clean := h.clean.put b
  bounded := by
    rw [length_idle_put]
    split
    · assumption
    · exact h.bounded

theorem Sound.move (h : pool.Sound size) (place : Buffer → Nat × Nat) :
    Sound size { pool with idle := pool.idle.map fun b => b.movedTo (place b) } where
  size_eq := h.size_eq
  clean := by
    intro b hb
    obtain ⟨was, hwas, rfl⟩ := List.mem_map.mp hb
    exact h.clean was hwas
  bounded := by
    rw [List.length_map]
    exact h.bounded

end BufferPool

namespace Frame

variable {size : Nat} {pool : BufferPool}

/-- Whether a body ends or fails, the buffer that it was drained into is returned. -/
theorem exists_returned (frames : List Frame) (pool : BufferPool) :
    ∃ b, (collectThrough frames pool).2 = pool.get.2.put b := by
  rw [collectThrough]
  generalize pool.get = handed
  obtain ⟨b, left⟩ := handed
  dsimp only
  generalize drain frames b = drained
  obtain ⟨answer, filled⟩ := drained
  cases answer with
  | ok _ => exact ⟨filled.freeze.2, rfl⟩
  | error e => exact ⟨filled, rfl⟩

theorem sound_collectThrough (h : pool.Sound size) (frames : List Frame) :
    (collectThrough frames pool).2.Sound size := by
  obtain ⟨b, hreturned⟩ := exists_returned frames pool
  rw [hreturned]
  exact h.get.put b

/-- The pool has the buffer back that it gave, or one more than none. -/
theorem idle_collectThrough (h : pool.Sound size) (frames : List Frame) :
    (collectThrough frames pool).2.idle.length = max 1 pool.idle.length := by
  obtain ⟨b, hreturned⟩ := exists_returned frames pool
  have hbounded : pool.idle.length ≤ 256 := h.bounded
  have hroom : pool.idle.length - 1 < BufferPool.maxIdle := by
    change pool.idle.length - 1 < 256
    omega
  rw [hreturned, BufferPool.length_idle_put, BufferPool.length_idle_get, if_pos hroom]
  omega

end Frame

/-! ## Runs -/

/-- A pool in use, with the buffers that its users hold. -/
structure PoolUse where
  pool : BufferPool
  held : List Buffer := []

/-- One use of a pool; a buffer that is held is given by its place among those. -/
inductive PoolAct where
  | get
  | put (i : Nat)
  | write (i : Nat) (bytes : Bytes)
  /-- Split the contents of a buffer off. -/
  | freeze (i : Nat)
  | discard (i : Nat)
  /-- Hold a buffer that comes from elsewhere. -/
  | bring (b : Buffer)
  /-- Buffers come to lie elsewhere. -/
  | move (place : Buffer → Nat × Nat)
  | collect (frames : List Frame)

namespace PoolUse

def step (u : PoolUse) : PoolAct → PoolUse
  | .get => { pool := u.pool.get.2, held := u.pool.get.1 :: u.held }
  | .put i =>
    match u.held[i]? with
    | some b => { pool := u.pool.put b, held := u.held.eraseIdx i }
    | none => u
  | .write i bytes => { u with held := u.held.modify i fun b => b.write bytes }
  | .freeze i => { u with held := u.held.modify i fun b => b.freeze.2 }
  | .discard i => { u with held := u.held.eraseIdx i }
  | .bring b => { u with held := b :: u.held }
  | .move place =>
    { pool := { u.pool with idle := u.pool.idle.map fun b => b.movedTo (place b) }
      held := u.held.map fun b => b.movedTo (place b) }
  | .collect frames => { u with pool := (Frame.collectThrough frames u.pool).2 }

def run (u : PoolUse) (acts : List PoolAct) : PoolUse :=
  acts.foldl step u

variable {size : Nat} {u : PoolUse}

theorem sound_step (h : u.pool.Sound size) (act : PoolAct) : (u.step act).pool.Sound size := by
  cases act with
  | get => exact h.get
  | put i =>
    rw [step]
    split
    · next b _ => exact h.put b
    · exact h
  | write | freeze | discard | bring => exact h
  | move place => exact h.move place
  | collect frames => exact Frame.sound_collectThrough h frames

theorem sound_run (h : u.pool.Sound size) (acts : List PoolAct) : (u.run acts).pool.Sound size := by
  induction acts generalizing u with
  | nil => exact h
  | cons act acts ih => exact ih (sound_step h act)

end PoolUse

/-- A pool of a buffer size after a run of uses. -/
def BufferPool.after (size : Nat) (acts : List PoolAct) : BufferPool :=
  (PoolUse.run { pool := { size } } acts).pool

theorem BufferPool.sound_after (size : Nat) (acts : List PoolAct) :
    (after size acts).Sound size := by
  have hnew : (PoolUse.mk { size } []).pool.Sound size := sound_new size
  exact PoolUse.sound_run hnew acts

/-! ## Bodies one after another -/

namespace Frame

/-- The bytes of a frame; only data has any. -/
def bytes : Frame → Bytes
  | data bytes => bytes
  | trailers _ => []
  | failure _ => []

def failure? : Frame → Option String
  | data _ => none
  | trailers _ => none
  | failure text => some text

/-- Without a pool, a body is all its data, or its first failure. -/
theorem collect_eq (frames : List Frame) : collect frames =
    match frames.findSome? failure? with
    | some text => .error (.body text)
    | none => .ok (frames.flatMap bytes) := by
  induction frames with
  | nil => rfl
  | cons frame rest ih =>
    cases frame with
    | data b =>
      rw [collect, ih, List.findSome?_cons_of_isNone rfl, List.flatMap_cons]
      cases rest.findSome? failure? <;> rfl
    | trailers headers => exact ih
    | failure text => rfl

/-- Drain bodies one after another: what each comes to, and how many buffers wait in the pool
then. -/
def collectEach : List (List Frame) → Option BufferPool →
    List (Except TransportError Bytes × Option Nat)
  | [], _ => []
  | frames :: bodies, buffers =>
    let (body, buffers) := collectBody frames buffers
    (body, buffers.map fun pool => pool.idle.length) :: collectEach bodies buffers

theorem collectEach_eq {size : Nat} {pool : BufferPool} (h : pool.Sound size)
    (bodies : List (List Frame)) : collectEach bodies (some pool) =
      bodies.map fun frames => (collect frames, some (max 1 pool.idle.length)) := by
  induction bodies generalizing pool with
  | nil => rfl
  | cons frames bodies ih =>
    have hfirst : collectEach (frames :: bodies) (some pool) =
        ((collectThrough frames pool).1, some (collectThrough frames pool).2.idle.length) ::
          collectEach bodies (some (collectThrough frames pool).2) := rfl
    have hmax : max 1 (max 1 pool.idle.length) = max 1 pool.idle.length := by omega
    rw [hfirst, ih (sound_collectThrough h frames), idle_collectThrough h frames, hmax,
      (collectThrough_eq h.clean frames).1, List.map_cons]

/-- **Pooled bodies.** Whatever a pool has been used for, the buffers that wait in it are empty and
no more than 256, and the one it hands out is empty and has the room of its buffer size. Bodies
that are drained through it one after another come to what they come to without a pool: all
their data, or their first failure. Each leaves as many buffers waiting as there were, or one. -/
theorem pooled_bodies_are_plain (size : Nat) (acts : List PoolAct) :
    (BufferPool.after size acts).idle.length ≤ 256 ∧
      (∀ b ∈ (BufferPool.after size acts).idle, b.contents = []) ∧
      (BufferPool.after size acts).get.1.contents = [] ∧
      size ≤ (BufferPool.after size acts).get.1.capacity ∧
      (∀ bodies, collectEach bodies (some (BufferPool.after size acts)) =
        bodies.map fun frames => ((collectBody frames none).1,
          some (max 1 (BufferPool.after size acts).idle.length))) ∧
      ∀ frames, (collectBody frames none).1 =
        match frames.findSome? failure? with
        | some text => .error (.body text)
        | none => .ok (frames.flatMap bytes) := by
  have h := BufferPool.sound_after size acts
  have hroom := BufferPool.room_get (BufferPool.after size acts)
  rw [h.size_eq] at hroom
  exact ⟨h.bounded, h.clean, h.clean.get.1, hroom, collectEach_eq h, collect_eq⟩

/-- A body that failed with its data half read leaves nothing behind in the buffer it used. -/
example : collectEach [[.data [1, 2], .failure "reset"], [.data [3], .trailers .empty, .data [4]]]
    (some { size := 4 }) = [(.error (.body "reset"), some 1), (.ok [3, 4], some 1)] := rfl

end Frame

end PeerCache

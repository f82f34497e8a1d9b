import PeerCache.Http.Message

/-!
# Buffer pool

Bodies are drained through buffers that are used again. A buffer is a window on an
allocation: what is split off moves the start of the window forward, and the space in front
of it is taken back when the rest no longer suffices. A pool keeps returned buffers, up to a
limit, and hands them out empty and with room for its buffer size.
-/

namespace PeerCache

structure Buffer where
  contents : Bytes := []
  /-- Where the contents start in the allocation. -/
  offset : Nat := 0
  allocated : Nat

namespace Buffer

def capacity (b : Buffer) : Nat :=
  b.allocated - b.offset

/-- Make room for so many more bytes: by moving back to the start of the allocation, or by
growing it to at least its double. -/
def reserve (b : Buffer) (more : Nat) : Buffer :=
  let length := b.contents.length
  if length + more ≤ b.capacity then b
  else if length + more ≤ b.allocated ∧ length ≤ b.offset then { b with offset := 0 }
  else { b with allocated := max (max (2 * b.allocated) (b.offset + length + more)) 8 }

def write (b : Buffer) (bytes : Bytes) : Buffer :=
  let b := b.reserve bytes.length
  { b with contents := b.contents ++ bytes }

/-- Split the contents off. -/
def freeze (b : Buffer) : Bytes × Buffer :=
  (b.contents, { b with contents := [], offset := b.offset + b.contents.length })

def clear (b : Buffer) : Buffer :=
  { b with contents := [] }

end Buffer

structure BufferPool where
  /-- Room that a buffer has when it is handed out. -/
  size : Nat
  /-- Buffers waiting to be used again, the last one returned first. -/
  idle : List Buffer := []

namespace BufferPool

def defaultSize : Nat := 32768

def maxIdle : Nat := 256

def get (pool : BufferPool) : Buffer × BufferPool :=
  match pool.idle with
  | b :: rest => (b.reserve pool.size, { pool with idle := rest })
  | [] => ({ allocated := pool.size }, pool)

/-- Return a buffer; a full pool drops it. -/
def put (pool : BufferPool) (b : Buffer) : BufferPool :=
  if pool.idle.length < maxIdle then { pool with idle := b.clear :: pool.idle } else pool

end BufferPool

/-- A part of a body as it arrives. -/
inductive Frame where
  | data (bytes : Bytes)
  | trailers (headers : Headers)
  | failure (text : String)

namespace Frame

/-- Drain a body without a pool: its data, or its first error. -/
def collect : List Frame → Except TransportError Bytes
  | [] => .ok []
  | .data bytes :: rest => (collect rest).map (bytes ++ ·)
  | .trailers _ :: rest => collect rest
  | .failure text :: _ => .error (.body text)

/-- Drain a body into a buffer; the buffer comes back also when the body fails. -/
def drain : List Frame → Buffer → Except TransportError Unit × Buffer
  | [], b => (.ok (), b)
  | .data bytes :: rest, b => drain rest (b.write bytes)
  | .trailers _ :: rest, b => drain rest b
  | .failure text :: _, b => (.error (.body text), b)

/-- Drain a body through a pool. -/
def collectThrough (frames : List Frame) (pool : BufferPool) :
    Except TransportError Bytes × BufferPool :=
  let (b, pool) := pool.get
  match drain frames b with
  | (.ok (), b) =>
    let (body, b) := b.freeze
    (.ok body, pool.put b)
  | (.error e, b) => (.error e, pool.put b)

/-- Drain a body, through a pool when one is given. -/
def collectBody (frames : List Frame) :
    Option BufferPool → Except TransportError Bytes × Option BufferPool
  | none => (collect frames, none)
  | some pool =>
    let (body, pool) := collectThrough frames pool
    (body, some pool)

end Frame

end PeerCache

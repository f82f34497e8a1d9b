import PeerCache.Store.Faulty
import PeerCache.Store.FileStore
import PeerCache.Store.Flaky
import PeerCache.Store.Lru
import PeerCache.Store.Memory
import PeerCache.Store.Slow

/-!
# Stacks of layers

A description of a store as layers over a base, the type of its state, and the operations on
that state. The base is also reached on its own, behind the back of the layers above it.
-/

namespace PeerCache

inductive Stack where
  | memory
  | files (base : Path)
  | lru (capacity : Nat) (inner : Stack)
  | slow (read write : Latency) (inner : Stack)
  | faulty (faults : Faults) (inner : Stack)
  | flaky (fails : Nat → Bool) (inner : Stack)

namespace Stack

@[reducible] def State : Stack → Type
  | memory => Memory
  | files _ => FileStore
  | lru _ inner => Lru inner.State
  | slow _ _ inner => Slow inner.State
  | faulty _ inner => Faulty inner.State
  | flaky _ inner => Flaky inner.State

instance byteStore : (s : Stack) → ByteStore s.State
  | memory => inferInstanceAs (ByteStore Memory)
  | files _ => inferInstanceAs (ByteStore FileStore)
  | lru _ inner => letI := inner.byteStore; inferInstanceAs (ByteStore (Lru inner.State))
  | slow _ _ inner => letI := inner.byteStore; inferInstanceAs (ByteStore (Slow inner.State))
  | faulty _ inner => letI := inner.byteStore; inferInstanceAs (ByteStore (Faulty inner.State))
  | flaky _ inner => letI := inner.byteStore; inferInstanceAs (ByteStore (Flaky inner.State))

/-- A file store under a directory that has just been created. -/
def freshFiles (base : Path) : FileStore :=
  { tree := (Tree.empty.makeDirs base).toOption.getD Tree.empty, base }

def initial : (s : Stack) → s.State
  | memory => Memory.empty
  | files base => freshFiles base
  | lru capacity inner => { capacity, inner := inner.initial }
  | slow read write inner => { read, write, inner := inner.initial }
  | faulty faults inner => { faults, inner := inner.initial }
  | flaky fails inner => { fails, inner := inner.initial }

/-- The innermost store. -/
inductive Base where
  | memory (m : Memory)
  | files (f : FileStore)

def base : (s : Stack) → s.State → Base
  | memory, m => .memory m
  | files _, f => .files f
  | lru _ inner, s => inner.base s.inner
  | slow _ _ inner, s => inner.base s.inner
  | faulty _ inner, s => inner.base s.inner
  | flaky _ inner, s => inner.base s.inner

/-- Put a store of the same kind in the place of the base. -/
def withBase : (s : Stack) → Base → s.State → s.State
  | memory, .memory m, _ => m
  | files _, .files f, _ => f
  | memory, .files _, m => m
  | files _, .memory _, f => f
  | lru _ inner, b, s => { s with inner := inner.withBase b s.inner }
  | slow _ _ inner, b, s => { s with inner := inner.withBase b s.inner }
  | faulty _ inner, b, s => { s with inner := inner.withBase b s.inner }
  | flaky _ inner, b, s => { s with inner := inner.withBase b s.inner }

/-- Capacity and index of the outermost LRU layer. -/
def outerLru? : (s : Stack) → s.State → Option (Nat × LruIndex)
  | memory, _ => none
  | files _, _ => none
  | lru _ _, s => some (s.capacity, s.index)
  | slow _ _ inner, s => inner.outerLru? s.inner
  | faulty _ inner, s => inner.outerLru? s.inner
  | flaky _ inner, s => inner.outerLru? s.inner

/-- Milliseconds that all slow layers waited, if there is any. -/
def waited? : (s : Stack) → s.State → Option Nat
  | memory, _ => none
  | files _, _ => none
  | lru _ inner, s => inner.waited? s.inner
  | slow _ _ inner, s => some (s.waited + (inner.waited? s.inner).getD 0)
  | faulty _ inner, s => inner.waited? s.inner
  | flaky _ inner, s => inner.waited? s.inner

end Stack

instance : ByteStore Stack.Base where
  get
    | .memory m, key => (ByteStore.get m key).within .memory
    | .files f, key => (ByteStore.get f key).within .files
  set
    | .memory m, key, value => (ByteStore.set m key value).within .memory
    | .files f, key, value => (ByteStore.set f key value).within .files
  delete
    | .memory m, key => (ByteStore.delete m key).within .memory
    | .files f, key => (ByteStore.delete f key).within .files

end PeerCache

import PeerCache.Store.Basic

/-!
# Slow layer

A layer that waits before each operation on the store below it, for a time from the range of
reads or of writes. The time waited so far is part of its state; the answers are those of the
store below.
-/

namespace PeerCache

/-- A range of waiting times in milliseconds. -/
structure Latency where
  least : Nat
  most : Nat
  deriving DecidableEq, Repr

/-- The shortest wait that the range allows; a range that ends at zero means no wait. -/
def Latency.wait (range : Latency) : Nat :=
  if range.most = 0 then 0 else range.least

structure Slow (σ : Type) where
  read : Latency
  write : Latency
  /-- Milliseconds waited so far. -/
  waited : Nat := 0
  inner : σ

namespace Slow

variable {σ : Type} [ByteStore σ]

def afterRead (s : Slow σ) (inner : σ) : Slow σ :=
  { s with waited := s.waited + s.read.wait, inner }

def afterWrite (s : Slow σ) (inner : σ) : Slow σ :=
  { s with waited := s.waited + s.write.wait, inner }

instance : ByteStore (Slow σ) where
  get s key := (ByteStore.get s.inner key).within s.afterRead
  set s key value := (ByteStore.set s.inner key value).within s.afterWrite
  delete s key := (ByteStore.delete s.inner key).within s.afterWrite

end Slow

end PeerCache

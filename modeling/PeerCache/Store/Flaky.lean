import PeerCache.Store.Basic

/-!
# Flaky layer

A layer whose operations fail now and then, whatever their keys are. It counts its operations,
and the count decides which of them fail; one that fails does not reach the store below.
-/

namespace PeerCache

structure Flaky (σ : Type) where
  /-- Whether the operation of that number fails. -/
  fails : Nat → Bool
  count : Nat := 0
  inner : σ

namespace Flaky

variable {σ : Type} [ByteStore σ]

/-- Count an operation, and let the store below carry it out unless it fails. -/
def attempt {α : Type} (s : Flaky σ) (operation : String) (run : σ → Reply σ α) :
    Reply (Flaky σ) α :=
  if s.fails s.count then
    { answer := .error (.task ("failed " ++ operation)), after := { s with count := s.count + 1 } }
  else (run s.inner).within fun inner => { s with count := s.count + 1, inner }

instance : ByteStore (Flaky σ) where
  get s key := s.attempt "get" fun inner => ByteStore.get inner key
  set s key value := s.attempt "set" fun inner => ByteStore.set inner key value
  delete s key := s.attempt "delete" fun inner => ByteStore.delete inner key

end Flaky

end PeerCache

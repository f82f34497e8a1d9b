import PeerCache.Store.Basic

/-!
# Faulty layer

A layer that refuses chosen operations on chosen keys without asking the store below it. A
star among the keys stands for every key.
-/

namespace PeerCache

/-- The keys that each operation fails for. -/
structure Faults where
  get : List String := []
  set : List String := []
  delete : List String := []
  deriving DecidableEq, Repr

structure Faulty (σ : Type) where
  faults : Faults
  inner : σ

namespace Faulty

variable {σ : Type} [ByteStore σ]

def hits (keys : List String) (key : String) : Bool :=
  keys.contains key || keys.contains "*"

/-- Refuse an operation by name, or let the store below carry it out. -/
def guarded {α : Type} (s : Faulty σ) (keys : List String) (operation key : String)
    (run : σ → Reply σ α) : Reply (Faulty σ) α :=
  if hits keys key then { answer := .error (.task ("injected " ++ operation)), after := s }
  else (run s.inner).within fun inner => { s with inner }

instance : ByteStore (Faulty σ) where
  get s key := s.guarded s.faults.get "get" key fun inner => ByteStore.get inner key
  set s key value := s.guarded s.faults.set "set" key fun inner => ByteStore.set inner key value
  delete s key := s.guarded s.faults.delete "delete" key fun inner => ByteStore.delete inner key

end Faulty

end PeerCache

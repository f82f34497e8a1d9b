import PeerCache.Store.Basic

/-!
# LRU layer

A layer that bounds the bytes held by the store below it. Its index lists the keys with the
sizes of their values, most recently used first, and decides alone what is there: a key that
is not listed is not read. Setting a key moves it to the front and then drops keys from the
back until the sizes fit the capacity or only that key is left, so a value larger than the
capacity is kept on its own.
-/

namespace PeerCache

/-- Keys and value sizes, most recently used first, and the running total of the sizes. -/
structure LruIndex where
  entries : List (String × Nat) := []
  used : Nat := 0
  deriving DecidableEq, Repr

namespace LruIndex

def keys (index : LruIndex) : List String :=
  index.entries.map (·.1)

def size? (index : LruIndex) (key : String) : Option Nat :=
  index.entries.lookup key

def without (index : LruIndex) (key : String) : List (String × Nat) :=
  index.entries.filter fun e => e.1 != key

/-- Move a listed key to the front. -/
def promote (index : LruIndex) (key : String) : LruIndex :=
  match index.size? key with
  | some size => { index with entries := (key, size) :: index.without key }
  | none => index

def remove (index : LruIndex) (key : String) : LruIndex :=
  match index.size? key with
  | some size => { entries := index.without key, used := index.used - size }
  | none => index

/-- List a key first with a new size. -/
def record (index : LruIndex) (key : String) (size : Nat) : LruIndex :=
  match index.size? key with
  | some old =>
    { entries := (key, size) :: index.without key, used := index.used - old + size }
  | none => { entries := (key, size) :: index.entries, used := index.used + size }

/-- Drop entries, given with the least recently used first, while their total is above the
capacity and more than one is left. Answers the keys dropped, what is left and its total. -/
def dropOldest (capacity : Nat) : List (String × Nat) → Nat →
    List String × List (String × Nat) × Nat
  | oldest :: next :: rest, used =>
    if used > capacity then
      let (victims, left) := dropOldest capacity (next :: rest) (used - oldest.2)
      (oldest.1 :: victims, left)
    else ([], oldest :: next :: rest, used)
  | left, used => ([], left, used)

/-- Fit the index to a capacity; the keys dropped come in the order of dropping. -/
def evict (capacity : Nat) (index : LruIndex) : List String × LruIndex :=
  let (victims, left, used) := dropOldest capacity index.entries.reverse index.used
  (victims, { entries := left.reverse, used })

end LruIndex

structure Lru (σ : Type) where
  capacity : Nat
  index : LruIndex := {}
  inner : σ

namespace Lru

variable {σ : Type} [ByteStore σ]

def get (s : Lru σ) (key : String) : Reply (Lru σ) (Option Bytes) :=
  match s.index.size? key with
  | none => { answer := .ok none, after := s }
  | some _ =>
    (ByteStore.get s.inner key).within fun inner =>
      { s with index := s.index.promote key, inner }

/-- Delete keys below, whatever the answers are. -/
def deleteAll (inner : σ) (keys : List String) : σ :=
  keys.foldl (fun inner key => (ByteStore.delete inner key).after) inner

def set (s : Lru σ) (key : String) (value : Bytes) : Reply (Lru σ) Unit :=
  let (victims, index) := (s.index.record key value.length).evict s.capacity
  (ByteStore.set (deleteAll s.inner victims) key value).within fun inner =>
    { s with index, inner }

def delete (s : Lru σ) (key : String) : Reply (Lru σ) Unit :=
  (ByteStore.delete s.inner key).within fun inner =>
    { s with index := s.index.remove key, inner }

instance : ByteStore (Lru σ) where
  get := get
  set := set
  delete := delete

end Lru

end PeerCache

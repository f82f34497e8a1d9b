import PeerCache.Store.Basic

/-!
# Memory store

Values under distinct keys, held in memory. Its operations never fail.
-/

namespace PeerCache

structure Memory where
  entries : List (String × Bytes) := []
  distinct : (entries.map Prod.fst).Nodup := by simp

namespace Memory

def empty : Memory := {}

def find? (m : Memory) (key : String) : Option Bytes :=
  m.entries.lookup key

def contains (m : Memory) (key : String) : Bool :=
  (m.find? key).isSome

def erase (m : Memory) (key : String) : Memory where
  entries := m.entries.filter fun e => e.1 != key
  distinct := (List.filter_sublist.map Prod.fst).nodup m.distinct

def insert (m : Memory) (key : String) (value : Bytes) : Memory where
  entries := (key, value) :: (m.erase key).entries
  distinct := by
    rw [List.map_cons, List.nodup_cons]
    exact ⟨by simp [erase], (m.erase key).distinct⟩

def size (m : Memory) : Nat :=
  m.entries.length

def isEmpty (m : Memory) : Bool :=
  m.entries.isEmpty

/-- Total length of the values. -/
def usedBytes (m : Memory) : Nat :=
  m.entries.foldr (fun e n => e.2.length + n) 0

@[simp] theorem find?_empty (key : String) : empty.find? key = none := rfl

@[simp] theorem find?_insert_self (m : Memory) (key : String) (value : Bytes) :
    (m.insert key value).find? key = some value := by
  simp [find?, insert]

instance : ByteStore Memory where
  get m key := { answer := .ok (m.find? key), after := m }
  set m key value := { answer := .ok (), after := m.insert key value }
  delete m key := { answer := .ok (), after := m.erase key }

end Memory

end PeerCache

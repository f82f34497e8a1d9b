import PeerCache.Proofs.DigestLaws
import PeerCache.Proofs.TreeLaws
import PeerCache.Store.Stack

/-!
# Contents of a stack of layers

Which values the base of a stack can answer with. A base tells keys apart by their slot: the
key itself in memory, and the name of the file, which is the hash of the key, in a directory.
A property of slots and values holds of everything in the base as long as every value that is
set has it, whatever the layers above do, fail at or forget. Keys with one slot share a value,
so what is known about a value is known up to the slot of its key.
-/

namespace PeerCache

/-! ## File names -/

theorem Hex.dot_not_mem_encode (bytes : Bytes) : '.' ∉ Hex.encode bytes := by
  intro h
  have hdigit := Hex.mem_lowerDigits_of_mem_encode h
  revert hdigit
  decide

namespace FileStore

variable {s : FileStore} {key key' : String} {value content : Bytes}

/-- The path of the file of a key. -/
def path (s : FileStore) (key : String) : Path :=
  s.folder key ++ [fileName key]

theorem path_congr {t : FileStore} (h : t.base = s.base) (key : String) :
    t.path key = s.path key := by
  rw [path, path, folder, folder, h]

theorem base_set (s : FileStore) (key : String) (value : Bytes) :
    (s.set key value).after.base = s.base := by
  rw [FileStore.set]
  split
  · rfl
  · split
    · rfl
    · split <;> rfl

theorem base_delete (s : FileStore) (key : String) : (s.delete key).after.base = s.base := by
  rw [FileStore.delete]
  split <;> rfl

theorem temporaryName_ne_fileName (s : FileStore) (key key' : String) :
    s.temporaryName key ≠ fileName key' := by
  intro h
  have hdot : '.' ∈ (s.temporaryName key).toList := by
    rw [temporaryName]
    simp only [String.toList_append]
    simp
  rw [h, fileName, String.toList_ofList] at hdot
  exact Hex.dot_not_mem_encode _ hdot

/-- The file of a key is the only one in its folder that has the name of a key's file. -/
theorem eq_fileName_of_below {name : String} {rest : Path}
    (h : s.path key' = s.folder key ++ name :: rest) : name = fileName key' := by
  have hlen := congrArg List.length h
  have hrest : rest = [] := by
    simp only [path, folder, List.length_append, List.length_cons, List.length_nil] at hlen
    exact List.length_eq_zero_iff.mp (by omega)
  subst hrest
  have := congrArg List.getLast? h
  simpa [path] using this.symm

theorem path_ne_temporary (s : FileStore) (key key' : String) :
    s.path key' ≠ s.folder key ++ [s.temporaryName key] := by
  intro h
  exact temporaryName_ne_fileName s key key' (eq_fileName_of_below h)

theorem get_eq_some_iff : (ByteStore.get s key).answer = .ok (some value) ↔
    s.tree.read (s.path key) = .ok value := by
  show (FileStore.get s key).answer = _ ↔ _
  rw [FileStore.get, path]
  dsimp only
  split <;> simp_all

/-- What lies at the file of a key after a file was written and renamed to it. -/
theorem read_of_replace {ready full tree : Tree}
    (hw : ready.write (s.folder key) (s.temporaryName key) value = .ok full)
    (hr : full.rename (s.folder key) (s.temporaryName key) (fileName key) = .ok tree)
    (h : tree.read (s.path key') = .ok content) :
    (fileName key' = fileName key ∧ content = value) ∨
      ready.read (s.path key') = .ok content := by
  rcases Tree.read_of_rename hr h with ⟨rest, hpath, hold⟩ | hold
  · rcases Tree.read_of_write hw hold with ⟨-, hc⟩ | ⟨hne, -⟩
    · exact .inl ⟨(eq_fileName_of_below hpath).symm, hc⟩
    · exact absurd rfl (hne rest)
  · rcases Tree.read_of_write hw hold with ⟨hpath, -⟩ | ⟨-, hready⟩
    · exact absurd hpath (path_ne_temporary s key key')
    · exact .inr hready

/-- Setting a key leaves no other values under slots than the one that is set. -/
theorem get_of_set (h : (ByteStore.get (ByteStore.set s key value).after key').answer =
      .ok (some content)) :
    (fileName key' = fileName key ∧ content = value) ∨
      (ByteStore.get s key').answer = .ok (some content) := by
  rw [get_eq_some_iff] at h ⊢
  change (FileStore.set s key value).after.tree.read
    ((FileStore.set s key value).after.path key') = _ at h
  rw [path_congr (base_set s key value)] at h
  unfold FileStore.set at h
  split at h
  · exact .inr h
  · next ready hready =>
    split at h
    · exact .inr (Tree.read_of_makeDirs hready h)
    · next full hfull =>
      split at h
      · next tree hrename =>
        exact (read_of_replace hfull hrename h).imp_right (Tree.read_of_makeDirs hready)
      · have hread : full.read (s.path key') = .ok content := by
          cases hremove : full.remove (s.folder key) (s.temporaryName key) with
          | error e => rw [hremove] at h; exact h
          | ok tree => rw [hremove] at h; exact Tree.read_of_remove hremove h
        rcases Tree.read_of_write hfull hread with ⟨hpath, -⟩ | ⟨-, hread⟩
        · exact absurd hpath (path_ne_temporary s key key')
        · exact .inr (Tree.read_of_makeDirs hready hread)

theorem get_of_delete (h : (ByteStore.get (ByteStore.delete s key).after key').answer =
    .ok (some content)) : (ByteStore.get s key').answer = .ok (some content) := by
  rw [get_eq_some_iff] at h ⊢
  change (FileStore.delete s key).after.tree.read ((FileStore.delete s key).after.path key') = _
    at h
  rw [path_congr (base_delete s key)] at h
  unfold FileStore.delete at h
  split at h
  · next tree hremove => exact Tree.read_of_remove hremove h
  · exact h
  · exact h

end FileStore

namespace Memory

variable {m : Memory} {key key' : String} {value content : Bytes}

theorem find?_erase (m : Memory) (key key' : String) :
    (m.erase key).find? key' = if key' = key then none else m.find? key' :=
  lookup_filter_ne key key' m.entries

theorem find?_insert (m : Memory) (key key' : String) (value : Bytes) :
    (m.insert key value).find? key' = if key' = key then some value else m.find? key' := by
  apply (lookup_cons_ite key key' value _).trans
  by_cases h : key' = key
  · rw [if_pos h, if_pos h]
  · rw [if_neg h, if_neg h]
    exact (find?_erase m key key').trans (if_neg h)

end Memory

/-! ## Slots -/

namespace Stack

/-- What the base of a stack tells keys apart by. -/
def slot : Stack → String → String
  | memory, key => key
  | files _, key => FileStore.fileName key
  | lru _ inner, key => inner.slot key
  | slow _ _ inner, key => inner.slot key
  | faulty _ inner, key => inner.slot key
  | flaky _ inner, key => inner.slot key

/-- Whether everything that the base answers with has a property, given with its slot. -/
def Keeps (s : Stack) (P : String → Bytes → Prop) (store : s.State) : Prop :=
  ∀ key value, (ByteStore.get (s.base store) key).answer = .ok (some value) →
    P (s.slot key) value

variable {s : Stack} {P Q : String → Bytes → Prop} {store : s.State} {key : String}
  {value : Bytes}

theorem Keeps.mono (h : s.Keeps P store) (hpq : ∀ slot value, P slot value → Q slot value) :
    s.Keeps Q store := by
  intro key value hv
  exact hpq _ _ (h key value hv)

theorem keeps_initial (s : Stack) (P : String → Bytes → Prop) : s.Keeps P s.initial := by
  induction s with
  | memory => intro key value h; cases h
  | files base =>
    intro key value h
    have hread := FileStore.get_eq_some_iff.mp h
    unfold initial freshFiles at hread
    dsimp only at hread
    cases hm : Tree.empty.makeDirs base with
    | error e =>
      rw [hm] at hread
      exact absurd hread (Tree.not_read_empty _)
    | ok tree =>
      rw [hm] at hread
      exact absurd (Tree.read_of_makeDirs hm hread) (Tree.not_read_empty _)
  | lru capacity inner ih => exact ih
  | slow read write inner ih => exact ih
  | faulty faults inner ih => exact ih
  | flaky fails inner ih => exact ih

/-! ## Operations -/

/-- Reading changes no base. -/
theorem base_get (s : Stack) (store : s.State) (key : String) :
    s.base (ByteStore.get store key).after = s.base store := by
  induction s with
  | memory => rfl
  | files base => rfl
  | lru capacity inner ih =>
    change (lru capacity inner).base (Lru.get store key).after = _
    rw [Lru.get]
    split
    · rfl
    · exact ih store.inner
  | slow read write inner ih => exact ih store.inner
  | faulty faults inner ih =>
    change (faulty faults inner).base (Faulty.guarded store _ _ _ _).after = _
    rw [Faulty.guarded]
    split
    · rfl
    · exact ih store.inner
  | flaky fails inner ih =>
    change (flaky fails inner).base (Flaky.attempt store _ _).after = _
    rw [Flaky.attempt]
    split
    · rfl
    · exact ih store.inner

/-- A value that a stack answers with is one that its base has. -/
theorem get_base (h : (ByteStore.get store key).answer = .ok (some value)) :
    (ByteStore.get (s.base store) key).answer = .ok (some value) := by
  induction s with
  | memory => exact h
  | files base => exact h
  | lru capacity inner ih =>
    change (Lru.get store key).answer = _ at h
    unfold Lru.get at h
    split at h
    · cases h
    · exact ih h
  | slow read write inner ih => exact ih h
  | faulty faults inner ih =>
    change (Faulty.guarded store _ _ _ _).answer = _ at h
    unfold Faulty.guarded at h
    split at h
    · cases h
    · exact ih h
  | flaky fails inner ih =>
    change (Flaky.attempt store _ _).answer = _ at h
    unfold Flaky.attempt at h
    split at h
    · cases h
    · exact ih h

namespace Keeps

theorem get (h : s.Keeps P store) (key : String) : s.Keeps P (ByteStore.get store key).after := by
  rw [Keeps]
  rw [base_get]
  exact h

theorem of_get (h : s.Keeps P store) (hv : (ByteStore.get store key).answer = .ok (some value)) :
    P (s.slot key) value :=
  h key value (get_base hv)

theorem delete (h : s.Keeps P store) (key : String) :
    s.Keeps P (ByteStore.delete store key).after := by
  induction s with
  | memory =>
    intro key' value hv
    have hfound : (Memory.erase store key).find? key' = some value := Except.ok.inj hv
    rw [Memory.find?_erase] at hfound
    split at hfound
    · cases hfound
    · exact h key' value (congrArg Except.ok hfound)
  | files base => exact fun key' value hv => h key' value (FileStore.get_of_delete hv)
  | lru capacity inner ih => exact ih h
  | slow read write inner ih => exact ih h
  | faulty faults inner ih =>
    change (faulty faults inner).Keeps P (Faulty.guarded store _ _ _ _).after
    rw [Faulty.guarded]
    split
    · exact h
    · exact ih h
  | flaky fails inner ih =>
    change (flaky fails inner).Keeps P (Flaky.attempt store _ _).after
    rw [Flaky.attempt]
    split
    · exact h
    · exact ih h

theorem deleteAll (h : s.Keeps P store) (keys : List String) :
    s.Keeps P (Lru.deleteAll store keys) := by
  induction keys generalizing store with
  | nil => exact h
  | cons key keys ih => exact ih (h.delete key)

theorem set (h : s.Keeps P store) (key : String) (value : Bytes) (hv : P (s.slot key) value) :
    s.Keeps P (ByteStore.set store key value).after := by
  induction s with
  | memory =>
    intro key' content hc
    have hfound : (Memory.insert store key value).find? key' = some content := Except.ok.inj hc
    rw [Memory.find?_insert] at hfound
    split at hfound
    · next hkey =>
      cases hfound
      exact hkey ▸ hv
    · exact h key' content (congrArg Except.ok hfound)
  | files base =>
    intro key' content hc
    rcases FileStore.get_of_set hc with ⟨hname, rfl⟩ | hc
    · exact (congrArg (P · content) hname).mpr hv
    · exact h key' content hc
  | lru capacity inner ih =>
    have hinner : inner.Keeps P store.inner := h
    exact ih (hinner.deleteAll _) hv
  | slow read write inner ih => exact ih h hv
  | faulty faults inner ih =>
    change (faulty faults inner).Keeps P (Faulty.guarded store _ _ _ _).after
    rw [Faulty.guarded]
    split
    · exact h
    · exact ih h hv
  | flaky fails inner ih =>
    change (flaky fails inner).Keeps P (Flaky.attempt store _ _).after
    rw [Flaky.attempt]
    split
    · exact h
    · exact ih h hv

end Keeps

end Stack

end PeerCache

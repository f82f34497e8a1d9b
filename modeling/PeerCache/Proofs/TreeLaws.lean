import PeerCache.Proofs.ExceptLaws
import PeerCache.Proofs.LookupLaws
import PeerCache.Store.Tree

/-!
# Laws of file trees

What can be read after an operation on a tree. Making directories adds nothing that can be
read. The other operations change one directory, so every file elsewhere is as it was, and a
file below that directory is one of those that the change left there.
-/

namespace PeerCache.Tree

variable {tree tree' : Tree} {folder path : Path} {name : String} {content value : Bytes}

/-! ## Entries -/

theorem Entries.lookup_put (entries : Entries) (name n : String) (tree : Tree) :
    (Entries.put name tree entries).lookup n =
      if n = name then some tree else entries.lookup n := by
  induction entries with
  | nil => exact lookup_cons_ite name n tree []
  | cons e rest ih =>
    obtain ⟨m, t⟩ := e
    rw [put]
    by_cases hm : m = name
    · rw [if_pos hm, lookup_cons_ite, lookup_cons_ite, hm]
      by_cases h : n = name <;> simp [h]
    · rw [if_neg hm, lookup_cons_ite, lookup_cons_ite, ih]
      by_cases h : n = name
      · rw [if_pos h, if_neg (h ▸ Ne.symm hm), if_pos h]
      · rw [if_neg h, if_neg h]

theorem Entries.lookup_put_self (entries : Entries) (name : String) (tree : Tree) :
    (Entries.put name tree entries).lookup name = some tree :=
  (lookup_put entries name name tree).trans (if_pos rfl)

theorem Entries.lookup_erase (entries : Entries) (name n : String) :
    (Entries.erase name entries).lookup n = if n = name then none else entries.lookup n :=
  lookup_filter_ne name n entries

/-! ## Paths -/

theorem find_cons {entries : Entries} (h : entries.lookup name = some tree) (rest : Path) :
    find (name :: rest) (.dir entries) = find rest tree := by
  rw [find, h]

/-- A path that goes on leads through an entry of a directory. -/
theorem exists_of_find_cons {rest : Path} (h : find (name :: rest) tree = .ok tree') :
    ∃ entries below, tree = .dir entries ∧ entries.lookup name = some below ∧
      find rest below = .ok tree' := by
  cases tree with
  | file c => cases h
  | dir entries =>
    cases hl : entries.lookup name with
    | none =>
      rw [find, hl] at h
      cases h
    | some below => exact ⟨entries, below, rfl, hl, (find_cons hl rest).symm.trans h⟩

theorem find_append (h : find folder tree = .ok tree') (path : Path) :
    find (folder ++ path) tree = find path tree' := by
  induction folder generalizing tree with
  | nil =>
    cases h
    rfl
  | cons d folder ih =>
    obtain ⟨entries, below, rfl, hl, hbelow⟩ := exists_of_find_cons h
    rw [List.cons_append, find_cons hl]
    exact ih hbelow

/-! ## Reading -/

theorem not_read_nil (entries : Entries) : read [] (.dir entries) ≠ .ok content := by
  intro h
  cases h

theorem not_read_below (name : String) (rest : Path) :
    read (name :: rest) (.file content) ≠ .ok value := by
  intro h
  cases h

theorem read_cons_iff (entries : Entries) (name : String) (rest : Path) :
    read (name :: rest) (.dir entries) = .ok content ↔
      ∃ tree, entries.lookup name = some tree ∧ read rest tree = .ok content := by
  simp only [read]
  rw [find]
  cases entries.lookup name with
  | none => simp
  | some tree => simp

/-- A file is a tree with one path that can be read. -/
theorem read_file (h : read path (.file content) = .ok value) : path = [] ∧ value = content := by
  cases path with
  | nil => cases h; exact ⟨rfl, rfl⟩
  | cons name rest => exact absurd h (not_read_below name rest)

theorem not_read_empty (path : Path) : read path empty ≠ .ok content := by
  cases path with
  | nil => exact not_read_nil []
  | cons name rest =>
    intro h
    obtain ⟨tree, hl, -⟩ := (read_cons_iff [] name rest).mp h
    cases hl

/-- A file is read through an entry that was put, or past it. -/
theorem read_put {entries : Entries} {d : String} {t : Tree}
    (h : read path (.dir (Entries.put d t entries)) = .ok content) :
    (∃ rest, path = d :: rest ∧ read rest t = .ok content) ∨
      (path.head? ≠ some d ∧ read path (.dir entries) = .ok content) := by
  cases path with
  | nil => exact absurd h (not_read_nil _)
  | cons name rest =>
    obtain ⟨below, hl, hr⟩ := (read_cons_iff _ name rest).mp h
    rw [Entries.lookup_put] at hl
    split at hl
    · next hn =>
      cases hl
      exact .inl ⟨rest, by rw [hn], hr⟩
    · next hn => exact .inr ⟨by simpa using hn, (read_cons_iff _ name rest).mpr ⟨below, hl, hr⟩⟩

theorem read_erase {entries : Entries} {d : String}
    (h : read path (.dir (Entries.erase d entries)) = .ok content) :
    read path (.dir entries) = .ok content := by
  cases path with
  | nil => exact absurd h (not_read_nil _)
  | cons name rest =>
    obtain ⟨below, hl, hr⟩ := (read_cons_iff _ name rest).mp h
    rw [Entries.lookup_erase] at hl
    split at hl
    · cases hl
    · exact (read_cons_iff _ name rest).mpr ⟨below, hl, hr⟩

/-! ## Directories that are made -/

theorem not_read_newDirs (folder path : Path) : read path (newDirs folder) ≠ .ok content := by
  induction folder generalizing path with
  | nil => exact not_read_empty path
  | cons d folder ih =>
    cases path with
    | nil => exact not_read_nil _
    | cons name rest =>
      intro h
      obtain ⟨tree, hl, hr⟩ := (read_cons_iff _ name rest).mp h
      rw [List.lookup_cons, List.lookup_nil] at hl
      split at hl
      · cases hl
        exact ih rest hr
      · cases hl

theorem makeDirs_cons {entries : Entries} {d : String} {t : Tree} (h : entries.lookup d = some t)
    (folder : Path) : makeDirs (d :: folder) (.dir entries) =
      (makeDirs folder t).map fun made => .dir (Entries.put d made entries) := by
  rw [makeDirs, h]

theorem makeDirs_nil_inv (h : makeDirs [] tree = .ok tree') :
    tree' = tree ∧ ∃ entries, tree = .dir entries := by
  cases tree with
  | file c => cases h
  | dir entries =>
    cases h
    exact ⟨rfl, entries, rfl⟩

/-- The first directory of a path is made, with all below it, or the rest is made in it. -/
theorem makeDirs_cons_inv {d : String} (h : makeDirs (d :: folder) tree = .ok tree') :
    ∃ entries, tree = .dir entries ∧
      ((entries.lookup d = none ∧ tree' = .dir (Entries.put d (newDirs folder) entries)) ∨
        ∃ t made, entries.lookup d = some t ∧ makeDirs folder t = .ok made ∧
          tree' = .dir (Entries.put d made entries)) := by
  cases tree with
  | file c => cases h
  | dir entries =>
    refine ⟨entries, rfl, ?_⟩
    cases hl : entries.lookup d with
    | none =>
      rw [makeDirs, hl] at h
      exact .inl ⟨rfl, (Except.ok.inj h).symm⟩
    | some t =>
      rw [makeDirs_cons hl] at h
      obtain ⟨made, hm, rfl⟩ := exists_of_map_ok h
      exact .inr ⟨t, made, rfl, hm, rfl⟩

theorem read_of_makeDirs (h : makeDirs folder tree = .ok tree')
    (hr : read path tree' = .ok content) : read path tree = .ok content := by
  induction folder generalizing tree tree' path with
  | nil => rwa [(makeDirs_nil_inv h).1] at hr
  | cons d folder ih =>
    obtain ⟨entries, rfl, ⟨-, rfl⟩ | ⟨t, made, hl, hm, rfl⟩⟩ := makeDirs_cons_inv h
    · rcases read_put hr with ⟨rest, rfl, hnew⟩ | ⟨-, hold⟩
      · exact absurd hnew (not_read_newDirs folder rest)
      · exact hold
    · rcases read_put hr with ⟨rest, rfl, hmade⟩ | ⟨-, hold⟩
      · exact (read_cons_iff _ d rest).mpr ⟨t, hl, ih hm hmade⟩
      · exact hold

/-! ## Changes in one directory -/

theorem read_append (h : find folder tree = .ok tree') (path : Path) :
    read (folder ++ path) tree = read path tree' := by
  rw [read, read, find_append h]

variable {change : Entries → Except IoError Entries}

theorem modify_cons {entries : Entries} {d : String} {t : Tree} (h : entries.lookup d = some t)
    (change : Entries → Except IoError Entries) (folder : Path) :
    modify change (d :: folder) (.dir entries) =
      (modify change folder t).map fun changed => .dir (Entries.put d changed entries) := by
  rw [modify, h]

theorem modify_nil_inv (h : modify change [] tree = .ok tree') : ∃ entries entries',
    tree = .dir entries ∧ change entries = .ok entries' ∧ tree' = .dir entries' := by
  cases tree with
  | file c => cases h
  | dir entries =>
    obtain ⟨entries', hc, rfl⟩ := exists_of_map_ok h
    exact ⟨entries, entries', rfl, hc, rfl⟩

/-- A change further down is made in an entry, which takes its own place. -/
theorem modify_cons_inv {d : String} (h : modify change (d :: folder) tree = .ok tree') :
    ∃ entries t changed, tree = .dir entries ∧ entries.lookup d = some t ∧
      modify change folder t = .ok changed ∧ tree' = .dir (Entries.put d changed entries) := by
  cases tree with
  | file c => cases h
  | dir entries =>
    cases hl : entries.lookup d with
    | none =>
      rw [modify, hl] at h
      cases h
    | some t =>
      rw [modify_cons hl] at h
      obtain ⟨changed, hm, rfl⟩ := exists_of_map_ok h
      exact ⟨entries, t, changed, rfl, hl, hm, rfl⟩

/-- The directory that is changed, before and after. -/
theorem find_modify (h : modify change folder tree = .ok tree') :
    ∃ entries entries', find folder tree = .ok (.dir entries) ∧
      change entries = .ok entries' ∧ find folder tree' = .ok (.dir entries') := by
  induction folder generalizing tree tree' with
  | nil =>
    obtain ⟨entries, entries', rfl, hc, rfl⟩ := modify_nil_inv h
    exact ⟨entries, entries', rfl, hc, rfl⟩
  | cons d folder ih =>
    obtain ⟨above, below, changed, rfl, hl, hm, rfl⟩ := modify_cons_inv h
    obtain ⟨entries, entries', hf, hc, hf'⟩ := ih hm
    exact ⟨entries, entries', (find_cons hl folder).trans hf, hc,
      (find_cons (Entries.lookup_put_self above d changed) folder).trans hf'⟩

theorem read_modify_elsewhere (h : modify change folder tree = .ok tree')
    (hp : ∀ name rest, path ≠ folder ++ name :: rest) (hr : read path tree' = .ok content) :
    read path tree = .ok content := by
  induction folder generalizing tree tree' path with
  | nil =>
    obtain ⟨entries, entries', rfl, -, rfl⟩ := modify_nil_inv h
    cases path with
    | nil => exact absurd hr (not_read_nil _)
    | cons name rest => exact absurd rfl (hp name rest)
  | cons d folder ih =>
    obtain ⟨above, below, changed, rfl, hl, hm, rfl⟩ := modify_cons_inv h
    rcases read_put hr with ⟨rest, rfl, hchanged⟩ | ⟨-, hold⟩
    · have hp' : ∀ name r, rest ≠ folder ++ name :: r :=
        fun name r he => hp name r (congrArg (d :: ·) he)
      exact (read_cons_iff _ d rest).mpr ⟨below, hl, ih hm hp' hchanged⟩
    · exact hold

/-- A file that can be read after a change was there before, unless the change put it into
its directory. -/
theorem read_of_modify (h : modify change folder tree = .ok tree')
    (hr : read path tree' = .ok content) :
    (∃ name rest entries entries', path = folder ++ name :: rest ∧
      find folder tree = .ok (.dir entries) ∧ change entries = .ok entries' ∧
      read (name :: rest) (.dir entries') = .ok content) ∨
    ((∀ name rest, path ≠ folder ++ name :: rest) ∧ read path tree = .ok content) := by
  by_cases hp : ∃ name rest, path = folder ++ name :: rest
  · obtain ⟨name, rest, rfl⟩ := hp
    obtain ⟨entries, entries', hf, hc, hf'⟩ := find_modify h
    exact .inl ⟨name, rest, entries, entries', rfl, hf, hc, (read_append hf' _).symm.trans hr⟩
  · have hp : ∀ name rest, path ≠ folder ++ name :: rest :=
      fun name rest he => hp ⟨name, rest, he⟩
    exact .inr ⟨hp, read_modify_elsewhere h hp hr⟩

theorem read_of_write (h : write folder name value tree = .ok tree')
    (hr : read path tree' = .ok content) :
    (path = folder ++ [name] ∧ content = value) ∨
      ((∀ rest, path ≠ folder ++ name :: rest) ∧ read path tree = .ok content) := by
  obtain ⟨n, rest, entries, entries', rfl, hf, hc, hr⟩ | ⟨hp, hr⟩ := read_of_modify h hr
  · have hput : entries' = Entries.put name (.file value) entries := by
      split at hc <;> cases hc
      rfl
    rw [hput] at hr
    rcases read_put hr with ⟨rest', he, hr⟩ | ⟨hne, hr⟩
    · obtain ⟨rfl, rfl⟩ := List.cons.inj he
      obtain ⟨rfl, rfl⟩ := read_file hr
      exact .inl ⟨rfl, rfl⟩
    · refine .inr ⟨fun r he => hne ?_, (read_append hf _).trans hr⟩
      rw [List.append_cancel_left he]
      rfl
  · exact .inr ⟨fun rest => hp name rest, hr⟩

theorem read_of_remove (h : remove folder name tree = .ok tree')
    (hr : read path tree' = .ok content) : read path tree = .ok content := by
  obtain ⟨n, rest, entries, entries', rfl, hf, hc, hr⟩ | ⟨-, hr⟩ := read_of_modify h hr
  · have herase : entries' = Entries.erase name entries := by
      split at hc <;> cases hc
      rfl
    rw [herase] at hr
    exact (read_append hf _).trans (read_erase hr)
  · exact hr

/-- A file that can be read after another one got a new name is that one, or was there. -/
theorem read_of_rename {old new : String} (h : rename folder old new tree = .ok tree')
    (hr : read path tree' = .ok content) :
    (∃ rest, path = folder ++ new :: rest ∧ read (folder ++ old :: rest) tree = .ok content) ∨
      read path tree = .ok content := by
  obtain ⟨n, rest, entries, entries', rfl, hf, hc, hr⟩ | ⟨-, hr⟩ := read_of_modify h hr
  · obtain ⟨moved, hold, hput⟩ : ∃ moved, entries.lookup old = some moved ∧
        entries' = Entries.put new moved (Entries.erase old entries) := by
      split at hc <;> cases hc
      exact ⟨_, ‹_›, rfl⟩
    rw [hput] at hr
    rcases read_put hr with ⟨rest', he, hr⟩ | ⟨-, hr⟩
    · obtain ⟨rfl, rfl⟩ := List.cons.inj he
      refine .inl ⟨rest, rfl, ?_⟩
      rw [read_append hf]
      exact (read_cons_iff _ old rest).mpr ⟨moved, hold, hr⟩
    · exact .inr ((read_append hf _).trans (read_erase hr))
  · exact .inr hr

end PeerCache.Tree

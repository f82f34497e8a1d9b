import PeerCache.Proofs.TreeLaws

/-!
# What paths lead to

How the operations on a tree change what each path leads to, errors included. Making the
directories of a path changes nothing for all other paths. A change in one directory changes
nothing for the paths that neither lead to it nor go through it, and it can be taken back. The
refusals of both are told from what the paths led to before.
-/

namespace PeerCache.Tree

variable {tree tree' below : Tree} {folder path rest : Path} {name : String} {e : IoError}
  {entries entries' : Entries} {change undo : Entries → Except IoError Entries}

/-! ## Entries -/

theorem Entries.put_of_lookup (h : entries.lookup name = some tree) :
    Entries.put name tree entries = entries := by
  induction entries with
  | nil => cases h
  | cons e entries ih =>
    obtain ⟨m, t⟩ := e
    rw [lookup_cons_ite] at h
    rw [put]
    by_cases hm : m = name
    · rw [if_pos hm.symm] at h
      rw [if_pos hm, hm, Option.some.inj h]
    · rw [if_neg (Ne.symm hm)] at h
      rw [if_neg hm, ih h]

theorem Entries.put_put (name : String) (a b : Tree) (entries : Entries) :
    Entries.put name b (Entries.put name a entries) = Entries.put name b entries := by
  induction entries with
  | nil => exact if_pos rfl
  | cons e entries ih =>
    by_cases hm : e.1 = name
    · rw [put, if_pos hm, put, if_pos rfl, put, if_pos hm]
    · rw [put, if_neg hm, put, if_neg hm, put, if_neg hm, ih]

/-- An entry that was added under a free name and erased again leaves no trace. -/
theorem Entries.erase_put (h : entries.lookup name = none) :
    Entries.erase name (Entries.put name tree entries) = entries := by
  induction entries with
  | nil => simp [put, erase]
  | cons e entries ih =>
    obtain ⟨m, t⟩ := e
    rw [lookup_cons_ite] at h
    have hm : m ≠ name := by
      rintro rfl
      rw [if_pos rfl] at h
      cases h
    rw [if_neg (Ne.symm hm)] at h
    rw [put, if_neg hm]
    exact (List.filter_cons_of_pos (by simpa using hm)).trans (congrArg _ (ih h))

/-! ## One name of a path -/

theorem find_name_iff : find [name] (.dir entries) = .ok tree ↔ entries.lookup name = some tree := by
  rw [find]
  cases entries.lookup name <;> simp [find]

theorem find_put (name n : String) (tree : Tree) (entries : Entries) (rest : Path) :
    find (n :: rest) (.dir (Entries.put name tree entries)) =
      if n = name then find rest tree else find (n :: rest) (.dir entries) := by
  rw [find, find, Entries.lookup_put]
  by_cases hn : n = name
  · rw [if_pos hn, if_pos hn]
  · rw [if_neg hn, if_neg hn]

/-! ## Paths that go on -/

theorem find_append_of_error (h : find folder tree = .error e) (path : Path) :
    find (folder ++ path) tree = .error e := by
  induction folder generalizing tree with
  | nil => cases h
  | cons d folder ih =>
    cases tree with
    | file c => exact h
    | dir entries =>
      cases hl : entries.lookup d with
      | none =>
        rw [find, hl] at h
        rw [List.cons_append, find, hl]
        exact h
      | some t =>
        rw [find_cons hl] at h
        rw [List.cons_append, find_cons hl]
        exact ih h

/-- A path that goes on behind something goes through it. -/
theorem exists_of_find_append (h : find (folder ++ path) tree = .ok below) :
    ∃ t, find folder tree = .ok t ∧ find path t = .ok below := by
  cases hf : find folder tree with
  | error e =>
    rw [find_append_of_error hf] at h
    cases h
  | ok t => exact ⟨t, rfl, (find_append hf path).symm.trans h⟩

/-- What lies above a directory is a directory. -/
theorem exists_dir_above (hp : path <+: folder) (h : find folder tree = .ok (.dir entries)) :
    ∃ above, find path tree = .ok (.dir above) := by
  obtain ⟨rest, rfl⟩ := hp
  obtain ⟨t, hpath, hrest⟩ := exists_of_find_append h
  cases t with
  | dir above => exact ⟨above, hpath⟩
  | file c => cases rest <;> cases hrest

/-- Why a path leads to nothing: a name is missing, or the path goes on behind a file. -/
theorem find_eq_error (h : find path tree = .error e) :
    e = .notFound ∨
      e = .notDirectory ∧ ∃ above content, above <+: path ∧ above ≠ path ∧
        find above tree = .ok (.file content) := by
  induction path generalizing tree with
  | nil => cases h
  | cons d path ih =>
    cases tree with
    | file c =>
      cases h
      exact .inr ⟨rfl, [], c, List.nil_prefix, nofun, rfl⟩
    | dir entries =>
      cases hl : entries.lookup d with
      | none =>
        rw [find, hl] at h
        cases h
        exact .inl rfl
      | some t =>
        rw [find_cons hl] at h
        rcases ih h with rfl | ⟨rfl, above, content, ha, hne, hfile⟩
        · exact .inl rfl
        · refine .inr ⟨rfl, d :: above, content, List.cons_prefix_cons.mpr ⟨rfl, ha⟩, ?_, ?_⟩
          · rintro ⟨⟩
            exact hne rfl
          · rw [find_cons hl]
            exact hfile

/-! ## Directories that are made -/

theorem find_newDirs_self (folder : Path) : find folder (newDirs folder) = .ok empty := by
  induction folder with
  | nil => rfl
  | cons d folder ih =>
    rw [newDirs, find, List.lookup_cons_self]
    exact ih

theorem find_newDirs (hp : ¬path <+: folder) : find path (newDirs folder) = .error .notFound := by
  induction folder generalizing path with
  | nil =>
    cases path with
    | nil => exact absurd List.nil_prefix hp
    | cons name rest => rfl
  | cons d folder ih =>
    cases path with
    | nil => exact absurd List.nil_prefix hp
    | cons name rest =>
      rw [newDirs, find, lookup_cons_ite]
      by_cases hn : name = d
      · rw [if_pos hn]
        exact ih fun hrest => hp (List.cons_prefix_cons.mpr ⟨hn, hrest⟩)
      · rw [if_neg hn]
        rfl

/-- Making directories changes nothing for the paths that lead to none of them. -/
theorem find_makeDirs (h : makeDirs folder tree = .ok tree') (hp : ¬path <+: folder) :
    find path tree' = find path tree := by
  induction folder generalizing tree tree' path with
  | nil => rw [(makeDirs_nil_inv h).1]
  | cons d folder ih =>
    cases path with
    | nil => exact absurd List.nil_prefix hp
    | cons name rest =>
      have hrest : name = d → ¬rest <+: folder := by
        intro hn hr
        exact hp (List.cons_prefix_cons.mpr ⟨hn, hr⟩)
      obtain ⟨entries, rfl, ⟨hl, rfl⟩ | ⟨t, made, hl, hm, rfl⟩⟩ := makeDirs_cons_inv h
      · rw [find_put]
        split
        · next hn => rw [find_newDirs (hrest hn), find, hn, hl]
        · rfl
      · rw [find_put]
        split
        · next hn => rw [ih hm (hrest hn), hn, find_cons hl]
        · rfl

/-- A directory that was there stays as it is, with the whole tree; a new one is empty. -/
theorem makeDirs_cases (h : makeDirs folder tree = .ok tree') :
    (tree' = tree ∧ ∃ entries, find folder tree = .ok (.dir entries)) ∨
      (find folder tree = .error .notFound ∧ find folder tree' = .ok (.dir [])) := by
  induction folder generalizing tree tree' with
  | nil =>
    obtain ⟨rfl, entries, rfl⟩ := makeDirs_nil_inv h
    exact .inl ⟨rfl, entries, rfl⟩
  | cons d folder ih =>
    obtain ⟨entries, rfl, ⟨hl, rfl⟩ | ⟨t, made, hl, hm, rfl⟩⟩ := makeDirs_cons_inv h
    · refine .inr ⟨by rw [find, hl], ?_⟩
      rw [find_put, if_pos rfl]
      exact find_newDirs_self folder
    · rw [find_cons hl]
      rcases ih hm with ⟨rfl, hdir⟩ | ⟨hnone, hnew⟩
      · rw [Entries.put_of_lookup hl]
        exact .inl ⟨rfl, hdir⟩
      · refine .inr ⟨hnone, ?_⟩
        rw [find_put, if_pos rfl]
        exact hnew

/-- Directories can be made unless a file lies on their path. -/
theorem makeDirs_ok_iff : (∃ tree', makeDirs folder tree = .ok tree') ↔
    ∀ path content, path <+: folder → find path tree ≠ .ok (.file content) := by
  induction folder generalizing tree with
  | nil =>
    cases tree with
    | file c =>
      constructor
      · rintro ⟨_, ⟨⟩⟩
      · exact fun h => absurd rfl (h [] c List.prefix_rfl)
    | dir entries =>
      refine ⟨fun _ path content hp => ?_, fun _ => ⟨_, rfl⟩⟩
      rw [List.prefix_nil.mp hp]
      rintro ⟨⟩
  | cons d folder ih =>
    cases tree with
    | file c =>
      constructor
      · rintro ⟨_, ⟨⟩⟩
      · exact fun h => absurd rfl (h [] c List.nil_prefix)
    | dir entries =>
      cases hl : entries.lookup d with
      | none =>
        rw [makeDirs, hl]
        refine ⟨fun _ path content hp => ?_, fun _ => ⟨_, rfl⟩⟩
        cases path with
        | nil => rintro ⟨⟩
        | cons name rest =>
          rw [(List.cons_prefix_cons.mp hp).1, find, hl]
          rintro ⟨⟩
      | some t =>
        rw [makeDirs_cons hl]
        constructor
        · rintro ⟨tree', h⟩ path content hp
          obtain ⟨made, hm, -⟩ := exists_of_map_ok h
          cases path with
          | nil => rintro ⟨⟩
          | cons name rest =>
            obtain ⟨rfl, hrest⟩ := List.cons_prefix_cons.mp hp
            rw [find_cons hl]
            exact ih.mp ⟨made, hm⟩ rest content hrest
        · intro h
          have hbelow : ∀ path content, path <+: folder → find path t ≠ .ok (.file content) := by
            intro path content hp
            rw [← find_cons hl]
            exact h (d :: path) content (List.cons_prefix_cons.mpr ⟨rfl, hp⟩)
          obtain ⟨made, hm⟩ := ih.mpr hbelow
          rw [hm]
          exact ⟨_, rfl⟩

/-! ## Changes in one directory -/

/-- A change in a directory changes nothing for the paths apart from it. -/
theorem find_modify_apart (h : modify change folder tree = .ok tree') (hp : ¬path <+: folder)
    (hf : ¬folder <+: path) : find path tree' = find path tree := by
  induction folder generalizing tree tree' path with
  | nil => exact absurd List.nil_prefix hf
  | cons d folder ih =>
    obtain ⟨entries, t, changed, rfl, hl, hm, rfl⟩ := modify_cons_inv h
    cases path with
    | nil => exact absurd List.nil_prefix hp
    | cons name rest =>
      rw [find_put]
      split
      · next hn =>
        subst hn
        rw [find_cons hl]
        exact ih hm (fun hr => hp (List.cons_prefix_cons.mpr ⟨rfl, hr⟩))
          fun hr => hf (List.cons_prefix_cons.mpr ⟨rfl, hr⟩)
      · rfl

/-- Two trees that differ in a directory by one name lead to the same everywhere else. -/
theorem find_congr_apart (hf : find folder tree = .ok (.dir entries))
    (hf' : find folder tree' = .ok (.dir entries'))
    (hnames : ∀ n, n ≠ name → entries'.lookup n = entries.lookup n)
    (hapart : ∀ path, ¬path <+: folder → ¬folder <+: path → find path tree' = find path tree)
    (hp : ¬path <+: folder) (hq : ¬folder ++ [name] <+: path) :
    find path tree' = find path tree := by
  by_cases hin : folder <+: path
  · obtain ⟨rest, rfl⟩ := hin
    cases rest with
    | nil => exact absurd (List.append_nil _ ▸ List.prefix_rfl) hp
    | cons n rest =>
      have hn : n ≠ name := by
        rintro rfl
        exact hq ((List.prefix_append_right_inj _).mpr (List.prefix_append [n] rest))
      rw [find_append hf, find_append hf', find, find, hnames n hn]
  · exact hapart path hp hin

theorem exists_of_change (hf : find folder tree = .ok (.dir entries))
    (hc : change entries = .ok entries') : ∃ tree', modify change folder tree = .ok tree' := by
  induction folder generalizing tree with
  | nil =>
    cases hf
    exact ⟨.dir entries', by rw [modify, hc]; rfl⟩
  | cons d folder ih =>
    obtain ⟨above, t, rfl, hl, hbelow⟩ := exists_of_find_cons hf
    obtain ⟨changed, hm⟩ := ih hbelow
    exact ⟨_, by rw [modify_cons hl, hm]; rfl⟩

/-- A change that a directory allows is made, there and nowhere else. -/
theorem exists_modify (hf : find folder tree = .ok (.dir entries))
    (hc : change entries = .ok entries') : ∃ tree', modify change folder tree = .ok tree' ∧
      find folder tree' = .ok (.dir entries') ∧
      ∀ path, ¬path <+: folder → ¬folder <+: path → find path tree' = find path tree := by
  obtain ⟨tree', h⟩ := exists_of_change hf hc
  obtain ⟨found, changed, hfound, hchanged, htree⟩ := find_modify h
  cases hf.symm.trans hfound
  cases hc.symm.trans hchanged
  exact ⟨tree', h, htree, fun path hp hq => find_modify_apart h hp hq⟩

/-- Why a change is refused: the path leads to no directory, or the directory forbids it. -/
theorem modify_eq_error (h : modify change folder tree = .error e) :
    find folder tree = .error e ∨
      (∃ content, find folder tree = .ok (.file content) ∧ e = .notDirectory) ∨
      ∃ entries, find folder tree = .ok (.dir entries) ∧ change entries = .error e := by
  induction folder generalizing tree with
  | nil =>
    cases tree with
    | file c =>
      cases h
      exact .inr (.inl ⟨c, rfl, rfl⟩)
    | dir entries => exact .inr (.inr ⟨entries, rfl, eq_error_of_map h⟩)
  | cons d folder ih =>
    cases tree with
    | file c => exact .inl h
    | dir entries =>
      cases hl : entries.lookup d with
      | none =>
        rw [modify, hl] at h
        rw [find, hl]
        exact .inl h
      | some t =>
        rw [modify_cons hl] at h
        rw [find_cons hl]
        exact ih (eq_error_of_map h)

/-- A change that gives a directory the entries it has gives the tree that was there. -/
theorem modify_self (hf : find folder tree = .ok (.dir entries))
    (hc : change entries = .ok entries) : modify change folder tree = .ok tree := by
  induction folder generalizing tree with
  | nil =>
    cases hf
    rw [modify, hc]
    rfl
  | cons d folder ih =>
    obtain ⟨above, t, rfl, hl, hbelow⟩ := exists_of_find_cons hf
    rw [modify_cons hl, ih hbelow]
    exact congrArg (Except.ok ∘ Tree.dir) (Entries.put_of_lookup hl)

/-- A change after another one comes to the change that does both at once. -/
theorem modify_modify {next : Entries → Except IoError Entries}
    (both : Entries → Except IoError Entries) (h : modify change folder tree = .ok tree')
    (hf : find folder tree = .ok (.dir entries))
    (hb : ∀ entries', change entries = .ok entries' → next entries' = both entries) :
    modify next folder tree' = modify both folder tree := by
  induction folder generalizing tree tree' with
  | nil =>
    cases hf
    obtain ⟨entries', hc, rfl⟩ := exists_of_map_ok h
    rw [modify, modify, hb entries' hc]
  | cons d folder ih =>
    obtain ⟨above, t, changed, rfl, hl, hm, rfl⟩ := modify_cons_inv h
    rw [find_cons hl] at hf
    rw [modify_cons (Entries.lookup_put_self above d changed), modify_cons hl, ih hm hf]
    simp only [Entries.put_put]

/-- What is changed is told by what the change makes of the entries that are there. -/
theorem modify_congr {next : Entries → Except IoError Entries}
    (hf : find folder tree = .ok (.dir entries)) (hc : change entries = next entries) :
    modify change folder tree = modify next folder tree := by
  have hself : modify .ok folder tree = .ok tree := modify_self hf rfl
  refine modify_modify next hself hf fun entries' h => ?_
  cases h
  exact hc

/-- A change that is taken back leaves the tree as it was. -/
theorem modify_undo (h : modify change folder tree = .ok tree')
    (hf : find folder tree = .ok (.dir entries))
    (hu : ∀ entries', change entries = .ok entries' → undo entries' = .ok entries) :
    modify undo folder tree' = .ok tree :=
  (modify_modify .ok h hf hu).trans (modify_self hf rfl)

/-! ## Removing a file -/

theorem file_of_remove (h : remove folder name tree = .ok tree') :
    ∃ content, find (folder ++ [name]) tree = .ok (.file content) := by
  obtain ⟨entries, entries', hf, hc, -⟩ := find_modify h
  rw [find_append hf]
  split at hc
  · cases hc
  · cases hc
  · next content hl => exact ⟨content, find_cons hl []⟩

/-- Why a file cannot be removed: the path does not lead to it, or it leads to a directory. -/
theorem remove_eq_error (h : remove folder name tree = .error e) :
    find (folder ++ [name]) tree = .error e ∨
      ∃ below, find (folder ++ [name]) tree = .ok (.dir below) ∧ e = .isDirectory := by
  rcases modify_eq_error h with hf | ⟨content, hf, rfl⟩ | ⟨entries, hf, hc⟩
  · exact .inl (find_append_of_error hf [name])
  · exact .inl (find_append hf [name])
  · rw [find_append hf]
    split at hc
    · next hl =>
      cases hc
      exact .inl (by rw [find, hl])
    · next below hl =>
      cases hc
      exact .inr ⟨below, find_cons hl [], rfl⟩
    · cases hc

/-! ## Removing directories -/

/-- Directories that are removed one after another are gone as if they were taken out at once. -/
theorem foldlM_removeDir {names : List String} (hf : find folder tree = .ok (.dir entries))
    (hd : names.Nodup) (hdirs : ∀ n ∈ names, ∃ below, entries.lookup n = some (.dir below)) :
    names.foldlM (fun tree n => removeDir folder n tree) tree =
      modify (fun entries => .ok (entries.filter fun e => e.1 ∉ names)) folder tree := by
  induction names generalizing tree entries with
  | nil =>
    rw [modify_self hf (by simp)]
    rfl
  | cons n names ih =>
    obtain ⟨hn, hd⟩ := List.nodup_cons.mp hd
    obtain ⟨below, hl⟩ := hdirs n (by simp)
    obtain ⟨tree', hm, hf', -⟩ : ∃ tree', removeDir folder n tree = .ok tree' ∧
        find folder tree' = .ok (.dir (Entries.erase n entries)) ∧
        ∀ path, ¬path <+: folder → ¬folder <+: path → find path tree' = find path tree := by
      apply exists_modify hf
      rw [hl]
    have hdirs' : ∀ m ∈ names, ∃ below, (Entries.erase n entries).lookup m = some (.dir below) := by
      intro m hmem
      have hne : m ≠ n := by
        rintro rfl
        exact hn hmem
      rw [Entries.lookup_erase, if_neg hne]
      exact hdirs m (List.mem_cons_of_mem n hmem)
    rw [List.foldlM_cons, hm]
    refine (ih hf' hd hdirs').trans (modify_modify _ hm hf fun entries' herase => ?_)
    rw [hl] at herase
    cases herase
    rw [Entries.erase, List.filter_filter]
    refine congrArg Except.ok (List.filter_congr fun e _ => Bool.eq_iff_iff.mpr ?_)
    simp [and_comm]

/-! ## Files that take a place in one step -/

section Replace

variable {old new : String} (hf : find folder tree = .ok (.dir entries))
  (hfree : entries.lookup old = none) (hne : new ≠ old)

include hf hfree

/-- A file can be written under a free name of a directory, and removed again. -/
theorem exists_write (value : Bytes) : ∃ full, write folder old value tree = .ok full ∧
    find folder full = .ok (.dir (Entries.put old (.file value) entries)) ∧
    remove folder old full = .ok tree ∧
    ∀ path, ¬path <+: folder → ¬folder <+: path → find path full = find path tree := by
  obtain ⟨full, hw, hfull, hapart⟩ : ∃ full, write folder old value tree = .ok full ∧
      find folder full = .ok (.dir (Entries.put old (.file value) entries)) ∧
      ∀ path, ¬path <+: folder → ¬folder <+: path → find path full = find path tree := by
    apply exists_modify hf
    rw [hfree]
  refine ⟨full, hw, hfull, ?_, hapart⟩
  apply modify_undo hw hf
  intro entries' hput
  rw [hfree] at hput
  cases hput
  rw [Entries.lookup_put, if_pos rfl]
  dsimp only
  rw [Entries.erase_put hfree]

include hne

/-- A file that is written and renamed takes the place of a file or of nothing. -/
theorem exists_rename (hnew : ∀ below, entries.lookup new ≠ some (.dir below))
    (value : Bytes) :
    ∃ full tree', write folder old value tree = .ok full ∧
      rename folder old new full = .ok tree' ∧
      find folder tree' = .ok (.dir (Entries.put new (.file value) entries)) ∧
      ∀ path, ¬path <+: folder → ¬folder <+: path → find path tree' = find path tree := by
  obtain ⟨full, hw, hfull, -, hbefore⟩ := exists_write hf hfree value
  obtain ⟨tree', hr, htree, hapart⟩ : ∃ tree', rename folder old new full = .ok tree' ∧
      find folder tree' = .ok (.dir (Entries.put new (.file value) entries)) ∧
      ∀ path, ¬path <+: folder → ¬folder <+: path → find path tree' = find path full := by
    apply exists_modify hfull
    rw [Entries.lookup_put, Entries.lookup_put, if_pos rfl, if_neg hne, Entries.erase_put hfree]
    cases hl : entries.lookup new with
    | none => rfl
    | some t =>
      cases t with
      | file c => rfl
      | dir below => exact absurd hl (hnew below)
  exact ⟨full, tree', hw, hr, htree, fun path hp hq => (hapart path hp hq).trans (hbefore path hp hq)⟩

/-- It does not take the place of a directory, and removing it leaves the tree as it was. -/
theorem exists_rename_refused {below : Entries} (hnew : entries.lookup new = some (.dir below))
    (value : Bytes) :
    ∃ full, write folder old value tree = .ok full ∧
      rename folder old new full = .error .isDirectory ∧ remove folder old full = .ok tree := by
  obtain ⟨full, hw, hfull, hremove, -⟩ := exists_write hf hfree value
  refine ⟨full, hw, ?_, hremove⟩
  cases hr : rename folder old new full with
  | ok tree' =>
    obtain ⟨found, moved, hfound, hput, -⟩ := find_modify hr
    cases hfull.symm.trans hfound
    rw [Entries.lookup_put, Entries.lookup_put, if_pos rfl, if_neg hne, hnew] at hput
    cases hput
  | error e =>
    rcases modify_eq_error hr with h | ⟨c, h, -⟩ | ⟨found, h, hput⟩
    · cases hfull.symm.trans h
    · cases hfull.symm.trans h
    · cases hfull.symm.trans h
      rw [Entries.lookup_put, Entries.lookup_put, if_pos rfl, if_neg hne, hnew] at hput
      cases hput
      rfl

end Replace

/-! ## What lies at a path -/

inductive Node where
  | file (content : Bytes)
  | dir
  deriving DecidableEq

def node : Tree → Node
  | .file content => .file content
  | .dir _ => .dir

/-- What lies at a path, if the path leads to something. -/
def at? (path : Path) (tree : Tree) : Option Node :=
  (find path tree).toOption.map node

theorem at?_eq_file_iff {content : Bytes} :
    at? path tree = some (.file content) ↔ find path tree = .ok (.file content) := by
  rw [at?]
  cases find path tree with
  | error e => exact ⟨nofun, nofun⟩
  | ok t => cases t <;> simp [Except.toOption, node]

theorem at?_eq_dir_iff :
    at? path tree = some .dir ↔ ∃ entries, find path tree = .ok (.dir entries) := by
  rw [at?]
  cases find path tree with
  | error e => exact ⟨nofun, nofun⟩
  | ok t => cases t <;> simp [Except.toOption, node]

theorem at?_eq_none_iff : at? path tree = none ↔ ∃ e, find path tree = .error e := by
  rw [at?]
  cases find path tree with
  | error e => exact ⟨fun _ => ⟨e, rfl⟩, fun _ => rfl⟩
  | ok t => exact ⟨nofun, nofun⟩

/-- Nothing lies behind what is no directory. -/
theorem at?_append (h : at? folder tree ≠ some .dir) (hrest : rest ≠ []) :
    at? (folder ++ rest) tree = none := by
  apply at?_eq_none_iff.mpr
  cases hfind : find (folder ++ rest) tree with
  | error e => exact ⟨e, rfl⟩
  | ok t =>
    obtain ⟨above, ha, hr⟩ := exists_of_find_append hfind
    cases above with
    | dir entries => exact absurd (at?_eq_dir_iff.mpr ⟨entries, ha⟩) h
    | file c =>
      cases rest with
      | nil => exact absurd rfl hrest
      | cons n rest => cases hr

theorem at?_congr (h : find path tree' = find path tree) : at? path tree' = at? path tree := by
  rw [at?, at?, h]

end PeerCache.Tree

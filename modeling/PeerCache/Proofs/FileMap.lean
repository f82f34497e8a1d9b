import Mathlib.Data.List.Infix
import PeerCache.Proofs.StoreContents
import PeerCache.Proofs.TreePaths

/-!
# A directory as a map

A file store is a map over any tree, whatever else lies in it. An operation on a key is refused
exactly if a file lies where a directory is needed, or a directory where the file of the key
goes, and then it leaves the whole tree as it was. Setting a key that is not refused makes the
directories of its file, puts the file there and changes nothing else; deleting it removes that
file and changes nothing else. Keys are told apart by the names of their files.
-/

namespace PeerCache.FileStore

variable {s t : FileStore} {key other : String} {value : Bytes} {path : Path}

/-- The path of the temporary file that the next value of a key is written to. -/
def temporary (s : FileStore) (key : String) : Path :=
  s.folder key ++ [s.temporaryName key]

/-- The file of a key has a place in the tree: no file lies where a directory is needed, and no
directory where the file goes. -/
structure HasPlace (s : FileStore) (key : String) : Prop where
  above : ∀ path content, path <+: s.folder key → s.tree.at? path ≠ some (.file content)
  itself : s.tree.at? (s.path key) ≠ some .dir

/-- A store is another one with a value set for a key, and with nothing else changed. -/
structure IsSet (s : FileStore) (key : String) (value : Bytes) (t : FileStore) : Prop where
  get : (t.get key).answer = .ok (some value)
  others : ∀ other, fileName other ≠ fileName key → (t.get other).answer = (s.get other).answer
  above : ∀ path, path <+: s.folder key → t.tree.at? path = some .dir
  elsewhere : ∀ path, path ≠ s.path key → ¬path <+: s.folder key →
    t.tree.at? path = s.tree.at? path
  temporary : t.tree.at? (s.temporary key) = none

/-- A store is another one with a key deleted, and with nothing else changed. -/
structure IsDeleted (s : FileStore) (key : String) (t : FileStore) : Prop where
  get : (t.get key).answer = .ok none
  others : ∀ other, fileName other ≠ fileName key → (t.get other).answer = (s.get other).answer
  elsewhere : ∀ path, path ≠ s.path key → t.tree.at? path = s.tree.at? path

/-! ## Paths of keys -/

theorem folder_prefix_path (s : FileStore) (key : String) : s.folder key <+: s.path key :=
  List.prefix_append ..

theorem not_path_prefix_folder (s : FileStore) (key other : String) : ¬s.path other <+: s.folder key := by
  intro h
  have hle := h.length_le
  simp only [path, folder, List.length_append, List.length_cons, List.length_nil] at hle
  omega

theorem not_temporary_prefix_folder (s : FileStore) (key : String) :
    ¬s.temporary key <+: s.folder key := by
  intro h
  have hle := h.length_le
  simp only [temporary, List.length_append, List.length_cons, List.length_nil] at hle
  omega

theorem get_of_fileName (h : fileName other = fileName key) :
    (s.get other).answer = (s.get key).answer := by
  have hdigest : digest other = digest key := String.ofList_injective h
  rw [FileStore.get, FileStore.get, folder, folder, hdigest, h]

/-- The path of one file never goes on behind the path of another. -/
theorem eq_fileName_of_prefix_path (h : s.path key <+: s.path other) :
    fileName other = fileName key := by
  obtain ⟨rest, h⟩ := h
  rw [path, List.append_assoc] at h
  exact (eq_fileName_of_below (s := s) h.symm).symm

/-! ## Reading -/

theorem answer_get (s : FileStore) (key : String) : (s.get key).answer =
    match s.tree.find (s.path key) with
    | .ok (.file content) => .ok (some content)
    | .ok (.dir _) => .error (.io .isDirectory)
    | .error .notFound => .ok none
    | .error e => .error (.io e) := by
  simp only [FileStore.get, Tree.read]
  rw [← path]
  cases s.tree.find (s.path key) with
  | ok t => cases t <;> rfl
  | error e => cases e <;> rfl

theorem get_congr (hb : t.base = s.base) (h : t.tree.find (s.path key) = s.tree.find (s.path key)) :
    (t.get key).answer = (s.get key).answer := by
  rw [answer_get, answer_get, path_congr hb, h]

/-- A key has a place exactly if its file is there, or is missing behind directories alone. -/
theorem hasPlace_iff : s.HasPlace key ↔
    (∃ content, s.tree.find (s.path key) = .ok (.file content)) ∨
      s.tree.find (s.path key) = .error .notFound := by
  constructor
  · rintro ⟨habove, hself⟩
    cases hf : s.tree.find (s.path key) with
    | ok t =>
      cases t with
      | file content => exact .inl ⟨content, rfl⟩
      | dir entries => exact absurd (Tree.at?_eq_dir_iff.mpr ⟨entries, hf⟩) hself
    | error e =>
      rcases Tree.find_eq_error hf with rfl | ⟨-, path, content, hp, hne, hfile⟩
      · exact .inr rfl
      · have hfolder := (List.prefix_concat_iff.mp hp).resolve_left hne
        exact absurd (Tree.at?_eq_file_iff.mpr hfile) (habove path content hfolder)
  · intro h
    constructor
    · intro path content hp hfile
      obtain ⟨rest, hrest⟩ := hp.trans (folder_prefix_path s key)
      have hbehind := Tree.find_append (Tree.at?_eq_file_iff.mp hfile) rest
      rw [hrest] at hbehind
      cases rest with
      | nil =>
        rw [List.append_nil] at hrest
        exact not_path_prefix_folder s key key (hrest ▸ hp)
      | cons name rest => rcases h with ⟨_, h⟩ | h <;> cases hbehind.symm.trans h
    · intro hdir
      obtain ⟨entries, hdir⟩ := Tree.at?_eq_dir_iff.mp hdir
      rcases h with ⟨content, h⟩ | h <;> cases hdir.symm.trans h

theorem get_ok_iff : (∃ found, (s.get key).answer = .ok found) ↔ s.HasPlace key := by
  rw [hasPlace_iff, answer_get]
  cases s.tree.find (s.path key) with
  | ok t => cases t <;> simp
  | error e => cases e <;> simp

/-! ## What is left alone -/

/-- The paths that lead neither to the folder of a key nor through its file lead to the same in
two stores. -/
def SameApart (s : FileStore) (key : String) (t : FileStore) : Prop :=
  ∀ path, ¬path <+: s.folder key → ¬s.path key <+: path → t.tree.find path = s.tree.find path

theorem SameApart.others (h : SameApart s key t) (hb : t.base = s.base)
    (hother : fileName other ≠ fileName key) : (t.get other).answer = (s.get other).answer :=
  get_congr hb (h _ (not_path_prefix_folder s key other) fun hq => hother (eq_fileName_of_prefix_path hq))

/-- Nothing lies behind the file in either store, so only the file itself can differ. -/
theorem SameApart.elsewhere (h : SameApart s key t) (hs : s.tree.at? (s.path key) ≠ some .dir)
    (ht : t.tree.at? (s.path key) ≠ some .dir) (hne : path ≠ s.path key)
    (hp : ¬path <+: s.folder key) : t.tree.at? path = s.tree.at? path := by
  by_cases hbehind : s.path key <+: path
  · obtain ⟨rest, rfl⟩ := hbehind
    have hrest : rest ≠ [] := by
      rintro rfl
      exact hne (List.append_nil _)
    rw [Tree.at?_append ht hrest, Tree.at?_append hs hrest]
  · exact Tree.at?_congr (h path hp hbehind)

/-! ## Setting -/

/-- Whether nothing lies at the path of the next temporary file of a key. -/
def TemporaryFree (s : FileStore) (key : String) : Prop :=
  s.tree.at? (s.temporary key) = none

/-- The tree with the folder of a key made, and the entries that are in it. -/
structure Prepared (s : FileStore) (key : String) (ready : Tree) (entries : Tree.Entries) :
    Prop where
  made : s.tree.makeDirs (s.folder key) = .ok ready
  folder : ready.find (s.folder key) = .ok (.dir entries)
  free : entries.lookup (s.temporaryName key) = none
  /-- A directory in the place of the file was there before anything was made. -/
  kept : ∀ below, entries.lookup (fileName key) = some (.dir below) → ready = s.tree

theorem prepared_of_made {ready : Tree} (hfree : s.TemporaryFree key)
    (h : s.tree.makeDirs (s.folder key) = .ok ready) : ∃ entries, Prepared s key ready entries := by
  rcases Tree.makeDirs_cases h with ⟨rfl, entries, hf⟩ | ⟨-, hf⟩
  · refine ⟨entries, h, hf, ?_, fun _ _ => rfl⟩
    obtain ⟨e, hnone⟩ := Tree.at?_eq_none_iff.mp hfree
    rw [temporary, Tree.find_append hf] at hnone
    cases hl : entries.lookup (s.temporaryName key) with
    | none => rfl
    | some t =>
      rw [Tree.find_cons hl] at hnone
      cases hnone
  · exact ⟨[], h, hf, rfl, nofun⟩

/-- What lies in the folder of a key when its directories are made is what lay there before. -/
theorem Prepared.find_below {ready : Tree} {entries : Tree.Entries} (h : Prepared s key ready entries)
    (name : String) (rest : Path) :
    Tree.find (name :: rest) (.dir entries) = s.tree.find (s.folder key ++ name :: rest) := by
  rw [← Tree.find_append h.folder, Tree.find_makeDirs h.made]
  intro hp
  have hle := hp.length_le
  simp only [List.length_append, List.length_cons] at hle
  omega

theorem Prepared.hasPlace_iff {ready : Tree} {entries : Tree.Entries}
    (h : Prepared s key ready entries) :
    s.HasPlace key ↔ ∀ below, entries.lookup (fileName key) ≠ some (.dir below) := by
  have hbelow := h.find_below (fileName key) []
  constructor
  · intro hplace below hl
    rw [Tree.find_cons hl] at hbelow
    exact hplace.itself (Tree.at?_eq_dir_iff.mpr ⟨below, hbelow.symm⟩)
  · intro hnodir
    constructor
    · intro path content hp hfile
      exact Tree.makeDirs_ok_iff.mp ⟨ready, h.made⟩ path content hp (Tree.at?_eq_file_iff.mp hfile)
    · intro hdir
      obtain ⟨below, hdir⟩ := Tree.at?_eq_dir_iff.mp hdir
      rw [path, ← hbelow] at hdir
      cases hl : entries.lookup (fileName key) with
      | none =>
        rw [Tree.find, hl] at hdir
        cases hdir
      | some t =>
        rw [Tree.find_cons hl] at hdir
        cases hdir
        exact hnodir below hl

/-- A file that is put into the prepared folder makes the value set. -/
theorem Prepared.isSet {ready : Tree} {entries : Tree.Entries} (h : Prepared s key ready entries)
    (hfree : s.TemporaryFree key) (hplace : s.HasPlace key) (hb : t.base = s.base)
    (hfolder : t.tree.find (s.folder key) =
      .ok (.dir (Tree.Entries.put (fileName key) (.file value) entries)))
    (hapart : ∀ path, ¬path <+: s.folder key → ¬s.folder key <+: path →
      t.tree.find path = ready.find path) : s.IsSet key value t := by
  have hfile : t.tree.find (s.path key) = .ok (.file value) := by
    rw [path, Tree.find_append hfolder, Tree.find_put, if_pos rfl]
    rfl
  have hframe : SameApart s key t := by
    intro path hp hq
    rw [← Tree.find_makeDirs h.made hp]
    apply Tree.find_congr_apart h.folder hfolder ?_ hapart hp hq
    intro n hn
    rw [Tree.Entries.lookup_put, if_neg hn]
  have hnodir : t.tree.at? (s.path key) ≠ some .dir := by
    rw [Tree.at?_eq_file_iff.mpr hfile]
    rintro ⟨⟩
  have helsewhere : ∀ path, path ≠ s.path key → ¬path <+: s.folder key →
      t.tree.at? path = s.tree.at? path :=
    fun _ hne hp => hframe.elsewhere hplace.itself hnodir hne hp
  constructor
  · rw [answer_get, path_congr hb, hfile]
  · exact fun other hother => hframe.others hb hother
  · exact fun path hp => Tree.at?_eq_dir_iff.mpr (Tree.exists_dir_above hp hfolder)
  · exact helsewhere
  · exact (helsewhere _ (path_ne_temporary s key key).symm (not_temporary_prefix_folder s key)).trans hfree

/-- Setting a key that has a place succeeds. -/
theorem set_done (hfree : s.TemporaryFree key) (h : s.HasPlace key) (value : Bytes) :
    (s.set key value).answer = .ok () ∧ s.IsSet key value (s.set key value).after := by
  obtain ⟨ready, hmade⟩ := Tree.makeDirs_ok_iff.mpr fun path content hp hfile =>
    h.above path content hp (Tree.at?_eq_file_iff.mpr hfile)
  obtain ⟨entries, hready⟩ := prepared_of_made hfree hmade
  obtain ⟨full, tree, hw, hr, hfolder, hapart⟩ := Tree.exists_rename
    hready.folder hready.free (temporaryName_ne_fileName s key key).symm (hready.hasPlace_iff.mp h)
    value
  have hset : s.set key value =
      { answer := .ok (), after := { s with written := s.written + 1, tree } } := by
    simp only [FileStore.set, hmade, hw, hr]
  rw [hset]
  exact ⟨rfl, hready.isSet hfree h rfl hfolder hapart⟩

/-- Setting a key that has no place leaves the tree as it was. -/
theorem set_refused (hfree : s.TemporaryFree key) (h : ¬s.HasPlace key) (value : Bytes) :
    ∃ e, (s.set key value).answer = .error e ∧ (s.set key value).after.tree = s.tree := by
  cases hmade : s.tree.makeDirs (s.folder key) with
  | error e => exact ⟨.io e, by simp only [FileStore.set, hmade], by simp only [FileStore.set, hmade]⟩
  | ok ready =>
    obtain ⟨entries, hready⟩ := prepared_of_made hfree hmade
    obtain ⟨below, hl⟩ : ∃ below, entries.lookup (fileName key) = some (.dir below) := by
      simpa [hready.hasPlace_iff] using h
    -- The directory was there before, so nothing was made, and the temporary file is removed.
    obtain ⟨full, hw, hr, hremove⟩ := Tree.exists_rename_refused
      hready.folder hready.free (temporaryName_ne_fileName s key key).symm hl value
    have hset : s.set key value =
        { answer := .error (.io .isDirectory)
          after := { s with written := s.written + 1, tree := ready } } := by
      simp only [FileStore.set, hmade, hw, hr, hremove]
      rfl
    rw [hset]
    exact ⟨.io .isDirectory, rfl, hready.kept below hl⟩

/-! ## Deleting -/

/-- A file that is taken out of its folder makes the key deleted. -/
theorem isDeleted_of_remove (hplace : s.HasPlace key) (hb : t.base = s.base)
    (h : s.tree.remove (s.folder key) (fileName key) = .ok t.tree) : s.IsDeleted key t := by
  obtain ⟨entries, entries', hf, hc, hf'⟩ := Tree.find_modify h
  have herase : entries' = Tree.Entries.erase (fileName key) entries := by
    split at hc <;> cases hc
    rfl
  have hgone : t.tree.find (s.path key) = .error .notFound := by
    rw [path, Tree.find_append hf', Tree.find, herase, Tree.Entries.lookup_erase, if_pos rfl]
  have hframe : SameApart s key t := by
    intro path hp hq
    apply Tree.find_congr_apart hf hf' ?_ (fun _ => Tree.find_modify_apart h) hp hq
    intro n hn
    rw [herase, Tree.Entries.lookup_erase, if_neg hn]
  constructor
  · rw [answer_get, path_congr hb, hgone]
  · exact fun other hother => hframe.others hb hother
  · intro path hne
    by_cases hp : path <+: s.folder key
    · rw [Tree.at?_eq_dir_iff.mpr (Tree.exists_dir_above hp hf),
        Tree.at?_eq_dir_iff.mpr (Tree.exists_dir_above hp hf')]
    · apply hframe.elsewhere hplace.itself _ hne hp
      rw [Tree.at?_eq_none_iff.mpr ⟨_, hgone⟩]
      rintro ⟨⟩

theorem isDeleted_self (h : s.tree.find (s.path key) = .error .notFound) : s.IsDeleted key s where
  get := by rw [answer_get, h]
  others _ _ := rfl
  elsewhere _ _ := rfl

/-- Deleting a key that has a place succeeds. -/
theorem delete_done (h : s.HasPlace key) :
    (s.delete key).answer = .ok () ∧ s.IsDeleted key (s.delete key).after := by
  cases hr : s.tree.remove (s.folder key) (fileName key) with
  | ok tree =>
    have hdelete : s.delete key = { answer := .ok (), after := { s with tree } } := by
      rw [FileStore.delete, hr]
    rw [hdelete]
    exact ⟨rfl, isDeleted_of_remove h rfl hr⟩
  | error e =>
    rcases Tree.remove_eq_error hr with hnone | ⟨below, hdir, -⟩
    · have hmissing : s.tree.find (s.path key) = .error .notFound := by
        rcases hasPlace_iff.mp h with ⟨content, hfile⟩ | hmissing
        · cases hnone.symm.trans hfile
        · exact hmissing
      cases hnone.symm.trans hmissing
      have hdelete : s.delete key = { answer := .ok (), after := s } := by
        rw [FileStore.delete, hr]
      rw [hdelete]
      exact ⟨rfl, isDeleted_self hmissing⟩
    · exact absurd (Tree.at?_eq_dir_iff.mpr ⟨below, hdir⟩) h.itself

/-- Deleting a key that has no place changes nothing. -/
theorem delete_refused (h : ¬s.HasPlace key) :
    ∃ e, s.delete key = { answer := .error e, after := s } := by
  rw [hasPlace_iff, not_or] at h
  cases hr : s.tree.remove (s.folder key) (fileName key) with
  | ok tree => exact absurd (Tree.file_of_remove hr) h.1
  | error e =>
    have he : e ≠ .notFound := by
      rintro rfl
      rcases Tree.remove_eq_error hr with hnone | ⟨below, -, heq⟩
      · exact h.2 hnone
      · cases heq
    refine ⟨.io e, ?_⟩
    rw [FileStore.delete, hr]
    cases e <;> first | rfl | exact absurd rfl he

/-- A key that was deleted has no value. -/
theorem get_delete (h : (s.delete key).answer = .ok ()) :
    ((s.delete key).after.get key).answer = .ok none := by
  by_cases hplace : s.HasPlace key
  · exact (delete_done hplace).2.get
  · obtain ⟨e, he⟩ := delete_refused hplace
    cases (congrArg Reply.answer he).symm.trans h

/-- What is told apart by whether a key has a place is told apart by the answer. -/
theorem answer_cases {r : Reply FileStore Unit} {done refused : Prop}
    (hdone : s.HasPlace key → r.answer = .ok () ∧ done)
    (hrefused : ¬s.HasPlace key → ∃ e, r.answer = .error e ∧ refused) :
    (r.answer = .ok () ↔ s.HasPlace key) ∧ (r.answer = .ok () → done) ∧
      ∀ e, r.answer = .error e → refused := by
  by_cases h : s.HasPlace key
  · obtain ⟨hok, hd⟩ := hdone h
    rw [hok]
    exact ⟨iff_of_true rfl h, fun _ => hd, by simp⟩
  · obtain ⟨e, he, hr⟩ := hrefused h
    rw [he]
    exact ⟨iff_of_false (by simp) h, by simp, fun _ _ => hr⟩

/-- A file store is a map over any tree. An operation is refused exactly if the key has no place,
and then it changes nothing in the tree; what is set or deleted is set or deleted alone. -/
theorem acts_as_map (s : FileStore) (key : String) :
    ((s.get key).after = s ∧ ((∃ found, (s.get key).answer = .ok found) ↔ s.HasPlace key)) ∧
      (∀ value, s.TemporaryFree key →
        ((s.set key value).answer = .ok () ↔ s.HasPlace key) ∧
        ((s.set key value).answer = .ok () → s.IsSet key value (s.set key value).after) ∧
        ∀ e, (s.set key value).answer = .error e → (s.set key value).after.tree = s.tree) ∧
      ((s.delete key).answer = .ok () ↔ s.HasPlace key) ∧
      ((s.delete key).answer = .ok () → s.IsDeleted key (s.delete key).after) ∧
      ∀ e, (s.delete key).answer = .error e → (s.delete key).after = s := by
  refine ⟨⟨rfl, get_ok_iff⟩, fun value hfree => ?_, ?_⟩
  · exact answer_cases (fun h => set_done hfree h value) fun h => set_refused hfree h value
  · refine answer_cases delete_done fun h => ?_
    obtain ⟨e, he⟩ := delete_refused h
    rw [he]
    exact ⟨e, rfl, rfl⟩

/-- A base directory with a foreign file in it, a foreign directory where one for values belongs,
and a foreign file where another one belongs. -/
def foreign : FileStore where
  tree := .dir [("cache", .dir [("notes", .file [1]), ("b9", .dir [("x", .file [2])]),
    ("5c", .dir [("bc", .file [3])])])]
  base := ["cache"]

theorem acts_as_map_foreign :
    foreign.TemporaryFree "l" ∧ foreign.IsSet "l" [7] (foreign.set "l" [7]).after ∧
      foreign.TemporaryFree "k" ∧ (foreign.set "k" [7]).after.tree = foreign.tree := by
  have hl : foreign.TemporaryFree "l" := by
    unfold TemporaryFree
    decide +kernel
  have hk : foreign.TemporaryFree "k" := by
    unfold TemporaryFree
    decide +kernel
  have hset : (foreign.set "l" [7]).answer = .ok () := by decide +kernel
  have hrefused : (foreign.set "k" [7]).answer = .error (.io .alreadyExists) := by decide +kernel
  exact ⟨hl, ((acts_as_map foreign "l").2.1 [7] hl).2.1 hset, hk,
    ((acts_as_map foreign "k").2.1 [7] hk).2.2 _ hrefused⟩

end PeerCache.FileStore

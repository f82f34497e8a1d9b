import PeerCache.Proofs.TreePaths
import PeerCache.Store.FileStore

/-!
# Distinct names

No directory of a file tree has two entries under one name. Each operation on a tree puts an
entry in the place of the one that has its name, or takes entries out, so the names stay distinct
through any use of a file store and of the files around it.
-/

namespace PeerCache

namespace Tree

variable {tree tree' below : Tree} {folder : Path} {name : String} {entries : Entries}
  {content : Bytes}

/-- No directory has two entries under one name. -/
def Distinct (tree : Tree) : Prop :=
  ∀ path entries, find path tree = .ok (.dir entries) → (entries.map Prod.fst).Nodup

theorem distinct_file (content : Bytes) : Distinct (.file content) := by
  intro path entries h
  cases path <;> cases h

theorem distinct_dir_iff : Distinct (.dir entries) ↔ (entries.map Prod.fst).Nodup ∧
    ∀ name below, entries.lookup name = some below → Distinct below := by
  constructor
  · intro h
    refine ⟨h [] entries rfl, fun name below hl path inner hf => ?_⟩
    exact h (name :: path) inner ((find_cons hl path).trans hf)
  · rintro ⟨hnames, hbelow⟩ path inner hf
    cases path with
    | nil =>
      cases hf
      exact hnames
    | cons name rest =>
      obtain ⟨_, below, ⟨⟩, hl, hrest⟩ := exists_of_find_cons hf
      exact hbelow name below hl rest inner hrest

theorem distinct_empty : Distinct empty :=
  distinct_dir_iff.mpr ⟨List.nodup_nil, nofun⟩

theorem Distinct.names (h : Distinct (.dir entries)) : (entries.map Prod.fst).Nodup :=
  (distinct_dir_iff.mp h).1

theorem Distinct.lookup (h : Distinct (.dir entries)) (hl : entries.lookup name = some below) :
    Distinct below :=
  (distinct_dir_iff.mp h).2 name below hl

/-! ## Entries -/

theorem Entries.names_put (name : String) (tree : Tree) (entries : Entries) :
    (Entries.put name tree entries).map Prod.fst =
      if name ∈ entries.map Prod.fst then entries.map Prod.fst
      else entries.map Prod.fst ++ [name] := by
  induction entries with
  | nil => simp [put]
  | cons e rest ih =>
    by_cases hm : e.1 = name
    · simp [put, hm]
    · rw [put, if_neg hm, List.map_cons, ih]
      split <;> simp_all [Ne.symm hm]

theorem Distinct.put (h : Distinct (.dir entries)) (name : String) (hb : Distinct below) :
    Distinct (.dir (Entries.put name below entries)) := by
  refine distinct_dir_iff.mpr ⟨?_, fun n found hl => ?_⟩
  · rw [Entries.names_put]
    split
    · exact h.names
    · next hname =>
      refine List.nodup_append.mpr ⟨h.names, by simp, fun n hn m hm => ?_⟩
      rw [List.mem_singleton.mp hm]
      rintro rfl
      exact hname hn
  · rw [Entries.lookup_put] at hl
    split at hl
    · cases hl
      exact hb
    · exact h.lookup hl

theorem Distinct.filter (h : Distinct (.dir entries)) (p : String × Tree → Bool) :
    Distinct (.dir (entries.filter p)) := by
  refine distinct_dir_iff.mpr ⟨h.names.sublist (List.filter_sublist.map _), fun n found hl => ?_⟩
  rw [lookup_filter h.names, Option.filter_eq_some_iff] at hl
  exact h.lookup hl.1

/-! ## Operations on a tree -/

theorem distinct_newDirs (folder : Path) : Distinct (newDirs folder) := by
  induction folder with
  | nil => exact distinct_empty
  | cons d folder ih => exact distinct_empty.put d ih

theorem Distinct.makeDirs (h : tree.Distinct) (hm : Tree.makeDirs folder tree = .ok tree') :
    tree'.Distinct := by
  induction folder generalizing tree tree' with
  | nil => rwa [(makeDirs_nil_inv hm).1]
  | cons d folder ih =>
    obtain ⟨entries, rfl, ⟨-, rfl⟩ | ⟨t, made, hl, hmade, rfl⟩⟩ := makeDirs_cons_inv hm
    · exact h.put d (distinct_newDirs folder)
    · exact h.put d (ih (h.lookup hl) hmade)

/-- A change of one directory that keeps its names distinct keeps all of them so. -/
theorem Distinct.modify {change : Entries → Except IoError Entries} (h : tree.Distinct)
    (hc : ∀ entries entries', Distinct (.dir entries) → change entries = .ok entries' →
      Distinct (.dir entries'))
    (hm : Tree.modify change folder tree = .ok tree') : tree'.Distinct := by
  induction folder generalizing tree tree' with
  | nil =>
    obtain ⟨entries, entries', rfl, hchange, rfl⟩ := modify_nil_inv hm
    exact hc entries entries' h hchange
  | cons d folder ih =>
    obtain ⟨entries, t, changed, rfl, hl, hchanged, rfl⟩ := modify_cons_inv hm
    exact h.put d (ih (h.lookup hl) hchanged)

theorem Distinct.write (h : tree.Distinct) (hw : Tree.write folder name content tree = .ok tree') :
    tree'.Distinct := by
  refine h.modify (fun entries entries' hd hc => ?_) hw
  split at hc <;> cases hc
  exact hd.put name (distinct_file content)

theorem Distinct.remove (h : tree.Distinct) (hr : Tree.remove folder name tree = .ok tree') :
    tree'.Distinct := by
  refine h.modify (fun entries entries' hd hc => ?_) hr
  split at hc <;> cases hc
  exact hd.filter _

theorem Distinct.removeDir (h : tree.Distinct)
    (hr : Tree.removeDir folder name tree = .ok tree') : tree'.Distinct := by
  refine h.modify (fun entries entries' hd hc => ?_) hr
  split at hc <;> cases hc
  exact hd.filter _

theorem Distinct.rename {old new : String} (h : tree.Distinct)
    (hr : Tree.rename folder old new tree = .ok tree') : tree'.Distinct := by
  refine h.modify (fun entries entries' hd hc => ?_) hr
  split at hc <;> cases hc
  next moved hold _ => exact (hd.filter _).put new (hd.lookup hold)

end Tree

/-! ## Uses of a file store -/

/-- A use of a file store, or of the files around its values. -/
inductive FileUse where
  | set (key : String) (value : Bytes)
  | delete (key : String)
  | clear
  | makeDirs (path : Path)
  | writeFile (path : Path) (content : Bytes)
  | removeFile (path : Path)
  | removeDir (path : Path)

namespace FileStore

variable {s : FileStore}

def use (s : FileStore) : FileUse → FileStore
  | .set key value => (s.set key value).after
  | .delete key => (s.delete key).after
  | .clear => s.clear.after
  | .makeDirs path => (s.makeDirs path).after
  | .writeFile path content => (s.writeFile path content).after
  | .removeFile path => (s.removeFile path).after
  | .removeDir path => (s.removeDir path).after

def run (s : FileStore) (uses : List FileUse) : FileStore :=
  uses.foldl use s

theorem distinct_set (h : s.tree.Distinct) (key : String) (value : Bytes) :
    (s.set key value).after.tree.Distinct := by
  rw [FileStore.set]
  split
  · exact h
  · next ready hmade =>
    split
    · exact h.makeDirs hmade
    · next full hw =>
      have hfull : full.Distinct := (h.makeDirs hmade).write hw
      split
      · next tree hr => exact hfull.rename hr
      · cases hr : full.remove (s.folder key) (s.temporaryName key) with
        | ok tree => exact hfull.remove hr
        | error e => exact hfull

theorem distinct_delete (h : s.tree.Distinct) (key : String) :
    (s.delete key).after.tree.Distinct := by
  rw [FileStore.delete]
  split
  · next tree hr => exact h.remove hr
  · exact h
  · exact h

theorem distinct_clear (h : s.tree.Distinct) : s.clear.after.tree.Distinct := by
  rw [FileStore.clear]
  split
  · next count tree hc =>
    obtain ⟨entries, -, hc⟩ := exists_of_bind_ok hc
    obtain ⟨cleared, hm, hc⟩ := exists_of_bind_ok hc
    cases hc
    refine h.modify (fun entries entries' hd hfilter => ?_) hm
    cases hfilter
    exact hd.filter _
  · exact h

theorem distinct_change {f : Tree → Except IoError Tree} (h : s.tree.Distinct)
    (hf : ∀ tree', f s.tree = .ok tree' → tree'.Distinct) : (s.change f).after.tree.Distinct := by
  rw [change]
  split
  · next tree' hok => exact hf tree' hok
  · exact h

theorem distinct_changeAt {f : Path → String → Tree → Except IoError Tree} (h : s.tree.Distinct)
    (hf : ∀ folder name tree', f folder name s.tree = .ok tree' → tree'.Distinct) (path : Path) :
    (s.changeAt path f).after.tree.Distinct := by
  refine distinct_change h fun tree' hok => ?_
  split at hok
  · exact hf _ _ tree' hok
  · cases hok

theorem distinct_use (h : s.tree.Distinct) (u : FileUse) : (s.use u).tree.Distinct := by
  cases u with
  | set key value => exact distinct_set h key value
  | delete key => exact distinct_delete h key
  | clear => exact distinct_clear h
  | makeDirs path => exact distinct_change h fun _ hok => h.makeDirs hok
  | writeFile path content =>
    rw [use, writeFile]
    split
    · exact h
    · exact distinct_changeAt h (fun _ _ _ hok => h.write hok) path
  | removeFile path => exact distinct_changeAt h (fun _ _ _ hok => h.remove hok) path
  | removeDir path => exact distinct_changeAt h (fun _ _ _ hok => h.removeDir hok) path

/-- Whatever a store and the files around it are used for, names stay distinct. -/
theorem distinct_run (h : s.tree.Distinct) (uses : List FileUse) : (s.run uses).tree.Distinct := by
  induction uses generalizing s with
  | nil => exact h
  | cons u uses ih => exact ih (distinct_use h u)

end FileStore

end PeerCache

import PeerCache.Proofs.DistinctNames
import PeerCache.Proofs.FileMap
import PeerCache.Proofs.TextLaws

/-!
# Clearing a directory

The values of a file store lie in directories that are called by two lower-case digits, because
that is how every digest begins. Clearing the store removes the directories of the base directory
that are called so, with all below them, and nothing else: a file that is called so stays, and
so does everything under another name. No key has a value then, and every key takes one again
unless such a file lies where its directory belongs.
-/

namespace PeerCache.FileStore

variable {s t : FileStore} {entries : Tree.Entries} {key name : String} {value : Bytes}
  {rest path : Path}

/-! ## Names of directories -/

/-- What the directories that values lie under are called: two lower-case digits. -/
def IsFanOutName (name : String) : Prop :=
  ∃ a ∈ Hex.lowerDigits, ∃ b ∈ Hex.lowerDigits, name.toList = [a, b]

theorem lt_of_isFanOutDigit {c : Char} (h : isFanOutDigit c = true) : c.toNat < 128 := by
  rw [isFanOutDigit, Bool.or_eq_true, Bool.and_eq_true, decide_eq_true_iff] at h
  rcases h with hdigit | ⟨-, hle⟩
  · apply Text.lt_of_isAlphanum
    rw [Char.isAlphanum, hdigit, Bool.or_true]
  · exact Text.lt_of_le (of_decide_eq_true hle) (by decide)

theorem isFanOutDigit_iff {c : Char} : isFanOutDigit c = true ↔ c ∈ Hex.lowerDigits := by
  constructor
  · intro h
    have hall : ∀ n < 128, isFanOutDigit (Char.ofNat n) = true →
        Char.ofNat n ∈ Hex.lowerDigits := by
      decide +kernel
    exact Text.of_ascii (p := fun c => isFanOutDigit c = true → c ∈ Hex.lowerDigits) hall
      (lt_of_isFanOutDigit h) h
  · have hall : Hex.lowerDigits.all isFanOutDigit = true := by decide
    exact List.all_eq_true.mp hall c

theorem isFanOut_iff {e : String × Tree} :
    isFanOut e = true ↔ IsFanOutName e.1 ∧ e.2.isDir = true := by
  rw [isFanOut, Bool.and_eq_true, Bool.and_eq_true, beq_iff_eq]
  refine and_congr_left fun _ => ?_
  constructor
  · rintro ⟨hlen, hall⟩
    obtain ⟨a, b, hab⟩ := List.length_eq_two.mp hlen
    rw [hab, List.all_eq_true] at hall
    exact ⟨a, isFanOutDigit_iff.mp (hall a (by simp)), b, isFanOutDigit_iff.mp (hall b (by simp)), hab⟩
  · rintro ⟨a, ha, b, hb, hab⟩
    rw [hab]
    exact ⟨rfl, by simp [isFanOutDigit_iff.mpr ha, isFanOutDigit_iff.mpr hb]⟩

/-- The directory of the base directory that the value of a key lies under. -/
def fanOutName (key : String) : String :=
  String.ofList ((digest key).take 2)

theorem length_digest (key : String) : (digest key).length = 64 := by
  rw [digest, Hex.length_encode, Blake3.length_hash]

theorem isFanOutName_fanOutName (key : String) : IsFanOutName (fanOutName key) := by
  have hmem : ∀ c ∈ (digest key).take 2, c ∈ Hex.lowerDigits :=
    fun c hc => Hex.mem_lowerDigits_of_mem_encode (List.mem_of_mem_take hc)
  have hlen : ((digest key).take 2).length = 2 := by
    rw [List.length_take, length_digest]
    rfl
  obtain ⟨a, b, hab⟩ := List.length_eq_two.mp hlen
  rw [hab] at hmem
  exact ⟨a, hmem a (by simp), b, hmem b (by simp), by rw [fanOutName, String.toList_ofList, hab]⟩

/-- What lies in the folder of a key lies behind the key's directory of the base directory. -/
theorem folder_append (s : FileStore) (key : String) (rest : Path) :
    ∃ second, s.folder key ++ rest = (s.base ++ [fanOutName key]) ++ second :: rest :=
  ⟨String.ofList (((digest key).drop 2).take 2), by simp [folder, fanOutName]⟩

/-! ## Clearing -/

/-- The names of the directories that values lie under. -/
def fanOutNames (entries : Tree.Entries) : List String :=
  (entries.filter isFanOut).map Prod.fst

/-- What else lies beside them. -/
def others (entries : Tree.Entries) : Tree.Entries :=
  entries.filter fun e => !isFanOut e

/-- The base directory has these entries, no two under one name. -/
structure Lists (s : FileStore) (entries : Tree.Entries) : Prop where
  found : s.tree.find s.base = .ok (.dir entries)
  distinct : (entries.map Prod.fst).Nodup

/-- A store is another one without the directories of its base directory that are called by two
digits, whose names are listed, and with nothing else changed. -/
structure IsCleared (s : FileStore) (removed : List String) (t : FileStore) : Prop where
  base : t.base = s.base
  distinct : removed.Nodup
  names : ∀ name,
    name ∈ removed ↔ IsFanOutName name ∧ s.tree.at? (s.base ++ [name]) = some .dir
  gone : ∀ name ∈ removed, ∀ rest, t.tree.at? (s.base ++ name :: rest) = none
  kept : ∀ path, (∀ name ∈ removed, ¬s.base ++ [name] <+: path) →
    t.tree.at? path = s.tree.at? path

/-- The directory that a file store lies under has a listing. -/
theorem exists_lists (hd : s.tree.Distinct) (hbase : s.tree.at? s.base = some .dir) :
    ∃ entries, s.Lists entries := by
  obtain ⟨entries, hfound⟩ := Tree.at?_eq_dir_iff.mp hbase
  exact ⟨entries, hfound, hd s.base entries hfound⟩

theorem mem_fanOutNames : name ∈ fanOutNames entries ↔
    ∃ below, (name, below) ∈ entries ∧ isFanOut (name, below) = true := by
  simp [fanOutNames]

theorem fanOutNames_others (entries : Tree.Entries) : fanOutNames (others entries) = [] := by
  simp [fanOutNames, others, List.filter_filter]

theorem others_eq_self (hnone : fanOutNames entries = []) : others entries = entries := by
  apply List.filter_eq_self.mpr
  intro e he
  simpa using List.filter_eq_nil_iff.mp (List.map_eq_nil_iff.mp hnone) e he

namespace Lists

variable (h : s.Lists entries)

include h

theorem find_below (rest : Path) :
    s.tree.find (s.base ++ rest) = Tree.find rest (.dir entries) :=
  Tree.find_append h.found rest

theorem at?_eq_dir_iff : s.tree.at? (s.base ++ [name]) = some .dir ↔
    ∃ inner, entries.lookup name = some (.dir inner) := by
  simp only [Tree.at?_eq_dir_iff, h.find_below, Tree.find_name_iff]

theorem mem_fanOutNames_iff : name ∈ fanOutNames entries ↔
    IsFanOutName name ∧ s.tree.at? (s.base ++ [name]) = some .dir := by
  rw [mem_fanOutNames, h.at?_eq_dir_iff]
  constructor
  · rintro ⟨below, hbelow, hfan⟩
    obtain ⟨hname, hdir⟩ := isFanOut_iff.mp hfan
    cases below with
    | file content => cases hdir
    | dir inner => exact ⟨hname, inner, lookup_of_mem h.distinct hbelow⟩
  · rintro ⟨hname, inner, hl⟩
    exact ⟨.dir inner, mem_of_lookup hl, isFanOut_iff.mpr ⟨hname, rfl⟩⟩

theorem isFanOut_of_mem {below : Tree} (hname : name ∈ fanOutNames entries)
    (hbelow : (name, below) ∈ entries) : isFanOut (name, below) = true := by
  obtain ⟨found, hfound, hfan⟩ := mem_fanOutNames.mp hname
  have hl := lookup_of_mem h.distinct hbelow
  cases hl.symm.trans (lookup_of_mem h.distinct hfound)
  exact hfan

theorem find_others_of_mem (hname : name ∈ fanOutNames entries) (rest : Path) :
    Tree.find (name :: rest) (.dir (others entries)) = .error .notFound := by
  obtain ⟨below, hbelow, hfan⟩ := mem_fanOutNames.mp hname
  rw [Tree.find, others, lookup_filter h.distinct, lookup_of_mem h.distinct hbelow,
    Option.filter_some_neg (by simp [hfan])]

theorem find_others_of_not_mem (hname : name ∉ fanOutNames entries) (rest : Path) :
    Tree.find (name :: rest) (.dir (others entries)) = s.tree.find (s.base ++ name :: rest) := by
  rw [h.find_below, Tree.find, Tree.find, others, lookup_filter h.distinct]
  cases hl : entries.lookup name with
  | none => rfl
  | some below =>
    have hfan : isFanOut (name, below) = false := Bool.eq_false_iff.mpr fun hfan =>
      hname (mem_fanOutNames.mpr ⟨below, mem_of_lookup hl, hfan⟩)
    rw [Option.filter_some_pos (by simp [hfan])]

theorem clear_of_modify {tree : Tree}
    (hm : s.tree.modify (fun entries => .ok (others entries)) s.base = .ok tree) :
    s.clear = { answer := .ok (fanOutNames entries).length, after := { s with tree } } := by
  unfold others at hm
  rw [FileStore.clear, Tree.entriesAt, h.found, hm, fanOutNames, List.length_map]
  rfl

/-- What a store with a base directory is cleared to. -/
theorem clear_eq : ∃ tree,
    s.clear = { answer := .ok (fanOutNames entries).length, after := { s with tree } } ∧
      tree.find s.base = .ok (.dir (others entries)) ∧
      ∀ path, ¬path <+: s.base → ¬s.base <+: path → tree.find path = s.tree.find path := by
  obtain ⟨tree, hm, hfind, hapart⟩ : ∃ tree,
      s.tree.modify (fun entries => .ok (others entries)) s.base = .ok tree ∧
      tree.find s.base = .ok (.dir (others entries)) ∧
      ∀ path, ¬path <+: s.base → ¬s.base <+: path → tree.find path = s.tree.find path :=
    Tree.exists_modify h.found rfl
  exact ⟨tree, h.clear_of_modify hm, hfind, hapart⟩

theorem isCleared : s.IsCleared (fanOutNames entries) s.clear.after := by
  obtain ⟨tree, hclear, hfind, hapart⟩ := h.clear_eq
  rw [hclear]
  constructor
  · rfl
  · exact h.distinct.sublist (List.filter_sublist.map _)
  · exact fun name => h.mem_fanOutNames_iff
  · intro name hname rest
    exact Tree.at?_eq_none_iff.mpr
      ⟨_, (Tree.find_append hfind _).trans (h.find_others_of_mem hname rest)⟩
  · intro path hkept
    by_cases hbelow : s.base <+: path
    · obtain ⟨rest, rfl⟩ := hbelow
      cases rest with
      | nil =>
        rw [List.append_nil, Tree.at?_eq_dir_iff.mpr ⟨_, hfind⟩,
          Tree.at?_eq_dir_iff.mpr ⟨_, h.found⟩]
      | cons name rest =>
        have hname : name ∉ fanOutNames entries := fun hname => hkept name hname ⟨rest, by simp⟩
        exact Tree.at?_congr ((Tree.find_append hfind _).trans (h.find_others_of_not_mem hname rest))
    · by_cases habove : path <+: s.base
      · rw [Tree.at?_eq_dir_iff.mpr (Tree.exists_dir_above habove hfind),
          Tree.at?_eq_dir_iff.mpr (Tree.exists_dir_above habove h.found)]
      · exact Tree.at?_congr (hapart path habove hbelow)

theorem modify_clear :
    s.tree.modify (fun entries => .ok (others entries)) s.base = .ok s.clear.after.tree := by
  obtain ⟨tree, hm⟩ : ∃ tree,
      s.tree.modify (fun entries => .ok (others entries)) s.base = .ok tree :=
    Tree.exists_of_change h.found rfl
  rw [hm, h.clear_of_modify hm]

/-- Removing the directories one after another, in whatever order they are come by, clears the
store. -/
theorem foldlM_removeDir {names : List String} (hp : names.Perm (fanOutNames entries)) :
    names.foldlM (fun tree name => tree.removeDir s.base name) s.tree = .ok s.clear.after.tree := by
  have hd : (fanOutNames entries).Nodup := h.isCleared.distinct
  have hdirs : ∀ name ∈ names, ∃ inner, entries.lookup name = some (.dir inner) := by
    intro name hname
    obtain ⟨-, hdir⟩ := h.mem_fanOutNames_iff.mp (hp.mem_iff.mp hname)
    exact h.at?_eq_dir_iff.mp hdir
  rw [Tree.foldlM_removeDir h.found (hp.nodup_iff.mpr hd) hdirs, ← h.modify_clear]
  refine Tree.modify_congr h.found (congrArg Except.ok (List.filter_congr fun e he => ?_))
  have hfan : e.1 ∈ names ↔ isFanOut e = true :=
    hp.mem_iff.trans ⟨fun hname => h.isFanOut_of_mem hname he,
      fun hfan => mem_fanOutNames.mpr ⟨e.2, he, hfan⟩⟩
  simp [hfan]

/-- What is left of the base directory. -/
theorem cleared : s.clear.after.Lists (others entries) := by
  obtain ⟨tree, hclear, hfind, -⟩ := h.clear_eq
  rw [hclear]
  exact ⟨hfind, h.distinct.sublist (List.filter_sublist.map _)⟩

/-- A base directory without directories of values is cleared to itself. -/
theorem clear_self (hnone : fanOutNames entries = []) :
    s.clear = { answer := .ok 0, after := s } := by
  have hself : Except.ok (others entries) = (.ok entries : Except IoError Tree.Entries) :=
    congrArg _ (others_eq_self hnone)
  rw [h.clear_of_modify (Tree.modify_self h.found hself), hnone]
  rfl

end Lists

/-! ## A cleared store -/

/-- A file lies where the directory of a key belongs. -/
def Blocked (s : FileStore) (key : String) : Prop :=
  ∃ content, s.tree.at? (s.base ++ [fanOutName key]) = some (.file content)

/-- The base directory has no directory that values lie under. -/
structure Bare (s : FileStore) : Prop where
  base : s.tree.at? s.base = some .dir
  names : ∀ name, IsFanOutName name → s.tree.at? (s.base ++ [name]) ≠ some .dir

theorem Lists.bare (h : s.Lists entries) (hnone : fanOutNames entries = []) : s.Bare where
  base := Tree.at?_eq_dir_iff.mpr ⟨_, h.found⟩
  names name hname hdir := by
    have hmem := h.mem_fanOutNames_iff.mpr ⟨hname, hdir⟩
    rw [hnone] at hmem
    cases hmem

namespace Bare

variable (h : s.Bare)

include h

/-- Behind the directory of a key there is nothing, either because it is missing or because it is
a file. -/
theorem find_below (key : String) (rest : Path) :
    (s.Blocked key → s.tree.find (s.folder key ++ rest) = .error .notDirectory) ∧
    (¬s.Blocked key → s.tree.find (s.folder key ++ rest) = .error .notFound) := by
  obtain ⟨second, hpath⟩ := folder_append s key rest
  rw [hpath]
  constructor
  · rintro ⟨content, hfile⟩
    rw [Tree.find_append (Tree.at?_eq_file_iff.mp hfile)]
    rfl
  · intro hfree
    obtain ⟨entries, hbase⟩ := Tree.at?_eq_dir_iff.mp h.base
    apply Tree.find_append_of_error
    cases hl : entries.lookup (fanOutName key) with
    | none => rw [Tree.find_append hbase, Tree.find, hl]
    | some below =>
      have hfind : s.tree.find (s.base ++ [fanOutName key]) = .ok below := by
        rw [Tree.find_append hbase, Tree.find_cons hl]
        rfl
      cases below with
      | file content => exact absurd ⟨content, Tree.at?_eq_file_iff.mpr hfind⟩ hfree
      | dir inner =>
        have hdir := Tree.at?_eq_dir_iff.mpr ⟨inner, hfind⟩
        exact absurd hdir (h.names _ (isFanOutName_fanOutName key))

theorem get_blocked (hb : s.Blocked key) : (s.get key).answer = .error (.io .notDirectory) := by
  rw [answer_get, path, (h.find_below key _).1 hb]

theorem get_free (hfree : ¬s.Blocked key) : (s.get key).answer = .ok none := by
  rw [answer_get, path, (h.find_below key _).2 hfree]

theorem temporaryFree (key : String) : s.TemporaryFree key := by
  apply Tree.at?_eq_none_iff.mpr
  by_cases hb : s.Blocked key
  · exact ⟨_, (h.find_below key _).1 hb⟩
  · exact ⟨_, (h.find_below key _).2 hb⟩

theorem hasPlace_iff : s.HasPlace key ↔ ¬s.Blocked key := by
  constructor
  · rintro hplace ⟨content, hfile⟩
    obtain ⟨second, hfolder⟩ := folder_append s key []
    rw [List.append_nil] at hfolder
    exact hplace.above _ content ⟨_, hfolder.symm⟩ hfile
  · exact fun hfree => FileStore.hasPlace_iff.mpr (.inr ((h.find_below key _).2 hfree))

theorem set_ok_iff (value : Bytes) : (s.set key value).answer = .ok () ↔ ¬s.Blocked key := by
  rw [← h.hasPlace_iff]
  refine ⟨fun hok => ?_, fun hplace => (set_done (h.temporaryFree key) hplace value).1⟩
  by_contra hplace
  obtain ⟨e, he, -⟩ := set_refused (h.temporaryFree key) hplace value
  cases hok.symm.trans he

theorem get_set (value : Bytes) (hfree : ¬s.Blocked key) :
    ((s.set key value).after.get key).answer = .ok (some value) :=
  (set_done (h.temporaryFree key) (h.hasPlace_iff.mpr hfree) value).2.get

end Bare

/-- Clearing a store removes the directories of the base directory that are called by two digits,
and nothing else, and answers how many they were. No key has a value then; clearing again does
nothing; and a key takes a value unless a file is left where its directory belongs. -/
theorem clear_removes_fan_out (hd : s.tree.Distinct) (hbase : s.tree.at? s.base = some .dir) :
    (∃ removed, s.clear.answer = .ok removed.length ∧ s.IsCleared removed s.clear.after) ∧
      s.clear.after.clear = { answer := .ok 0, after := s.clear.after } ∧
      ∀ key,
        (s.clear.after.Blocked key →
          (s.clear.after.get key).answer = .error (.io .notDirectory)) ∧
        (¬s.clear.after.Blocked key → (s.clear.after.get key).answer = .ok none) ∧
        ∀ value,
          ((s.clear.after.set key value).answer = .ok () ↔ ¬s.clear.after.Blocked key) ∧
          (¬s.clear.after.Blocked key →
            ((s.clear.after.set key value).after.get key).answer = .ok (some value)) := by
  obtain ⟨entries, h⟩ := exists_lists hd hbase
  have hnone : fanOutNames (others entries) = [] := fanOutNames_others entries
  have hbare : s.clear.after.Bare := h.cleared.bare hnone
  have hanswer : s.clear.answer = .ok (fanOutNames entries).length := by
    obtain ⟨tree, hclear, -⟩ := h.clear_eq
    rw [hclear]
  refine ⟨⟨fanOutNames entries, hanswer, h.isCleared⟩, h.cleared.clear_self hnone, fun key => ?_⟩
  exact ⟨hbare.get_blocked, hbare.get_free, fun value => ⟨hbare.set_ok_iff value, hbare.get_set value⟩⟩

/-- A store under a directory that a user keeps other files in, one of them called like a
directory of values. -/
def shared : FileStore :=
  run { tree := Tree.newDirs ["cache"], base := ["cache"] } [.set "k" [1],
    .writeFile ["notes.txt"] [2], .makeDirs ["docs"], .writeFile ["docs", "readme"] [3],
    .writeFile ["b9"] [4]]

theorem clear_shared :
    shared.tree.Distinct ∧ shared.tree.at? shared.base = some .dir ∧
      shared.clear.answer = .ok 1 ∧
      shared.clear.after.tree.at? ["cache", "docs", "readme"] = some (.file [3]) ∧
      (shared.clear.after.get "l").answer = .error (.io .notDirectory) ∧
      (shared.clear.after.get "k").answer = .ok none ∧
      ((shared.clear.after.set "k" [7]).after.get "k").answer = .ok (some [7]) := by
  have hdistinct : shared.tree.Distinct := distinct_run (Tree.distinct_newDirs ["cache"]) _
  have hbase : shared.tree.at? shared.base = some .dir := by decide +kernel
  obtain ⟨⟨removed, -, hcleared⟩, -, hkeys⟩ := clear_removes_fan_out hdistinct hbase
  have hplace : shared.base = ["cache"] := by decide +kernel
  -- A name of four letters is none of those that are removed.
  have hdocs : ∀ name ∈ removed, ¬shared.base ++ [name] <+: ["cache", "docs", "readme"] := by
    rintro name hname ⟨rest, hrest⟩
    obtain ⟨⟨a, -, b, -, hab⟩, -⟩ := (hcleared.names name).mp hname
    rw [hplace] at hrest
    cases hrest
    cases hab
  have hreadme : shared.tree.at? ["cache", "docs", "readme"] = some (.file [3]) := by decide +kernel
  have hblocked : shared.clear.after.Blocked "l" := ⟨[4], by decide +kernel⟩
  have hfree : ¬shared.clear.after.Blocked "k" := by
    have hnone : shared.clear.after.tree.at? (shared.clear.after.base ++ [fanOutName "k"]) = none := by
      decide +kernel
    rintro ⟨content, hfile⟩
    cases hnone.symm.trans hfile
  exact ⟨hdistinct, hbase, by decide +kernel, (hcleared.kept _ hdocs).trans hreadme,
    (hkeys "l").1 hblocked, (hkeys "k").2.1 hfree, ((hkeys "k").2.2 [7]).2 hfree⟩

end PeerCache.FileStore

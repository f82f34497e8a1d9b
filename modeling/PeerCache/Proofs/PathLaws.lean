import PeerCache.Proofs.HostLaws
import PeerCache.Url.Path

/-!
# Laws of paths of addresses

A path that was read is a list of segments behind slashes. Segments are only left out and never
made, except for empty ones and for drives, so no mark of a query or a fragment and no segment
that means "here" or "up" is left. A path that has this form already is read as it is, and no
other path is: `normalPath_eq_self_iff`.
-/

namespace PeerCache

theorem Percent.encodeText_of_kept {keep : Char → Bool} {text : List Char}
    (h : ∀ c ∈ text, c.toNat < 128 ∧ keep c = true) : encodeText keep text = text := by
  induction text with
  | nil => rfl
  | cons c text ih =>
    rw [List.forall_mem_cons] at h
    have hkept : (c.toNat < 128 && keep c) = true := by
      rw [Bool.and_eq_true, decide_eq_true_eq]
      exact h.1
    have htail : encodeText keep text = text := ih h.2
    show (if c.toNat < 128 && keep c then [c] else _) ++ encodeText keep text = c :: text
    rw [if_pos hkept, htail]
    rfl

namespace Url

/-! ## Segments -/

/-- A segment that stands in a path as it is written: its characters may stay, none of them is
a slash, and it means neither "here" nor "up". -/
structure IsSegment (rules : PathRules) (segment : List Char) : Prop where
  plain : ∀ c ∈ segment, c.toNat < 128 ∧ plainInPath c = true
  slash : ∀ c ∈ segment, isSlash rules c = false
  here : isHere segment = false
  up : isUp segment = false

variable {rules : PathRules} {done parts : List (List Char)} {segment text : List Char}

theorem isSegment_nil (rules : PathRules) : IsSegment rules [] where
  plain _ hc := by cases hc
  slash _ hc := by cases hc
  here := rfl
  up := rfl

theorem isSlash_of_ne {c : Char} (hs : c ≠ '/') (hb : c ≠ '\\') : isSlash rules c = false := by
  simp [isSlash, hs, hb]

/-- Letters and digits are kept in a path, and are no slashes. -/
theorem plain_of_isAlphanum (rules : PathRules) {c : Char} (h : c.isAlphanum = true) :
    (c.toNat < 128 ∧ plainInPath c = true) ∧ isSlash rules c = false := by
  have hlt := Text.lt_of_isAlphanum h
  have hplain : plainInPath c = true :=
    Text.of_ascii (p := fun c => c.isAlphanum = true → plainInPath c = true) (by decide) hlt h
  refine ⟨⟨hlt, hplain⟩, isSlash_of_ne ?_ ?_⟩
  · rintro rfl
    exact absurd h (by decide)
  · rintro rfl
    exact absurd h (by decide)

theorem isSegment_drive {letter : Char} (h : letter.isAlpha = true) :
    IsSegment rules [letter, ':'] := by
  have halpha : letter.isAlphanum = true := by rw [Char.isAlphanum, h, Bool.true_or]
  obtain ⟨hplain, hslash⟩ := plain_of_isAlphanum rules halpha
  constructor
  · rw [List.forall_mem_cons]
    exact ⟨hplain, by simp; decide⟩
  · rw [List.forall_mem_cons]
    exact ⟨hslash, by simp [isSlash_of_ne]⟩
  · simp [isHere, Text.lower]
  · simp [isUp, Text.lower]

/-- What is written for a part without slashes can stand in a path. -/
theorem isSegment_encodeText (hslash : ∀ c ∈ segment, isSlash rules c = false)
    (hhere : isHere (Percent.encodeText plainInPath segment) = false)
    (hup : isUp (Percent.encodeText plainInPath segment) = false) :
    IsSegment rules (Percent.encodeText plainInPath segment) := by
  have hchars : ∀ c ∈ Percent.encodeText plainInPath segment,
      (c.toNat < 128 ∧ plainInPath c = true) ∧ isSlash rules c = false := by
    intro c hc
    obtain ⟨hmem, hkept⟩ | rfl | halpha := Percent.mem_encodeText hc
    · exact ⟨hkept, hslash c hmem⟩
    · exact ⟨by decide, isSlash_of_ne (by decide) (by decide)⟩
    · exact plain_of_isAlphanum rules halpha
  exact ⟨fun c hc => (hchars c hc).1, fun c hc => (hchars c hc).2, hhere, hup⟩

/-! ## Adding segments -/

/-- What is left after "here" and "up" in front of `rest`. -/
def closed (rest segments : List (List Char)) : List (List Char) :=
  if rest.isEmpty then segments ++ [[]] else segments

theorem addSegments_cons (rules : PathRules) (done : List (List Char)) (segment : List Char)
    (rest : List (List Char)) :
    addSegments rules done (segment :: rest) =
      addSegments rules
        (if isUp segment then closed rest (shorten rules done)
        else if isHere segment then closed rest done
        else done ++ [asSegment rules done segment]) rest := by
  rw [addSegments]
  split
  · rfl
  · split <;> rfl

theorem addSegments_ne_nil (rules : PathRules) (done : List (List Char))
    {parts : List (List Char)} (hp : parts ≠ []) : addSegments rules done parts ≠ [] := by
  induction parts generalizing done with
  | nil => exact absurd rfl hp
  | cons segment rest ih =>
    rw [addSegments_cons]
    cases rest with
    | cons next rest => exact ih _ (List.cons_ne_nil next rest)
    | nil =>
      rw [addSegments]
      split
      · exact List.append_ne_nil_of_right_ne_nil _ (List.cons_ne_nil _ _)
      split
      · exact List.append_ne_nil_of_right_ne_nil _ (List.cons_ne_nil _ _)
      · exact List.append_ne_nil_of_right_ne_nil _ (List.cons_ne_nil _ _)

theorem mem_shorten (h : segment ∈ shorten rules done) : segment ∈ done := by
  unfold shorten at h
  split at h
  · split at h
    · exact h
    · cases h
  · exact (List.dropLast_sublist done).mem h

theorem mem_closed {rest : List (List Char)} (h : segment ∈ closed rest done) :
    segment ∈ done ∨ segment = [] := by
  unfold closed at h
  split at h
  · exact (List.mem_append.mp h).imp_right List.mem_singleton.mp
  · exact .inl h

/-- A segment is taken as it is, or as a drive with a colon. -/
theorem asSegment_cases (rules : PathRules) (before : List (List Char)) (segment : List Char) :
    asSegment rules before segment = segment ∨
      ∃ letter, letter.isAlpha = true ∧ asSegment rules before segment = [letter, ':'] := by
  unfold asSegment
  split
  · next letter mark hdrive =>
    simp only [isDrive, Bool.and_eq_true] at hdrive
    exact .inr ⟨letter, hdrive.2.1, rfl⟩
  · exact .inl rfl

theorem asSegment_of_ne_nil (hdone : done ≠ []) (segment : List Char) :
    asSegment rules done segment = segment := by
  have hsome : done.isEmpty = false := List.isEmpty_eq_false_iff.mpr hdone
  unfold asSegment
  rw [hsome, Bool.and_false, Bool.false_and]

/-- Segments are those that were given and may stay, empty ones, and drives. -/
theorem isSegment_of_mem_addSegments (hdone : ∀ s ∈ done, IsSegment rules s)
    (hparts : ∀ s ∈ parts, isHere s = false → isUp s = false → IsSegment rules s) :
    ∀ s ∈ addSegments rules done parts, IsSegment rules s := by
  have hnil := isSegment_nil rules
  induction parts generalizing done with
  | nil => exact hdone
  | cons part rest ih =>
    rw [List.forall_mem_cons] at hparts
    rw [addSegments_cons]
    refine ih ?_ hparts.2
    intro s hs
    split at hs
    · obtain hs | rfl := mem_closed hs
      · exact hdone s (mem_shorten hs)
      · exact hnil
    · next hup =>
      split at hs
      · obtain hs | rfl := mem_closed hs
        · exact hdone s hs
        · exact hnil
      · next hhere =>
        obtain hs | hs := List.mem_append.mp hs
        · exact hdone s hs
        · rw [List.mem_singleton.mp hs]
          obtain hsame | ⟨letter, halpha, hdrive⟩ := asSegment_cases rules done part
          · rw [hsame]
            exact hparts.1 (Bool.eq_false_iff.mpr hhere) (Bool.eq_false_iff.mpr hup)
          · rw [hdrive]
            exact isSegment_drive halpha

/-- Segments that may stay are added as they are. -/
theorem addSegments_of_isSegment (hdone : done ≠ []) (h : ∀ s ∈ parts, IsSegment rules s) :
    addSegments rules done parts = done ++ parts := by
  induction parts generalizing done with
  | nil => exact (List.append_nil done).symm
  | cons part rest ih =>
    rw [List.forall_mem_cons] at h
    rw [addSegments_cons, h.1.up, h.1.here, asSegment_of_ne_nil hdone]
    simp only [Bool.false_eq_true, if_false]
    rw [ih (List.append_ne_nil_of_left_ne_nil hdone _) h.2, List.append_assoc]
    rfl

/-! ## Segments of a path -/

/-- What becomes of the segments of a path when all have been added: a file address drops empty
ones at its front. -/
def settled (rules : PathRules) (segments : List (List Char)) : List (List Char) :=
  if rules.file then segments.dropLast.dropWhile (· == []) ++ segments.getLast?.toList else segments

/-- The parts of a path that its segments are read from. -/
def givenParts (rules : PathRules) (text : List Char) : List (List Char) :=
  let text :=
    match text with
    | c :: rest => if isSlash rules c then rest else text
    | [] => []
  text.splitOnP (isSlash rules)

theorem segments_eq (rules : PathRules) (text : List Char) :
    segments rules text = settled rules (addSegments rules []
      ((givenParts rules text).map (Percent.encodeText plainInPath))) := rfl

theorem settled_ne_nil {segments : List (List Char)} (h : segments ≠ []) :
    settled rules segments ≠ [] := by
  unfold settled
  split
  · apply List.append_ne_nil_of_right_ne_nil
    rw [List.getLast?_eq_some_getLast h]
    exact List.cons_ne_nil _ _
  · exact h

theorem mem_of_mem_settled {segments : List (List Char)} (h : segment ∈ settled rules segments) :
    segment ∈ segments := by
  unfold settled at h
  split at h
  · obtain h | h := List.mem_append.mp h
    · exact (List.dropLast_sublist segments).mem ((List.dropWhile_sublist _).mem h)
    · exact List.mem_of_getLast? (Option.mem_toList.mp h)
  · exact h

theorem segments_ne_nil (rules : PathRules) (text : List Char) : segments rules text ≠ [] := by
  rw [segments_eq]
  apply settled_ne_nil
  apply addSegments_ne_nil
  intro hnil
  exact List.splitOnP_ne_nil _ _ (List.map_eq_nil_iff.mp hnil)

theorem not_of_mem_splitOnP {p : Char → Bool} {text part : List Char} (h : part ∈ text.splitOnP p) :
    ∀ c ∈ part, p c = false := by
  induction text generalizing part with
  | nil =>
    rw [List.splitOnP_nil, List.mem_singleton] at h
    simp [h]
  | cons d text ih =>
    rw [List.splitOnP_cons_eq_if_modifyHead] at h
    split at h
    · obtain rfl | h := List.mem_cons.mp h
      · simp
      · exact ih h
    · next hd =>
      obtain ⟨first, rest, hsplit⟩ := List.exists_cons_of_ne_nil (List.splitOnP_ne_nil p text)
      rw [hsplit, List.modifyHead_cons] at h
      rw [hsplit] at ih
      obtain rfl | h := List.mem_cons.mp h
      · rw [List.forall_mem_cons]
        exact ⟨Bool.eq_false_iff.mpr hd, ih List.mem_cons_self⟩
      · exact ih (List.mem_cons_of_mem first h)

theorem isSegment_of_mem_segments (h : segment ∈ segments rules text) : IsSegment rules segment := by
  rw [segments_eq] at h
  refine isSegment_of_mem_addSegments (by simp) ?_ segment (mem_of_mem_settled h)
  intro s hs hhere hup
  obtain ⟨part, hpart, rfl⟩ := List.mem_map.mp hs
  exact isSegment_encodeText (not_of_mem_splitOnP hpart) hhere hup

/-- The path of some segments. -/
def pathOf (segments : List (List Char)) : List Char :=
  segments.flatMap fun segment => '/' :: segment

theorem splitOnP_pathOf {first : List Char} {rest : List (List Char)}
    (h : ∀ s ∈ first :: rest, IsSegment rules s) :
    (first ++ pathOf rest).splitOnP (isSlash rules) = first :: rest := by
  induction rest generalizing first with
  | nil =>
    rw [List.forall_mem_singleton] at h
    rw [pathOf, List.flatMap_nil, List.append_nil]
    exact List.splitOnP_eq_singleton h.slash
  | cons next rest ih =>
    rw [List.forall_mem_cons] at h
    show (first ++ '/' :: (next ++ pathOf rest)).splitOnP (isSlash rules) = _
    rw [List.splitOnP_append_cons_of_forall_mem h.1.slash '/' rfl, ih h.2]

/-- Reading a path of segments that may stay finds these segments. -/
theorem segments_pathOf {first : List Char} {rest : List (List Char)}
    (h : ∀ s ∈ first :: rest, IsSegment rules s) :
    segments rules (pathOf (first :: rest)) =
      settled rules (asSegment rules [] first :: rest) := by
  have hsplit : givenParts rules (pathOf (first :: rest)) = first :: rest := splitOnP_pathOf h
  have hwritten : (first :: rest).map (Percent.encodeText plainInPath) = first :: rest := by
    refine (List.map_congr_left fun s hs => ?_).trans (List.map_id _)
    exact Percent.encodeText_of_kept (h s hs).plain
  rw [List.forall_mem_cons] at h
  rw [segments_eq, hsplit, hwritten, addSegments_cons, h.1.up, h.1.here]
  simp only [Bool.false_eq_true, if_false, List.nil_append]
  rw [addSegments_of_isSegment (List.cons_ne_nil _ _) h.2]
  rfl

/-! ## Normal paths -/

theorem normalPath_eq_pathOf (h : text ≠ [] ∨ rules.usual = true) :
    normalPath rules text = pathOf (segments rules text) := by
  rw [normalPath]
  rw [if_neg]
  · rfl
  · rintro ⟨rfl, husual⟩
    obtain h | h := h
    · exact h rfl
    · exact Bool.false_ne_true (husual.symm.trans h)

theorem exists_pathOf {segments : List (List Char)} (h : segments ≠ []) :
    ∃ path, pathOf segments = '/' :: path := by
  obtain ⟨first, rest, rfl⟩ := List.exists_cons_of_ne_nil h
  exact ⟨first ++ pathOf rest, rfl⟩

/-- A normal path starts with a slash, unless nothing was given to an unusual scheme. -/
theorem slash_of_normalPath (h : text ≠ [] ∨ rules.usual = true) :
    ∃ path, normalPath rules text = '/' :: path := by
  rw [normalPath_eq_pathOf h]
  exact exists_pathOf (segments_ne_nil rules text)

theorem head_normalPath (rules : PathRules) (text : List Char) :
    ∀ c ∈ (normalPath rules text).head?, c = '/' := by
  intro c hc
  rw [normalPath] at hc
  split at hc
  · cases hc
  · obtain ⟨path, hpath⟩ := exists_pathOf (segments_ne_nil rules text)
    rw [← pathOf, hpath] at hc
    exact (Option.some.inj hc).symm

/-- A character of a normal path: no mark of a query or a fragment, and nothing invisible. -/
def isPathText (c : Char) : Bool :=
  32 < c.toNat && c.toNat < 127 && c ≠ '?' && c ≠ '#'

theorem isPathText_of_plain {c : Char} (hlt : c.toNat < 128) (h : plainInPath c = true) :
    isPathText c = true :=
  Text.of_ascii (p := fun c => plainInPath c = true → isPathText c = true) (by decide) hlt h

theorem isPathText_normalPath (rules : PathRules) (text : List Char) :
    ∀ c ∈ normalPath rules text, isPathText c = true := by
  intro c hc
  rw [normalPath] at hc
  split at hc
  · cases hc
  · obtain ⟨segment, hsegment, hc⟩ := List.mem_flatMap.mp hc
    obtain rfl | hc := List.mem_cons.mp hc
    · rfl
    · obtain ⟨hlt, hplain⟩ := (isSegment_of_mem_segments hsegment).plain c hc
      exact isPathText_of_plain hlt hplain

/-- A path in normal form: behind slashes stand segments that may stay. A file address has no
empty segment in front of others, and writes a drive at its front with a colon. -/
def IsNormalPath (rules : PathRules) (path : List Char) : Prop :=
  ∃ first rest, path = pathOf (first :: rest) ∧ (∀ s ∈ first :: rest, IsSegment rules s) ∧
    (rules.file = true → (first = [] → rest = []) ∧
      ∀ letter, letter.isAlpha = true → first ≠ [letter, '|'])

theorem asSegment_eq_self_iff {first : List Char} :
    asSegment rules [] first = first ↔
      (rules.file = true → ∀ letter, letter.isAlpha = true → first ≠ [letter, '|']) := by
  constructor
  · rintro h hfile letter halpha rfl
    simp [asSegment, isDrive, hfile, halpha] at h
  · intro h
    unfold asSegment
    split
    · next letter mark hdrive =>
      simp only [isDrive, Bool.and_eq_true, Bool.or_eq_true, beq_iff_eq] at hdrive
      obtain ⟨⟨hfile, -⟩, halpha, rfl | rfl⟩ := hdrive
      · rfl
      · exact absurd rfl (h hfile letter halpha)
    · rfl

/-- Segments that have been added stay as they are, unless a file address starts with an empty
one in front of others. -/
theorem settled_eq_iff {first first' : List Char} {rest : List (List Char)} :
    settled rules (first' :: rest) = first :: rest ↔
      first' = first ∧ (rules.file = true → first = [] → rest = []) := by
  unfold settled
  split
  · next hfile =>
    cases rest with
    | nil => simp
    | cons next rest =>
      have hlast : (first' :: next :: rest).dropLast ++
          (first' :: next :: rest).getLast?.toList = first' :: next :: rest := by
        rw [List.getLast?_eq_some_getLast (List.cons_ne_nil _ _)]
        exact List.dropLast_concat_getLast _
      by_cases hnil : first' = []
      · -- an empty first segment is dropped, and the list gets shorter
        have hshort : ((first' :: next :: rest).dropLast.dropWhile (· == [])).length <
            (first' :: next :: rest).dropLast.length := by
          rw [hnil, List.dropLast_cons_of_ne_nil (List.cons_ne_nil _ _),
            List.dropWhile_cons_of_pos rfl]
          exact Nat.lt_succ_of_le (List.dropWhile_sublist _).length_le
        constructor
        · intro h
          have hlength := congrArg List.length (hlast.trans (congrArg (· :: next :: rest) hnil))
          have hkept := congrArg List.length h
          simp only [List.length_append, List.length_cons] at hlength hkept
          omega
        · rintro ⟨rfl, hrest⟩
          cases hrest hfile hnil
      · have hkept : (first' :: next :: rest).dropLast.dropWhile (· == []) =
            (first' :: next :: rest).dropLast := by
          rw [List.dropLast_cons_of_ne_nil (List.cons_ne_nil _ _)]
          exact List.dropWhile_cons_of_neg (by simpa using hnil)
        rw [hkept, hlast, List.cons.injEq]
        constructor
        · rintro ⟨rfl, -⟩
          exact ⟨rfl, fun _ h => absurd h hnil⟩
        · rintro ⟨rfl, -⟩
          exact ⟨rfl, rfl⟩
  · next hfile =>
    simp [hfile]

/-- Reading leaves a path as it is exactly if it is in normal form. -/
theorem normalPath_eq_self_iff {path : List Char} (hne : path ≠ []) :
    normalPath rules path = path ↔ IsNormalPath rules path := by
  rw [normalPath_eq_pathOf (.inl hne)]
  constructor
  · intro h
    obtain ⟨first, rest, hsegments⟩ := List.exists_cons_of_ne_nil (segments_ne_nil rules path)
    have hall : ∀ s ∈ first :: rest, IsSegment rules s := by
      intro s hs
      rw [← hsegments] at hs
      exact isSegment_of_mem_segments hs
    rw [hsegments] at h
    have hsame : settled rules (asSegment rules [] first :: rest) = first :: rest := by
      rw [← segments_pathOf hall, h, hsegments]
    obtain ⟨hdrive, hempty⟩ := settled_eq_iff.mp hsame
    refine ⟨first, rest, h.symm, hall, fun hfile => ⟨hempty hfile, ?_⟩⟩
    exact asSegment_eq_self_iff.mp hdrive hfile
  · rintro ⟨first, rest, rfl, hall, hfile⟩
    have hdrive : asSegment rules [] first = first :=
      asSegment_eq_self_iff.mpr fun h => (hfile h).2
    rw [segments_pathOf hall, settled_eq_iff.mpr ⟨hdrive, fun h => (hfile h).1⟩]

theorem IsNormalPath.ne_nil {path : List Char} (h : IsNormalPath rules path) : path ≠ [] := by
  obtain ⟨first, rest, rfl, -⟩ := h
  obtain ⟨behind, hpath⟩ := exists_pathOf (List.cons_ne_nil first rest)
  rw [hpath]
  exact List.cons_ne_nil '/' behind

theorem IsNormalPath.normalPath_eq {path : List Char} (h : IsNormalPath rules path) :
    normalPath rules path = path :=
  (normalPath_eq_self_iff h.ne_nil).mpr h

/-- The shortest path is in normal form. -/
theorem isNormalPath_slash (rules : PathRules) : IsNormalPath rules ['/'] := by
  refine ⟨[], [], rfl, ?_, fun _ => ⟨fun _ => rfl, fun letter _ => (List.cons_ne_nil _ _).symm⟩⟩
  rw [List.forall_mem_singleton]
  exact isSegment_nil rules

end Url

end PeerCache

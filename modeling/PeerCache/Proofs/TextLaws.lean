import Mathlib.Data.List.TakeWhile
import PeerCache.Text.Blank

/-!
# Laws of texts

Letters in lower case, ASCII characters, parts of a text and the blanks at its ends, as later
modules use them.
-/

namespace PeerCache.Text

/-! ## Characters -/

theorem lt_of_isAlphanum {c : Char} (h : c.isAlphanum = true) : c.toNat < 128 := by
  change ((decide ('A'.val ≤ c.val ∧ c.val ≤ 'Z'.val) ||
    (decide ('a'.val ≤ c.val) && decide (c.val ≤ 'z'.val))) ||
    (decide ('0'.val ≤ c.val) && decide (c.val ≤ '9'.val))) = true at h
  simp only [Bool.or_eq_true, Bool.and_eq_true, decide_eq_true_eq, UInt32.le_iff_toNat_le] at h
  change ((65 ≤ c.toNat ∧ c.toNat ≤ 90) ∨ (97 ≤ c.toNat ∧ c.toNat ≤ 122)) ∨
    (48 ≤ c.toNat ∧ c.toNat ≤ 57) at h
  omega

theorem lt_of_le {c last : Char} (h : c ≤ last) (hlast : last.toNat < 128) : c.toNat < 128 :=
  Nat.lt_of_le_of_lt (UInt32.le_iff_toNat_le.mp h) hlast

theorem not_isUpper_of_le {c : Char} (h : 128 ≤ c.toNat) : c.isUpper = false := by
  apply Bool.eq_false_iff.mpr
  intro hu
  have halpha : ((c.isUpper || c.isLower) || c.isDigit) = true := by rw [hu]; rfl
  exact absurd (lt_of_isAlphanum halpha) (Nat.not_lt_of_le h)

/-- What holds of the first characters one by one holds of every ASCII character. -/
theorem of_ascii {p : Char → Prop} (h : ∀ n < 128, p (Char.ofNat n)) {c : Char}
    (hc : c.toNat < 128) : p c := by
  have hn := h c.toNat hc
  rwa [Char.ofNat_toNat] at hn

theorem toLower_of_not_upper {c : Char} (h : c.isUpper = false) : c.toLower = c := by
  unfold Char.toLower
  rw [dif_neg]
  exact of_decide_eq_false h

theorem lower_of_not_upper {text : List Char} (h : ∀ c ∈ text, c.isUpper = false) :
    lower text = text := by
  rw [lower]
  rw [List.map_congr_left fun c hc => toLower_of_not_upper (h c hc), List.map_id']

theorem toLower_toLower (c : Char) : c.toLower.toLower = c.toLower := by
  by_cases hlt : c.toNat < 128
  · have hascii : ∀ n < 128, (Char.ofNat n).toLower.toLower = (Char.ofNat n).toLower := by decide
    exact of_ascii (p := fun c => c.toLower.toLower = c.toLower) hascii hlt
  · rw [toLower_of_not_upper (not_isUpper_of_le (Nat.le_of_not_lt hlt))]
    exact toLower_of_not_upper (not_isUpper_of_le (Nat.le_of_not_lt hlt))

theorem lower_lower (text : List Char) : lower (lower text) = lower text := by
  rw [lower]
  rw [lower, List.map_map]
  exact List.map_congr_left fun c _ => toLower_toLower c

/-- Only a small letter is the lower case of another character. -/
theorem eq_of_toLower {c mark : Char} (hm : mark.isLower = false) (h : c.toLower = mark) :
    c = mark := by
  have hsame : c.toLower = c := by
    by_cases hlt : c.toNat < 128
    · have hascii : ∀ n < 128, (Char.ofNat n).toLower.isLower = false →
          (Char.ofNat n).toLower = Char.ofNat n := by decide
      exact of_ascii (p := fun c => c.toLower.isLower = false → c.toLower = c) hascii hlt (h ▸ hm)
    · exact toLower_of_not_upper (not_isUpper_of_le (Nat.le_of_not_lt hlt))
  exact hsame.symm.trans h

theorem lower_eq_singleton_iff {mark : Char} (hm : mark.isLower = false)
    (hmark : mark.toLower = mark) {text : List Char} : lower text = [mark] ↔ text = [mark] := by
  constructor
  · intro h
    obtain ⟨c, rfl, hc⟩ := List.map_eq_singleton_iff.mp h
    rw [eq_of_toLower hm hc]
  · rintro rfl
    exact congrArg (fun c => [c]) hmark

/-! ## Cutting -/

section Split

variable {q : Char → Bool} {front rest : List Char}

/-- A text whose first part is in a class and whose rest starts outside it. -/
theorem takeWhile_split (hf : ∀ c ∈ front, q c = true) (hr : ∀ c ∈ rest.head?, q c = false) :
    (front ++ rest).takeWhile q = front := by
  rw [List.takeWhile_append_of_pos hf]
  cases rest with
  | nil => simp
  | cons c rest => rw [List.takeWhile_cons_of_neg (by simp [hr c rfl]), List.append_nil]

theorem dropWhile_head (hr : ∀ c ∈ rest.head?, q c = false) : rest.dropWhile q = rest := by
  cases rest with
  | nil => rfl
  | cons c rest => exact List.dropWhile_cons_of_neg (by simp [hr c rfl])

theorem dropWhile_split (hf : ∀ c ∈ front, q c = true) (hr : ∀ c ∈ rest.head?, q c = false) :
    (front ++ rest).dropWhile q = rest := by
  rw [List.dropWhile_append_of_pos hf]
  exact dropWhile_head hr

/-- Every text is split in this way. -/
theorem split_parts (q : Char → Bool) (text : List Char) :
    (∀ c ∈ text.takeWhile q, q c = true) ∧ (∀ c ∈ (text.dropWhile q).head?, q c = false) ∧
      text = text.takeWhile q ++ text.dropWhile q := by
  refine ⟨fun c hc => List.mem_takeWhile_imp hc, fun c hc => ?_,
    List.takeWhile_append_dropWhile.symm⟩
  have hhead := List.head?_dropWhile_not q text
  rw [Option.mem_def.mp hc] at hhead
  exact hhead

end Split

section Cut

variable {p : Char → Bool} {front back : List Char} {mark : Char}

theorem cut_append (hf : ∀ c ∈ front, p c = false) (hm : p mark = true) :
    cut p (front ++ mark :: back) = (front, some back) := by
  have hfront : ∀ c ∈ front, (!p c) = true := by
    intro c hc
    rw [hf c hc]
    rfl
  have hmark : ∀ c ∈ (mark :: back).head?, (!p c) = false := by simp [hm]
  simp only [cut, dropWhile_split hfront hmark, takeWhile_split hfront hmark]

theorem cut_of_not (hf : ∀ c ∈ front, p c = false) : cut p front = (front, none) := by
  have hfront : ∀ c ∈ front, (!p c) = true := by
    intro c hc
    rw [hf c hc]
    rfl
  have hnil : front.dropWhile (fun c => !p c) = [] := List.dropWhile_eq_nil_iff.mpr hfront
  simp only [cut, hnil]

theorem cut_cons_of_not (hm : p mark = false) (back : List Char) :
    cut p (mark :: back) = (mark :: (cut p back).1, (cut p back).2) := by
  simp only [cut, List.dropWhile_cons, List.takeWhile_cons, hm, Bool.not_false, if_true]
  cases back.dropWhile fun c => !p c <;> rfl

theorem cut_cons_of_mark (hm : p mark = true) (back : List Char) :
    cut p (mark :: back) = ([], some back) :=
  have hnil : ∀ c ∈ ([] : List Char), p c = false := by simp
  cut_append hnil hm

/-- A text is its part before the mark, or that part, the mark and what follows. -/
theorem cut_parts (p : Char → Bool) (text : List Char) :
    (∀ c ∈ (cut p text).1, p c = false) ∧
      ((cut p text).2 = none ∧ text = (cut p text).1 ∨
        ∃ mark back, (cut p text).2 = some back ∧ p mark = true ∧
          text = (cut p text).1 ++ mark :: back) := by
  obtain ⟨hfront, hhead, htext⟩ := split_parts (fun c => !p c) text
  have hfront : ∀ c ∈ text.takeWhile (fun c => !p c), p c = false := by
    intro c hc
    simpa using hfront c hc
  cases hrest : text.dropWhile fun c => !p c with
  | nil =>
    rw [hrest, List.append_nil] at htext
    rw [cut, hrest]
    exact ⟨htext ▸ hfront, .inl ⟨rfl, rfl⟩⟩
  | cons mark back =>
    rw [hrest] at htext hhead
    rw [cut, hrest]
    exact ⟨hfront, .inr ⟨mark, back, rfl, by simpa using hhead, htext⟩⟩

end Cut

/-! ## Blanks at the ends -/

/-- A text without blanks at its ends is trimmed. -/
theorem trim_of_ends {text : List Char} (hf : ∀ c ∈ text.head?, isBlank c = false)
    (hl : ∀ c ∈ text.getLast?, isBlank c = false) : trim text = text := by
  rw [← List.head?_reverse] at hl
  rw [trim, trimBy, dropWhile_head hf, dropEnd, dropWhile_head hl, List.reverse_reverse]

theorem dropEnd_append_of_all {p : Char → Bool} (front : List Char) {back : List Char}
    (h : ∀ c ∈ back, p c = true) : dropEnd p (front ++ back) = dropEnd p front := by
  have hback : ∀ c ∈ back.reverse, p c = true := fun c hc => h c (List.mem_reverse.mp hc)
  rw [dropEnd, List.reverse_append, List.dropWhile_append_of_pos hback]
  rfl

theorem trim_padded (left text right : List Char)
    (hl : ∀ c ∈ left, isBlank c = true) (hr : ∀ c ∈ right, isBlank c = true) :
    trim (left ++ text ++ right) = trim text := by
  rw [trim, trimBy, List.append_assoc, List.dropWhile_append_of_pos hl, List.dropWhile_append]
  split
  · next hnil =>
    rw [List.isEmpty_iff] at hnil
    rw [List.dropWhile_eq_nil_iff.mpr hr, trim, trimBy, hnil]
  · exact dropEnd_append_of_all _ hr

/-- A text is its trimmed form between blanks. -/
theorem exists_padding (text : List Char) : ∃ left right, text = left ++ trim text ++ right ∧
    (∀ c ∈ left, isBlank c = true) ∧ ∀ c ∈ right, isBlank c = true := by
  obtain ⟨hleft, -, hfront⟩ := split_parts isBlank text
  obtain ⟨hright, -, hback⟩ := split_parts isBlank (text.dropWhile isBlank).reverse
  refine ⟨_, _, ?_, hleft, fun c hc => hright c (List.mem_reverse.mp hc)⟩
  rw [trim, trimBy, dropEnd, List.append_assoc, ← List.reverse_append, ← hback,
    List.reverse_reverse, ← hfront]

theorem trim_trim (text : List Char) : trim (trim text) = trim text := by
  obtain ⟨left, right, htext, hl, hr⟩ := exists_padding text
  exact (trim_padded left (trim text) right hl hr).symm.trans (congrArg trim htext.symm)

theorem dropWhile_around {p : Char → Bool} {mark : Char} (hm : p mark = false)
    (front back : List Char) :
    (front ++ mark :: back).dropWhile p = front.dropWhile p ++ mark :: back := by
  rw [List.dropWhile_append]
  split
  · next hnil =>
    rw [List.isEmpty_iff.mp hnil, List.nil_append]
    exact List.dropWhile_cons_of_neg (Bool.eq_false_iff.mp hm)
  · rfl

/-- Around a character that is no blank, the two sides lose their blanks on their own. -/
theorem trim_around {mark : Char} (hm : isBlank mark = false) (front back : List Char) :
    trim (front ++ mark :: back) = front.dropWhile isBlank ++ mark :: dropEnd isBlank back := by
  rw [trim, trimBy, dropWhile_around hm, dropEnd, List.reverse_append, List.reverse_cons,
    List.append_assoc, List.singleton_append, dropWhile_around hm, dropEnd]
  simp

theorem trim_dropWhile (text : List Char) : trim (text.dropWhile isBlank) = trim text := by
  obtain ⟨hleft, -, htext⟩ := split_parts isBlank text
  have hpadded := trim_padded _ (text.dropWhile isBlank) [] hleft (by simp)
  rw [List.append_nil, ← htext] at hpadded
  exact hpadded.symm

theorem trim_dropEnd (text : List Char) : trim (dropEnd isBlank text) = trim text := by
  obtain ⟨hright, -, htext⟩ := split_parts isBlank text.reverse
  have hpadded := trim_padded [] (dropEnd isBlank text) _ (by simp)
    (fun c hc => hright c (List.mem_reverse.mp hc))
  rw [List.nil_append, dropEnd, ← List.reverse_append, ← htext, List.reverse_reverse] at hpadded
  exact hpadded.symm

theorem isBlank_toLower (c : Char) : isBlank c.toLower = isBlank c := by
  by_cases hlt : c.toNat < 128
  · have hascii : ∀ n < 128, isBlank (Char.ofNat n).toLower = isBlank (Char.ofNat n) := by decide
    exact of_ascii (p := fun c => isBlank c.toLower = isBlank c) hascii hlt
  · rw [toLower_of_not_upper (not_isUpper_of_le (Nat.le_of_not_lt hlt))]

theorem lower_trim (text : List Char) : lower (trim text) = trim (lower text) := by
  have hsame : isBlank ∘ Char.toLower = isBlank := funext isBlank_toLower
  simp only [trim, trimBy, dropEnd, lower, List.dropWhile_map, ← List.map_reverse, hsame]

end PeerCache.Text

import Mathlib.Data.List.Induction
import PeerCache.Cache.Directives
import PeerCache.Proofs.TextLaws

/-!
# Laws of numbers of seconds

A number of seconds is written with digits alone, between blanks, and counts up to a largest one.
The digits are read in 64 bits, and a number that these cannot hold counts as the largest one. What
comes out is the smaller of the largest number and the number that the digits mean, however many
they are: digits that are added never make a number smaller, so what left the 64 bits once is
larger than what counts.
-/

namespace PeerCache

/-- A text means a number of seconds, of any size, by its digits between blanks. -/
def MeansSeconds (text : List Char) (n : Nat) : Prop :=
  Text.trim text ≠ [] ∧ (Text.trim text).all Char.isDigit = true ∧
    Nat.ofDigitChars 10 (Text.trim text) 0 = n

instance (text : List Char) (n : Nat) : Decidable (MeansSeconds text n) :=
  inferInstanceAs (Decidable (_ ∧ _ ∧ _))

variable {text digits : List Char} {n seconds : Nat}

/-! ## Counting in 64 bits -/

theorem le_ofDigitChars (digits : List Char) (n : Nat) : n ≤ Nat.ofDigitChars 10 digits n := by
  induction digits generalizing n with
  | nil => exact Nat.le_refl n
  | cons c digits ih =>
    rw [Nat.ofDigitChars_cons]
    have hnext : n ≤ 10 * n + (c.toNat - '0'.toNat) := by omega
    exact Nat.le_trans hnext (ih _)

/-- Counting ends exactly if 64 bits hold the whole number, not only its first digits. -/
theorem foldlM_addDigit? (digits : List Char) (hn : n < 18446744073709551616) :
    digits.foldlM addDigit? n =
      if Nat.ofDigitChars 10 digits n < 18446744073709551616 then
        some (Nat.ofDigitChars 10 digits n) else none := by
  induction digits generalizing n with
  | nil => exact (if_pos hn).symm
  | cons c digits ih =>
    rw [List.foldlM_cons, Nat.ofDigitChars_cons, addDigit?]
    by_cases hnext : 10 * n + (c.toNat - '0'.toNat) < 18446744073709551616
    · exact (congrArg (· >>= _) (if_pos hnext)).trans (ih hnext)
    · have hlarge := le_ofDigitChars digits (10 * n + (c.toNat - '0'.toNat))
      rw [if_neg fun hfits => hnext (Nat.lt_of_le_of_lt hlarge hfits)]
      exact congrArg (· >>= _) (if_neg hnext)

/-- What 64 bits cannot hold is larger than all that counts. -/
theorem min_count (digits : List Char) :
    min maxDeltaSeconds ((digits.foldlM addDigit? 0).getD maxDeltaSeconds) =
      min maxDeltaSeconds (Nat.ofDigitChars 10 digits 0) := by
  rw [foldlM_addDigit? digits (by decide)]
  split
  · rfl
  · next hlarge =>
    have hmax : maxDeltaSeconds < 18446744073709551616 := by decide
    rw [Option.getD_none, Nat.min_self]
    omega

/-! ## Reading -/

theorem deltaSeconds_of_means (h : MeansSeconds text n) :
    deltaSeconds text = some (min maxDeltaSeconds n) := by
  obtain ⟨hne, hdigits, hvalue⟩ := h
  rw [deltaSeconds, if_pos ⟨hne, hdigits⟩, min_count, hvalue]

theorem exists_means (hne : Text.trim text ≠ [])
    (hdigits : (Text.trim text).all Char.isDigit = true) : ∃ n, MeansSeconds text n :=
  ⟨_, hne, hdigits, rfl⟩

/-- A number is read exactly from the texts that mean one. -/
theorem deltaSeconds_eq_some_iff :
    deltaSeconds text = some seconds ↔ ∃ n, MeansSeconds text n ∧ seconds = min maxDeltaSeconds n := by
  constructor
  · intro h
    by_cases hread : Text.trim text ≠ [] ∧ (Text.trim text).all Char.isDigit = true
    · obtain ⟨n, hn⟩ := exists_means hread.1 hread.2
      exact ⟨n, hn, Option.some.inj (h.symm.trans (deltaSeconds_of_means hn))⟩
    · rw [deltaSeconds, if_neg hread] at h
      cases h
  · rintro ⟨n, hn, rfl⟩
    exact deltaSeconds_of_means hn

theorem exists_deltaSeconds_iff : (∃ seconds, deltaSeconds text = some seconds) ↔
    Text.trim text ≠ [] ∧ (Text.trim text).all Char.isDigit = true := by
  constructor
  · rintro ⟨seconds, h⟩
    obtain ⟨n, ⟨hne, hdigits, -⟩, -⟩ := deltaSeconds_eq_some_iff.mp h
    exact ⟨hne, hdigits⟩
  · rintro ⟨hne, hdigits⟩
    obtain ⟨n, hn⟩ := exists_means hne hdigits
    exact ⟨_, deltaSeconds_of_means hn⟩

/-! ## Written numbers -/

theorem isDigit_iff {c : Char} : c.isDigit = true ↔ '0' ≤ c ∧ c ≤ '9' := by
  rw [Char.isDigit, Bool.and_eq_true, decide_eq_true_iff, decide_eq_true_iff]
  exact Iff.rfl

theorem exists_digitChar {c : Char} (h : c.isDigit = true) : ∃ d < 10, c = Nat.digitChar d := by
  have hascii : c.toNat < 128 := by
    apply Text.lt_of_isAlphanum
    rw [Char.isAlphanum, h, Bool.or_true]
  have hall : ∀ n < 128, (Char.ofNat n).isDigit = true →
      ∃ d < 10, Char.ofNat n = Nat.digitChar d := by decide
  exact Text.of_ascii (p := fun c => c.isDigit = true → ∃ d < 10, c = Nat.digitChar d) hall hascii h

theorem isBlank_of_isDigit {c : Char} (h : c.isDigit = true) : Text.isBlank c = false := by
  obtain ⟨d, hd, rfl⟩ := exists_digitChar h
  have hall : ∀ d < 10, Text.isBlank (Nat.digitChar d) = false := by decide
  exact hall d hd

theorem trim_of_digits (h : ∀ c ∈ digits, c.isDigit = true) : Text.trim digits = digits :=
  Text.trim_of_ends (fun c hc => isBlank_of_isDigit (h c (List.mem_of_mem_head? hc)))
    fun c hc => isBlank_of_isDigit (h c (List.mem_of_mem_getLast? hc))

/-- A number as it is written with so many zeros in front. -/
def writtenNumber (zeros n : Nat) : List Char :=
  List.replicate zeros '0' ++ Nat.toDigits 10 n

theorem isDigit_writtenNumber (zeros n : Nat) : ∀ c ∈ writtenNumber zeros n, c.isDigit = true := by
  intro c hc
  rcases List.mem_append.mp hc with hzero | hdigit
  · rw [List.eq_of_mem_replicate hzero]
    rfl
  · exact Nat.isDigit_of_mem_toDigits (by decide) (by decide) hdigit

theorem ofDigitChars_writtenNumber (zeros n : Nat) :
    Nat.ofDigitChars 10 (writtenNumber zeros n) 0 = n := by
  rw [writtenNumber, Nat.ofDigitChars_append, Nat.ofDigitChars_replicate_zero, Nat.mul_zero]
  exact Nat.ofDigitChars_toDigits (by decide) (by decide)

theorem ofDigitChars_concat (front : List Char) {d : Nat} (hd : d < 10) :
    Nat.ofDigitChars 10 (front ++ [Nat.digitChar d]) 0 = 10 * Nat.ofDigitChars 10 front 0 + d := by
  rw [Nat.ofDigitChars_append, Nat.ofDigitChars_cons_digitChar_of_lt_ten hd, Nat.ofDigitChars_nil]

/-- Digits write the number that they mean, with some zeros in front. -/
theorem exists_writtenNumber (hne : digits ≠ []) (h : ∀ c ∈ digits, c.isDigit = true) :
    ∃ zeros, digits = writtenNumber zeros (Nat.ofDigitChars 10 digits 0) := by
  induction digits using List.reverseRecOn with
  | nil => exact absurd rfl hne
  | append_singleton front c ih =>
    obtain ⟨d, hd, rfl⟩ := exists_digitChar (h c (by simp))
    have hlast : Nat.toDigits 10 d = [Nat.digitChar d] := Nat.toDigits_of_lt_base hd
    rw [ofDigitChars_concat front hd]
    by_cases hfront : front = []
    · subst hfront
      refine ⟨0, ?_⟩
      rw [writtenNumber, Nat.ofDigitChars_nil, Nat.mul_zero, Nat.zero_add, hlast]
      rfl
    · obtain ⟨zeros, hzeros⟩ := ih hfront fun c hc => h c (List.mem_append_left _ hc)
      rcases Nat.eq_zero_or_pos (Nat.ofDigitChars 10 front 0) with hm | hm
      · -- nothing but zeros stands in front, and the last of them is one more
        rw [hm] at hzeros ⊢
        refine ⟨zeros + 1, ?_⟩
        rw [hzeros, writtenNumber, writtenNumber, Nat.mul_zero, Nat.zero_add, hlast,
          List.replicate_succ']
        rfl
      · refine ⟨zeros, ?_⟩
        rw [writtenNumber, ← Nat.toDigits_append_toDigits (by decide) hm hd, hlast,
          ← List.append_assoc, ← writtenNumber, ← hzeros]

/-- A text means a number exactly if it is that number as it is written, with zeros in front or
none, between blanks. -/
theorem means_iff_written : MeansSeconds text n ↔
    ∃ left zeros right, (∀ c ∈ left, Text.isBlank c = true) ∧ (∀ c ∈ right, Text.isBlank c = true) ∧
      text = left ++ writtenNumber zeros n ++ right := by
  constructor
  · rintro ⟨hne, hdigits, rfl⟩
    obtain ⟨left, right, htext, hleft, hright⟩ := Text.exists_padding text
    obtain ⟨zeros, hzeros⟩ := exists_writtenNumber hne (List.all_eq_true.mp hdigits)
    exact ⟨left, zeros, right, hleft, hright, hzeros ▸ htext⟩
  · rintro ⟨left, zeros, right, hleft, hright, rfl⟩
    have htrim : Text.trim (left ++ writtenNumber zeros n ++ right) = writtenNumber zeros n := by
      rw [Text.trim_padded left _ right hleft hright]
      exact trim_of_digits (isDigit_writtenNumber zeros n)
    rw [MeansSeconds, htrim]
    refine ⟨?_, List.all_eq_true.mpr (isDigit_writtenNumber zeros n), ofDigitChars_writtenNumber zeros n⟩
    exact List.append_ne_nil_of_right_ne_nil _ Nat.toDigits_ne_nil

/-- A number of seconds is read from a text exactly if that is digits between blanks, and then as
the smaller of the largest number of seconds and the number that the digits mean, however many
there are and with whatever zeros in front. So a text that means more is never read as less. -/
theorem seconds_of_any_length (text : List Char) :
    ((∃ seconds, deltaSeconds text = some seconds) ↔
        Text.trim text ≠ [] ∧ ∀ c ∈ Text.trim text, '0' ≤ c ∧ c ≤ '9') ∧
      (∀ seconds, deltaSeconds text = some seconds ↔
        ∃ n, MeansSeconds text n ∧ seconds = min (Nat.pow 2 31) n) ∧
      (∀ n, MeansSeconds text n ↔ ∃ left zeros right, (∀ c ∈ left, Text.isBlank c = true) ∧
        (∀ c ∈ right, Text.isBlank c = true) ∧
          text = left ++ (List.replicate zeros '0' ++ Nat.toDigits 10 n) ++ right) ∧
      ∀ other m n, MeansSeconds text m → MeansSeconds other n → m ≤ n →
        ∃ less more, deltaSeconds text = some less ∧ deltaSeconds other = some more ∧
          less ≤ more := by
  refine ⟨?_, fun _ => deltaSeconds_eq_some_iff, fun _ => means_iff_written, ?_⟩
  · rw [exists_deltaSeconds_iff, List.all_eq_true]
    simp only [isDigit_iff]
  · intro other m n hm hn hle
    refine ⟨_, _, deltaSeconds_of_means hm, deltaSeconds_of_means hn, ?_⟩
    exact Nat.le_min_of_le_of_le (Nat.min_le_left ..) (Nat.le_trans (Nat.min_le_right ..) hle)

/-- Twenty digits that 64 bits cannot hold, next to a number with zeros in front. -/
theorem seconds_past_sixty_four_bits :
    MeansSeconds " 00090 ".toList 90 ∧
      MeansSeconds "18446744073709551616".toList 18446744073709551616 ∧
      ∃ less more, deltaSeconds " 00090 ".toList = some less ∧
        deltaSeconds "18446744073709551616".toList = some more ∧ less ≤ more := by
  have hless : MeansSeconds " 00090 ".toList 90 := by decide +kernel
  have hmore : MeansSeconds "18446744073709551616".toList 18446744073709551616 := by
    decide +kernel
  exact ⟨hless, hmore,
    (seconds_of_any_length " 00090 ".toList).2.2.2 _ _ _ hless hmore (by decide)⟩

end PeerCache

import Mathlib.Data.List.Basic
import PeerCache.Http.Date
import PeerCache.Http.Headers
import PeerCache.Proofs.Utf8Laws

/-!
# Laws of dates

The form that dates are written in has printable characters alone, so every date that is written
is a header value.
-/

namespace PeerCache

/-! ## Printable texts -/

/-- A printable ASCII character. -/
def isPrintable (c : Char) : Bool :=
  32 ≤ c.toNat && c.toNat < 127

theorem isPrintable_iff {c : Char} : isPrintable c = true ↔ 32 ≤ c.toNat ∧ c.toNat < 127 := by
  rw [isPrintable, Bool.and_eq_true, decide_eq_true_iff, decide_eq_true_iff]

theorem isPrintable_of_isDigit {c : Char} (h : c.isDigit = true) : isPrintable c = true := by
  simp only [Char.isDigit, Bool.and_eq_true, decide_eq_true_eq, UInt32.le_iff_toNat_le] at h
  change 48 ≤ c.toNat ∧ c.toNat ≤ 57 at h
  rw [isPrintable_iff]
  omega

/-- A printable text is a header value, byte for character. -/
theorem HeaderValue.exists_ofChars? {text : List Char} (h : text.all isPrintable = true) :
    ∃ v, HeaderValue.ofChars? text = some v ∧ v.bytes = Utf8.encode text := by
  rw [List.all_eq_true] at h
  have hbytes : (Utf8.encode text).all isValueByte = true := by
    rw [List.all_eq_true]
    intro b hb
    obtain ⟨c, hc, hb⟩ := List.mem_flatMap.mp hb
    obtain ⟨hlow, hhigh⟩ := isPrintable_iff.mp (h c hc)
    rw [Utf8.encodeChar_ascii (by omega), List.mem_singleton] at hb
    have hb : b.toNat = c.toNat := by
      rw [hb]
      exact Utf8.toNat_ofNat (by omega)
    simp only [isValueByte, Bool.or_eq_true, Bool.and_eq_true, decide_eq_true_eq, ge_iff_le,
      UInt8.le_iff_toNat_le, ne_eq, ← UInt8.toNat_inj]
    left
    constructor
    · exact hb ▸ hlow
    · exact hb ▸ Nat.ne_of_lt hhigh
  refine ⟨⟨Utf8.encode text, hbytes⟩, ?_, rfl⟩
  rw [ofChars?, if_pos, ofBytes?, dif_pos hbytes]
  rw [List.all_eq_true]
  intro c hc
  have hprintable := isPrintable_iff.mp (h c hc)
  simp [hprintable]

/-- A value that has the bytes of a printable text is read as that text. -/
theorem HeaderValue.text?_of_bytes {v : HeaderValue} {text : List Char}
    (h : text.all isPrintable = true) (hv : v.bytes = Utf8.encode text) :
    v.text? = some text := by
  have hchars : ∀ c ∈ text, 32 ≤ c.toNat ∧ c.toNat < 127 :=
    fun c hc => isPrintable_iff.mp (List.all_eq_true.mp h c hc)
  have hascii : ∀ c ∈ text, c.toNat < 128 :=
    fun c hc => Nat.lt_trans (hchars c hc).2 (by decide)
  have hbytes : v.bytes = text.map fun c => UInt8.ofNat c.toNat := by
    rw [hv, Utf8.encode, List.map_eq_flatMap]
    exact List.flatMap_congr fun c hc => Utf8.encodeChar_ascii (hascii c hc)
  have hnat : ∀ c ∈ text, (UInt8.ofNat c.toNat).toNat = c.toNat :=
    fun c hc => Utf8.toNat_ofNat (Nat.lt_trans (hascii c hc) (by decide))
  have hplain : v.bytes.all isPlainByte = true := by
    rw [hbytes, List.all_map, List.all_eq_true]
    intro c hc
    simp only [Function.comp, isPlainByte, Bool.or_eq_true, Bool.and_eq_true, decide_eq_true_eq,
      ge_iff_le, UInt8.le_iff_toNat_le, UInt8.lt_iff_toNat_lt, hnat c hc]
    exact .inl (hchars c hc)
  rw [text?, if_pos hplain, hbytes, List.map_map]
  refine congrArg some ((List.map_congr_left fun c hc => ?_).trans (List.map_id text))
  rw [Function.comp, hnat c hc]
  exact Char.ofNat_toNat c

/-! ## The written form -/

namespace HeaderDate

theorem isPrintable_nameAt {names : List String}
    (h : (names.all fun name => name.toList.all isPrintable) = true) (i : Nat) :
    (nameAt names i).all isPrintable = true := by
  rw [nameAt, List.getD_eq_getElem?_getD]
  cases hname : names[i]? with
  | none => rfl
  | some name => exact List.all_eq_true.mp h name (List.mem_of_getElem? hname)

theorem isPrintable_padded (width n : Nat) : (padded width n).all isPrintable = true := by
  rw [List.all_eq_true]
  intro c hc
  rcases List.mem_append.mp hc with hc | hc
  · rw [(List.mem_replicate.mp hc).2]
    rfl
  · exact isPrintable_of_isDigit (Nat.isDigit_of_mem_toDigits (by decide) (by decide) hc)

theorem isPrintable_format (seconds : Nat) : (format seconds).all isPrintable = true := by
  have hdays := isPrintable_nameAt (show (dayNames.all _) = true by decide)
  have hmonths := isPrintable_nameAt (show (monthNames.all _) = true by decide)
  simp only [format, List.all_append, hdays, hmonths, isPrintable_padded]
  decide

/-- Every date is a header value in the form that it is written in. -/
theorem exists_value (seconds : Nat) : ∃ v, HeaderValue.ofChars? (format seconds) = some v ∧
    v.bytes = Utf8.encode (format seconds) :=
  HeaderValue.exists_ofChars? (isPrintable_format seconds)

end HeaderDate

end PeerCache

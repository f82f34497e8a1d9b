import PeerCache.Text.Utf8

/-!
# UTF-8 there and back

The reader of UTF-8 gives back every text that was written. A character is written in one to
four bytes. The first one tells how many follow and leaves a range for the second, which is
met because the character needs that many bytes and is no surrogate; each further byte adds
six bits.
-/

namespace PeerCache.Utf8

theorem toNat_ofNat {n : Nat} (h : n < 256) : (UInt8.ofNat n).toNat = n :=
  UInt8.toNat_ofNat_of_lt' h

/-! ## One byte

The first byte of a character of one to four bytes, and those that follow. -/

theorem step_one {n : Nat} (h : n < 0x80) :
    step none (UInt8.ofNat n) = ([Char.ofNat n], none) := by
  have hn := toNat_ofNat (n := n) (by omega)
  have hlt : UInt8.ofNat n < 0x80 := by rw [UInt8.lt_iff_toNat_lt, hn]; exact h
  simp only [step, start, if_pos hlt, hn]

theorem step_two {n : Nat} (hlow : 0xC2 ≤ n) (hhigh : n < 0xE0) :
    step none (UInt8.ofNat n) = ([], some ⟨n % 32, 0, 0x80, 0xBF⟩) := by
  have hn := toNat_ofNat (n := n) (by omega)
  simp only [step, start, UInt8.lt_iff_toNat_lt, hn, UInt8.reduceToNat]
  rw [if_neg (by omega), if_neg (by omega), if_pos (by omega)]

theorem step_three {n : Nat} (hlow : 0xE0 ≤ n) (hhigh : n < 0xF0) :
    step none (UInt8.ofNat n) = ([], some ⟨n % 16, 1,
      if n = 0xE0 then 0xA0 else 0x80, if n = 0xED then 0x9F else 0xBF⟩) := by
  have hn := toNat_ofNat (n := n) (by omega)
  simp only [step, start, UInt8.lt_iff_toNat_lt, ← UInt8.toNat_inj, hn, UInt8.reduceToNat]
  rw [if_neg (by omega), if_neg (by omega), if_neg (by omega), if_pos (by omega)]

theorem step_four {n : Nat} (hlow : 0xF0 ≤ n) (hhigh : n < 0xF5) :
    step none (UInt8.ofNat n) = ([], some ⟨n % 8, 2,
      if n = 0xF0 then 0x90 else 0x80, if n = 0xF4 then 0x8F else 0xBF⟩) := by
  have hn := toNat_ofNat (n := n) (by omega)
  simp only [step, start, UInt8.lt_iff_toNat_lt, ← UInt8.toNat_inj, hn, UInt8.reduceToNat]
  rw [if_neg (by omega), if_neg (by omega), if_neg (by omega), if_neg (by omega),
    if_pos (by omega)]

/-- A byte in the range left open, with more to come. -/
theorem step_inside {bits owed n : Nat} {low high : UInt8} (hn : n < 256)
    (hlow : low.toNat ≤ n) (hhigh : n ≤ high.toNat) :
    step (some ⟨bits, owed + 1, low, high⟩) (UInt8.ofNat n) =
      ([], some ⟨bits * 64 + n % 64, owed, 0x80, 0xBF⟩) := by
  simp only [step, UInt8.le_iff_toNat_le, toNat_ofNat hn]
  rw [if_pos ⟨hlow, hhigh⟩]

theorem step_tail {bits owed k : Nat} (hk : k < 64) :
    step (some ⟨bits, owed + 1, 0x80, 0xBF⟩) (UInt8.ofNat (k + 0x80)) =
      ([], some ⟨bits * 64 + k, owed, 0x80, 0xBF⟩) := by
  have hmod : (k + 0x80) % 64 = k := by omega
  rw [step_inside (by omega) (Nat.le_add_left 0x80 k) (by change _ ≤ 0xBF; omega), hmod]

/-- The last byte of a character. -/
theorem step_last {bits k : Nat} (hk : k < 64) :
    step (some ⟨bits, 0, 0x80, 0xBF⟩) (UInt8.ofNat (k + 0x80)) =
      ([Char.ofNat (bits * 64 + k)], none) := by
  have hmod : (k + 0x80) % 64 = k := by omega
  simp only [step, UInt8.le_iff_toNat_le, toNat_ofNat (show k + 0x80 < 256 by omega), hmod]
  rw [if_pos ⟨Nat.le_add_left 0x80 k, by change _ ≤ 0xBF; omega⟩]

/-! ## Characters -/

theorem decodeFrom_cons {state opened : Option Unfinished} {b : UInt8} {settled : List Char}
    (h : step state b = (settled, opened)) (rest : Bytes) :
    decodeFrom state (b :: rest) = settled ++ decodeFrom opened rest := by
  rw [decodeFrom, h]

theorem decodeFrom_two {v : Nat} (hlow : 0x7F < v) (hhigh : v ≤ 0x7FF) (rest : Bytes) :
    decodeFrom none (UInt8.ofNat (v / 64 % 32 + 0xC0) :: UInt8.ofNat (v % 64 + 0x80) :: rest) =
      Char.ofNat v :: decodeFrom none rest := by
  have first := step_two (n := v / 64 % 32 + 0xC0) (by omega) (by omega)
  have hbits : (v / 64 % 32 + 0xC0) % 32 * 64 + v % 64 = v := by omega
  rw [decodeFrom_cons first, decodeFrom_cons (step_last (Nat.mod_lt v (by decide))), hbits]
  rfl

theorem decodeFrom_three {v : Nat} (hlow : 0x7FF < v) (hhigh : v ≤ 0xFFFF)
    (hvalid : v < 0xD800 ∨ 0xDFFF < v) (rest : Bytes) :
    decodeFrom none (UInt8.ofNat (v / 4096 % 16 + 0xE0) :: UInt8.ofNat (v / 64 % 64 + 0x80) ::
        UInt8.ofNat (v % 64 + 0x80) :: rest) =
      Char.ofNat v :: decodeFrom none rest := by
  have first := step_three (n := v / 4096 % 16 + 0xE0) (by omega) (by omega)
  -- Characters from 0x800 and outside the surrogates meet the narrowed ranges.
  have hleast : (if v / 4096 % 16 + 0xE0 = 0xE0 then (0xA0 : UInt8) else 0x80).toNat ≤
      v / 64 % 64 + 0x80 := by
    split
    · change 0xA0 ≤ _
      omega
    · exact Nat.le_add_left 0x80 _
  have hmost : v / 64 % 64 + 0x80 ≤
      (if v / 4096 % 16 + 0xE0 = 0xED then (0x9F : UInt8) else 0xBF).toNat := by
    split
    · change _ ≤ 0x9F
      omega
    · change _ ≤ 0xBF
      omega
  have hbits : ((v / 4096 % 16 + 0xE0) % 16 * 64 + (v / 64 % 64 + 0x80) % 64) * 64 +
      v % 64 = v := by omega
  rw [decodeFrom_cons first, decodeFrom_cons (step_inside (by omega) hleast hmost),
    decodeFrom_cons (step_last (Nat.mod_lt v (by decide))), hbits]
  rfl

theorem decodeFrom_four {v : Nat} (hlow : 0xFFFF < v) (hhigh : v < 0x110000) (rest : Bytes) :
    decodeFrom none (UInt8.ofNat (v / 262144 % 8 + 0xF0) ::
        UInt8.ofNat (v / 4096 % 64 + 0x80) :: UInt8.ofNat (v / 64 % 64 + 0x80) ::
        UInt8.ofNat (v % 64 + 0x80) :: rest) =
      Char.ofNat v :: decodeFrom none rest := by
  have first := step_four (n := v / 262144 % 8 + 0xF0) (by omega) (by omega)
  -- Characters from 0x10000 up to the last one meet the narrowed ranges.
  have hleast : (if v / 262144 % 8 + 0xF0 = 0xF0 then (0x90 : UInt8) else 0x80).toNat ≤
      v / 4096 % 64 + 0x80 := by
    split
    · change 0x90 ≤ _
      omega
    · exact Nat.le_add_left 0x80 _
  have hmost : v / 4096 % 64 + 0x80 ≤
      (if v / 262144 % 8 + 0xF0 = 0xF4 then (0x8F : UInt8) else 0xBF).toNat := by
    split
    · change _ ≤ 0x8F
      omega
    · change _ ≤ 0xBF
      omega
  have hbits : (((v / 262144 % 8 + 0xF0) % 8 * 64 + (v / 4096 % 64 + 0x80) % 64) * 64 +
      v / 64 % 64) * 64 + v % 64 = v := by omega
  rw [decodeFrom_cons first, decodeFrom_cons (step_inside (by omega) hleast hmost),
    decodeFrom_cons (step_tail (Nat.mod_lt (v / 64) (by decide))),
    decodeFrom_cons (step_last (Nat.mod_lt v (by decide))), hbits]
  rfl

/-- A character that was written is read back, whatever follows it. -/
theorem decodeFrom_encodeChar (c : Char) (rest : Bytes) :
    decodeFrom none (String.utf8EncodeChar c ++ rest) = c :: decodeFrom none rest := by
  have hchar : Char.ofNat c.val.toNat = c := Char.ofNat_toNat c
  have hvalid : c.val.toNat < 0xD800 ∨ 0xDFFF < c.val.toNat ∧ c.val.toNat < 0x110000 := c.valid
  unfold String.utf8EncodeChar
  dsimp only
  split
  · next h => exact (decodeFrom_cons (step_one (by omega)) rest).trans (by rw [hchar]; rfl)
  split
  · next h => exact (decodeFrom_two (by omega) h rest).trans (by rw [hchar])
  split
  · next h =>
    exact (decodeFrom_three (by omega) h (by omega) rest).trans (by rw [hchar])
  · exact (decodeFrom_four (by omega) (by omega) rest).trans (by rw [hchar])

/-- An ASCII character is one byte. -/
theorem encodeChar_ascii {c : Char} (h : c.toNat < 128) :
    String.utf8EncodeChar c = [UInt8.ofNat c.toNat] := by
  have hval : c.val.toNat = c.toNat := rfl
  unfold String.utf8EncodeChar
  dsimp only
  rw [if_pos (by omega)]
  rfl

theorem decodeLossy_encode (text : List Char) : decodeLossy (encode text) = text := by
  rw [decodeLossy]
  induction text with
  | nil => rfl
  | cons c text ih => exact (decodeFrom_encodeChar c (encode text)).trans (by rw [ih])

/-- Written text is valid, and reads as itself. -/
theorem decode?_encode (text : List Char) : decode? (encode text) = some text := by
  simp [decode?, decodeLossy_encode]

end PeerCache.Utf8

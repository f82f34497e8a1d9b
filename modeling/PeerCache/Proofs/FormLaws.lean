import PeerCache.Proofs.TextLaws
import PeerCache.Proofs.Utf8Laws
import PeerCache.Text.Form

/-!
# Laws of form values

A text that is written as a form value is read back, and what is written for it holds none of
the marks that divide a query. Escapes are read byte by byte, so the bytes of a character come
back together and make the character again.
-/

namespace PeerCache

/-! ## Escapes -/

namespace Hex

theorem digitValue?_upperDigit {n : Nat} (h : n < 16) : digitValue? (upperDigit n) = some n := by
  revert n
  decide

theorem upperDigit_alphanum {n : Nat} (h : n < 16) : (upperDigit n).isAlphanum = true := by
  revert n
  decide

end Hex

namespace Percent

theorem nibbles (b : UInt8) : b.toNat / 16 < 16 ∧ b.toNat % 16 < 16 := by
  have hlt : b.toNat < 256 := b.toNat_lt
  omega

theorem escaped?_of_ne {c : Char} (h : c ≠ '%') (rest : List Char) : escaped? c rest = none := by
  simp only [escaped?]
  split
  · exact absurd rfl h
  · rfl

theorem decodeAfter_of_ne {c : Char} (h : c ≠ '%') (rest : List Char) :
    decodeAfter 0 (c :: rest) = String.utf8EncodeChar c ++ decodeAfter 0 rest := by
  rw [decodeAfter, escaped?_of_ne h]

theorem decodeAfter_escape (b : UInt8) (rest : List Char) :
    decodeAfter 0 (escape b ++ rest) = b :: decodeAfter 0 rest := by
  obtain ⟨hhigh, hlow⟩ := nibbles b
  have hvalue : UInt8.ofNat (16 * (b.toNat / 16) + b.toNat % 16) = b := by
    rw [Nat.div_add_mod]
    exact UInt8.ofNat_toNat
  simp only [escape, List.cons_append, List.nil_append, decodeAfter, escaped?,
    Hex.digitValue?_upperDigit hhigh, Hex.digitValue?_upperDigit hlow, hvalue]

theorem decodeAfter_escapes (bytes : Bytes) (rest : List Char) :
    decodeAfter 0 (bytes.flatMap escape ++ rest) = bytes ++ decodeAfter 0 rest := by
  induction bytes with
  | nil => rfl
  | cons b bytes ih =>
    rw [List.flatMap_cons, List.append_assoc, decodeAfter_escape, ih]
    rfl

/-- Characters of an escape. -/
theorem mem_escape {b : UInt8} {c : Char} (h : c ∈ escape b) : c = '%' ∨ c.isAlphanum = true := by
  obtain ⟨hhigh, hlow⟩ := nibbles b
  simp only [escape, List.mem_cons, List.not_mem_nil, or_false] at h
  obtain rfl | rfl | rfl := h
  · exact .inl rfl
  · exact .inr (Hex.upperDigit_alphanum hhigh)
  · exact .inr (Hex.upperDigit_alphanum hlow)

theorem wellFormed_of_ne {c : Char} (h : c ≠ '%') (rest : List Char) :
    wellFormed (c :: rest) = wellFormed rest := by
  rw [wellFormed]
  exact h

theorem wellFormed_escapes (bytes : Bytes) (rest : List Char) :
    wellFormed (bytes.flatMap escape ++ rest) = wellFormed rest := by
  induction bytes with
  | nil => rfl
  | cons b bytes ih =>
    obtain ⟨hhigh, hlow⟩ := nibbles b
    rw [List.flatMap_cons, List.append_assoc, ← ih]
    simp only [escape, List.cons_append, List.nil_append, wellFormed, Hex.isDigit,
      Hex.digitValue?_upperDigit hhigh, Hex.digitValue?_upperDigit hlow, Option.isSome_some,
      Bool.true_and]

end Percent

/-! ## Form values -/

namespace Form

/-- What a reader makes of a character before it looks at escapes. -/
def unplus (c : Char) : Char :=
  if c = '+' then ' ' else c

theorem unplus_of_ne {c : Char} (h : c ≠ '+') : unplus c = c :=
  if_neg h

theorem not_plain_of_mark {c : Char} (h : c ∈ "+%&=#? ".toList) : isPlain c = false := by
  have hall : "+%&=#? ".toList.all (fun c => !isPlain c) = true := by decide
  simpa using List.all_eq_true.mp hall c h

theorem map_unplus_escapes (bytes : Bytes) :
    (bytes.flatMap Percent.escape).map unplus = bytes.flatMap Percent.escape := by
  refine (List.map_congr_left fun c hc => ?_).trans (List.map_id _)
  obtain ⟨b, -, hb⟩ := List.mem_flatMap.mp hc
  apply unplus_of_ne
  rintro rfl
  rcases Percent.mem_escape hb with h | h
  · exact absurd h (by decide)
  · exact absurd h (by decide)

theorem ne_of_isPlain {c mark : Char} (h : isPlain c = true)
    (hm : mark ∈ "+%&=#? ".toList) : c ≠ mark := by
  rintro rfl
  exact Bool.false_ne_true ((not_plain_of_mark hm).symm.trans h)

/-- A character is read back as its bytes, whatever follows it. -/
theorem decodeAfter_encodeChar (c : Char) (rest : List Char) :
    Percent.decodeAfter 0 ((encodeChar c).map unplus ++ rest) =
      String.utf8EncodeChar c ++ Percent.decodeAfter 0 rest := by
  rw [encodeChar]
  split
  · next h =>
    subst h
    exact Percent.decodeAfter_of_ne (by decide) rest
  split
  · next hplain =>
    rw [List.map_singleton, unplus_of_ne (ne_of_isPlain hplain (by decide))]
    exact Percent.decodeAfter_of_ne (ne_of_isPlain hplain (by decide)) rest
  · rw [map_unplus_escapes]
    exact Percent.decodeAfter_escapes _ rest

theorem decode_encode (text : List Char) : decode (encode text) = text := by
  have hbytes : Percent.decode ((encode text).map unplus) = Utf8.encode text := by
    induction text with
    | nil => rfl
    | cons c text ih =>
      show Percent.decodeAfter 0 (((c :: text).flatMap encodeChar).map unplus) = _
      rw [List.flatMap_cons, List.map_append, decodeAfter_encodeChar]
      exact congrArg (String.utf8EncodeChar c ++ ·) ih
  show Utf8.decodeLossy (Percent.decode ((encode text).map unplus)) = text
  rw [hbytes, Utf8.decodeLossy_encode]

theorem wellFormed_encode (text : List Char) : Percent.wellFormed (encode text) = true := by
  induction text with
  | nil => rfl
  | cons c text ih =>
    show Percent.wellFormed (encodeChar c ++ encode text) = true
    rw [encodeChar]
    split
    · exact (Percent.wellFormed_of_ne (by decide) _).trans ih
    split
    · next hplain =>
      exact (Percent.wellFormed_of_ne (ne_of_isPlain hplain (by decide)) _).trans ih
    · exact (Percent.wellFormed_escapes _ _).trans ih

/-- What is written is made of plain characters, plus signs and escapes. -/
theorem mem_encode {text : List Char} {c : Char} (h : c ∈ encode text) :
    c = '+' ∨ isPlain c = true ∨ c = '%' := by
  obtain ⟨d, -, hc⟩ := List.mem_flatMap.mp h
  unfold encodeChar at hc
  split at hc
  · exact .inl (List.mem_singleton.mp hc)
  split at hc
  · next hplain =>
    rw [List.mem_singleton.mp hc]
    exact .inr (.inl hplain)
  · obtain ⟨b, -, hb⟩ := List.mem_flatMap.mp hc
    rcases Percent.mem_escape hb with rfl | halpha
    · exact .inr (.inr rfl)
    · refine .inr (.inl ?_)
      rw [isPlain]
      rw [halpha]
      rfl

/-- What is written holds no mark that divides a query or ends it. -/
theorem not_mem_encode {text : List Char} {mark : Char} (hm : mark ∈ "&=#? ".toList) :
    mark ∉ encode text := by
  intro h
  obtain rfl | hplain | rfl := mem_encode h
  · revert hm
    decide
  · have hmarks : "&=#? ".toList <:+ "+%&=#? ".toList := by decide
    exact ne_of_isPlain hplain (hmarks.mem hm) rfl
  · revert hm
    decide

/-! ## Lengths -/

theorem isPlain_ascii {c : Char} (h : isPlain c = true) : c.toNat < 128 := by
  simp only [isPlain, Bool.or_eq_true, beq_iff_eq] at h
  obtain (((h | rfl) | rfl) | rfl) | rfl := h
  · exact Text.lt_of_isAlphanum h
  all_goals decide

theorem length_escapes (bytes : Bytes) :
    (bytes.flatMap Percent.escape).length = 3 * bytes.length := by
  induction bytes with
  | nil => rfl
  | cons b bytes ih =>
    rw [List.flatMap_cons, List.length_append, ih, List.length_cons]
    show 3 + 3 * bytes.length = _
    omega

theorem utf8_length_le (c : Char) : (String.utf8EncodeChar c).length ≤ (encodeChar c).length := by
  rw [encodeChar]
  split
  · next h => subst h; decide
  split
  · next hplain =>
    rw [Utf8.encodeChar_ascii (isPlain_ascii hplain)]
    exact Nat.le_refl 1
  · rw [length_escapes]
    omega

/-- A text is not shorter than its bytes once it is written. -/
theorem length_encode (text : List Char) :
    (Utf8.encode text).length ≤ (encode text).length := by
  induction text with
  | nil => exact Nat.le_refl 0
  | cons c text ih =>
    show (String.utf8EncodeChar c ++ Utf8.encode text).length ≤
      (encodeChar c ++ encode text).length
    rw [List.length_append, List.length_append]
    exact Nat.add_le_add (utf8_length_le c) ih

end Form

end PeerCache

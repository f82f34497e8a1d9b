import PeerCache.Proofs.FormLaws
import PeerCache.Proofs.UriLaws
import PeerCache.Url.Host

/-!
# Laws of hosts

What a host that was read can hold: visible characters that do not end an authority. Domains
are checked for it, addresses are written anew from numbers, and everything else is escaped.
-/

namespace PeerCache

/-! ## Characters -/

/-- A visible ASCII character that does not end an authority. -/
def isHostChar (c : Char) : Bool :=
  32 < c.toNat && c.toNat < 127 && !Uri.endsAuthority c

theorem isHostChar_of_ascii {p : Char → Bool}
    (h : ∀ n < 128, p (Char.ofNat n) = true → isHostChar (Char.ofNat n) = true) {c : Char}
    (hlt : c.toNat < 128) (hc : p c = true) : isHostChar c = true :=
  Text.of_ascii (p := fun c => p c = true → isHostChar c = true) h hlt hc

theorem isHostChar_of_isAlphanum {c : Char} (h : c.isAlphanum = true) : isHostChar c = true :=
  isHostChar_of_ascii (p := Char.isAlphanum) (by decide) (Text.lt_of_isAlphanum h) h

theorem not_endsAuthority_of_isHostChar {c : Char} (h : isHostChar c = true) :
    Uri.endsAuthority c = false := by
  simp only [isHostChar, Bool.and_eq_true, Bool.not_eq_true'] at h
  exact h.2

namespace Percent

/-- What is written with escapes holds kept characters and escapes. -/
theorem mem_encodeText {keep : Char → Bool} {text : List Char} {c : Char}
    (h : c ∈ encodeText keep text) :
    (c ∈ text ∧ c.toNat < 128 ∧ keep c = true) ∨ c = '%' ∨ c.isAlphanum = true := by
  obtain ⟨d, hd, hc⟩ := List.mem_flatMap.mp h
  split at hc
  · next hkeep =>
    obtain rfl := List.mem_singleton.mp hc
    rw [Bool.and_eq_true, decide_eq_true_iff] at hkeep
    exact .inl ⟨hd, hkeep⟩
  · obtain ⟨b, -, hb⟩ := List.mem_flatMap.mp hc
    exact .inr (mem_escape hb)

theorem encodeText_ne_nil (keep : Char → Bool) {text : List Char} (h : text ≠ []) :
    encodeText keep text ≠ [] := by
  obtain ⟨c, rest, rfl⟩ := List.exists_cons_of_ne_nil h
  rw [encodeText, List.flatMap_cons]
  apply List.append_ne_nil_of_left_ne_nil
  split
  · exact List.cons_ne_nil _ _
  · intro hnil
    have hpos := Char.utf8Size_pos c
    have hlength : 3 * (String.utf8EncodeChar c).length = 0 := by
      rw [← Form.length_escapes, hnil]
      rfl
    rw [String.length_utf8EncodeChar] at hlength
    omega

end Percent

theorem isHostChar_of_encodeText {keep : Char → Bool} {text : List Char} {c : Char}
    (hkeep : ∀ n < 128, keep (Char.ofNat n) = true → isHostChar (Char.ofNat n) = true)
    (h : c ∈ Percent.encodeText keep text) : isHostChar c = true := by
  obtain ⟨-, hlt, hc⟩ | rfl | halpha := Percent.mem_encodeText h
  · exact isHostChar_of_ascii hkeep hlt hc
  · decide
  · exact isHostChar_of_isAlphanum halpha

/-! ## Numbers -/

theorem digitChar_isAlphanum {n : Nat} (h : n < 16) : n.digitChar.isAlphanum = true := by
  revert n
  decide

theorem isAlphanum_of_mem_toDigits {base n : Nat} (hb : 1 < base) (hmost : base ≤ 16) {c : Char}
    (h : c ∈ Nat.toDigits base n) : c.isAlphanum = true := by
  induction n using Nat.strongRecOn with
  | ind n ih =>
    by_cases hn : n < base
    · rw [Nat.toDigits_of_lt_base hn, List.mem_singleton] at h
      rw [h]
      exact digitChar_isAlphanum (Nat.lt_of_lt_of_le hn hmost)
    · have hle := Nat.le_of_not_lt hn
      rw [Nat.toDigits_of_base_le hb hle] at h
      rcases List.mem_append.mp h with h | h
      · exact ih (n / base) (Nat.div_lt_self (by omega) hb) h
      · rw [List.mem_singleton.mp h]
        exact digitChar_isAlphanum
          (Nat.lt_of_lt_of_le (Nat.mod_lt n (by omega)) hmost)

namespace Host

theorem isHostChar_decimal (n : Nat) : ∀ c ∈ decimal n, isHostChar c = true := by
  intro _ h
  exact isHostChar_of_isAlphanum (isAlphanum_of_mem_toDigits (by decide) (by decide) h)

theorem isHostChar_ipv4Text (n : Nat) : ∀ c ∈ ipv4Text n, isHostChar c = true := by
  have hdot : isHostChar '.' = true := by decide
  simp only [ipv4Text, List.forall_mem_append, List.forall_mem_cons]
  exact ⟨⟨⟨isHostChar_decimal _, hdot, isHostChar_decimal _⟩, hdot, isHostChar_decimal _⟩, hdot,
    isHostChar_decimal _⟩

theorem isHostChar_joinPieces (pieces : List Nat) :
    ∀ c ∈ joinPieces pieces, isHostChar c = true := by
  have hpiece : ∀ n, ∀ c ∈ Hex.ofNat n, isHostChar c = true := by
    intro n c h
    exact isHostChar_of_isAlphanum (isAlphanum_of_mem_toDigits (by decide) (by decide) h)
  rw [joinPieces]
  induction pieces with
  | nil => simp
  | cons n pieces ih =>
    cases pieces with
    | nil => simpa using hpiece n
    | cons m pieces =>
      rw [List.map_cons, List.map_cons, List.intercalate_cons_cons, List.forall_mem_append,
        List.forall_mem_append]
      exact ⟨⟨hpiece n, List.all_eq_true.mp (by decide)⟩, ih⟩

theorem isHostChar_ipv6Text (pieces : List Nat) :
    ∀ c ∈ ipv6Text pieces, isHostChar c = true := by
  rw [ipv6Text]
  dsimp only
  split
  · exact isHostChar_joinPieces _
  · rw [List.forall_mem_append, List.forall_mem_append]
    exact ⟨⟨isHostChar_joinPieces _, List.all_eq_true.mp (by decide)⟩, isHostChar_joinPieces _⟩

variable {text host : List Char}

theorem isHostChar_bracketed (h : bracketed text = .ok host) :
    ∀ c ∈ host, isHostChar c = true := by
  unfold bracketed at h
  split at h
  · split at h
    · obtain rfl := Except.ok.inj h
      rw [List.forall_mem_append, List.forall_mem_cons]
      exact ⟨⟨by decide, isHostChar_ipv6Text _⟩, List.all_eq_true.mp (by decide)⟩
    · cases h
  · cases h

/-- A domain that was not refused holds no character that may not stand in a host. -/
theorem isHostChar_domain {bytes : Bytes} (hascii : bytes.all (· < 128) = true)
    (hallowed : (Text.lower (bytes.map fun b => Char.ofNat b.toNat)).any isForbiddenInDomain =
      false) :
    ∀ c ∈ Text.lower (bytes.map fun b => Char.ofNat b.toNat), isHostChar c = true := by
  intro c hc
  have hforbidden := List.any_eq_false.mp hallowed c hc
  obtain ⟨d, hd, rfl⟩ := List.mem_map.mp hc
  obtain ⟨b, hb, rfl⟩ := List.mem_map.mp hd
  have hlt : b.toNat < 128 := by
    have hb := List.all_eq_true.mp hascii b hb
    exact UInt8.lt_iff_toNat_lt.mp (by simpa using hb)
  have hall : ∀ n < 128, isForbiddenInDomain (Char.ofNat n).toLower = false →
      isHostChar (Char.ofNat n).toLower = true := by decide
  exact hall b.toNat hlt (by simpa using hforbidden)

theorem isHostChar_ofText (h : ofText text = .ok host) : ∀ c ∈ host, isHostChar c = true := by
  unfold ofText at h
  split at h
  · exact isHostChar_bracketed h
  dsimp only at h
  split at h
  · cases h
  · next hascii =>
    split at h
    · cases h
    · next hallowed =>
      split at h
      · cases h
      split at h
      · cases h
      split at h
      · split at h
        · obtain rfl := Except.ok.inj h
          exact isHostChar_ipv4Text _
        · cases h
      · obtain rfl := Except.ok.inj h
        exact isHostChar_domain (by simpa using hascii) (by simpa using hallowed)

theorem isHostChar_ofOpaque (h : ofOpaque text = .ok host) : ∀ c ∈ host, isHostChar c = true := by
  unfold ofOpaque at h
  split at h
  · exact isHostChar_bracketed h
  split at h
  · cases h
  · next hallowed =>
    obtain rfl := Except.ok.inj h
    intro c hc
    obtain ⟨hmem, hlt, hkeep⟩ | rfl | halpha := Percent.mem_encodeText hc
    · have hfree : isForbiddenInOpaque c = false := by
        simpa using List.any_eq_false.mp (by simpa using hallowed) c hmem
      have hall : ∀ n < 128, (!isControl (Char.ofNat n) && !isForbiddenInOpaque (Char.ofNat n)) =
          true → isHostChar (Char.ofNat n) = true := by decide
      exact isHostChar_of_ascii (p := fun c => !isControl c && !isForbiddenInOpaque c) hall hlt
        (by rw [hkeep, hfree]; rfl)
    · decide
    · exact isHostChar_of_isAlphanum halpha

/-! ## Hosts are not empty -/

theorem ne_nil_bracketed (h : bracketed text = .ok host) : host ≠ [] := by
  unfold bracketed at h
  split at h
  · split at h
    · obtain rfl := Except.ok.inj h
      exact List.append_ne_nil_of_left_ne_nil (List.cons_ne_nil _ _) _
    · cases h
  · cases h

theorem ne_nil_ofText (h : ofText text = .ok host) : host ≠ [] := by
  unfold ofText at h
  split at h
  · exact ne_nil_bracketed h
  dsimp only at h
  split at h
  · cases h
  split at h
  · cases h
  split at h
  · cases h
  split at h
  · cases h
  · next hne =>
    split at h
    · split at h
      · obtain rfl := Except.ok.inj h
        rw [ipv4Text]
        exact List.append_ne_nil_of_right_ne_nil _ (List.cons_ne_nil _ _)
      · cases h
    · obtain rfl := Except.ok.inj h
      exact hne

theorem ne_nil_ofOpaque (hne : text ≠ []) (h : ofOpaque text = .ok host) : host ≠ [] := by
  unfold ofOpaque at h
  split at h
  · exact ne_nil_bracketed h
  split at h
  · cases h
  · obtain rfl := Except.ok.inj h
    exact Percent.encodeText_ne_nil _ hne

end Host

end PeerCache

import Mathlib.Data.List.Basic
import Mathlib.Data.Nat.Bitwise
import PeerCache.Digest.Crc32
import PeerCache.Proofs.Utf8Laws

/-!
# Laws of the checksum

The register is linear over the exclusive or: what a change of some bits does to the checksum of
a text depends on the changed bits alone, and two changes at once do what both of them do. So 32
binary digits at the end of a text are enough to give it any checksum, because every bit of the
register is what some of the digits change.
-/

namespace PeerCache.Crc32

/-! ## Linearity -/

/-- What is added to a register when its lowest bit is shifted out. -/
def carry (register : UInt32) : UInt32 :=
  if register &&& 1 = 1 then polynomial else 0

theorem shiftBit_eq (r : UInt32) : shiftBit r = (r >>> 1) ^^^ carry r := by
  rw [shiftBit, carry]
  split
  · rfl
  · rw [UInt32.xor_zero]

theorem lowBit_cases (r : UInt32) : r &&& 1 = 0 ∨ r &&& 1 = 1 := by
  have hbit : r.toNat &&& 1 = r.toNat % 2 := Nat.and_one_is_mod r.toNat
  rw [← UInt32.toNat_inj, ← UInt32.toNat_inj, UInt32.toNat_and]
  change r.toNat &&& 1 = 0 ∨ r.toNat &&& 1 = 1
  omega

theorem carry_xor (r s : UInt32) : carry (r ^^^ s) = carry r ^^^ carry s := by
  have hlow : (r ^^^ s) &&& 1 = (r &&& 1) ^^^ (s &&& 1) := by
    rw [← UInt32.toNat_inj]
    simp only [UInt32.toNat_and, UInt32.toNat_xor]
    exact Nat.and_xor_distrib_right
  rw [carry, carry, carry, hlow]
  obtain hr | hr := lowBit_cases r <;> obtain hs | hs := lowBit_cases s <;> rw [hr, hs] <;> decide

theorem shiftBit_xor (r s : UInt32) : shiftBit (r ^^^ s) = shiftBit r ^^^ shiftBit s := by
  rw [shiftBit_eq, shiftBit_eq, shiftBit_eq, UInt32.shiftRight_xor, carry_xor]
  ac_rfl

theorem shiftByte_xor (r s : UInt32) (b c : UInt8) :
    shiftByte (r ^^^ s) (b ^^^ c) = shiftByte r b ^^^ shiftByte s c := by
  have hbytes : (r ^^^ s) ^^^ (b ^^^ c).toUInt32 = (r ^^^ b.toUInt32) ^^^ (s ^^^ c.toUInt32) := by
    rw [UInt8.toUInt32_xor]
    ac_rfl
  simp only [shiftByte, hbytes, shiftBit_xor]

/-- Two texts of one length at once do to two registers at once what each does to its own. -/
theorem foldl_shiftByte_xor {left right : Bytes} (h : left.length = right.length)
    (r s : UInt32) :
    (List.zipWith (· ^^^ ·) left right).foldl shiftByte (r ^^^ s) =
      left.foldl shiftByte r ^^^ right.foldl shiftByte s := by
  induction left generalizing right r s with
  | nil =>
    obtain rfl := List.length_eq_zero_iff.mp h.symm
    rfl
  | cons b left ih =>
    cases right with
    | nil => cases h
    | cons c right =>
      rw [List.zipWith_cons_cons, List.foldl_cons, List.foldl_cons, List.foldl_cons, shiftByte_xor]
      exact ih (Nat.succ.inj h) _ _

/-! ## Binary digits -/

/-- The lowest 32 binary digits of a number, the lowest of them first. -/
def binaryDigits (n : Nat) : List Char :=
  (List.range 32).map fun i => if n.testBit i then '1' else '0'

/-- What makes the digits of a number out of those of zero. -/
def flips (n : Nat) : Bytes :=
  (List.range 32).map fun i => if n.testBit i then 1 else 0

theorem flips_xor (m n : Nat) : flips (m ^^^ n) = List.zipWith (· ^^^ ·) (flips m) (flips n) := by
  rw [flips, flips, flips, List.zipWith_map, List.zipWith_self]
  refine List.map_congr_left fun i _ => ?_
  rw [Nat.testBit_xor]
  cases m.testBit i <;> cases n.testBit i <;> rfl

theorem encode_binaryDigits (n : Nat) :
    Utf8.encode (binaryDigits n) =
      List.zipWith (· ^^^ ·) (Utf8.encode (binaryDigits 0)) (flips n) := by
  have hencode (m : Nat) : Utf8.encode (binaryDigits m) =
      (List.range 32).map fun i => if m.testBit i then 49 else 48 := by
    rw [Utf8.encode, binaryDigits, List.flatMap_map, List.map_eq_flatMap]
    refine List.flatMap_congr fun i _ => ?_
    cases m.testBit i <;> rfl
  rw [hencode, hencode, flips, List.zipWith_map, List.zipWith_self]
  refine List.map_congr_left fun i _ => ?_
  rw [Nat.zero_testBit]
  cases n.testBit i <;> rfl

theorem length_encode_binaryDigits (n : Nat) : (Utf8.encode (binaryDigits n)).length = 32 := by
  rw [encode_binaryDigits, List.length_zipWith, flips, List.length_map, List.length_range]
  rfl

/-- The bits of the checksum that the digits of a number change. -/
def effect (n : Nat) : UInt32 :=
  (flips n).foldl shiftByte 0

theorem effect_xor (m n : Nat) : effect (m ^^^ n) = effect m ^^^ effect n := by
  have hlength : (flips m).length = (flips n).length := by
    rw [flips, flips, List.length_map, List.length_map]
  have hboth := foldl_shiftByte_xor hlength 0 0
  rw [effect, flips_xor]
  exact hboth

theorem checksum_digits (front : Bytes) (n : Nat) :
    checksum (front ++ Utf8.encode (binaryDigits n)) =
      checksum (front ++ Utf8.encode (binaryDigits 0)) ^^^ effect n := by
  have hlength : (Utf8.encode (binaryDigits 0)).length = (flips n).length := by
    rw [length_encode_binaryDigits, flips, List.length_map, List.length_range]
  have hboth := foldl_shiftByte_xor hlength (front.foldl shiftByte 0xFFFFFFFF) 0
  rw [UInt32.xor_zero] at hboth
  rw [checksum, checksum, List.foldl_append, List.foldl_append, encode_binaryDigits, hboth, effect]
  ac_rfl

/-- For each bit the digits that change it and no other. -/
def bitChanges : List Nat :=
  [0xDB710641, 0x62A6C6A8, 0xBD46BF94, 0x865E87CC, 0xA56ABC72, 0x343DFA43, 0xA6CC97C2, 0x5234C0A8,
   0x6D930AC3, 0xC54D8D50, 0xA1FC7969, 0xD7CC09D9, 0x91A47EA5, 0x687BF486, 0x96E829C5, 0xA4698150,
   0xDB261586, 0x51EA1CE1, 0x9889F493, 0x74E915F3, 0xF839FB0B, 0xD0F7E90C, 0xF6A155CB, 0x93A204E1,
   0x6D3D2D4D, 0xA3D439C2, 0xEA62EF67, 0xE9D22BE6, 0x2B02F057, 0x7A9ED459, 0x3633ADD7, 0xFC350F83]

theorem effect_bitChanges :
    bitChanges.map effect = (List.range 32).map fun i => UInt32.ofNat (2 ^ i) := by
  decide +kernel

theorem exists_bitChange {i : Nat} (h : i < 32) : ∃ n, effect n = UInt32.ofNat (2 ^ i) := by
  have hmem : UInt32.ofNat (2 ^ i) ∈ bitChanges.map effect := by
    rw [effect_bitChanges]
    exact List.mem_map_of_mem (List.mem_range.mpr h)
  obtain ⟨n, -, hn⟩ := List.mem_map.mp hmem
  exact ⟨n, hn⟩

theorem xor_two_pow_lt {p k : Nat} (hlow : 2 ^ k ≤ p) (hhigh : p < 2 ^ (k + 1)) :
    p ^^^ 2 ^ k < 2 ^ k := by
  have hbit : p.testBit k = true := Nat.testBit_of_two_pow_le_and_two_pow_add_one_gt hlow hhigh
  apply Nat.lt_of_testBit k
  · rw [Nat.testBit_xor, hbit, Nat.testBit_two_pow_self]
    rfl
  · exact Nat.testBit_two_pow_self
  · intro j hj
    have hzero : p.testBit j = false :=
      Nat.testBit_lt_two_pow (Nat.lt_of_lt_of_le hhigh (Nat.pow_le_pow_right Nat.two_pos hj))
    rw [Nat.testBit_xor, hzero, Bool.false_xor]

/-- The highest bit of a change is changed first, and the others as before. -/
theorem exists_effect {k : Nat} (hk : k ≤ 32) {p : Nat} (hp : p < 2 ^ k) :
    ∃ n, effect n = UInt32.ofNat p := by
  induction k generalizing p with
  | zero =>
    obtain rfl : p = 0 := Nat.lt_one_iff.mp hp
    exact ⟨0, by decide +kernel⟩
  | succ k ih =>
    have hbelow : k ≤ 32 := Nat.le_of_succ_le hk
    by_cases hsmall : p < 2 ^ k
    · exact ih hbelow hsmall
    · obtain ⟨m, hm⟩ := ih hbelow (xor_two_pow_lt (Nat.le_of_not_lt hsmall) hp)
      obtain ⟨n, hn⟩ := exists_bitChange hk
      refine ⟨m ^^^ n, ?_⟩
      rw [effect_xor, hm, hn, ← UInt32.ofNat_xor, Nat.xor_xor_cancel_right]

/-- Some digits behind a text give it the checksum that is asked for. -/
theorem exists_checksum (front : Bytes) (sum : UInt32) :
    ∃ n, checksum (front ++ Utf8.encode (binaryDigits n)) = sum := by
  obtain ⟨n, hn⟩ := exists_effect (Nat.le_refl 32)
    (checksum (front ++ Utf8.encode (binaryDigits 0)) ^^^ sum).toNat_lt
  refine ⟨n, ?_⟩
  rw [checksum_digits, hn, UInt32.ofNat_toNat, ← UInt32.xor_assoc, UInt32.xor_self,
    UInt32.zero_xor]

end PeerCache.Crc32

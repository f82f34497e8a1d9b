import PeerCache.Digest.Blake3

/-!
# Laws of the digest

Any bytes have a digest of 32 bytes: cutting them up gives at least one part, so the tree over
the parts has a root. Written as text, a byte string has two lower-case digits for each byte.
-/

namespace PeerCache

namespace Hex

def lowerDigits : List Char :=
  "0123456789abcdef".toList

theorem digit_mem_lowerDigits {value : Nat} (h : value < 16) : digit value ∈ lowerDigits := by
  revert value
  decide

theorem mem_lowerDigits_of_mem_encode {bytes : Bytes} {c : Char} (h : c ∈ encode bytes) :
    c ∈ lowerDigits := by
  obtain ⟨b, -, hc⟩ := List.mem_flatMap.mp h
  have hb : b.toNat < 256 := b.toNat_lt
  rw [List.mem_cons, List.mem_singleton] at hc
  rcases hc with rfl | rfl <;> exact digit_mem_lowerDigits (by omega)

theorem length_encode (bytes : Bytes) : (encode bytes).length = 2 * bytes.length := by
  induction bytes with
  | nil => rfl
  | cons b rest ih =>
    rw [encode, List.flatMap_cons, List.length_append, ← encode, ih, List.length_cons]
    simp only [List.length_cons, List.length_nil]
    omega

end Hex

namespace Blake3

theorem parts_ne_nil (size : Nat) (bytes : Bytes) : parts size bytes ≠ [] := by
  rw [parts]
  cases bytes.length with
  | zero => exact List.cons_ne_nil _ _
  | succ limit =>
    rw [partsUpTo]
    split <;> exact List.cons_ne_nil _ _

theorem leaves_ne_nil (bytes : Bytes) : leaves bytes ≠ [] := by
  rw [leaves, Ne, List.map_eq_nil_iff, List.zipIdx_eq_nil_iff]
  exact parts_ne_nil 1024 bytes

theorem level_ne_nil {nodes : List Node} (h : nodes ≠ []) : level nodes ≠ [] := by
  fun_cases level nodes with
  | case1 => exact List.cons_ne_nil _ _
  | case2 => exact h

theorem exists_root {nodes : List Node} (fuel : Nat) (h : nodes ≠ []) :
    ∃ node, root fuel nodes = some node := by
  induction fuel generalizing nodes with
  | zero =>
    cases nodes with
    | nil => exact absurd rfl h
    | cons node rest => cases rest <;> exact ⟨node, rfl⟩
  | succ fuel ih =>
    match nodes, h with
    | [node], _ => exact ⟨node, rfl⟩
    | _ :: _ :: _, h => exact ih (level_ne_nil h)

theorem length_hash (bytes : Bytes) : (hash bytes).length = 32 := by
  obtain ⟨node, hroot⟩ := exists_root (leaves bytes).length (leaves_ne_nil bytes)
  rw [hash, hroot]
  dsimp only
  have hwords : ∀ w ∈ (compress node rootNode).toList, (wordBytes w).length = 4 := fun _ _ => rfl
  rw [List.length_flatMap, List.map_congr_left hwords, List.map_const', Vector.length_toList]
  rfl

end Blake3

end PeerCache

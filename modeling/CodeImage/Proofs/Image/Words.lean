import Mathlib.Data.Int.ModEq
import Mathlib.Data.List.Basic
import CodeImage.Image.Patch
/-!
# Words — patching the words of a row of bytes

A word that was patched reads as what was written, and every byte outside it is as it was (`patched?_spec`), so a word
apart from it reads as before (`wordAt?_congr`).  A distance is kept in the lowest bits of a word and can be read back
from there, and the bits above stay (`toInt_withField`, `withField_div`).
-/
namespace CodeImage

/-! ## Words in rows of bytes -/

theorem overwrite_append {mid piece : Bytes} (front rest : Bytes) (h : piece.length = mid.length) :
    overwrite (front ++ (mid ++ rest)) front.length piece = front ++ (piece ++ rest) := by
  have htake : piece.take ((front ++ (mid ++ rest)).length - front.length) = piece := by
    refine List.take_of_length_le ?_
    rw [List.length_append, List.length_append]
    omega
  have hdrop : (front ++ (mid ++ rest)).drop (front.length + piece.length) = rest := by
    rw [h, ← List.append_assoc, ← List.length_append, List.drop_left]
  rw [overwrite, htake, hdrop, List.take_left, List.append_assoc]

theorem wordAt?_append (front rest : Bytes) (w : Nat) :
    wordAt? (front ++ (leBytes 4 w ++ rest)) front.length = some (w % wordLimit) := by
  rw [wordAt?, List.drop_left]
  exact congrArg some (ofLeBytes_leBytes 4 w)

theorem exists_word_split {bytes : Bytes} {offset : Nat} (h : offset + 4 ≤ bytes.length) :
    ∃ front mid rest, bytes = front ++ (mid ++ rest) ∧ front.length = offset ∧ mid.length = 4 := by
  refine ⟨bytes.take offset, (bytes.drop offset).take 4, (bytes.drop offset).drop 4, ?_, ?_, ?_⟩
  · rw [List.take_append_drop, List.take_append_drop]
  · rw [List.length_take]
    omega
  · rw [List.length_take, List.length_drop]
    omega

/-- **What patching a word does**: it reads as what was written, and no other byte changes. -/
theorem patched?_spec {bytes out : Bytes} {offset w : Nat} (h : patched? bytes offset w = some out) :
    out.length = bytes.length ∧ wordAt? out offset = some (w % wordLimit) ∧
      ∀ x, ¬(offset ≤ x ∧ x < offset + 4) → out[x]? = bytes[x]? := by
  unfold patched? at h
  split at h
  · rename_i hle
    cases h
    obtain ⟨front, mid, rest, rfl, rfl, hmid⟩ := exists_word_split hle
    have hpiece : (leBytes 4 w).length = mid.length := by rw [length_leBytes, hmid]
    rw [overwrite_append front rest hpiece]
    refine ⟨?_, wordAt?_append front rest w, fun x hx => ?_⟩
    · rw [List.length_append, List.length_append, List.length_append, List.length_append, hpiece]
    · by_cases hlt : x < front.length
      · rw [List.getElem?_append_left hlt, List.getElem?_append_left hlt]
      · rw [List.getElem?_append_right (by omega), List.getElem?_append_right (by omega),
          List.getElem?_append_right (by omega), List.getElem?_append_right (by omega), hpiece]
  · cases h

theorem wordAt?_eq_take (bytes : Bytes) (offset : Nat) :
    wordAt? bytes offset = wordAt? ((bytes.drop offset).take 4) 0 := by
  unfold wordAt?
  rcases bytes.drop offset with _ | ⟨a, _ | ⟨b, _ | ⟨c, _ | ⟨d, rest⟩⟩⟩⟩ <;> rfl

/-- A word is what its four bytes say. -/
theorem wordAt?_congr {bytes bytes' : Bytes} {offset : Nat}
    (h : ∀ x, offset ≤ x → x < offset + 4 → bytes[x]? = bytes'[x]?) : wordAt? bytes offset = wordAt? bytes' offset := by
  have hfour : (bytes.drop offset).take 4 = (bytes'.drop offset).take 4 := by
    apply List.ext_getElem?
    intro x
    rw [List.getElem?_take, List.getElem?_take]
    split
    · rw [List.getElem?_drop, List.getElem?_drop]
      exact h _ (by omega) (by omega)
    · rfl
  rw [wordAt?_eq_take, wordAt?_eq_take bytes', hfour]

theorem add_four_le_of_wordAt? {bytes : Bytes} {offset w : Nat} (h : wordAt? bytes offset = some w) :
    offset + 4 ≤ bytes.length := by
  unfold wordAt? at h
  split at h
  · rename_i hdrop
    have hlength := congrArg List.length hdrop
    simp only [List.length_drop, List.length_cons] at hlength
    omega
  · cases h

theorem ofLeBytes_lt : ∀ bytes : Bytes, ofLeBytes bytes < 256 ^ bytes.length
  | [] => Nat.one_pos
  | b :: bytes => by
    have hrest := ofLeBytes_lt bytes
    have hb := b.toNat_lt
    change b.toNat + 256 * ofLeBytes bytes < 256 ^ (bytes.length + 1)
    rw [Nat.pow_succ]
    omega

theorem exists_wordAt? {bytes : Bytes} {offset : Nat} (h : offset + 4 ≤ bytes.length) :
    ∃ w < wordLimit, wordAt? bytes offset = some w := by
  obtain ⟨front, mid, rest, rfl, rfl, hmid⟩ := exists_word_split h
  obtain ⟨a, b, c, d, rfl⟩ := List.length_eq_four.1 hmid
  refine ⟨ofLeBytes [a, b, c, d], Nat.lt_of_lt_of_eq (ofLeBytes_lt _) (by simp [wordLimit]), ?_⟩
  rw [wordAt?, List.drop_left]
  rfl

/-! ## Fields -/

theorem fieldBits_pos (bits : Nat) : 0 < fieldBits bits := by
  unfold fieldBits
  omega

theorem fieldBits_le (bits : Nat) : fieldBits bits ≤ 32 := by
  unfold fieldBits
  omega

/-- **A distance leaves the bits above its field alone.** -/
theorem withField_div (bits word : Nat) (d : Int) :
    withField bits word d / 2 ^ fieldBits bits = word / 2 ^ fieldBits bits := by
  have hpos : 0 < 2 ^ fieldBits bits := Nat.two_pow_pos _
  have hlt : (d % ((2 ^ fieldBits bits : Nat) : Int)).toNat < 2 ^ fieldBits bits := by
    have := Int.emod_lt_of_pos d (Int.natCast_pos.2 hpos)
    have := Int.emod_nonneg d (Int.natCast_ne_zero.2 (Nat.ne_of_gt hpos))
    omega
  rw [withField]
  simp only [Nat.pow_eq]
  rw [Nat.mul_comm, Nat.mul_add_div hpos, Nat.div_eq_of_lt hlt, Nat.add_zero]

theorem withField_lt (bits : Nat) {word : Nat} (d : Int) (h : word < wordLimit) : withField bits word d < wordLimit := by
  have hpos : 0 < 2 ^ fieldBits bits := Nat.two_pow_pos _
  have hsplit : wordLimit = 2 ^ (32 - fieldBits bits) * 2 ^ fieldBits bits := by
    rw [← Nat.pow_add, Nat.sub_add_cancel (fieldBits_le bits)]
    rfl
  rw [hsplit, ← Nat.div_lt_iff_lt_mul hpos] at h ⊢
  rw [withField_div]
  exact h

/-- **Read with its sign, the field holds the distance.** -/
theorem toInt_withField {bits : Nat} {d : Int} (h : fitsField bits d = true) (word : Nat) :
    (BitVec.ofNat (fieldBits bits) (withField bits word d)).toInt = d := by
  have hhalf : 2 ^ fieldBits bits = 2 * 2 ^ (fieldBits bits - 1) := by
    rw [← Nat.pow_succ', Nat.succ_eq_add_one, Nat.sub_add_cancel (fieldBits_pos bits)]
  have hmod : (withField bits word d : Int) % ((2 ^ fieldBits bits : Nat) : Int) = d % ((2 ^ fieldBits bits : Nat) : Int) := by
    have hnonneg := Int.emod_nonneg d (Int.natCast_ne_zero.2 (Nat.ne_of_gt (Nat.two_pow_pos (fieldBits bits))))
    rw [withField]
    simp only [Nat.pow_eq]
    rw [Int.natCast_add, Int.natCast_mul, Int.toNat_of_nonneg hnonneg, Int.mul_add_emod_self_right, Int.emod_emod]
  rw [fitsField, Bool.and_eq_true, decide_eq_true_eq, decide_eq_true_eq] at h
  simp only [Nat.pow_eq] at h
  rw [BitVec.toInt_eq_toNat_bmod, BitVec.toNat_ofNat, Int.natCast_emod, hmod, Int.emod_bmod]
  refine Int.bmod_eq_of_le_mul_two ?_ ?_
  · rw [hhalf]
    omega
  · rw [hhalf]
    omega

end CodeImage

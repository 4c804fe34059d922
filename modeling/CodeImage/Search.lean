/-!
# Searching by halves

`partitionPoint p l` looks for the place in `l` up to which `p` holds by testing the middle of what is left.  Where `p`
holds of a first part of the list and of nothing behind it, that place is the length of the first part
(`partitionPoint_append`).
-/
namespace CodeImage

/-- Narrow the `size` places from `base` on down to one. -/
def narrow (p : Nat → Bool) : Nat → Nat → Nat → Nat
  | 0, base, _ => base
  | fuel + 1, base, size =>
    if size ≤ 1 then base
    else
      let half := size / 2
      narrow p fuel (if p (base + half) then base + half else base) (size - half)

/-- **How many items of a list satisfy `p`, by halving**, for lists whose satisfying items stand first. -/
def partitionPoint {α : Type} (p : α → Bool) (l : List α) : Nat :=
  let a := l.toArray
  let test (n : Nat) : Bool := (a[n]?).any p
  if a.size = 0 then 0
  else
    let base := narrow test a.size 0 a.size
    if test base then base + 1 else base

/-- Narrowing keeps to the places it was given. -/
theorem narrow_lt (p : Nat → Bool) : ∀ (fuel base size : Nat), 0 < size → narrow p fuel base size < base + size
  | 0, base, size, h => by unfold narrow; omega
  | fuel + 1, base, size, h => by
    unfold narrow
    split
    · omega
    · have hs : 0 < size - size / 2 := by omega
      have := narrow_lt p fuel (if p (base + size / 2) then base + size / 2 else base) (size - size / 2) hs
      simp only at this ⊢
      split at this <;> rename_i hp <;> simp only [hp, if_true, Bool.false_eq_true, if_false] <;> omega

/-- **Narrowing finds the last place before `k`** when `p` holds exactly before `k`. -/
theorem narrow_eq (p : Nat → Bool) (k n : Nat) (hp : ∀ i, i < n → (p i = true ↔ i < k)) :
    ∀ (fuel base size : Nat), size ≤ fuel + 1 → 0 < size → base + size ≤ n → base ≤ k → k ≤ base + size →
      narrow p fuel base size = max base (min (k - 1) (base + size - 1))
  | 0, base, size, hf, hs, hn, hb, hk => by unfold narrow; omega
  | fuel + 1, base, size, hf, hs, hn, hb, hk => by
    unfold narrow
    split
    · omega
    · have hm := hp (base + size / 2) (by omega)
      by_cases h : p (base + size / 2) = true
      · have hlt := hm.1 h
        simp only [h, if_true]
        rw [narrow_eq p k n hp fuel (base + size / 2) (size - size / 2) (by omega) (by omega) (by omega) (by omega)
          (by omega)]
        omega
      · have hge : ¬ base + size / 2 < k := fun hlt => h (hm.2 hlt)
        simp only [h, Bool.false_eq_true, if_false]
        by_cases hend : k ≤ base + (size - size / 2)
        · rw [narrow_eq p k n hp fuel base (size - size / 2) (by omega) (by omega) (by omega) (by omega) hend]
          omega
        · omega

/-- **On a list whose satisfying items stand first, halving counts them.** -/
theorem partitionPoint_append {α : Type} (p : α → Bool) (a b : List α) (ha : ∀ x ∈ a, p x = true)
    (hb : ∀ x ∈ b, p x = false) : partitionPoint p (a ++ b) = a.length := by
  unfold partitionPoint
  simp only [List.size_toArray, List.length_append, List.getElem?_toArray]
  split
  · omega
  · rename_i hne
    have hp : ∀ i, i < a.length + b.length → ((((a ++ b)[i]?).any p) = true ↔ i < a.length) := by
      intro i hi
      by_cases h : i < a.length
      · rw [List.getElem?_append_left h, List.getElem?_eq_getElem h]
        simp [h, ha _ (List.getElem_mem h)]
      · have hib : i - a.length < b.length := by omega
        rw [List.getElem?_append_right (by omega), List.getElem?_eq_getElem hib]
        simp [h, hb _ (List.getElem_mem hib)]
    have hnar := narrow_eq (fun n => ((a ++ b)[n]?).any p) a.length (a.length + b.length) hp
      (a.length + b.length) 0 (a.length + b.length) (by omega) (by omega) (by omega) (by omega) (by omega)
    rw [hnar]
    have hlast := hp (max 0 (min (a.length - 1) (0 + (a.length + b.length) - 1))) (by omega)
    split
    · rename_i ht; have := hlast.1 ht; omega
    · rename_i ht
      have : ¬ max 0 (min (a.length - 1) (0 + (a.length + b.length) - 1)) < a.length := fun h => ht (hlast.2 h)
      omega

end CodeImage

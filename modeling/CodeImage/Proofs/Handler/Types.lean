import Mathlib.Data.Finset.Card
import Mathlib.Data.Finset.Dedup
import Mathlib.Data.Finset.Range
import Mathlib.Logic.Relation
import CodeImage.Handler.Types
/-!
# Types — the climb decides what derives from what

`Derives` is the reflexive and transitive closure of the step from a type to the first parent listed for it.  The climb
makes as many tests as there are entries, and one more.  Of a chain that visits a type twice the part between can be cut
out (`exists_short`), so those are enough whatever the hierarchy lists (`isSubtype_iff`).
-/
namespace CodeImage

namespace TypeHierarchy

variable {h : TypeHierarchy} {ty other : Nat}

/-- **`ty` is `other` or derives from it**, by parents listed first. -/
def Derives (h : TypeHierarchy) : Nat → Nat → Prop := Relation.ReflTransGen fun t p => h.parentOf t = some p

/-- The type `n` parents up. -/
def ancestor? (h : TypeHierarchy) : Nat → Nat → Option Nat
  | 0, ty => some ty
  | n + 1, ty => (h.parentOf ty).bind (h.ancestor? n)

theorem ancestor?_add : ∀ (m n ty : Nat), h.ancestor? (m + n) ty = (h.ancestor? m ty).bind (h.ancestor? n)
  | 0, n, ty => by rw [Nat.zero_add]; rfl
  | m + 1, n, ty => by
    rw [Nat.add_right_comm, ancestor?, ancestor?, Option.bind_assoc]
    congr 1
    funext p
    exact ancestor?_add m n p

theorem climbs_iff : ∀ (fuel ty : Nat), h.climbs other fuel ty = true ↔ ∃ n < fuel, h.ancestor? n ty = some other
  | 0, ty => by simp [climbs]
  | fuel + 1, ty => by
    rw [climbs, Bool.or_eq_true, beq_iff_eq, Nat.exists_lt_succ_left]
    cases hp : h.parentOf ty with
    | none => simp [ancestor?, hp]
    | some p => simp [ancestor?, hp, climbs_iff fuel]

theorem derives_iff : h.Derives ty other ↔ ∃ n, h.ancestor? n ty = some other := by
  constructor
  · intro hd
    induction hd with
    | refl => exact ⟨0, rfl⟩
    | tail _ hp ih =>
      obtain ⟨n, hn⟩ := ih
      exact ⟨n + 1, by rw [ancestor?_add, hn, Option.bind_some, ancestor?, hp]; rfl⟩
  · rintro ⟨n, hn⟩
    induction n generalizing ty with
    | zero => exact Option.some.inj hn ▸ .refl
    | succ n ih =>
      obtain ⟨p, hp, hn⟩ := Option.bind_eq_some_iff.1 hn
      exact .head hp (ih hn)

/-- A type that a chain goes on from is listed. -/
theorem ancestor?_mem {n k : Nat} (hn : h.ancestor? n ty = some other) (hk : k < n) :
    h.ancestor? k ty ∈ h.parents.map (some ·.1) := by
  obtain ⟨d, rfl⟩ := Nat.exists_eq_add_of_lt hk
  rw [Nat.add_assoc, ancestor?_add] at hn
  obtain ⟨t, ht, hn⟩ := Option.bind_eq_some_iff.1 hn
  obtain ⟨p, hp, -⟩ := Option.bind_eq_some_iff.1 hn
  obtain ⟨l₁, l₂, hsplit, -⟩ := List.lookup_eq_some_iff.1 hp
  rw [ht, hsplit]
  simp

/-- The steps between two visits of a type can be left out. -/
theorem ancestor?_cut {n i j : Nat} (hn : h.ancestor? n ty = some other) (hj : j < n)
    (hij : h.ancestor? i ty = h.ancestor? j ty) : h.ancestor? (i + (n - j)) ty = some other := by
  rw [ancestor?_add, hij, ← ancestor?_add, Nat.add_sub_cancel' (Nat.le_of_lt hj), hn]

/-- **A type that some chain leads to, a short one leads to**: no longer than the hierarchy. -/
theorem exists_short {n : Nat} (hn : h.ancestor? n ty = some other) :
    ∃ k ≤ h.parents.length, h.ancestor? k ty = some other := by
  induction n using Nat.strong_induction_on with
  | _ n ih =>
    by_cases hle : n ≤ h.parents.length
    · exact ⟨n, hle, hn⟩
    -- more steps than types that are listed: one is visited twice
    have hcard : (h.parents.map (some ·.1)).toFinset.card < (Finset.range n).card := by
      have := List.toFinset_card_le (h.parents.map (some ·.1))
      rw [List.length_map] at this
      rw [Finset.card_range]
      omega
    have hmaps : ∀ k ∈ Finset.range n, h.ancestor? k ty ∈ (h.parents.map (some ·.1)).toFinset := fun k hk =>
      List.mem_toFinset.2 (ancestor?_mem hn (Finset.mem_range.1 hk))
    obtain ⟨i, hi, j, hj, hne, heq⟩ := Finset.exists_ne_map_eq_of_card_lt_of_maps_to hcard hmaps
    rw [Finset.mem_range] at hi hj
    rcases Nat.lt_or_gt_of_ne hne with hij | hij
    · exact ih (i + (n - j)) (by omega) (ancestor?_cut hn hj heq)
    · exact ih (j + (n - i)) (by omega) (ancestor?_cut hn hi heq.symm)

/-- **The climb answers whether a type derives from another**, also where the hierarchy has cycles or lists a type
twice. -/
theorem isSubtype_iff : h.isSubtype ty other = true ↔ h.Derives ty other := by
  rw [isSubtype, climbs_iff, derives_iff]
  constructor
  · rintro ⟨n, -, hn⟩
    exact ⟨n, hn⟩
  · rintro ⟨n, hn⟩
    obtain ⟨k, hk, hshort⟩ := exists_short hn
    exact ⟨k, Nat.lt_succ_of_le hk, hshort⟩

theorem isSubtype_trans (h : TypeHierarchy) (a b c : Nat) (hab : h.isSubtype a b = true) (hbc : h.isSubtype b c = true) :
    h.isSubtype a c = true :=
  isSubtype_iff.2 ((isSubtype_iff.1 hab).trans (isSubtype_iff.1 hbc))

end TypeHierarchy

end CodeImage

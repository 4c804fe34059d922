import Mathlib.Data.List.Sort
import CodeImage.Sorting
/-!
# Sorting — what sorting by insertion gives

`sortBy` is the insertion sort of lists by a test, so its result is a rearrangement of the list (`sortBy_perm`), in order
when the test is total and transitive (`pairwise_sortBy`), and every rearrangement that is in order is the result when
the test tells all items apart (`sortBy_eq_of_perm`).
-/
namespace CodeImage

variable {α : Type} (before : α → α → Bool)

theorem insertBy_eq_orderedInsert (a : α) (l : List α) : insertBy before a l = l.orderedInsert (before · · = true) a := by
  induction l with
  | nil => rfl
  | cons b l ih => rw [insertBy, List.orderedInsert_cons, ih]

theorem sortBy_eq_insertionSort (l : List α) : sortBy before l = l.insertionSort (before · · = true) := by
  induction l with
  | nil => rfl
  | cons a l ih =>
    rw [List.insertionSort_cons, ← ih, ← insertBy_eq_orderedInsert]
    rfl

theorem sortBy_perm (l : List α) : (sortBy before l).Perm l :=
  sortBy_eq_insertionSort before l ▸ List.perm_insertionSort _ l

theorem mem_sortBy {l : List α} {a : α} : a ∈ sortBy before l ↔ a ∈ l := (sortBy_perm before l).mem_iff

/-- An image of the items is sorted as they are, if it compares as they do where one stands in front of another. -/
theorem map_insertBy {β : Type} {f : α → β} {before' : β → β → Bool} {a : α} : ∀ {l : List α},
    (∀ b ∈ l, before a b = before' (f a) (f b)) → (insertBy before a l).map f = insertBy before' (f a) (l.map f)
  | [], _ => rfl
  | b :: l, h => by
    rw [insertBy, List.map_cons, insertBy, ← h b List.mem_cons_self,
      ← map_insertBy fun c hc => h c (List.mem_cons_of_mem _ hc)]
    exact apply_ite (List.map f) _ _ _

theorem map_sortBy {β : Type} {f : α → β} {before' : β → β → Bool} : ∀ {l : List α},
    l.Pairwise (fun a b => before a b = before' (f a) (f b)) → (sortBy before l).map f = sortBy before' (l.map f)
  | [], _ => rfl
  | a :: l, h => by
    obtain ⟨ha, hl⟩ := List.pairwise_cons.1 h
    exact (map_insertBy before fun b hb => ha b ((mem_sortBy before).1 hb)).trans
      (congrArg (insertBy before' (f a)) (map_sortBy hl))

variable (htotal : ∀ a b, before a b = false → before b a = true)
  (htrans : ∀ a b c, before a b = true → before b c = true → before a c = true)

include htotal

theorem total_before : Std.Total (before · · = true) :=
  ⟨fun a b => by
    cases hab : before a b with
    | true => exact .inl rfl
    | false => exact .inr (htotal a b hab)⟩

include htrans

theorem pairwise_sortBy (l : List α) : (sortBy before l).Pairwise (before · · = true) := by
  have : Std.Total (before · · = true) := total_before before htotal
  have : IsTrans α (before · · = true) := ⟨htrans⟩
  rw [sortBy_eq_insertionSort]
  exact List.pairwise_insertionSort _ l

/-- **Sorting is stable**: what stands in order stays in order. -/
theorem pair_sublist_sortBy {l : List α} {a b : α} (hab : before a b = true) (h : [a, b].Sublist l) :
    [a, b].Sublist (sortBy before l) := by
  have : Std.Total (before · · = true) := total_before before htotal
  have : IsTrans α (before · · = true) := ⟨htrans⟩
  rw [sortBy_eq_insertionSort]
  exact List.pair_sublist_insertionSort hab h

/-- **A rearrangement in order is the sorted list**, where no two items of it could stand either way. -/
theorem sortBy_eq_of_perm {l m : List α} (hperm : m.Perm l) (hm : m.Pairwise (before · · = true))
    (hanti : ∀ a ∈ m, ∀ b ∈ m, before a b = true → before b a = true → a = b) : sortBy before l = m := by
  have hsorted := (sortBy_perm before l).trans hperm.symm
  exact List.Perm.eq_of_pairwise (fun a b ha hb => hanti a (hsorted.mem_iff.1 ha) b hb)
    (pairwise_sortBy before htotal htrans l) hm hsorted

/-- The sorted list does not depend on the order in which the items came. -/
theorem sortBy_congr (hanti : ∀ a b, before a b = true → before b a = true → a = b) {l m : List α} (h : l.Perm m) :
    sortBy before l = sortBy before m :=
  sortBy_eq_of_perm before htotal htrans ((sortBy_perm before m).trans h.symm) (pairwise_sortBy before htotal htrans m)
    fun a _ b _ => hanti a b

end CodeImage

import CodeImage.BitSet.Words
/-!
# BitSet — sets of small numbers

A set of numbers below a fixed `bound`, kept in a row of words whose digits are the members.  Digits at and above the bound
are always zero, so that sets with the same members have the same words (`ext_contains`).  `insertNew`, `meet` and `merge`
also tell whether they changed the set.  Words are compared as they stand: `subset` on sets of different bounds looks only
at the words that both have.
-/
namespace CodeImage

/-- **A set of numbers below `bound`**: `n` is a member when digit `n` of the words is one. -/
structure BitSet where
  bound : Nat
  words : List BitSet.Word
  length_words : words.length = BitSet.wordCount bound
  clear : ∀ n, bound ≤ n → BitSet.digit words n = false
  deriving DecidableEq, Repr

namespace BitSet

def contains (s : BitSet) (n : Nat) : Bool := digit s.words n

theorem lt_bound_of_contains {s : BitSet} {n : Nat} (h : s.contains n = true) : n < s.bound := by
  refine Nat.lt_of_not_le fun hle => ?_
  rw [contains, s.clear n hle] at h
  cases h

/-- The word of a number below the bound. -/
theorem div_lt_length {s : BitSet} {n : Nat} (h : n < s.bound) : n / wordBits < s.words.length := by
  rw [s.length_words]
  unfold wordCount wordBits
  omega

def empty (bound : Nat) : BitSet where
  bound
  words := List.replicate (wordCount bound) 0
  length_words := List.length_replicate
  clear n _ := by simp [digit_replicate]

def full (bound : Nat) : BitSet where
  bound
  words := clearExcess bound (List.replicate (wordCount bound) (BitVec.allOnes wordBits))
  length_words := by
    unfold clearExcess
    split <;> simp
  clear n hn := by
    rw [digit_clearExcess List.length_replicate]
    simp [Nat.not_lt.2 hn]

/-- **Add `n` and tell whether it is new.**  A number at or above the bound has no digit and is not added. -/
def insertNew (s : BitSet) (n : Nat) : BitSet × Bool :=
  if h : n < s.bound then
    ({ bound := s.bound
       words := s.words.modify (n / wordBits) (· ||| single (n % wordBits))
       length_words := (List.length_modify _ _ _).trans s.length_words
       clear := fun m hm => by
        have hne : n ≠ m := by omega
        rw [digit_modify_or (div_lt_length h), s.clear m hm]
        simp [hne] },
      s.words[n / wordBits]?.any fun w => w ||| single (n % wordBits) != w)
  else (s, false)

def insert (s : BitSet) (n : Nat) : BitSet := (s.insertNew n).1

def erase (s : BitSet) (n : Nat) : BitSet where
  bound := s.bound
  words := s.words.modify (n / wordBits) (· &&& ~~~single (n % wordBits))
  length_words := (List.length_modify _ _ _).trans s.length_words
  clear m hm := by
    rw [digit_modify_andNot, s.clear m hm]
    rfl

def singleton (bound n : Nat) : BitSet := (empty bound).insert n

/-- **Keep the members that `t` has too, and tell whether any were lost.**  Only sets of one bound are put together. -/
def meet (s t : BitSet) : BitSet × Bool :=
  if h : s.bound = t.bound then
    ({ bound := s.bound
       words := (combine (· &&& ·) s.words t.words).1
       length_words := (length_combine _ _ _).trans s.length_words
       clear := fun n hn => by
        rw [digit_combine (fun _ _ _ => BitVec.getLsbD_and) rfl _ _ (by rw [s.length_words, t.length_words, h]),
          s.clear n hn]
        rfl },
      (combine (· &&& ·) s.words t.words).2)
  else (s, false)

/-- **Add the members of `t` and tell whether any are new.** -/
def merge (s t : BitSet) : BitSet × Bool :=
  if h : s.bound = t.bound then
    ({ bound := s.bound
       words := (combine (· ||| ·) s.words t.words).1
       length_words := (length_combine _ _ _).trans s.length_words
       clear := fun n hn => by
        rw [digit_combine (fun _ _ _ => BitVec.getLsbD_or) rfl _ _ (by rw [s.length_words, t.length_words, h]),
          s.clear n hn, t.clear n (h ▸ hn)]
        rfl },
      (combine (· ||| ·) s.words t.words).2)
  else (s, false)

def inter (s t : BitSet) : BitSet := (s.meet t).1

def union (s t : BitSet) : BitSet := (s.merge t).1

/-- **Every member of `s` is one of `t`**, as far as the words of both reach. -/
def subset (s t : BitSet) : Bool := (s.words.zip t.words).all fun pair => pair.1 &&& ~~~pair.2 == 0

def isEmpty (s : BitSet) : Bool := s.words.all (· == 0)

/-- **The members in ascending order.** -/
def toList (s : BitSet) : List Nat := Cursor.drain s.bound ⟨0, s.words⟩

def card (s : BitSet) : Nat := s.words.foldl (fun n w => n + w.cpop.toNat) 0

/-- **The numbers below `bound` that satisfy `p`.** -/
def ofPred (bound : Nat) (p : Nat → Bool) : BitSet :=
  (List.range bound).foldl (fun s n => if p n then s.insert n else s) (empty bound)

theorem bound_insert (s : BitSet) (n : Nat) : (s.insert n).bound = s.bound := by
  unfold insert insertNew
  split <;> rfl

theorem contains_empty (u n : Nat) : (empty u).contains n = false := by
  simp [contains, empty, digit_replicate]

theorem contains_insert (s : BitSet) {n : Nat} (h : n < s.bound) (m : Nat) :
    (s.insert n).contains m = (s.contains m || decide (n = m)) := by
  rw [insert, insertNew, dif_pos h]
  exact digit_modify_or (div_lt_length h) m

theorem contains_singleton {u n : Nat} (h : n < u) (m : Nat) : (singleton u n).contains m = decide (n = m) := by
  rw [singleton, contains_insert (empty u) h, contains_empty, Bool.false_or]

theorem contains_full (u n : Nat) : (full u).contains n = decide (n < u) := by
  rw [contains, full, digit_clearExcess List.length_replicate, digit_replicate]
  by_cases hn : n < u
  · have hword : n / wordBits < wordCount u := by
      unfold wordCount wordBits
      omega
    have hdigit : n % wordBits < wordBits := Nat.mod_lt _ (by decide)
    simp [hn, hword, hdigit]
  · simp [hn]

theorem bound_erase (s : BitSet) (n : Nat) : (s.erase n).bound = s.bound := rfl

theorem contains_erase (s : BitSet) (n m : Nat) : (s.erase n).contains m = (s.contains m && decide (n ≠ m)) :=
  digit_modify_andNot n m

/-- Sets with the same bound and the same members are equal. -/
theorem ext_contains {s t : BitSet} (hbound : s.bound = t.bound) (h : ∀ n, s.contains n = true ↔ t.contains n = true) :
    s = t := by
  have hwords : s.words = t.words :=
    eq_of_digit (by rw [s.length_words, t.length_words, hbound]) fun n => Bool.eq_iff_iff.2 (h n)
  cases s
  cases t
  cases hbound
  cases hwords
  rfl

theorem ahead_start {s : BitSet} {n : Nat} : Cursor.Ahead ⟨0, s.words⟩ n ↔ s.contains n = true := by
  simp [Cursor.Ahead, contains]

/-- **Going through a set** gives its members, from the lowest up. -/
theorem toList_spec (s : BitSet) : s.toList.Pairwise (· < ·) ∧ ∀ n, n ∈ s.toList ↔ s.contains n = true := by
  obtain ⟨hsorted, hmem⟩ := Cursor.drain_spec s.bound ⟨0, s.words⟩ 0 s.bound
    (fun n hn => ⟨Nat.zero_le n, lt_bound_of_contains (ahead_start.1 hn)⟩) (Nat.le_refl _)
  exact ⟨hsorted, fun n => (hmem n).trans ahead_start⟩

theorem mem_toList {s : BitSet} {n : Nat} : n ∈ s.toList ↔ n < s.bound ∧ s.contains n = true := by
  rw [(toList_spec s).2]
  exact ⟨fun h => ⟨lt_bound_of_contains h, h⟩, fun h => h.2⟩

theorem nodup_toList (s : BitSet) : s.toList.Nodup := (toList_spec s).1.imp Nat.ne_of_lt

theorem bound_inter (s t : BitSet) : (s.inter t).bound = s.bound := by
  unfold inter meet
  split <;> rfl

theorem contains_inter {s t : BitSet} (h : s.bound = t.bound) (n : Nat) :
    (s.inter t).contains n = (s.contains n && t.contains n) := by
  rw [inter, meet, dif_pos h]
  exact digit_combine (fun _ _ _ => BitVec.getLsbD_and) rfl _ _ (by rw [s.length_words, t.length_words, h]) n

theorem bound_union (s t : BitSet) : (s.union t).bound = s.bound := by
  unfold union merge
  split <;> rfl

theorem contains_union {s t : BitSet} (h : s.bound = t.bound) (n : Nat) :
    (s.union t).contains n = (s.contains n || t.contains n) := by
  rw [union, merge, dif_pos h]
  exact digit_combine (fun _ _ _ => BitVec.getLsbD_or) rfl _ _ (by rw [s.length_words, t.length_words, h]) n

/-- Erasing the numbers of a list takes exactly those away. -/
theorem contains_foldl_erase (m : Nat) : ∀ (l : List Nat) (s : BitSet),
    (l.foldl erase s).contains m = (s.contains m && decide (m ∉ l))
  | [], s => by simp
  | n :: l, s => by
    rw [List.foldl_cons, contains_foldl_erase m l, contains_erase, Bool.and_assoc, ← Bool.decide_and]
    simp [eq_comm]

/-- A fold that inserts the satisfying numbers of a list adds exactly those. -/
theorem contains_foldl_insert (p : Nat → Bool) : ∀ (l : List Nat) (s : BitSet), (∀ n ∈ l, n < s.bound) → ∀ m,
    (l.foldl (fun s n => if p n then s.insert n else s) s).contains m = (s.contains m || (decide (m ∈ l) && p m))
  | [], s, _, m => by simp
  | n :: l, s, h, m => by
    have hn : n < s.bound := h n List.mem_cons_self
    rw [List.foldl_cons]
    by_cases hp : p n = true
    · rw [if_pos hp, contains_foldl_insert p l (s.insert n)
        (fun k hk => by rw [bound_insert]; exact h k (List.mem_cons_of_mem _ hk)), contains_insert s hn]
      by_cases hm : n = m
      · subst hm; simp [hp]
      · simp [hm, Ne.symm hm]
    · rw [if_neg hp, contains_foldl_insert p l s (fun k hk => h k (List.mem_cons_of_mem _ hk))]
      by_cases hm : m = n
      · subst hm; simp [hp]
      · simp [hm]

theorem bound_ofPred (u : Nat) (p : Nat → Bool) : (ofPred u p).bound = u := by
  unfold ofPred
  generalize List.range u = l
  suffices h : ∀ s : BitSet, (l.foldl (fun s n => if p n then s.insert n else s) s).bound = s.bound from h (empty u)
  induction l with
  | nil => exact fun _ => rfl
  | cons n l ih =>
    intro s
    rw [List.foldl_cons, ih]
    split
    · exact bound_insert s n
    · rfl

/-- **`ofPred` holds exactly what it says.** -/
theorem contains_ofPred (u : Nat) (p : Nat → Bool) (n : Nat) :
    (ofPred u p).contains n = (decide (n < u) && p n) := by
  unfold ofPred
  rw [contains_foldl_insert p (List.range u) (empty u) (fun k hk => List.mem_range.1 hk), contains_empty]
  simp

end BitSet

end CodeImage

import Mathlib.Algebra.GroupWithZero.Nat
import Mathlib.Data.Finset.Card
import Mathlib.Data.Finset.Range
import CodeImage.BitSet
/-!
# Refinement — rows of words are finite sets

`SetCall.run` carries out calls on a shelf of sets, and can do so with rows of words (`BitSet.ops`) or with finite sets of
numbers (`plainOps`).  Whatever the calls, both shelves hold the same sets and both runs tell the same changes
(`run_refines_sets`).  What can be asked of a row of words is what can be asked of the finite set (`Represents`): the count
of its ones, whether all words are zero, whether the words of one row lie within those of another or equal them, and the
ones in their order.
-/
namespace CodeImage

namespace BitSet

/-! ## Words -/

theorem or_single_eq_iff {w : Word} {k : Nat} (hk : k < wordBits) : w ||| single k = w ↔ w.getLsbD k = true := by
  constructor
  · intro h
    rw [← h, BitVec.getLsbD_or, getLsbD_single hk]
    simp
  · intro h
    refine BitVec.eq_of_getLsbD_eq fun j _ => ?_
    rw [BitVec.getLsbD_or, getLsbD_single hk]
    by_cases hj : k = j
    · simp [← hj, h]
    · simp [hj]

theorem eq_zero_iff_getLsbD {w : Word} : w = 0 ↔ ∀ k, w.getLsbD k = false := by
  constructor
  · rintro rfl k
    simp
  · intro h
    exact BitVec.eq_of_getLsbD_eq fun k _ => by simp [h k]

theorem and_not_eq_zero_iff {a b : Word} : a &&& ~~~b = 0 ↔ ∀ k, a.getLsbD k = true → b.getLsbD k = true := by
  rw [eq_zero_iff_getLsbD]
  refine forall_congr' fun k => ?_
  rw [BitVec.getLsbD_and, BitVec.getLsbD_not]
  constructor
  · intro h ha
    have hk := BitVec.lt_of_getLsbD ha
    simpa [ha, hk] using h
  · intro h
    cases ha : a.getLsbD k with
    | false => rfl
    | true => simp [h ha]

theorem toNat_cpop_eq (w : Word) : w.cpop.toNat = (List.range wordBits).countP w.getLsbD := by
  have hcount : ∀ k, w.cpopNatRec k 0 = (List.range k).countP w.getLsbD := by
    intro k
    induction k with
    | zero => rfl
    | succ k ih =>
      rw [BitVec.cpopNatRec_succ, BitVec.cpopNatRec_add, ih, List.range_succ, List.countP_append, List.countP_singleton]
      cases w.getLsbD k <;> rfl
  rw [BitVec.toNat_cpop, hcount]

/-! ## Rows -/

/-- What holds of all digits of a row, word by word. -/
theorem forall_digit_cons {w : Word} {words : List Word} {P : Nat → Bool → Prop} :
    (∀ n, P n (digit (w :: words) n)) ↔
      (∀ k < wordBits, P k (w.getLsbD k)) ∧ ∀ n, P (n + wordBits) (digit words n) := by
  constructor
  · intro h
    refine ⟨fun k hk => ?_, fun n => ?_⟩
    · have := h k
      rwa [digit_cons, if_pos hk] at this
    · have := h (n + wordBits)
      rwa [digit_cons, if_neg (by omega), Nat.add_sub_cancel] at this
  · rintro ⟨hlow, hhigh⟩ n
    rw [digit_cons]
    split
    · exact hlow n ‹_›
    · have := hhigh (n - wordBits)
      rwa [Nat.sub_add_cancel (by omega)] at this

theorem all_eq_zero_iff (words : List Word) : words.all (· == 0) = true ↔ ∀ n, digit words n = false := by
  induction words with
  | nil => simp [digit]
  | cons w words ih =>
    rw [List.all_cons, Bool.and_eq_true, ih, beq_iff_eq, eq_zero_iff_getLsbD, forall_digit_cons (P := fun _ d => d = false)]
    refine and_congr_left' ⟨fun h k _ => h k, fun h k => ?_⟩
    by_cases hk : k < wordBits
    · exact h k hk
    · exact BitVec.getLsbD_of_ge _ _ (by omega)

/-- Of rows of one length, the words of the first lie within those of the second exactly when its digits do. -/
theorem all_zip_iff : ∀ as bs : List Word, as.length = bs.length →
    ((as.zip bs).all (fun pair => pair.1 &&& ~~~pair.2 == 0) = true ↔ ∀ n, digit as n = true → digit bs n = true)
  | [], [], _ => by simp [digit]
  | a :: as, b :: bs, hlength => by
    rw [List.zip_cons_cons, List.all_cons, Bool.and_eq_true, all_zip_iff as bs (Nat.succ.inj hlength), beq_iff_eq,
      and_not_eq_zero_iff, forall_digit_cons (P := fun n d => d = true → digit (b :: bs) n = true)]
    refine and_congr (forall_congr' fun k => ?_) (forall_congr' fun n => ?_)
    · constructor
      · intro h hk ha
        rw [digit_cons, if_pos hk]
        exact h ha
      · intro h ha
        have hk := BitVec.lt_of_getLsbD ha
        have := h hk ha
        rwa [digit_cons, if_pos hk] at this
    · rw [digit_cons, if_neg (by omega), Nat.add_sub_cancel]

theorem sum_cpop (words : List Word) :
    (words.map fun w => w.cpop.toNat).sum = (List.range (wordBits * words.length)).countP (digit words) := by
  induction words with
  | nil => rfl
  | cons w words ih =>
    have hlow : (List.range wordBits).countP (digit (w :: words)) = (List.range wordBits).countP w.getLsbD :=
      List.countP_congr fun k hk => by rw [digit_cons, if_pos (List.mem_range.1 hk)]
    have hhigh : ((List.range (wordBits * words.length)).map (wordBits + ·)).countP (digit (w :: words)) =
        (List.range (wordBits * words.length)).countP (digit words) := by
      rw [List.countP_map]
      refine List.countP_congr fun k _ => ?_
      rw [Function.comp_apply, digit_cons, if_neg (by omega), Nat.add_sub_cancel_left]
    rw [List.map_cons, List.sum_cons, ih, List.length_cons, Nat.mul_succ, Nat.add_comm (wordBits * _), List.range_add,
      List.countP_append, hlow, hhigh, toNat_cpop_eq]

/-! ## Sets -/

section Sets

variable {s t : BitSet} {n : Nat}

theorem isEmpty_iff (s : BitSet) : s.isEmpty = true ↔ ∀ n, s.contains n = false := all_eq_zero_iff s.words

theorem subset_iff (h : s.bound = t.bound) : s.subset t = true ↔ ∀ n, s.contains n = true → t.contains n = true :=
  all_zip_iff s.words t.words (by rw [s.length_words, t.length_words, h])

/-- **The ones that are counted are the members that are gone through.** -/
theorem card_eq_length (s : BitSet) : s.card = s.toList.length := by
  rw [card, ← List.foldl_map, ← List.sum_eq_foldl, sum_cpop, List.countP_eq_length_filter]
  refine List.Perm.length_eq ((List.perm_ext_iff_of_nodup (List.nodup_range.filter _) (nodup_toList s)).2 fun n => ?_)
  rw [List.mem_filter, List.mem_range, (toList_spec s).2]
  refine and_iff_right_of_imp fun hn => ?_
  have hword := div_lt_length (lt_bound_of_contains hn)
  unfold wordBits at *
  omega

theorem snd_insertNew (h : n < s.bound) : (s.insertNew n).2 = true ↔ s.contains n = false := by
  have hk : n % wordBits < wordBits := Nat.mod_lt _ (by decide)
  rw [insertNew, dif_pos h, contains, digit, List.getElem?_eq_getElem (div_lt_length h), Option.any_some, Option.any_some,
    bne_iff_ne, Ne, or_single_eq_iff hk, Bool.not_eq_true]

/-- Two rows of one bound differ exactly when the sets do. -/
theorem words_ne_iff (h : s.bound = t.bound) : s.words ≠ t.words ↔ s ≠ t := by
  refine not_congr ⟨fun hwords => ext_contains h fun n => by rw [contains, contains, hwords], ?_⟩
  rintro rfl
  rfl

theorem snd_meet (h : s.bound = t.bound) : (s.meet t).2 = true ↔ s.inter t ≠ s := by
  rw [← words_ne_iff (bound_inter s t), inter, meet, dif_pos h]
  exact snd_combine _ _ _

theorem snd_merge (h : s.bound = t.bound) : (s.merge t).2 = true ↔ s.union t ≠ s := by
  rw [← words_ne_iff (bound_union s t), union, merge, dif_pos h]
  exact snd_combine _ _ _

end Sets

end BitSet

/-! ## Calls on a shelf of sets -/

/-- **What can be done with sets of numbers**; where a change is told, it is the second part of the answer. -/
structure SetOps (α : Type) where
  empty : α
  full : α
  single : Nat → α
  insert : Nat → α → α × Bool
  erase : Nat → α → α
  meet : α → α → α × Bool
  merge : α → α → α × Bool

/-- **A call on a shelf of sets**, which are known by their places on it. -/
inductive SetCall where
  | empty
  | full
  | single (n : Nat)
  | insert (set n : Nat)
  | erase (set n : Nat)
  | meet (set other : Nat)
  | merge (set other : Nat)
  deriving DecidableEq, Repr

namespace SetCall

/-- Only numbers below the bound are put into sets. -/
def Within (bound : Nat) : SetCall → Prop
  | .single n | .insert _ n => n < bound
  | _ => True

instance (bound : Nat) : DecidablePred (Within bound)
  | .single n | .insert _ n => inferInstanceAs (Decidable (n < bound))
  | .empty | .full | .erase .. | .meet .. | .merge .. => .isTrue trivial

variable {α : Type} (ops : SetOps α)

/-- Change a set of the shelf and tell whether it changed. -/
def change (shelf : List α) (set : Nat) (f : α → α × Bool) : List α × Option Bool :=
  match shelf[set]? with
  | some s => (shelf.set set (f s).1, some (f s).2)
  | none => (shelf, none)

/-- **Carry out a call.**  New sets go to the end of the shelf, and a set that is not there is left alone. -/
def perform (shelf : List α) : SetCall → List α × Option Bool
  | .empty => (shelf ++ [ops.empty], none)
  | .full => (shelf ++ [ops.full], none)
  | .single n => (shelf ++ [ops.single n], none)
  | .insert set n => change shelf set (ops.insert n)
  | .erase set n => (shelf.modify set (ops.erase n), none)
  | .meet set other => match shelf[other]? with
    | some t => change shelf set (ops.meet · t)
    | none => (shelf, none)
  | .merge set other => match shelf[other]? with
    | some t => change shelf set (ops.merge · t)
    | none => (shelf, none)

/-- **Carry out calls one after the other**, with all that is told on the way. -/
def run : List SetCall → List α → List α × List (Option Bool)
  | [], shelf => (shelf, [])
  | call :: calls, shelf =>
    let (shelf, told) := perform ops shelf call
    let (shelf, rest) := run calls shelf
    (shelf, told :: rest)

end SetCall

/-- Rows of words. -/
def BitSet.ops (bound : Nat) : SetOps BitSet where
  empty := .empty bound
  full := .full bound
  single := .singleton bound
  insert n s := s.insertNew n
  erase n s := s.erase n
  meet s t := s.meet t
  merge s t := s.merge t

/-- **Finite sets of numbers**: what is told is that the set is another one. -/
def plainOps (bound : Nat) : SetOps (Finset Nat) where
  empty := ∅
  full := Finset.range bound
  single n := {n}
  insert n S := (insert n S, decide (insert n S ≠ S))
  erase n S := S.erase n
  meet S T := (S ∩ T, decide (S ∩ T ≠ S))
  merge S T := (S ∪ T, decide (S ∪ T ≠ S))

namespace BitSet

/-- The row of words has the members of the finite set. -/
structure Holds (bound : Nat) (s : BitSet) (S : Finset Nat) : Prop where
  bound_eq : s.bound = bound
  contains : ∀ n, s.contains n = true ↔ n ∈ S

/-- **All that can be asked of a row of words is told of the finite set.** -/
structure Represents (bound : Nat) (s : BitSet) (S : Finset Nat) : Prop extends Holds bound s S where
  /-- Digits at and above the bound are zero. -/
  clear : ∀ n, bound ≤ n → digit s.words n = false
  card : s.card = S.card
  isEmpty : s.isEmpty = true ↔ S = ∅
  /-- The members are gone through from the lowest up, each once. -/
  sorted : s.toList.Pairwise (· < ·)
  mem_toList : ∀ n, n ∈ s.toList ↔ n ∈ S

section Holds

variable {bound n : Nat} {s t : BitSet} {S T : Finset Nat}

theorem Holds.represents (h : Holds bound s S) : Represents bound s S := by
  obtain ⟨hsorted, hmem⟩ := toList_spec s
  have hmem : ∀ n, n ∈ s.toList ↔ n ∈ S := fun n => (hmem n).trans (h.contains n)
  refine ⟨h, fun n hn => s.clear n (h.bound_eq ▸ hn), ?_, ?_, hsorted, hmem⟩
  · have hset : s.toList.toFinset = S := Finset.ext fun n => by rw [List.mem_toFinset, hmem]
    rw [card_eq_length, ← hset, List.toFinset_card_of_nodup (nodup_toList s)]
  · rw [isEmpty_iff, Finset.eq_empty_iff_forall_notMem]
    exact forall_congr' fun n => by rw [← h.contains, Bool.not_eq_true]

theorem Holds.eq_iff (hs : Holds bound s S) (ht : Holds bound t T) : s = t ↔ S = T := by
  constructor
  · rintro rfl
    exact Finset.ext fun n => by rw [← hs.contains, ht.contains]
  · rintro rfl
    exact ext_contains (hs.bound_eq.trans ht.bound_eq.symm) fun n => by rw [hs.contains, ht.contains]

theorem Holds.subset_iff (hs : Holds bound s S) (ht : Holds bound t T) : s.subset t = true ↔ S ⊆ T := by
  rw [BitSet.subset_iff (hs.bound_eq.trans ht.bound_eq.symm)]
  exact forall_congr' fun n => by rw [hs.contains, ht.contains]

theorem holds_empty (bound : Nat) : Holds bound (.empty bound) ∅ :=
  ⟨rfl, fun n => by simp [contains_empty]⟩

theorem holds_full (bound : Nat) : Holds bound (.full bound) (Finset.range bound) :=
  ⟨rfl, fun n => by simp [contains_full]⟩

theorem Holds.insert (h : Holds bound s S) (hn : n < bound) : Holds bound (s.insert n) (Insert.insert n S) := by
  refine ⟨(bound_insert s n).trans h.bound_eq, fun m => ?_⟩
  rw [contains_insert s (h.bound_eq ▸ hn), Bool.or_eq_true, h.contains, decide_eq_true_iff, Finset.mem_insert, or_comm, eq_comm]

theorem holds_singleton (hn : n < bound) : Holds bound (.singleton bound n) {n} := (holds_empty bound).insert hn

theorem Holds.erase (h : Holds bound s S) (n : Nat) : Holds bound (s.erase n) (S.erase n) := by
  refine ⟨h.bound_eq, fun m => ?_⟩
  rw [contains_erase, Bool.and_eq_true, h.contains, decide_eq_true_iff, Finset.mem_erase, and_comm, ne_comm]

theorem Holds.inter (hs : Holds bound s S) (ht : Holds bound t T) : Holds bound (s.inter t) (S ∩ T) := by
  refine ⟨(bound_inter s t).trans hs.bound_eq, fun n => ?_⟩
  rw [contains_inter (hs.bound_eq.trans ht.bound_eq.symm), Bool.and_eq_true, hs.contains, ht.contains, Finset.mem_inter]

theorem Holds.union (hs : Holds bound s S) (ht : Holds bound t T) : Holds bound (s.union t) (S ∪ T) := by
  refine ⟨(bound_union s t).trans hs.bound_eq, fun n => ?_⟩
  rw [contains_union (hs.bound_eq.trans ht.bound_eq.symm), Bool.or_eq_true, hs.contains, ht.contains, Finset.mem_union]

/-! ## What is told -/

/-- A changed row and what is told of it, beside a changed finite set and what is told of that. -/
def HoldsTold (bound : Nat) (r : BitSet × Bool) (R : Finset Nat × Bool) : Prop := Holds bound r.1 R.1 ∧ r.2 = R.2

theorem Holds.insertNew (h : Holds bound s S) (hn : n < bound) :
    HoldsTold bound (s.insertNew n) ((plainOps bound).insert n S) := by
  refine ⟨h.insert hn, Bool.eq_iff_iff.2 ?_⟩
  rw [snd_insertNew (h.bound_eq ▸ hn), plainOps, decide_eq_true_iff, Ne, Finset.insert_eq_self, ← h.contains, Bool.not_eq_true]

theorem Holds.meet (hs : Holds bound s S) (ht : Holds bound t T) :
    HoldsTold bound (s.meet t) ((plainOps bound).meet S T) := by
  refine ⟨hs.inter ht, Bool.eq_iff_iff.2 ?_⟩
  rw [snd_meet (hs.bound_eq.trans ht.bound_eq.symm), Ne, (hs.inter ht).eq_iff hs, plainOps, decide_eq_true_iff]

theorem Holds.merge (hs : Holds bound s S) (ht : Holds bound t T) :
    HoldsTold bound (s.merge t) ((plainOps bound).merge S T) := by
  refine ⟨hs.union ht, Bool.eq_iff_iff.2 ?_⟩
  rw [snd_merge (hs.bound_eq.trans ht.bound_eq.symm), Ne, (hs.union ht).eq_iff hs, plainOps, decide_eq_true_iff]

end Holds

end BitSet

namespace SetCall

open BitSet (Holds HoldsTold Represents)

/-- Two shelves with the same sets, place by place. -/
abbrev Alike (bound : Nat) : List BitSet → List (Finset Nat) → Prop := List.Forall₂ (Holds bound)

section Alike

variable {bound : Nat} {shelf : List BitSet} {plain : List (Finset Nat)}

theorem Alike.getElem? (h : Alike bound shelf plain) (i : Nat) :
    shelf[i]? = none ∧ plain[i]? = none ∨ ∃ s S, shelf[i]? = some s ∧ plain[i]? = some S ∧ Holds bound s S := by
  induction h generalizing i with
  | nil => exact .inl ⟨rfl, rfl⟩
  | cons hs _ ih =>
    cases i with
    | zero => exact .inr ⟨_, _, rfl, rfl, hs⟩
    | succ i => exact ih i

theorem Alike.set (h : Alike bound shelf plain) (i : Nat) {s : BitSet} {S : Finset Nat} (hs : Holds bound s S) :
    Alike bound (shelf.set i s) (plain.set i S) := by
  induction h generalizing i with
  | nil => exact .nil
  | cons hx hrest ih =>
    cases i with
    | zero => exact .cons hs hrest
    | succ i => exact .cons hx (ih i)

theorem Alike.modify (h : Alike bound shelf plain) (i : Nat) {f : BitSet → BitSet} {F : Finset Nat → Finset Nat}
    (hf : ∀ s S, Holds bound s S → Holds bound (f s) (F S)) : Alike bound (shelf.modify i f) (plain.modify i F) := by
  induction h generalizing i with
  | nil => cases i <;> exact .nil
  | cons hx hrest ih =>
    cases i with
    | zero => exact .cons (hf _ _ hx) hrest
    | succ i => exact .cons hx (ih i)

theorem Alike.push (h : Alike bound shelf plain) {s : BitSet} {S : Finset Nat} (hs : Holds bound s S) :
    Alike bound (shelf ++ [s]) (plain ++ [S]) := List.rel_append h (.cons hs .nil)

theorem Alike.change (h : Alike bound shelf plain) (i : Nat) {f : BitSet → BitSet × Bool}
    {F : Finset Nat → Finset Nat × Bool} (hf : ∀ s S, Holds bound s S → HoldsTold bound (f s) (F S)) :
    Alike bound (change shelf i f).1 (change plain i F).1 ∧ (change shelf i f).2 = (change plain i F).2 := by
  unfold SetCall.change
  rcases h.getElem? i with ⟨hshelf, hplain⟩ | ⟨s, S, hshelf, hplain, hs⟩
  · rw [hshelf, hplain]
    exact ⟨h, rfl⟩
  · rw [hshelf, hplain]
    obtain ⟨hholds, htold⟩ := hf s S hs
    exact ⟨h.set i hholds, congrArg some htold⟩

/-- **One call** does the same to both shelves and tells the same. -/
theorem Alike.perform (h : Alike bound shelf plain) {call : SetCall} (hcall : call.Within bound) :
    Alike bound (perform (BitSet.ops bound) shelf call).1 (perform (plainOps bound) plain call).1 ∧
      (perform (BitSet.ops bound) shelf call).2 = (perform (plainOps bound) plain call).2 := by
  cases call with
  | empty => exact ⟨h.push (BitSet.holds_empty bound), rfl⟩
  | full => exact ⟨h.push (BitSet.holds_full bound), rfl⟩
  | single n => exact ⟨h.push (BitSet.holds_singleton hcall), rfl⟩
  | insert set n => exact h.change set fun s S hs => hs.insertNew hcall
  | erase set n => exact ⟨h.modify set fun s S hs => hs.erase n, rfl⟩
  | meet set other =>
    rcases h.getElem? other with ⟨hshelf, hplain⟩ | ⟨t, T, hshelf, hplain, ht⟩
    · simp only [SetCall.perform, hshelf, hplain]
      exact ⟨h, trivial⟩
    · simp only [SetCall.perform, hshelf, hplain]
      exact h.change set fun s S hs => hs.meet ht
  | merge set other =>
    rcases h.getElem? other with ⟨hshelf, hplain⟩ | ⟨t, T, hshelf, hplain, ht⟩
    · simp only [SetCall.perform, hshelf, hplain]
      exact ⟨h, trivial⟩
    · simp only [SetCall.perform, hshelf, hplain]
      exact h.change set fun s S hs => hs.merge ht

theorem Alike.run : ∀ (calls : List SetCall) {shelf : List BitSet} {plain : List (Finset Nat)},
    Alike bound shelf plain → (∀ call ∈ calls, call.Within bound) →
    Alike bound (run (BitSet.ops bound) calls shelf).1 (run (plainOps bound) calls plain).1 ∧
      (run (BitSet.ops bound) calls shelf).2 = (run (plainOps bound) calls plain).2
  | [], _, _, h, _ => ⟨h, rfl⟩
  | call :: calls, _, _, h, hcalls => by
    obtain ⟨hshelf, htold⟩ := h.perform (hcalls call List.mem_cons_self)
    obtain ⟨hrest, hanswers⟩ := Alike.run calls hshelf fun c hc => hcalls c (List.mem_cons_of_mem _ hc)
    exact ⟨hrest, List.cons_eq_cons.2 ⟨htold, hanswers⟩⟩

end Alike

/-- **Rows of words are finite sets.**  Whatever the bound and the calls, as long as only numbers below the bound are put into
sets, the two shelves hold the same sets and the same changes are told; each row represents its set, and rows compare as
their sets do. -/
theorem run_refines_sets (bound : Nat) (calls : List SetCall) (hcalls : ∀ call ∈ calls, call.Within bound) :
    (run (BitSet.ops bound) calls []).2 = (run (plainOps bound) calls []).2 ∧
    List.Forall₂ (Represents bound) (run (BitSet.ops bound) calls []).1 (run (plainOps bound) calls []).1 ∧
    ∀ (i j : Nat) (s t : BitSet) (S T : Finset Nat),
      (run (BitSet.ops bound) calls []).1[i]? = some s → (run (plainOps bound) calls []).1[i]? = some S →
      (run (BitSet.ops bound) calls []).1[j]? = some t → (run (plainOps bound) calls []).1[j]? = some T →
      (s.subset t = true ↔ S ⊆ T) ∧ ((s == t) = true ↔ S = T) := by
  obtain ⟨halike, htold⟩ := Alike.run calls (.nil : Alike bound [] []) hcalls
  refine ⟨htold, halike.imp fun s S hs => hs.represents, fun i j s t S T hs hS ht hT => ?_⟩
  have hat : ∀ {i : Nat} {s S}, (run (BitSet.ops bound) calls []).1[i]? = some s → (run (plainOps bound) calls []).1[i]? = some S →
      Holds bound s S := by
    intro i s S hs hS
    rcases halike.getElem? i with ⟨hnone, -⟩ | ⟨s', S', hs', hS', hholds⟩
    · rw [hs] at hnone
      cases hnone
    · cases hs.symm.trans hs'
      cases hS.symm.trans hS'
      exact hholds
  exact ⟨(hat hs hS).subset_iff (hat ht hT), beq_iff_eq.trans ((hat hs hS).eq_iff (hat ht hT))⟩

/-- Calls on two sets whose members lie in two words. -/
def twoWords : List SetCall :=
  [.empty, .insert 0 3, .insert 0 66, .insert 0 3, .full, .erase 1 66, .meet 0 1, .meet 0 1, .merge 0 1, .single 69]

theorem run_refines_sets_twoWords :
    (∀ call ∈ twoWords, call.Within 70) ∧
    (run (plainOps 70) twoWords []).2 =
      [none, some true, some true, some false, none, none, some true, some false, some true, none] ∧
    List.Forall₂ (Represents 70) (run (BitSet.ops 70) twoWords []).1 (run (plainOps 70) twoWords []).1 ∧
    (run (BitSet.ops 70) twoWords []).1.map BitSet.card = [69, 69, 1] := by
  have hwithin : ∀ call ∈ twoWords, call.Within 70 := by decide
  obtain ⟨htold, hsets, -⟩ := run_refines_sets 70 twoWords hwithin
  refine ⟨hwithin, ?_, hsets, by decide +kernel⟩
  rw [← htold]
  decide +kernel

end SetCall

end CodeImage

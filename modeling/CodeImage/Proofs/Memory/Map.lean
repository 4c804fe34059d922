import Mathlib.Data.List.Chain
import CodeImage.Memory.Map
/-!
# Map — what a memory map says of an address

`Shows l a tag taken` reads a list of stretches at one address, and `Sound` says that stretches are not empty, sorted,
apart and merged.  Operations on a whole list are described by what they do to this view: `merge` does nothing to it
(`shows_merge`), `clip` lets the first of sorted ranges count (`shows_clip`), `carve` takes the addresses of a span
(`shows_carve`).  A map of declared ranges is made in one pass, and it is what clipping and merging make of them
(`ofDeclared_ranges`).
-/
namespace CodeImage

/-- The stretch holds an address. -/
def HeapRange.Holds (r : HeapRange) (a : Nat) : Prop := r.start ≤ a ∧ a < r.stop

/-- Neighbours that are not to be merged: they do not touch, or they differ in kind or state. -/
def HeapRange.Apart (r s : HeapRange) : Prop := ¬(r.stop = s.start ∧ r.alike s = true)

/-- **What becomes of a stretch** when the addresses from `start` up to `stop` are taken, if it is free. -/
def HeapRange.split (start stop : Nat) (r : HeapRange) : List HeapRange :=
  let lo := max r.start start
  let hi := min r.stop stop
  if !r.taken && lo < hi then
    [{ r with stop := lo }, { r with start := lo, stop := hi, taken := true }, { r with start := hi }].filter
      fun q => q.start < q.stop
  else [r]

namespace MemoryMap

/-- **What a list of stretches says of an address.** -/
def Shows (l : List HeapRange) (a : Nat) (tag : MemoryTag) (taken : Bool) : Prop :=
  ∃ r ∈ l, r.Holds a ∧ r.tag = tag ∧ r.taken = taken

/-- **Stretches that are not empty, sorted and apart.** -/
structure Ordered (l : List HeapRange) : Prop where
  nonempty : ∀ r ∈ l, r.start < r.stop
  sorted : l.Pairwise fun r s => r.stop ≤ s.start

/-- **Ordered stretches of which no neighbours could be merged.** -/
structure Sound (l : List HeapRange) : Prop extends Ordered l where
  merged : l.IsChain HeapRange.Apart

theorem shows_nil (a : Nat) (tag : MemoryTag) (taken : Bool) : ¬Shows [] a tag taken := fun ⟨_, h, _⟩ => nomatch h

theorem shows_cons (r : HeapRange) (l : List HeapRange) (a : Nat) (tag : MemoryTag) (taken : Bool) :
    Shows (r :: l) a tag taken ↔ (r.Holds a ∧ r.tag = tag ∧ r.taken = taken) ∨ Shows l a tag taken := by
  unfold Shows
  simp only [List.mem_cons, or_and_right, exists_or, exists_eq_left]

theorem Ordered.tail {r : HeapRange} {l : List HeapRange} (h : Ordered (r :: l)) : Ordered l :=
  ⟨fun s hs => h.nonempty s (List.mem_cons_of_mem _ hs), h.sorted.of_cons⟩

theorem Ordered.cons {r : HeapRange} {l : List HeapRange} (hr : r.start < r.stop) (h : Ordered l)
    (hrl : ∀ s ∈ l, r.stop ≤ s.start) : Ordered (r :: l) :=
  ⟨List.forall_mem_cons.2 ⟨hr, h.nonempty⟩, List.pairwise_cons.2 ⟨hrl, h.sorted⟩⟩

/-! ## Merging -/

/-- Merge neighbours that touch and are alike. -/
def merge : List HeapRange → List HeapRange
  | [] => []
  | r :: rest => match merge rest with
    | [] => [r]
    | q :: more => if r.stop == q.start && r.alike q then { r with stop := q.stop } :: more else r :: q :: more

theorem alike_iff (r s : HeapRange) : r.alike s = true ↔ r.tag = s.tag ∧ r.taken = s.taken := by
  simp only [HeapRange.alike, Bool.and_eq_true, beq_iff_eq]

theorem mem_merge_start : ∀ {l : List HeapRange} {r : HeapRange}, r ∈ merge l → ∃ s ∈ l, s.start = r.start
  | q :: rest, r, h => by
    have hrest : ∀ s ∈ merge rest, ∃ t ∈ q :: rest, t.start = s.start := fun s hs =>
      (mem_merge_start hs).imp fun t ht => ⟨List.mem_cons_of_mem _ ht.1, ht.2⟩
    unfold merge at h
    split at h
    · exact ⟨q, List.mem_cons_self, by rw [List.mem_singleton.1 h]⟩
    · rename_i s more hm
      rw [hm] at hrest
      split at h <;> rcases List.mem_cons.1 h with rfl | h
      · exact ⟨q, List.mem_cons_self, rfl⟩
      · exact hrest r (List.mem_cons_of_mem _ h)
      · exact ⟨r, List.mem_cons_self, rfl⟩
      · exact hrest r h

theorem Sound.widen {r q : HeapRange} {l : List HeapRange} (h : Sound (q :: l)) (hr : r.start < q.stop)
    (halike : r.alike q = true) : Sound ({ r with stop := q.stop } :: l) := by
  obtain ⟨htag, htaken⟩ := (alike_iff r q).1 halike
  refine ⟨h.toOrdered.tail.cons hr fun s hs => List.rel_of_pairwise_cons h.sorted hs, ?_⟩
  have hmerged := h.merged
  cases l with
  | nil => exact .singleton _
  | cons s l =>
    rw [List.isChain_cons_cons] at hmerged ⊢
    refine ⟨fun ⟨htouch, hs⟩ => hmerged.1 ⟨htouch, ?_⟩, hmerged.2⟩
    rw [alike_iff] at hs ⊢
    exact ⟨htag.symm.trans hs.1, htaken.symm.trans hs.2⟩

theorem sound_merge : ∀ {l : List HeapRange}, Ordered l → Sound (merge l)
  | [], h => ⟨h, .nil⟩
  | r :: rest, h => by
    have hsound := sound_merge h.tail
    have hr := h.nonempty r List.mem_cons_self
    have hnext : ∀ s ∈ merge rest, r.stop ≤ s.start := by
      intro s hs
      obtain ⟨t, ht, hts⟩ := mem_merge_start hs
      rw [← hts]
      exact List.rel_of_pairwise_cons h.sorted ht
    unfold merge
    split
    · exact ⟨Ordered.cons hr ⟨nofun, .nil⟩ nofun, .singleton r⟩
    · rename_i q more hm
      rw [hm] at hsound hnext
      have hq := hsound.nonempty q List.mem_cons_self
      have hrq := hnext q List.mem_cons_self
      split
      · rename_i hcond
        rw [Bool.and_eq_true] at hcond
        exact hsound.widen (by omega) hcond.2
      · rename_i hcond
        refine ⟨hsound.toOrdered.cons hr hnext, List.isChain_cons_cons.2 ⟨fun hm => hcond ?_, hsound.merged⟩⟩
        rw [Bool.and_eq_true, beq_iff_eq]
        exact hm

/-- **Merging keeps the view.** -/
theorem shows_merge : ∀ {l : List HeapRange}, Ordered l → ∀ a tag taken,
    Shows (merge l) a tag taken ↔ Shows l a tag taken
  | [], _, _, _, _ => Iff.rfl
  | r :: rest, h, a, tag, taken => by
    have hview := shows_merge h.tail a tag taken
    have hsound := sound_merge h.tail
    have hr := h.nonempty r List.mem_cons_self
    unfold merge
    split
    · rename_i hm
      rw [shows_cons, shows_cons, ← hview, hm]
    · rename_i q more hm
      rw [hm] at hview hsound
      have hq := hsound.nonempty q List.mem_cons_self
      split
      · -- the one stretch holds what the two held
        rename_i hcond
        rw [Bool.and_eq_true, beq_iff_eq, alike_iff] at hcond
        obtain ⟨htouch, htag, htaken⟩ := hcond
        rw [shows_cons, shows_cons, ← hview, shows_cons, ← or_assoc]
        refine or_congr_left ?_
        simp only [HeapRange.Holds, htag, htaken, ← or_and_right]
        refine and_congr_left fun _ => ?_
        omega
      · rw [shows_cons, shows_cons r rest, hview]

/-- What a merged list starts with is the first stretch, or goes on from it. -/
theorem exists_merge_cons (r : HeapRange) (l : List HeapRange) :
    ∃ stop more, merge (r :: l) = { r with stop } :: more := by
  rw [merge]
  split
  · exact ⟨r.stop, [], rfl⟩
  · rename_i q more _
    split
    · exact ⟨q.stop, more, rfl⟩
    · exact ⟨r.stop, q :: more, rfl⟩

/-- Neighbours that would be merged may be merged before the rest. -/
theorem merge_cons_join {r q : HeapRange} (htouch : r.stop = q.start) (halike : r.alike q = true)
    (l : List HeapRange) : merge (r :: q :: l) = merge ({ r with stop := q.stop } :: l) := by
  have hjoin : (r.stop == q.start && r.alike q) = true := by rw [Bool.and_eq_true, beq_iff_eq]; exact ⟨htouch, halike⟩
  have htags (s : HeapRange) : q.alike s = r.alike s := by
    obtain ⟨htag, htaken⟩ := (alike_iff r q).1 halike
    rw [HeapRange.alike, HeapRange.alike, htag, htaken]
  simp only [merge]
  cases merge l with
  | nil => simp only [hjoin, if_true]
  | cons s more =>
    dsimp only
    rw [show HeapRange.alike { r with stop := q.stop } s = q.alike s from (htags s).symm]
    by_cases hs : (q.stop == s.start && q.alike s) = true
    · rw [if_pos hs, if_pos hs]
      exact if_pos hjoin
    · rw [if_neg hs, if_neg hs]
      exact if_pos hjoin

theorem merge_cons_apart {r q : HeapRange} (happart : r.Apart q) (l : List HeapRange) :
    merge (r :: q :: l) = r :: merge (q :: l) := by
  obtain ⟨stop, more, hmerge⟩ := exists_merge_cons q l
  rw [merge, hmerge]
  refine if_neg fun hjoin => happart ?_
  rw [Bool.and_eq_true, beq_iff_eq] at hjoin
  exact hjoin

theorem merge_eq_self : ∀ {l : List HeapRange}, l.IsChain HeapRange.Apart → merge l = l
  | [], _ => rfl
  | [_], _ => rfl
  | r :: s :: l, h => by
    obtain ⟨hrs, htail⟩ := List.isChain_cons_cons.1 h
    rw [merge_cons_apart hrs, merge_eq_self htail]

theorem merge_append_congr {l l' : List HeapRange} (h : merge l = merge l') : ∀ front : List HeapRange,
    merge (front ++ l) = merge (front ++ l')
  | [] => h
  | r :: front => by rw [List.cons_append, List.cons_append, merge, merge, merge_append_congr h front]

/-! ## Taking addresses -/


/-- The span holds an address. -/
def Covers (s : Nat × Nat) (a : Nat) : Prop := s.1 ≤ a ∧ a < s.2

instance (s : Nat × Nat) (a : Nat) : Decidable (Covers s a) := inferInstanceAs (Decidable (_ ∧ _))

instance (r : HeapRange) (a : Nat) : Decidable (r.Holds a) := inferInstanceAs (Decidable (_ ∧ _))

/-- The parts of a stretch lie in it, in order. -/
theorem split_spec (start stop : Nat) {r : HeapRange} (hr : r.start < r.stop) :
    Ordered (r.split start stop) ∧ ∀ q ∈ r.split start stop, r.start ≤ q.start ∧ q.stop ≤ r.stop := by
  unfold HeapRange.split
  dsimp only
  split
  · rename_i hcond
    rw [Bool.and_eq_true, decide_eq_true_eq] at hcond
    refine ⟨⟨fun q hq => of_decide_eq_true (List.mem_filter.1 hq).2, List.Pairwise.filter _ ?_⟩, fun q hq => ?_⟩
    · simp only [List.pairwise_cons, List.forall_mem_cons, List.Pairwise.nil, and_true]
      exact ⟨⟨Nat.le_refl _, by omega, nofun⟩, ⟨Nat.le_refl _, nofun⟩, nofun⟩
    · have := (List.mem_filter.1 hq).1
      simp only [List.mem_cons, List.not_mem_nil, or_false] at this
      rcases this with rfl | rfl | rfl <;> dsimp only <;> omega
  · exact ⟨Ordered.cons hr ⟨nofun, .nil⟩ nofun, fun q hq => by rw [List.mem_singleton.1 hq]; omega⟩

theorem shows_split (start stop : Nat) (r : HeapRange) (a : Nat) (tag : MemoryTag) (taken : Bool) :
    Shows (r.split start stop) a tag taken ↔
      r.Holds a ∧ r.tag = tag ∧ (r.taken || decide (Covers (start, stop) a)) = taken := by
  unfold HeapRange.split
  dsimp only
  split
  · rename_i hcond
    rw [Bool.and_eq_true, Bool.not_eq_true', decide_eq_true_eq] at hcond
    obtain ⟨hfree, hlt⟩ := hcond
    simp only [Shows, List.mem_filter, List.mem_cons, List.not_mem_nil, or_false, HeapRange.Holds, hfree,
      Bool.false_or, or_and_right, exists_or, and_assoc, exists_eq_left, decide_eq_true_eq]
    by_cases hin : Covers (start, stop) a
    · rw [decide_eq_true hin]
      unfold Covers at hin
      constructor
      · rintro (h | h | h)
        · omega
        · exact ⟨by omega, by omega, h.2.2.2⟩
        · omega
      · rintro ⟨h₁, h₂, h⟩
        exact .inr (.inl ⟨hlt, by omega, by omega, h⟩)
    · rw [decide_eq_false hin]
      unfold Covers at hin
      constructor
      · rintro (h | h | h)
        · exact ⟨by omega, by omega, h.2.2.2⟩
        · omega
        · exact ⟨by omega, by omega, h.2.2.2⟩
      · rintro ⟨h₁, h₂, h⟩
        by_cases ha : a < start
        · exact .inl ⟨by omega, by omega, by omega, h⟩
        · exact .inr (.inr ⟨by omega, by omega, by omega, h⟩)
  · -- a taken stretch stays, and a stretch apart from the span has no address of it
    rename_i hcond
    rw [Bool.and_eq_true, Bool.not_eq_true', decide_eq_true_eq] at hcond
    rw [shows_cons]
    simp only [shows_nil, or_false]
    refine and_congr_right fun hr => and_congr_right fun _ => ?_
    unfold HeapRange.Holds at hr
    by_cases hin : Covers (start, stop) a
    · unfold Covers at hin
      have : r.taken = true := (Bool.eq_false_or_eq_true _).resolve_right fun h => hcond ⟨h, by omega⟩
      rw [this, Bool.true_or]
    · rw [decide_eq_false hin, Bool.or_false]

theorem ordered_splits (start stop : Nat) {l : List HeapRange} (h : Ordered l) :
    Ordered (l.flatMap (HeapRange.split start stop)) := by
  refine ⟨fun q hq => ?_, List.pairwise_flatMap.2 ⟨fun r hr => ?_, ?_⟩⟩
  · obtain ⟨r, hr, hq⟩ := List.mem_flatMap.1 hq
    exact (split_spec start stop (h.nonempty r hr)).1.nonempty q hq
  · exact (split_spec start stop (h.nonempty r hr)).1.sorted
  · refine List.Pairwise.imp_of_mem (fun {r s} hr hs hrs p hp q hq => ?_) h.sorted
    have hp := ((split_spec start stop (h.nonempty r hr)).2 p hp).2
    have hq := ((split_spec start stop (h.nonempty s hs)).2 q hq).1
    omega

/-- **Take the addresses from `start` up to `stop` everywhere**: split all stretches, and merge what has become
alike. -/
def carve (start stop : Nat) (l : List HeapRange) : List HeapRange := merge (l.flatMap (HeapRange.split start stop))

theorem sound_carve {l : List HeapRange} (h : Ordered l) (start stop : Nat) : Sound (carve start stop l) :=
  sound_merge (ordered_splits start stop h)

/-- **Carving takes the addresses of the span**, and changes nothing else. -/
theorem shows_carve {l : List HeapRange} (h : Ordered l) (start stop a : Nat) (tag : MemoryTag) (taken : Bool) :
    Shows (carve start stop l) a tag taken ↔
      ∃ was, Shows l a tag was ∧ (was || decide (Covers (start, stop) a)) = taken := by
  rw [carve, shows_merge (ordered_splits start stop h)]
  constructor
  · rintro ⟨q, hq, hview⟩
    obtain ⟨r, hr, hq⟩ := List.mem_flatMap.1 hq
    obtain ⟨ha, htag, htaken⟩ := (shows_split start stop r a tag taken).1 ⟨q, hq, hview⟩
    exact ⟨r.taken, ⟨r, hr, ha, htag, rfl⟩, htaken⟩
  · rintro ⟨was, ⟨r, hr, ha, htag, rfl⟩, htaken⟩
    obtain ⟨q, hq, hview⟩ := (shows_split start stop r a tag taken).2 ⟨ha, htag, htaken⟩
    exact ⟨q, List.mem_flatMap.2 ⟨r, hr, hq⟩, hview⟩

/-! ## Declared ranges -/

/-- Cut off what lies below `floor`, and below the end of each earlier range. -/
def clip : Nat → List HeapRange → List HeapRange
  | _, [] => []
  | floor, r :: rest =>
    let start := max r.start floor
    if start < r.stop then { r with start } :: clip r.stop rest else clip floor rest

/-- **Entering ranges one by one is clipping and merging them all.** -/
theorem enter_eq_merge_clip : ∀ (prev : HeapRange) (l : List HeapRange), (∀ r ∈ l, r.start < r.stop) →
    enter prev l = merge (prev :: clip prev.stop l)
  | _, [], _ => rfl
  | prev, r :: rest, hne => by
    obtain ⟨hr, hrest⟩ := List.forall_mem_cons.1 hne
    rw [enter, clip]
    dsimp only
    split
    · rename_i hinside
      rw [Bool.and_eq_true, decide_eq_true_eq, decide_eq_true_eq] at hinside
      rw [if_neg (by omega), enter_eq_merge_clip prev rest hrest]
    · rename_i hinside
      rw [Bool.and_eq_true, decide_eq_true_eq, decide_eq_true_eq] at hinside
      have hlt : max r.start prev.stop < r.stop := by omega
      rw [if_pos hlt]
      split
      · rename_i hjoin
        rw [Bool.and_eq_true, beq_iff_eq] at hjoin
        rw [enter_eq_merge_clip _ rest hrest, merge_cons_join hjoin.1 hjoin.2]
      · rename_i hjoin
        rw [Bool.and_eq_true, beq_iff_eq] at hjoin
        have happart : prev.Apart { r with start := max r.start prev.stop } := hjoin
        rw [enter_eq_merge_clip _ rest hrest, merge_cons_apart happart]

/-- **A map of declared ranges holds what clipping and merging make of them.** -/
theorem ofDeclared_ranges (memory : List MemoryRange) : (ofDeclared memory).ranges = merge (clip 0
    (((memory.filter fun r => r.start < r.stop).map HeapRange.ofMemoryRange).mergeSort fun a b => a.start ≤ b.start)) := by
  have hne : ∀ r ∈ ((memory.filter fun r => r.start < r.stop).map HeapRange.ofMemoryRange).mergeSort
      (fun a b => a.start ≤ b.start), r.start < r.stop := by
    intro r hr
    obtain ⟨s, hs, rfl⟩ := List.mem_map.1 (List.mem_mergeSort.1 hr)
    exact of_decide_eq_true (List.mem_filter.1 hs).2
  unfold ofDeclared
  dsimp only
  revert hne
  generalize (List.mergeSort _ _) = sorted
  intro hne
  cases sorted with
  | nil => rfl
  | cons r rest =>
    obtain ⟨hr, hrest⟩ := List.forall_mem_cons.1 hne
    rw [clip]
    dsimp only
    rw [Nat.max_zero, if_pos hr]
    exact enter_eq_merge_clip r rest hrest

theorem clip_spec : ∀ (floor : Nat) (l : List HeapRange), Ordered (clip floor l) ∧ ∀ r ∈ clip floor l, floor ≤ r.start
  | _, [] => ⟨⟨nofun, .nil⟩, nofun⟩
  | floor, r :: rest => by
    unfold clip
    dsimp only
    split
    · rename_i hlt
      obtain ⟨hordered, hfloor⟩ := clip_spec r.stop rest
      refine ⟨hordered.cons hlt hfloor, List.forall_mem_cons.2 ⟨Nat.le_max_right _ _, fun s hs => ?_⟩⟩
      have := hfloor s hs
      omega
    · exact clip_spec floor rest

/-- **Of ranges sorted by start, clipping lets the first that holds an address count.** -/
theorem shows_clip : ∀ (floor : Nat) (l : List HeapRange), (l.Pairwise fun r s => r.start ≤ s.start) →
    (∀ r ∈ l, r.start < r.stop) → ∀ a tag taken, Shows (clip floor l) a tag taken ↔
      floor ≤ a ∧ ∃ r, l.find? (fun r => decide (r.Holds a)) = some r ∧ r.tag = tag ∧ r.taken = taken
  | floor, [], _, _, a, tag, taken => ⟨fun h => (shows_nil a tag taken h).elim, fun h => nomatch h.2⟩
  | floor, r :: rest, hsort, hne, a, tag, taken => by
    have hr := hne r List.mem_cons_self
    have ih := fun f => shows_clip f rest hsort.of_cons (fun s hs => hne s (List.mem_cons_of_mem _ hs)) a tag taken
    unfold clip
    dsimp only
    split
    · rename_i hlt
      rw [shows_cons, ih r.stop, List.find?_cons]
      by_cases ha : r.Holds a
      · rw [decide_eq_true ha]
        unfold HeapRange.Holds at ha ⊢
        simp only [Option.some.injEq, exists_eq_left']
        constructor
        · rintro (⟨h, hview⟩ | ⟨h, -⟩)
          · exact ⟨by omega, hview⟩
          · omega
        · rintro ⟨h, hview⟩
          exact .inl ⟨by omega, hview⟩
      · rw [decide_eq_false ha]
        unfold HeapRange.Holds at ha
        constructor
        · rintro (⟨⟨h, h'⟩, -⟩ | ⟨h, hview⟩)
          · exact (ha ⟨Nat.le_trans (Nat.le_max_left _ _) h, h'⟩).elim
          · exact ⟨by omega, hview⟩
        · -- what a later range holds lies behind this range
          rintro ⟨h, s, hs, hview⟩
          replace hs : rest.find? (fun r => decide (r.Holds a)) = some s := hs
          have hsa : s.Holds a := by simpa using List.find?_some hs
          unfold HeapRange.Holds at hsa
          have := List.rel_of_pairwise_cons hsort (List.mem_of_find?_eq_some hs)
          exact .inr ⟨by omega, s, hs, hview⟩
    · rename_i hge
      rw [ih floor]
      refine and_congr_right fun hfloor => ?_
      rw [List.find?_cons_of_neg]
      rw [decide_eq_true_eq]
      unfold HeapRange.Holds
      omega

/-- Sorting by a key leaves the elements of one key in their order. -/
theorem filter_mergeSort {α : Type} (key : α → Nat) (k : Nat) (l : List α) :
    (l.mergeSort fun a b => key a ≤ key b).filter (fun a => key a = k) = l.filter fun a => key a = k := by
  have hsorted : (l.filter fun a => key a = k).Pairwise fun a b => decide (key a ≤ key b) = true := by
    refine List.pairwise_of_forall_mem_list fun a ha b hb => ?_
    have ha := of_decide_eq_true (List.mem_filter.1 ha).2
    have hb := of_decide_eq_true (List.mem_filter.1 hb).2
    exact decide_eq_true (Nat.le_of_eq (ha.trans hb.symm))
  have hsub := List.sublist_mergeSort (fun a b c => by simpa using Nat.le_trans)
    (fun a b => by simpa using Nat.le_total _ _) hsorted List.filter_sublist
  have hsub := hsub.filter fun a => key a = k
  rw [List.filter_filter] at hsub
  simp only [Bool.and_self] at hsub
  exact (hsub.eq_of_length ((List.mergeSort_perm l _).filter _).length_eq.symm).symm

theorem find?_congr {α : Type} {p q : α → Bool} {l : List α} (h : ∀ a ∈ l, p a = q a) : l.find? p = l.find? q := by
  rw [← List.head?_filter, ← List.head?_filter, List.filter_congr h]

theorem pairwise_mergeSort_key {α : Type} (key : α → Nat) (l : List α) :
    (l.mergeSort fun a b => key a ≤ key b).Pairwise fun a b => key a ≤ key b := by
  have hsorted : (l.mergeSort fun a b => key a ≤ key b).Pairwise fun a b => decide (key a ≤ key b) = true := by
    refine List.pairwise_mergeSort (fun a b c => ?_) (fun a b => ?_) l
    · simpa using Nat.le_trans
    · simpa using Nat.le_total (key a) (key b)
  exact hsorted.imp of_decide_eq_true

theorem pairwise_mergeSort_spans {α : Type} (start stop : α → Nat) (l : List α) :
    (l.mergeSort fun a b => start a < start b || (start a == start b && stop a ≤ stop b)).Pairwise
      fun a b => start a ≤ start b := by
  have hsorted : (l.mergeSort fun a b => start a < start b || (start a == start b && stop a ≤ stop b)).Pairwise
      fun a b => (decide (start a < start b) || (start a == start b && decide (stop a ≤ stop b))) = true := by
    refine List.pairwise_mergeSort (fun a b c => ?_) (fun a b => ?_) l
    · simp only [Bool.or_eq_true, Bool.and_eq_true, decide_eq_true_eq, beq_iff_eq]
      omega
    · simp only [Bool.or_eq_true, Bool.and_eq_true, decide_eq_true_eq, beq_iff_eq]
      omega
  refine hsorted.imp fun {a b} hab => ?_
  simp only [Bool.or_eq_true, Bool.and_eq_true, decide_eq_true_eq, beq_iff_eq] at hab
  omega

/-- **The first of a sorted list that passes a test** is, in the list as it was, the first that passes it with the
least key. -/
theorem find?_mergeSort {α : Type} (key : α → Nat) (p : α → Bool) (l : List α) :
    (l.mergeSort fun a b => key a ≤ key b).find? p =
      l.find? fun a => p a && l.all fun b => !p b || decide (key a ≤ key b) := by
  have hsorted := pairwise_mergeSort_key key l
  cases hfind : (l.mergeSort fun a b => key a ≤ key b).find? p with
  | none =>
    rw [List.find?_eq_none] at hfind
    refine (List.find?_eq_none.2 fun a ha h => ?_).symm
    rw [Bool.and_eq_true] at h
    exact hfind a (List.mem_mergeSort.2 ha) h.1
  | some r =>
    obtain ⟨hr, as, bs, hsplit, has⟩ := List.find?_eq_some_iff_append.1 hfind
    have hleast : ∀ s ∈ l, p s = true → key r ≤ key s := by
      intro s hs hps
      rw [← List.mem_mergeSort, hsplit, List.mem_append, List.mem_cons] at hs
      rcases hs with hs | rfl | hs
      · exact absurd hps (by simpa using has s hs)
      · exact Nat.le_refl _
      · rw [hsplit, List.pairwise_append] at hsorted
        exact List.rel_of_pairwise_cons hsorted.2.1 hs
    have hrl : r ∈ l := List.mem_mergeSort.1 (List.mem_of_find?_eq_some hfind)
    -- among the elements of the least key the sorted list has the order of the list
    have hkey : (l.filter fun a => key a = key r).find? p = some r := by
      rw [← filter_mergeSort, List.find?_filter, hsplit, List.find?_append, List.find?_eq_none.2, Option.none_or,
        List.find?_cons_of_pos]
      · simp only [hr, decide_true, and_self]
      · intro a ha h
        exact absurd (of_decide_eq_true h).2 (by simpa using has a ha)
    rw [List.find?_filter] at hkey
    rw [← hkey]
    refine find?_congr fun a ha => ?_
    rw [Bool.eq_iff_iff, Bool.and_eq_true, List.all_eq_true, decide_eq_true_eq]
    simp only [Bool.or_eq_true, Bool.not_eq_true', decide_eq_true_eq]
    constructor
    · rintro ⟨hkey, hpa⟩
      exact ⟨hpa, fun b hb => (Bool.eq_false_or_eq_true (p b)).symm.imp_right fun hpb => hkey ▸ hleast b hb hpb⟩
    · rintro ⟨hpa, hall⟩
      refine ⟨Nat.le_antisymm ?_ (hleast a ha hpa), hpa⟩
      exact (hall r hrl).resolve_left (by rw [hr]; exact Bool.noConfusion)

/-- **The declared range that counts at an address**: of those that hold it one that starts first, and of these the
one declared first. -/
def declaredAt? (memory : List MemoryRange) (a : Nat) : Option MemoryRange :=
  memory.find? fun r => r.contains a && memory.all fun s => !s.contains a || decide (r.start ≤ s.start)

theorem declaredAt?_isSome (memory : List MemoryRange) (a : Nat) :
    (declaredAt? memory a).isSome = true ↔ ∃ r ∈ memory, r.contains a = true := by
  rw [declaredAt?, ← find?_mergeSort, List.find?_isSome]
  simp only [List.mem_mergeSort]

theorem declaredAt?_filter (memory : List MemoryRange) (a : Nat) :
    declaredAt? (memory.filter fun r => r.start < r.stop) a = declaredAt? memory a := by
  have hne : ∀ r : MemoryRange, r.contains a = true → r.start < r.stop := by
    intro r h
    rw [MemoryRange.contains, Bool.and_eq_true, decide_eq_true_eq, decide_eq_true_eq] at h
    omega
  unfold declaredAt?
  rw [List.find?_filter]
  refine find?_congr fun r _ => ?_
  rw [Bool.eq_iff_iff]
  simp only [decide_eq_true_eq, Bool.and_eq_true, List.all_eq_true, List.mem_filter, Bool.or_eq_true,
    Bool.not_eq_true']
  constructor
  · rintro ⟨-, hr, hall⟩
    refine ⟨hr, fun s hs => ?_⟩
    rcases Bool.eq_false_or_eq_true (s.contains a) with hsa | hsa
    · exact hall s ⟨hs, hne s hsa⟩
    · exact .inl hsa
  · rintro ⟨hr, hall⟩
    exact ⟨hne r hr, hr, fun s hs => hall s hs.1⟩

theorem sound_ofDeclared (memory : List MemoryRange) : Sound (ofDeclared memory).ranges := by
  rw [ofDeclared_ranges]
  exact sound_merge (clip_spec 0 _).1

/-- **A map starts with the declared ranges, free.** -/
theorem shows_ofDeclared (memory : List MemoryRange) (a : Nat) (tag : MemoryTag) (taken : Bool) :
    Shows (ofDeclared memory).ranges a tag taken ↔
      ∃ r, declaredAt? memory a = some r ∧ (HeapRange.ofMemoryRange r).tag = tag ∧ false = taken := by
  have hsort : ((memory.filter fun r => r.start < r.stop).map HeapRange.ofMemoryRange).mergeSort
      (fun a b => a.start ≤ b.start) = ((memory.filter fun r => r.start < r.stop).mergeSort fun a b =>
        a.start ≤ b.start).map HeapRange.ofMemoryRange :=
    (List.map_mergeSort (f := HeapRange.ofMemoryRange) fun _ _ _ _ => rfl).symm
  rw [ofDeclared_ranges, shows_merge (clip_spec 0 _).1, shows_clip _ _ (pairwise_mergeSort_key HeapRange.start _),
    hsort, List.find?_map, ← declaredAt?_filter, declaredAt?, ← find?_mergeSort]
  · have htest : (fun r : HeapRange => decide (r.Holds a)) ∘ HeapRange.ofMemoryRange = fun r => r.contains a := by
      funext r
      exact Bool.decide_and _ _
    rw [htest]
    simp only [Option.map_eq_some_iff, Nat.zero_le, true_and]
    constructor
    · rintro ⟨_, ⟨r, hr, rfl⟩, htag, htaken⟩
      exact ⟨r, hr, htag, htaken⟩
    · rintro ⟨r, hr, htag, htaken⟩
      exact ⟨_, ⟨r, hr, rfl⟩, htag, htaken⟩
  · intro r hr
    obtain ⟨s, hs, rfl⟩ := List.mem_map.1 (List.mem_mergeSort.1 hr)
    exact of_decide_eq_true (List.mem_filter.1 hs).2

end MemoryMap

end CodeImage

import CodeImage.Proofs.Memory.Map
/-!
# Carving — addresses taken from one stretch at a time

Sound lists of stretches that say the same of every address are equal (`Sound.eq_of_shows`): their heads start at the
least address shown, and each head goes on for as long as the same is shown, since what follows it is not alike.  What
`extract` makes of a list depends on its two sides apart: on what is left below the addresses taken and may absorb them
(`below`), and on what is left above (`above`).  So on a sound list it does what splitting and merging the whole list
does (`extract_eq_carve`), and the rounds of `reserve`, of which each has one stretch less to take from
(`countP_extract`), end in what carving the span at once gives (`reserve_ranges`).
-/
namespace CodeImage

namespace MemoryMap

/-! ## The head of a list of stretches -/

theorem Ordered.shows_head {r : HeapRange} {l : List HeapRange} (h : Ordered (r :: l)) :
    Shows (r :: l) r.start r.tag r.taken :=
  ⟨r, List.mem_cons_self, ⟨Nat.le_refl _, h.nonempty r List.mem_cons_self⟩, rfl, rfl⟩

theorem Ordered.stop_le_of_shows {r : HeapRange} {l : List HeapRange} (h : Ordered (r :: l)) {a : Nat}
    {tag : MemoryTag} {taken : Bool} (ha : Shows l a tag taken) : r.stop ≤ a := by
  obtain ⟨q, hq, hqa, -⟩ := ha
  exact Nat.le_trans (List.rel_of_pairwise_cons h.sorted hq) hqa.1

theorem Ordered.start_le_of_shows {r : HeapRange} {l : List HeapRange} (h : Ordered (r :: l)) {a : Nat}
    {tag : MemoryTag} {taken : Bool} (ha : Shows (r :: l) a tag taken) : r.start ≤ a := by
  have hr := h.nonempty r List.mem_cons_self
  rcases (shows_cons r l a tag taken).1 ha with hra | hl
  · exact hra.1.1
  · have := h.stop_le_of_shows hl
    omega

theorem Ordered.shows_tail_iff {r : HeapRange} {l : List HeapRange} (h : Ordered (r :: l)) (a : Nat)
    (tag : MemoryTag) (taken : Bool) : Shows l a tag taken ↔ r.stop ≤ a ∧ Shows (r :: l) a tag taken := by
  rw [shows_cons]
  constructor
  · exact fun hl => ⟨h.stop_le_of_shows hl, .inr hl⟩
  · rintro ⟨hle, hra | hl⟩
    · exact absurd hra.1.2 (Nat.not_lt.2 hle)
    · exact hl

/-- **A stretch goes on as far as it could**: behind it something else is shown, or nothing. -/
theorem Sound.not_shows_stop {r : HeapRange} {l : List HeapRange} (h : Sound (r :: l)) :
    ¬Shows (r :: l) r.stop r.tag r.taken := by
  intro hshows
  cases l with
  | nil =>
    obtain hra | hl := (shows_cons r [] _ _ _).1 hshows
    · exact absurd hra.1.2 (Nat.lt_irrefl _)
    · exact shows_nil _ _ _ hl
  | cons s l =>
    have htail := (h.toOrdered.shows_tail_iff _ _ _).2 ⟨Nat.le_refl _, hshows⟩
    have htouch : r.stop = s.start := Nat.le_antisymm
      (List.rel_of_pairwise_cons h.sorted List.mem_cons_self) (h.toOrdered.tail.start_le_of_shows htail)
    have hs := h.nonempty s (List.mem_cons_of_mem _ List.mem_cons_self)
    obtain hsa | hl := (shows_cons s l _ _ _).1 htail
    · refine (List.isChain_cons_cons.1 h.merged).1 ⟨htouch, ?_⟩
      rw [alike_iff]
      exact ⟨hsa.2.1.symm, hsa.2.2.symm⟩
    · have := h.toOrdered.tail.stop_le_of_shows hl
      omega

theorem Sound.tail {r : HeapRange} {l : List HeapRange} (h : Sound (r :: l)) : Sound l :=
  ⟨h.toOrdered.tail, h.merged.tail⟩

/-! ## Lists that show the same -/

section
variable {r s : HeapRange} {l l' : List HeapRange}

theorem start_le_of_shows_imp (h : Ordered (r :: l)) (h' : Ordered (s :: l'))
    (himp : ∀ a tag taken, Shows (s :: l') a tag taken → Shows (r :: l) a tag taken) : r.start ≤ s.start :=
  h.start_le_of_shows (himp _ _ _ h'.shows_head)

theorem alike_of_shows_imp (h : Ordered (r :: l)) (h' : Ordered (s :: l')) (hstart : r.start = s.start)
    (himp : ∀ a tag taken, Shows (s :: l') a tag taken → Shows (r :: l) a tag taken) :
    r.tag = s.tag ∧ r.taken = s.taken := by
  have hr := h.nonempty r List.mem_cons_self
  obtain hra | hl := (shows_cons r l _ _ _).1 (himp _ _ _ h'.shows_head)
  · exact hra.2
  · have := h.stop_le_of_shows hl
    omega

/-- Were the second head longer, the first list would show more of the same behind its own head. -/
theorem stop_le_of_shows_imp (h : Sound (r :: l)) (hstart : r.start = s.start)
    (halike : r.tag = s.tag ∧ r.taken = s.taken)
    (himp : ∀ a tag taken, Shows (s :: l') a tag taken → Shows (r :: l) a tag taken) : s.stop ≤ r.stop := by
  by_contra hlt
  have hr := h.nonempty r List.mem_cons_self
  have hshows : Shows (s :: l') r.stop s.tag s.taken := ⟨s, List.mem_cons_self, ⟨by omega, by omega⟩, rfl, rfl⟩
  apply h.not_shows_stop
  rw [halike.1, halike.2]
  exact himp _ _ _ hshows

theorem head_eq_of_shows (h : Sound (r :: l)) (h' : Sound (s :: l'))
    (heq : ∀ a tag taken, Shows (r :: l) a tag taken ↔ Shows (s :: l') a tag taken) : r = s := by
  have himp a tag taken := (heq a tag taken).1
  have himp' a tag taken := (heq a tag taken).2
  have hstart : r.start = s.start := Nat.le_antisymm (start_le_of_shows_imp h.toOrdered h'.toOrdered himp')
    (start_le_of_shows_imp h'.toOrdered h.toOrdered himp)
  have halike := alike_of_shows_imp h.toOrdered h'.toOrdered hstart himp'
  have hstop : r.stop = s.stop := Nat.le_antisymm
    (stop_le_of_shows_imp h' hstart.symm ⟨halike.1.symm, halike.2.symm⟩ himp)
    (stop_le_of_shows_imp h hstart halike himp')
  cases r
  cases s
  simp_all only

end

/-- **Sound lists that show the same are equal.** -/
theorem Sound.eq_of_shows : ∀ {l l' : List HeapRange}, Sound l → Sound l' →
    (∀ a tag taken, Shows l a tag taken ↔ Shows l' a tag taken) → l = l'
  | [], [], _, _, _ => rfl
  | [], _ :: _, _, h', heq => absurd ((heq _ _ _).2 h'.toOrdered.shows_head) (shows_nil _ _ _)
  | _ :: _, [], h, _, heq => absurd ((heq _ _ _).1 h.toOrdered.shows_head) (shows_nil _ _ _)
  | r :: l, s :: l', h, h', heq => by
    obtain rfl := head_eq_of_shows h h' heq
    congr 1
    apply Sound.eq_of_shows h.tail h'.tail
    intro a tag taken
    rw [h.toOrdered.shows_tail_iff, h'.toOrdered.shows_tail_iff, heq]

/-! ## The two sides of an extraction -/

/-- **Below addresses taken from `start` on**: what is left there, and where the taken stretch starts. -/
def below (front : List HeapRange) (r : HeapRange) (start : Nat) : List HeapRange × Nat :=
  if start = r.start then
    match front.getLast? with
    | some prev => if prev.stop = r.start ∧ prev.absorbs r = true then (front.dropLast, prev.start) else (front, start)
    | none => (front, start)
  else (front ++ [{ r with stop := start }], start)

/-- **Above addresses taken up to `stop`**: where the taken stretch ends, and what is left there. -/
def above (r : HeapRange) (back : List HeapRange) (stop : Nat) : Nat × List HeapRange :=
  if stop = r.stop then
    match back with
    | next :: rest => if next.start = r.stop ∧ next.absorbs r = true then (next.stop, rest) else (stop, back)
    | [] => (stop, [])
  else (stop, { r with start := stop } :: back)

theorem joinNext_cons (q : HeapRange) (l : List HeapRange) (pos : Nat) :
    joinNext (q :: l) (pos + 1) = q :: joinNext l pos := by
  unfold joinNext
  rw [List.getElem?_cons_succ]
  cases l[pos + 1]? with
  | none => rfl
  | some next => rfl

/-- An extraction reaches no further than one stretch down. -/
theorem extract_cons (q : HeapRange) (l : List HeapRange) (pos start stop : Nat) :
    extract (q :: l) (pos + 2) start stop = q :: extract l (pos + 1) start stop := by
  unfold extract
  rw [List.getElem?_cons_succ]
  cases l[pos + 1]? with
  | none => rfl
  | some r =>
    simp only [List.getElem?_cons_succ, List.modify_succ_cons, List.insertIdx_succ_cons, joinNext_cons,
      Nat.succ_pos, decide_true, Bool.true_and, Nat.add_one_sub_one]
    split_ifs <;> simp only [joinNext_cons, List.modify_succ_cons]

theorem extract_append (r : HeapRange) (l : List HeapRange) (start stop : Nat) : ∀ front : List HeapRange,
    extract (front ++ r :: l) (front.length + 1) start stop = front ++ extract (r :: l) 1 start stop
  | [] => rfl
  | q :: front => by
    rw [List.cons_append, List.length_cons, extract_cons, extract_append r l start stop front, List.cons_append]

section
variable {r : HeapRange} (hfree : r.taken = false)
include hfree

theorem extract_first (back : List HeapRange) (start stop : Nat) : extract (r :: back) 0 start stop =
    (below [] r start).1 ++ ⟨(below [] r start).2, (above r back stop).1, r.tag, true⟩ :: (above r back stop).2 := by
  by_cases hbottom : start = r.start <;> by_cases htop : stop = r.stop <;> cases back with
  | nil => simp [extract, below, above, hbottom, htop, hfree]
  | cons next rest =>
    by_cases hnext : next.start = r.stop ∧ next.tag = r.tag ∧ next.taken = true <;>
      simp [extract, below, above, joinNext, hbottom, htop, hfree, HeapRange.absorbs, hnext]

theorem extract_second (prev : HeapRange) (back : List HeapRange) (start stop : Nat) :
    extract (prev :: r :: back) 1 start stop = (below [prev] r start).1 ++
      ⟨(below [prev] r start).2, (above r back stop).1, r.tag, true⟩ :: (above r back stop).2 := by
  by_cases hbottom : start = r.start <;> by_cases htop : stop = r.stop <;> cases back with
  | nil =>
    by_cases hprev : prev.stop = r.start ∧ prev.tag = r.tag ∧ prev.taken = true <;>
      simp [extract, below, above, joinNext, hbottom, htop, hfree, HeapRange.absorbs, hprev]
  | cons next rest =>
    by_cases hprev : prev.stop = r.start ∧ prev.tag = r.tag ∧ prev.taken = true <;>
      by_cases hnext : next.start = r.stop ∧ next.tag = r.tag ∧ next.taken = true <;>
      simp [extract, below, above, joinNext, hbottom, htop, hfree, HeapRange.absorbs, hprev, hnext]

/-- **What an extraction leaves, side by side.** -/
theorem extract_eq (front back : List HeapRange) (start stop : Nat) :
    extract (front ++ r :: back) front.length start stop = (below front r start).1 ++
      ⟨(below front r start).2, (above r back stop).1, r.tag, true⟩ :: (above r back stop).2 := by
  rcases List.eq_nil_or_concat front with rfl | ⟨rest, prev, rfl⟩
  · exact extract_first hfree back start stop
  · rw [List.concat_eq_append]
    have hbelow : below (rest ++ [prev]) r start = (rest ++ (below [prev] r start).1, (below [prev] r start).2) := by
      simp only [below, List.getLast?_concat, List.dropLast_concat, List.getLast?_singleton, List.dropLast_singleton]
      split_ifs <;> simp only [List.append_assoc, List.append_nil]
    rw [hbelow, List.append_assoc, List.singleton_append, List.length_append, List.length_singleton, extract_append,
      extract_second hfree, List.append_assoc]

end

/-! ## Carving and extraction -/

/-- A free stretch with addresses from `start` up to `stop`. -/
def meets (start stop : Nat) (r : HeapRange) : Bool := !r.taken && decide (max r.start start < min r.stop stop)

theorem flatMap_split_eq_self {start stop : Nat} {l : List HeapRange} (h : ∀ q ∈ l, meets start stop q = false) :
    l.flatMap (HeapRange.split start stop) = l := by
  rw [List.flatMap_congr (g := fun q => [q]), List.flatMap_singleton']
  intro q hq
  exact if_neg (Bool.eq_false_iff.1 (h q hq))

/-- What is left of a free stretch below addresses taken from it. -/
def lower (r : HeapRange) (start : Nat) : List HeapRange := if start = r.start then [] else [{ r with stop := start }]

/-- What is left of a free stretch above addresses taken from it. -/
def upper (r : HeapRange) (stop : Nat) : List HeapRange := if stop = r.stop then [] else [{ r with start := stop }]

/-- A taken neighbour absorbs what would be merged with it. -/
theorem merge_below (front : List HeapRange) (r : HeapRange) (start stop : Nat) (l : List HeapRange) :
    merge (front ++ (lower r start ++ ⟨start, stop, r.tag, true⟩ :: l)) =
      merge ((below front r start).1 ++ ⟨(below front r start).2, stop, r.tag, true⟩ :: l) := by
  unfold below lower
  by_cases hbottom : start = r.start
  · rw [if_pos hbottom, if_pos hbottom, List.nil_append]
    rcases List.eq_nil_or_concat front with rfl | ⟨rest, prev, rfl⟩
    · rfl
    · rw [List.concat_eq_append, List.getLast?_concat, List.dropLast_concat]
      dsimp only
      split
      · rename_i hprev
        obtain ⟨htouch, habsorbs⟩ := hprev
        rw [HeapRange.absorbs, Bool.and_eq_true, beq_iff_eq] at habsorbs
        have hjoin := merge_cons_join (r := prev) (q := ⟨start, stop, r.tag, true⟩) (htouch.trans hbottom.symm)
          ((alike_iff _ _).2 habsorbs) l
        rw [List.append_assoc, List.singleton_append, merge_append_congr hjoin, habsorbs.1, habsorbs.2]
      · rfl
  · rw [if_neg hbottom, if_neg hbottom, List.append_assoc]

theorem merge_above (r : HeapRange) (back : List HeapRange) (start stop : Nat) :
    merge (⟨start, stop, r.tag, true⟩ :: (upper r stop ++ back)) =
      merge (⟨start, (above r back stop).1, r.tag, true⟩ :: (above r back stop).2) := by
  unfold above upper
  by_cases htop : stop = r.stop
  · rw [if_pos htop, if_pos htop, List.nil_append]
    cases back with
    | nil => rfl
    | cons next rest =>
      dsimp only
      split
      · rename_i hnext
        obtain ⟨htouch, habsorbs⟩ := hnext
        rw [HeapRange.absorbs, Bool.and_eq_true, beq_iff_eq] at habsorbs
        exact merge_cons_join (r := ⟨start, stop, r.tag, true⟩) (htop.trans htouch.symm)
          ((alike_iff _ _).2 ⟨habsorbs.1.symm, habsorbs.2.symm⟩) rest
      · rfl
  · rw [if_neg htop, if_neg htop, List.singleton_append]

/-- What stands in front of a stretch is apart also from one that starts where it does and is alike. -/
theorem isChain_concat_congr {front : List HeapRange} {r s : HeapRange} (h : (front ++ [r]).IsChain HeapRange.Apart)
    (hstart : s.start = r.start) (htag : s.tag = r.tag) (htaken : s.taken = r.taken) :
    (front ++ [s]).IsChain HeapRange.Apart := by
  obtain ⟨hfront, -, hlast⟩ := List.isChain_append.1 h
  refine List.isChain_append.2 ⟨hfront, .singleton s, fun q hq t ht => ?_⟩
  cases Option.mem_some.1 ht
  have happart := hlast q hq r rfl
  unfold HeapRange.Apart at happart ⊢
  rw [alike_iff] at happart ⊢
  rw [hstart, htag, htaken]
  exact happart

theorem isChain_cons_congr {back : List HeapRange} {r s : HeapRange} (h : (r :: back).IsChain HeapRange.Apart)
    (hstop : s.stop = r.stop) (htag : s.tag = r.tag) (htaken : s.taken = r.taken) :
    (s :: back).IsChain HeapRange.Apart := by
  cases back with
  | nil => exact .singleton s
  | cons next rest =>
    obtain ⟨happart, hrest⟩ := List.isChain_cons_cons.1 h
    refine List.isChain_cons_cons.2 ⟨?_, hrest⟩
    unfold HeapRange.Apart at happart ⊢
    rw [alike_iff] at happart ⊢
    rw [hstop, htag, htaken]
    exact happart

section
variable {r : HeapRange} (hfree : r.taken = false)
include hfree

/-- **Below, an extraction leaves nothing to merge.** -/
theorem isChain_below {front : List HeapRange} (start stop : Nat) (h : (front ++ [r]).IsChain HeapRange.Apart) :
    ((below front r start).1 ++ [(⟨(below front r start).2, stop, r.tag, true⟩ : HeapRange)]).IsChain
      HeapRange.Apart := by
  unfold below
  by_cases hbottom : start = r.start
  · rw [if_pos hbottom]
    rcases List.eq_nil_or_concat front with rfl | ⟨rest, prev, rfl⟩
    · exact .singleton _
    · rw [List.concat_eq_append, List.getLast?_concat, List.dropLast_concat]
      dsimp only
      rw [List.concat_eq_append, List.append_assoc, List.singleton_append, List.isChain_append_cons_cons] at h
      split
      · rename_i hprev
        rw [HeapRange.absorbs, Bool.and_eq_true, beq_iff_eq] at hprev
        exact isChain_concat_congr h.1 rfl hprev.2.1.symm hprev.2.2.symm
      · rename_i hprev
        rw [List.append_assoc, List.singleton_append, List.isChain_append_cons_cons]
        refine ⟨h.1, fun hjoin => hprev ?_, .singleton _⟩
        rw [alike_iff] at hjoin
        rw [HeapRange.absorbs, Bool.and_eq_true, beq_iff_eq]
        exact ⟨hjoin.1.trans hbottom, hjoin.2⟩
  · rw [if_neg hbottom, List.append_assoc, List.singleton_append, List.isChain_append_cons_cons]
    refine ⟨isChain_concat_congr h rfl rfl rfl, fun hjoin => ?_, .singleton _⟩
    rw [alike_iff, hfree] at hjoin
    exact Bool.noConfusion hjoin.2.2

/-- **Above, an extraction leaves nothing to merge.** -/
theorem isChain_above {back : List HeapRange} (start stop : Nat) (h : (r :: back).IsChain HeapRange.Apart) :
    ((⟨start, (above r back stop).1, r.tag, true⟩ : HeapRange) :: (above r back stop).2).IsChain HeapRange.Apart := by
  unfold above
  by_cases htop : stop = r.stop
  · rw [if_pos htop]
    cases back with
    | nil => exact .singleton _
    | cons next rest =>
      obtain ⟨-, hrest⟩ := List.isChain_cons_cons.1 h
      dsimp only
      split
      · rename_i hnext
        rw [HeapRange.absorbs, Bool.and_eq_true, beq_iff_eq] at hnext
        exact isChain_cons_congr hrest rfl hnext.2.1.symm hnext.2.2.symm
      · rename_i hnext
        refine List.isChain_cons_cons.2 ⟨fun hjoin => hnext ?_, hrest⟩
        rw [alike_iff] at hjoin
        rw [HeapRange.absorbs, Bool.and_eq_true, beq_iff_eq]
        exact ⟨hjoin.1.symm.trans htop, hjoin.2.1.symm, hjoin.2.2.symm⟩
  · rw [if_neg htop]
    refine List.isChain_cons_cons.2 ⟨fun hjoin => ?_, isChain_cons_congr h rfl rfl rfl⟩
    rw [alike_iff, hfree] at hjoin
    exact Bool.noConfusion hjoin.2.2

/-- The parts of the one stretch that holds the span, and the others as they are. -/
theorem flatMap_split {front back : List HeapRange} (h : Ordered (front ++ r :: back)) {start stop : Nat}
    (hstart : r.start ≤ start) (hlt : start < stop) (hstop : stop ≤ r.stop) :
    (front ++ r :: back).flatMap (HeapRange.split start stop) =
      front ++ (lower r start ++ ⟨start, stop, r.tag, true⟩ :: (upper r stop ++ back)) := by
  have hapart (q : HeapRange) (hq : q.stop ≤ start ∨ stop ≤ q.start) : meets start stop q = false := by
    rw [meets, Bool.and_eq_false_imp, decide_eq_false_iff_not]
    omega
  have hr : r.split start stop = lower r start ++ ⟨start, stop, r.tag, true⟩ :: upper r stop := by
    have hlow : (r.start < start) ↔ start ≠ r.start := by omega
    have hhigh : (stop < r.stop) ↔ stop ≠ r.stop := by omega
    unfold HeapRange.split lower upper
    rw [Nat.max_eq_right hstart, Nat.min_eq_right hstop, hfree]
    simp only [Bool.not_false, Bool.true_and, hlt, decide_true, if_true, List.filter_cons, List.filter_nil, hlow, hhigh]
    by_cases hbottom : start = r.start <;> by_cases htop : stop = r.stop <;> simp [hbottom, htop]
  obtain ⟨-, hback, hfront⟩ := List.pairwise_append.1 h.sorted
  rw [List.flatMap_append, List.flatMap_cons, hr, flatMap_split_eq_self, flatMap_split_eq_self, List.append_assoc,
    List.cons_append]
  · intro q hq
    have := List.rel_of_pairwise_cons hback hq
    exact hapart q (by omega)
  · intro q hq
    have := hfront q hq r List.mem_cons_self
    exact hapart q (by omega)

/-- **An extraction from a sound list does what splitting and merging the whole list does.** -/
theorem extract_eq_carve {front back : List HeapRange} (h : Sound (front ++ r :: back)) {start stop : Nat}
    (hstart : r.start ≤ start) (hlt : start < stop) (hstop : stop ≤ r.stop) :
    extract (front ++ r :: back) front.length start stop = carve start stop (front ++ r :: back) := by
  obtain ⟨hfront, hback⟩ := List.isChain_split.1 h.merged
  have hmerged := List.isChain_split.2 ⟨isChain_below hfree start (above r back stop).1 hfront,
    isChain_above hfree (below front r start).2 stop hback⟩
  rw [extract_eq hfree, carve, flatMap_split hfree h.toOrdered hstart hlt hstop, merge_below,
    merge_append_congr (merge_above r back _ stop), merge_eq_self hmerged]

end

/-! ## Rounds -/

variable {start stop : Nat}

/-- **Every extraction leaves one stretch less to take from.** -/
theorem countP_extract (front back : List HeapRange) {r : HeapRange} (hr : meets start stop r = true) :
    (extract (front ++ r :: back) front.length (max r.start start) (min r.stop stop)).countP (meets start stop) <
      (front ++ r :: back).countP (meets start stop) := by
  have hfree : r.taken = false := by
    unfold meets at hr
    rw [Bool.and_eq_true, Bool.not_eq_true'] at hr
    exact hr.1
  have hbelow : (below front r (max r.start start)).1.countP (meets start stop) ≤ front.countP (meets start stop) := by
    unfold below
    split
    · split
      · split
        · exact (List.dropLast_sublist front).countP_le
        · exact Nat.le_refl _
      · exact Nat.le_refl _
    · rw [List.countP_append, List.countP_singleton, if_neg, Nat.add_zero]
      simp only [meets, Bool.and_eq_true, decide_eq_true_eq]
      omega
  have habove : (above r back (min r.stop stop)).2.countP (meets start stop) ≤ back.countP (meets start stop) := by
    unfold above
    split
    · split
      · split
        · exact (List.sublist_cons_self _ _).countP_le
        · exact Nat.le_refl _
      · exact Nat.le_refl _
    · rw [List.countP_cons, if_neg, Nat.add_zero]
      simp only [meets, Bool.and_eq_true, decide_eq_true_eq]
      omega
  have hpiece (lo hi : Nat) : meets start stop ⟨lo, hi, r.tag, true⟩ = false := rfl
  rw [extract_eq hfree, List.countP_append, List.countP_append, List.countP_cons, List.countP_cons, hpiece, hr]
  simp only [Bool.false_eq_true, if_false, if_true]
  omega

theorem firstMeeting?_eq_some : ∀ {l : List HeapRange} {pos i lo hi : Nat},
    firstMeeting? start stop pos l = some (i, lo, hi) → ∃ front r back, l = front ++ r :: back ∧
      i = pos + front.length ∧ meets start stop r = true ∧ lo = max r.start start ∧ hi = min r.stop stop
  | r :: rest, pos, i, lo, hi, h => by
    unfold firstMeeting? at h
    dsimp only at h
    split at h
    · rename_i hmeets
      cases h
      exact ⟨[], r, rest, rfl, rfl, hmeets, rfl, rfl⟩
    · obtain ⟨front, s, back, rfl, hi, hs⟩ := firstMeeting?_eq_some h
      refine ⟨r :: front, s, back, rfl, ?_, hs⟩
      rw [List.length_cons]
      omega

theorem firstMeeting?_eq_none : ∀ {l : List HeapRange} {pos : Nat}, firstMeeting? start stop pos l = none →
    ∀ r ∈ l, meets start stop r = false
  | [], _, _ => nofun
  | r :: rest, pos, h => by
    unfold firstMeeting? at h
    dsimp only at h
    split at h
    · cases h
    · rename_i hmeets
      exact List.forall_mem_cons.2 ⟨Bool.eq_false_iff.2 hmeets, firstMeeting?_eq_none h⟩

theorem carve_eq_self {l : List HeapRange} (h : Sound l) (hnone : ∀ r ∈ l, meets start stop r = false) :
    carve start stop l = l := by
  rw [carve, flatMap_split_eq_self hnone, merge_eq_self h.merged]

/-- Carving a span after a part of it is carving the span. -/
theorem carve_carve {l : List HeapRange} (h : Ordered l) {lo hi : Nat} (hlo : start ≤ lo) (hhi : hi ≤ stop) :
    carve start stop (carve lo hi l) = carve start stop l := by
  have hordered := (sound_carve h lo hi).toOrdered
  apply (sound_carve hordered start stop).eq_of_shows (sound_carve h start stop)
  intro a tag taken
  have hpart : Covers (lo, hi) a → Covers (start, stop) a := by
    unfold Covers
    omega
  have hcovers (was : Bool) : (was || decide (Covers (lo, hi) a) || decide (Covers (start, stop) a)) =
      (was || decide (Covers (start, stop) a)) := by
    rw [Bool.or_assoc, ← Bool.decide_or, decide_eq_decide.2 (or_iff_right_of_imp hpart)]
  rw [shows_carve hordered, shows_carve h]
  simp only [shows_carve h]
  constructor
  · rintro ⟨_, ⟨was, hwas, rfl⟩, rfl⟩
    exact ⟨was, hwas, (hcovers was).symm⟩
  · rintro ⟨was, hwas, rfl⟩
    exact ⟨_, ⟨was, hwas, rfl⟩, hcovers was⟩

/-- **Rounds enough end in the list carved at once.** -/
theorem reserveFrom_eq_carve : ∀ (rounds : Nat) {l : List HeapRange}, Sound l →
    l.countP (meets start stop) ≤ rounds → reserveFrom start stop rounds l = carve start stop l
  | 0, l, h, hcount => by
    have hnone : ∀ r ∈ l, ¬meets start stop r = true := List.countP_eq_zero.1 (Nat.le_zero.1 hcount)
    exact (carve_eq_self h fun r hr => Bool.eq_false_iff.2 (hnone r hr)).symm
  | rounds + 1, l, h, hcount => by
    unfold reserveFrom
    split
    · rename_i hmeeting
      exact (carve_eq_self h (firstMeeting?_eq_none hmeeting)).symm
    · rename_i pos lo hi hmeeting
      obtain ⟨front, r, back, rfl, rfl, hr, rfl, rfl⟩ := firstMeeting?_eq_some hmeeting
      have hless := countP_extract front back hr
      unfold meets at hr
      rw [Bool.and_eq_true, Bool.not_eq_true', decide_eq_true_eq] at hr
      have hcarve := extract_eq_carve hr.1 h (Nat.le_max_left _ start) hr.2 (Nat.min_le_left _ stop)
      rw [Nat.zero_add] 
      rw [hcarve] at hless ⊢
      rw [reserveFrom_eq_carve rounds (sound_carve h.toOrdered _ _) (by omega),
        carve_carve h.toOrdered (Nat.le_max_right _ _) (Nat.min_le_right _ _)]

section
variable {m : MemoryMap} (h : Sound m.ranges)
include h

/-- **Reserving a span is carving it.** -/
theorem reserve_ranges (start stop : Nat) : (m.reserve start stop).ranges = carve start stop m.ranges :=
  reserveFrom_eq_carve _ h List.countP_le_length

theorem sound_reserve (start stop : Nat) : Sound (m.reserve start stop).ranges := by
  rw [reserve_ranges h]
  exact sound_carve h.toOrdered start stop

/-- **Reserving takes the addresses of the span**, and changes nothing else. -/
theorem shows_reserve (start stop a : Nat) (tag : MemoryTag) (taken : Bool) :
    Shows (m.reserve start stop).ranges a tag taken ↔
      ∃ was, Shows m.ranges a tag was ∧ (was || decide (Covers (start, stop) a)) = taken := by
  rw [reserve_ranges h]
  exact shows_carve h.toOrdered start stop a tag taken

end

end MemoryMap

end CodeImage

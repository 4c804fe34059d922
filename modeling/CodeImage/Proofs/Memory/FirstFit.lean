import CodeImage.Memory.Words
import CodeImage.Proofs.Memory.History
/-!
# FirstFit — allocation finds room wherever there is some

`Fits` says that bytes may lie at an address of a stretch.  Rounding gives the nearest aligned point in either direction
(`alignUp_le`, `le_alignDown`), so a stretch in which anything fits is not passed over and the lowest or highest fit is
taken (`fitIn?_of_fits`).  In words the search is the same and no subtraction goes below zero (`Word.fitIn?_eq`).
-/
namespace CodeImage

namespace MemoryMap

/-! ## Rounding -/

theorem le_alignUp (x alignment : Nat) : x ≤ alignUp x alignment := by
  unfold alignUp
  split <;> omega

/-- **Rounding up gives the least aligned number above.** -/
theorem alignUp_le {x y alignment : Nat} (hxy : x ≤ y) (hy : Aligned y alignment) : alignUp x alignment ≤ y := by
  unfold alignUp
  split
  · exact hxy
  · rename_i hround
    obtain ⟨k, rfl⟩ := hy.resolve_left fun hle => hround (.inl hle)
    have hsplit := Nat.div_add_mod x alignment
    have hpos : 0 < alignment := by omega
    have hk : x / alignment < k := by
      apply Nat.lt_of_mul_lt_mul_left (a := alignment)
      omega
    have hnext : alignment * (x / alignment + 1) ≤ alignment * k := Nat.mul_le_mul_left _ hk
    rw [Nat.mul_add, Nat.mul_one] at hnext
    have := Nat.mod_lt x hpos
    omega

theorem alignDown_le (x alignment : Nat) : alignDown x alignment ≤ x := by
  unfold alignDown
  split <;> omega

/-- **Rounding down gives the greatest aligned number below.** -/
theorem le_alignDown {x y alignment : Nat} (hyx : y ≤ x) (hy : Aligned y alignment) : y ≤ alignDown x alignment := by
  unfold alignDown
  split
  · exact hyx
  · rename_i hround
    obtain ⟨k, rfl⟩ := hy.resolve_left hround
    have hsplit := Nat.div_add_mod x alignment
    have hk : k ≤ x / alignment := (Nat.le_div_iff_mul_le (by omega)).2 (by rw [Nat.mul_comm]; exact hyx)
    have := Nat.mul_le_mul_left alignment hk
    omega

/-! ## One stretch -/

/-- **`size` bytes may lie at `a` in a stretch**: it is free, the placement accepts it, it holds them, and the address
`point` bytes behind their start is aligned. -/
structure Fits (size point : Nat) (p : Placement) (r : HeapRange) (a : Nat) : Prop where
  free : r.taken = false
  accepts : p.accepts r.tag = true
  start_le : r.start ≤ a
  le_stop : a + size ≤ r.stop
  aligned : Aligned (a + point) p.alignment

/-- Of two addresses the placement asks for the first: the lower, or the higher. -/
def Prefers (p : Placement) (a b : Nat) : Prop := if p.fromHigh then b ≤ a else a ≤ b

variable {size point : Nat} {p : Placement} {r : HeapRange} {a b : Nat}

/-- **Where anything fits, room is found**, and nothing that fits would be preferred to it. -/
theorem fitIn?_of_fits (hword : r.stop < wordLimit) (hp : point ≤ size) (h : Fits size point p r b) :
    ∃ a, fitIn? size point p r = some a ∧ Prefers p a b := by
  have hstart := h.start_le
  have hstop := h.le_stop
  have hguard : ¬(r.taken || !p.accepts r.tag || decide (r.size < size)) = true := by
    rw [h.free, h.accepts, HeapRange.size]
    simp only [Bool.not_true, Bool.or_self, Bool.false_or, decide_eq_true_eq]
    omega
  unfold fitIn? Prefers
  rw [if_neg hguard]
  cases p.fromHigh with
  | true =>
    have hle := alignDown_le (r.stop - (size - point)) p.alignment
    have hge := le_alignDown (show b + point ≤ r.stop - (size - point) by omega) h.aligned
    refine ⟨alignDown (r.stop - (size - point)) p.alignment - point, ?_, ?_⟩
    · simp only [if_true]
      rw [if_pos (by simp only [Bool.and_eq_true, decide_eq_true_eq]; omega)]
    · simp only [if_true]
      omega
  | false =>
    have hge := le_alignUp (r.start + point) p.alignment
    have hle := alignUp_le (show r.start + point ≤ b + point by omega) h.aligned
    refine ⟨alignUp (r.start + point) p.alignment - point, ?_, ?_⟩
    · simp only [Bool.false_eq_true, if_false]
      rw [if_pos (by simp only [Bool.and_eq_true, decide_eq_true_eq]; omega)]
    · simp only [Bool.false_eq_true, if_false]
      omega

theorem fits_of_fitIn? (hp : point ≤ size) (h : fitIn? size point p r = some a) : Fits size point p r a := by
  obtain ⟨hfree, haccepts, hstart, hstop, -, haligned⟩ := fitIn?_spec hp h
  exact ⟨hfree, haccepts, hstart, hstop, haligned⟩

theorem prefers_of_fitIn? (hword : r.stop < wordLimit) (hp : point ≤ size) (h : fitIn? size point p r = some a)
    (hb : Fits size point p r b) : Prefers p a b := by
  obtain ⟨a', ha', hprefers⟩ := fitIn?_of_fits hword hp hb
  cases h.symm.trans ha'
  exact hprefers

theorem fitIn?_eq_none_iff (hword : r.stop < wordLimit) (hp : point ≤ size) :
    fitIn? size point p r = none ↔ ∀ a, ¬Fits size point p r a := by
  constructor
  · intro h a ha
    obtain ⟨a', ha', -⟩ := fitIn?_of_fits hword hp ha
    rw [h] at ha'
    cases ha'
  · intro h
    cases hfit : fitIn? size point p r with
    | none => rfl
    | some a => exact absurd (fits_of_fitIn? hp hfit) (h a)

/-! ## All stretches -/

/-- **The first fit of a map**: the preferred fit of the lowest stretch in which anything fits. -/
def FirstFit (m : MemoryMap) (size point : Nat) (p : Placement) (a : Nat) : Prop :=
  ∃ r ∈ m.ranges, Fits size point p r a ∧ (∀ b, Fits size point p r b → Prefers p a b) ∧
    ∀ q ∈ m.ranges, ∀ b, Fits size point p q b → r.start ≤ q.start

variable {m m' : MemoryMap} {offset : Nat}

/-- **A sound map of words.** -/
structure InWords (m : MemoryMap) : Prop where
  sound : Sound m.ranges
  stop_lt : ∀ r ∈ m.ranges, r.stop < wordLimit

theorem allocate_of_pos (hsize : 0 < size) (hp : offset + p.alignmentOffset ≤ size) :
    m.allocate size offset p = (firstFit? size (offset + p.alignmentOffset) p 0 m.ranges).map
      fun found => (found.2, ⟨extract m.ranges found.1 found.2 (found.2 + size)⟩) := by
  unfold allocate
  dsimp only
  rw [if_neg (by omega)]

theorem allocate_eq_none (h : size = 0 ∨ size < offset + p.alignmentOffset) : m.allocate size offset p = none := by
  unfold allocate
  dsimp only
  rw [if_pos h]

theorem firstFit?_eq_none_iff : ∀ {l : List HeapRange} {pos : Nat},
    firstFit? size point p pos l = none ↔ ∀ r ∈ l, fitIn? size point p r = none
  | [], _ => ⟨fun _ => nofun, fun _ => rfl⟩
  | r :: rest, pos => by
    rw [firstFit?, List.forall_mem_cons]
    cases fitIn? size point p r with
    | some a => simp only [reduceCtorEq, false_and]
    | none => simp only [true_and, firstFit?_eq_none_iff]

/-- **Allocation fails only where nothing fits.** -/
theorem allocate_eq_none_iff (hm : InWords m) (hsize : 0 < size) (hp : offset + p.alignmentOffset ≤ size) :
    m.allocate size offset p = none ↔ ∀ r ∈ m.ranges, ∀ a, ¬Fits size (offset + p.alignmentOffset) p r a := by
  rw [allocate_of_pos hsize hp, Option.map_eq_none_iff, firstFit?_eq_none_iff]
  exact forall₂_congr fun r hr => fitIn?_eq_none_iff (hm.stop_lt r hr) hp

/-- **Allocation takes the first fit.** -/
theorem firstFit_of_allocate (hm : InWords m) (hp : offset + p.alignmentOffset ≤ size)
    (h : m.allocate size offset p = some (a, m')) : FirstFit m size (offset + p.alignmentOffset) p a := by
  obtain ⟨-, -, -, front, r, back, hsplit, -, hfit, hfront, -⟩ := allocate_eq_some h
  have hmem : ∀ q ∈ front ++ r :: back, q ∈ m.ranges := fun q hq => hsplit.symm ▸ hq
  have hr : r ∈ m.ranges := hmem r (List.mem_append_right _ List.mem_cons_self)
  refine ⟨r, hr, fits_of_fitIn? hp hfit, fun b hb => prefers_of_fitIn? (hm.stop_lt r hr) hp hfit hb, fun q hq b hb => ?_⟩
  -- nothing fits in front of `r`, and what is behind it starts behind its end
  have hsorted := hm.sound.sorted
  have hword := hm.stop_lt q hq
  rw [hsplit] at hq hsorted
  rcases List.mem_append.1 hq with hq | hq
  · exact absurd hb ((fitIn?_eq_none_iff hword hp).1 (hfront q hq) b)
  · rcases List.mem_cons.1 hq with rfl | hq
    · exact Nat.le_refl _
    · have hnext := List.rel_of_pairwise_cons (List.pairwise_append.1 hsorted).2.1 hq
      have hfilled := hm.sound.nonempty r hr
      omega

end MemoryMap

/-! ## Arithmetic on words -/

namespace Word

variable {size point tail : Nat} {p : Placement} {r : HeapRange}

theorem sub_of_le {x y : Nat} (h : y ≤ x) : sub x y = .ok (x - y) := if_pos h

theorem add?_of_lt {x y : Nat} (h : x + y < wordLimit) : add? x y = some (x + y) := if_pos h

theorem alignUp_eq (alignment : Nat) {x : Nat} (hx : x < wordLimit) : alignUp x alignment =
    .ok (if CodeImage.alignUp x alignment < wordLimit then some (CodeImage.alignUp x alignment) else none) := by
  unfold alignUp CodeImage.alignUp
  by_cases hround : alignment ≤ 1 ∨ x % alignment = 0
  · simp only [if_pos hround, if_pos hx]
  · have hlt : x % alignment < alignment := Nat.mod_lt _ (by omega)
    simp only [if_neg hround, sub_of_le (Nat.le_of_lt hlt)]
    rfl

theorem alignDown_eq (x alignment : Nat) : alignDown x alignment = .ok (CodeImage.alignDown x alignment) := by
  unfold alignDown CodeImage.alignDown
  split
  · rfl
  · exact sub_of_le (Nat.mod_le _ _)

/-- **In a stretch with room enough the aligned point is found without underflow.** -/
theorem alignedPoint_eq (hstop : r.stop < wordLimit) (hroom : r.start + size ≤ r.stop) (hp : point ≤ size) :
    ∃ x, x = (if p.fromHigh then CodeImage.alignDown (r.stop - (size - point)) p.alignment
        else CodeImage.alignUp (r.start + point) p.alignment) ∧
      alignedPoint point (size - point) p r = .ok (if x < wordLimit then some x else none) := by
  refine ⟨_, rfl, ?_⟩
  unfold alignedPoint
  cases p.fromHigh with
  | true =>
    have hle := MemoryMap.alignDown_le (r.stop - (size - point)) p.alignment
    simp only [if_true]
    rw [if_pos (by omega), sub_of_le (by omega)]
    exact congrArg (Except.map some) (alignDown_eq _ _)
  | false =>
    simp only [Bool.false_eq_true, if_false]
    rw [add?_of_lt (by omega)]
    exact alignUp_eq _ (by omega)

theorem startAt?_eq (aligned : Nat) : startAt? point tail r aligned =
    if r.start + point ≤ aligned && aligned + tail < wordLimit && aligned + tail ≤ r.stop then some (aligned - point)
    else none := by
  unfold startAt? sub? add?
  by_cases hpoint : point ≤ aligned
  · by_cases htail : aligned + tail < wordLimit
    · simp only [if_pos hpoint, if_pos htail, Option.bind_eq_bind, Option.bind_some]
      congr 3
      rw [decide_eq_true htail, Bool.and_true, decide_eq_decide]
      omega
    · simp only [if_pos hpoint, if_neg htail, Option.bind_eq_bind, Option.bind_some, Option.bind_none]
      rw [decide_eq_false htail, Bool.and_false, Bool.false_and]
      rfl
  · simp only [if_neg hpoint, Option.bind_eq_bind, Option.bind_none]
    rw [if_neg]
    simp only [Bool.and_eq_true, decide_eq_true_eq]
    omega

/-- **In a stretch of words the search in words is the search in numbers.** -/
theorem fitIn?_eq (hr : r.start < r.stop) (hstop : r.stop < wordLimit) (hp : point ≤ size) :
    fitIn? size point (size - point) p r = .ok (MemoryMap.fitIn? size point p r) := by
  unfold fitIn? MemoryMap.fitIn?
  rw [sub_of_le (Nat.le_of_lt hr), HeapRange.size]
  cases r.taken || !p.accepts r.tag with
  | true => rfl
  | false =>
    change (if r.stop - r.start < size then Except.ok none else _) = _
    by_cases hroom : r.stop - r.start < size
    · simp [hroom]
    · obtain ⟨x, hx, haligned⟩ := alignedPoint_eq (p := p) hstop (show r.start + size ≤ r.stop by omega) hp
      rw [if_neg hroom, haligned, ← hx]
      simp only [hroom, decide_false, Bool.or_false, Bool.false_eq_true, if_false]
      by_cases hlt : x < wordLimit
      · rw [if_pos hlt]
        exact congrArg Except.ok (startAt?_eq x)
      · rw [if_neg hlt, if_neg]
        · rfl
        · simp only [Bool.and_eq_true, decide_eq_true_eq]
          omega

theorem firstFit_eq (hp : point ≤ size) : ∀ (pos : Nat) {ranges : List HeapRange},
    (∀ r ∈ ranges, r.start < r.stop ∧ r.stop < wordLimit) →
    firstFit size point (size - point) p pos ranges = .ok (MemoryMap.firstFit? size point p pos ranges)
  | _, [], _ => rfl
  | pos, r :: rest, h => by
    obtain ⟨⟨hr, hstop⟩, hrest⟩ := List.forall_mem_cons.1 h
    rw [firstFit, fitIn?_eq hr hstop hp, MemoryMap.firstFit?]
    cases MemoryMap.fitIn? size point p r with
    | some a => rfl
    | none => exact firstFit_eq hp (pos + 1) hrest

end Word

namespace MemoryMap

/-! ## Maps that can be reached -/

/-- **The maps that can be reached** by making a map of memory whose addresses are words, allotting room, reserving
addresses, and starting over, with any memory. -/
inductive Reachable : MemoryMap → Prop
  | declared {memory : List MemoryRange} (words : ∀ d ∈ memory, d.stop < wordLimit) : Reachable (ofDeclared memory)
  | allocate {m m' : MemoryMap} {size offset a : Nat} {p : Placement} (reached : Reachable m)
      (allotted : m.allocate size offset p = some (a, m')) : Reachable m'
  | reserve {m : MemoryMap} (reached : Reachable m) (start stop : Nat) : Reachable (m.reserve start stop)
  | rebuild {m : MemoryMap} {memory : List MemoryRange} (reached : Reachable m) (words : ∀ d ∈ memory, d.stop < wordLimit)
      (spans : List (Nat × Nat)) : Reachable (MemoryMap.rebuild memory spans)

theorem InWords.ofDeclared {memory : List MemoryRange} (h : ∀ d ∈ memory, d.stop < wordLimit) :
    InWords (ofDeclared memory) := by
  have hsound := sound_ofDeclared memory
  refine ⟨hsound, fun r hr => ?_⟩
  -- the last address of the stretch is declared
  have hfilled := hsound.nonempty r hr
  obtain ⟨d, hd, -, -⟩ := (shows_ofDeclared memory (r.stop - 1) r.tag r.taken).1
    ⟨r, hr, ⟨by omega, by omega⟩, rfl, rfl⟩
  have hcontains := List.find?_some hd
  simp only [MemoryRange.contains, Bool.and_eq_true, decide_eq_true_eq] at hcontains
  have := h d (List.mem_of_find?_eq_some hd)
  omega

theorem InWords.reserve {m : MemoryMap} (h : InWords m) (start stop : Nat) : InWords (m.reserve start stop) := by
  have hsound := sound_reserve h.sound start stop
  refine ⟨hsound, fun r hr => ?_⟩
  have hfilled := hsound.nonempty r hr
  obtain ⟨_, ⟨q, hq, hholds, -⟩, -⟩ := (shows_reserve h.sound start stop (r.stop - 1) r.tag r.taken).1
    ⟨r, hr, ⟨by omega, by omega⟩, rfl, rfl⟩
  have := h.stop_lt q hq
  unfold HeapRange.Holds at hholds
  omega

theorem InWords.reserves : ∀ {m : MemoryMap}, InWords m → ∀ spans : List (Nat × Nat),
    InWords (spans.foldl (fun m s => m.reserve s.1 s.2) m)
  | _, h, [] => h
  | _, h, s :: spans => (h.reserve s.1 s.2).reserves spans

theorem Reachable.inWords {m : MemoryMap} (h : Reachable m) : InWords m := by
  induction h with
  | declared words => exact InWords.ofDeclared words
  | allocate _ allotted ih => exact eq_reserve_of_allocate ih.sound allotted ▸ ih.reserve _ _
  | reserve _ start stop ih => exact ih.reserve start stop
  | rebuild _ words spans _ => exact (InWords.ofDeclared words).reserves (groupSpans spans)

/-- **Allocation in words answers what allocation in numbers answers**, and nothing underflows. -/
theorem InWords.allocateInWords_eq {m : MemoryMap} (h : InWords m) {size : Nat} (hsize : size < wordLimit)
    (offset : Nat) (p : Placement) : m.allocateInWords size offset p = .ok (m.allocate size offset p) := by
  unfold allocateInWords
  by_cases hzero : size = 0
  · rw [if_pos hzero, allocate_eq_none (.inl hzero)]
  · rw [if_neg hzero]
    by_cases hpoint : offset + p.alignmentOffset ≤ size
    · rw [Word.add?_of_lt (by omega)]
      dsimp only
      rw [Word.sub?, if_pos hpoint]
      dsimp only
      rw [Word.firstFit_eq hpoint 0 fun r hr => ⟨h.sound.nonempty r hr, h.stop_lt r hr⟩,
        allocate_of_pos (by omega) hpoint]
      rfl
    · rw [allocate_eq_none (.inr (by omega)), Word.add?]
      split
      · rfl
      · rename_i point hadd
        have : point = offset + p.alignmentOffset := by
          split at hadd
          · exact (Option.some.inj hadd).symm
          · cases hadd
        rw [Word.sub?, if_neg (by omega)]

/-- **Allocation is sound, complete and first-fit.**  In every map that can be reached a request for some bytes, with
the aligned point among them or at their end, fails exactly if it fits nowhere, and is else allotted the lowest address
(the highest, if the placement asks for it) of the lowest stretch in which it fits.  A request for no bytes, or one whose
aligned point is no word or lies behind the bytes, fails.  Nothing underflows in words. -/
theorem allocate_first_fit {m : MemoryMap} (hm : Reachable m) (size : Nat) (hsize : size < wordLimit) (offset : Nat)
    (p : Placement) :
    (0 < size → offset + p.alignmentOffset ≤ size →
      (m.allocate size offset p = none ↔ ∀ r ∈ m.ranges, ∀ a, ¬Fits size (offset + p.alignmentOffset) p r a) ∧
      ∀ a m', m.allocate size offset p = some (a, m') → FirstFit m size (offset + p.alignmentOffset) p a) ∧
    (size = 0 ∨ wordLimit ≤ offset + p.alignmentOffset ∨ size < offset + p.alignmentOffset →
      m.allocate size offset p = none) ∧
    m.allocateInWords size offset p = .ok (m.allocate size offset p) := by
  refine ⟨fun hpos hpoint => ⟨allocate_eq_none_iff hm.inWords hpos hpoint, fun a m' halloc => ?_⟩, fun hbad => ?_,
    hm.inWords.allocateInWords_eq hsize offset p⟩
  · exact firstFit_of_allocate hm.inWords hpoint halloc
  · exact allocate_eq_none (by omega)

/-- A short range, and one up to the last address that a range can end at. -/
def highGround : List MemoryRange :=
  [⟨4294967270, 4294967295, ⟨none, Attribute.ram, Usage.data⟩⟩, ⟨3, 9, ⟨none, Attribute.ram, Usage.data⟩⟩]

/-- An alignment that is no power of two, from high addresses. -/
def downward : Placement := { Placement.simple 7 Usage.data with alignmentOffset := 2, fromHigh := true }

theorem allocate_first_fit_highGround : Reachable (ofDeclared highGround) ∧
    FirstFit (ofDeclared highGround) 8 7 downward 4294967285 ∧
    (∀ r ∈ (ofDeclared highGround).ranges, ∀ a, ¬Fits 25 7 downward r a) ∧
    ∃ m, (ofDeclared highGround).allocateInWords 8 5 downward = .ok (some (4294967285, m)) := by
  have hreached : Reachable (ofDeclared highGround) := .declared (by decide)
  have hmap : ofDeclared highGround = ⟨[⟨3, 9, ⟨none, Attribute.ram, Usage.data⟩, false⟩,
      ⟨4294967270, 4294967295, ⟨none, Attribute.ram, Usage.data⟩, false⟩]⟩ := by cbv
  have hallotted : (ofDeclared highGround).allocate 8 5 downward =
      some (4294967285, (ofDeclared highGround).reserve 4294967285 4294967293) := by
    rw [hmap]
    decide +kernel
  have hfull : (ofDeclared highGround).allocate 25 5 downward = none := by
    rw [hmap]
    decide +kernel
  obtain ⟨hfit, -, hwords⟩ := allocate_first_fit hreached 8 (by decide) 5 downward
  obtain ⟨hnone, -, -⟩ := allocate_first_fit hreached 25 (by decide) 5 downward
  refine ⟨hreached, (hfit (by decide) (by decide)).2 _ _ hallotted, (hnone (by decide) (by decide)).1.1 hfull, ?_⟩
  rw [hwords, hallotted]
  exact ⟨_, rfl⟩

end MemoryMap

end CodeImage

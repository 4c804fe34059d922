import Mathlib.Data.List.Permutation
import CodeImage.Proofs.Memory.Carving
/-!
# History — a memory map over a run of calls

`MapCall` is what a user of a memory map may ask for, `History` a map with what was taken since it was last started
over.  A map `Tracks` the declared memory and the spans taken from it, and every operation keeps it so.  Hence after
any calls the map passes its own check, says of every address what the declarations and the takings say of it, and has
allotted only what nobody had taken (`run_refines_declarations`).
-/
namespace CodeImage

namespace MemoryMap

/-! ## The check -/

theorem pairFault?_eq_none : ∀ {l : List HeapRange}, Sound l → pairFault? l = none
  | [], _ => rfl
  | [_], _ => rfl
  | r :: s :: rest, h => by
    have hchain := List.isChain_cons_cons.1 h.merged
    have hrs : r.stop ≤ s.start := List.rel_of_pairwise_cons h.sorted List.mem_cons_self
    have hrest := pairFault?_eq_none ⟨h.toOrdered.tail, hchain.2⟩
    rw [pairFault?, if_neg (Nat.not_lt.2 hrs), if_neg, hrest]
    rw [Bool.and_eq_true, beq_iff_eq]
    exact hchain.1

theorem fault?_eq_none {m : MemoryMap} (h : Sound m.ranges) : m.fault? = none := by
  have hfind : (m.ranges.find? fun r => r.stop ≤ r.start) = none :=
    List.find?_eq_none.2 fun r hr hle => Nat.not_le.2 (h.nonempty r hr) (of_decide_eq_true hle)
  rw [fault?, hfind]
  exact pairFault?_eq_none h

/-! ## Allocation -/

/-- The address is a multiple of the alignment; alignments of zero and one ask for nothing. -/
def Aligned (x alignment : Nat) : Prop := alignment ≤ 1 ∨ alignment ∣ x

theorem aligned_alignUp (x alignment : Nat) : Aligned (alignUp x alignment) alignment := by
  unfold alignUp
  split
  · rename_i h
    exact h.imp_right Nat.dvd_of_mod_eq_zero
  · rename_i h
    have hlt : x % alignment < alignment := Nat.mod_lt _ (by omega)
    refine .inr ⟨x / alignment + 1, ?_⟩
    have := Nat.div_add_mod x alignment
    rw [Nat.mul_add, Nat.mul_one]
    omega

theorem aligned_alignDown (x alignment : Nat) : Aligned (alignDown x alignment) alignment := by
  unfold alignDown
  split
  · rename_i h
    exact .inl h
  · exact .inr (Nat.dvd_sub_mod x)

/-- **What fits into a stretch lies in it**, aligned at the point asked for. -/
theorem fitIn?_spec {size point a : Nat} {p : Placement} {r : HeapRange} (hp : point ≤ size)
    (h : fitIn? size point p r = some a) : r.taken = false ∧ p.accepts r.tag = true ∧ r.start ≤ a ∧ a + size ≤ r.stop ∧
      a + size < wordLimit ∧ Aligned (a + point) p.alignment := by
  unfold fitIn? at h
  split at h
  · cases h
  · rename_i hguard
    simp only [Bool.or_eq_true, not_or, Bool.not_eq_true, Bool.not_eq_false'] at hguard
    obtain ⟨⟨hfree, haccepts⟩, -⟩ := hguard
    have haligned : Aligned (if p.fromHigh then alignDown (r.stop - (size - point)) p.alignment
        else alignUp (r.start + point) p.alignment) p.alignment := by
      split
      · exact aligned_alignDown _ _
      · exact aligned_alignUp _ _
    revert h haligned
    generalize (if p.fromHigh = true then _ else _) = x
    intro h haligned
    dsimp only at h
    split at h
    · rename_i hfit
      simp only [Bool.and_eq_true, decide_eq_true_eq] at hfit
      cases h
      have hx : x - point + point = x := by omega
      exact ⟨hfree, haccepts, by omega, by omega, by omega, hx.symm ▸ haligned⟩
    · cases h

theorem firstFit?_eq_some {size point : Nat} {p : Placement} : ∀ {l : List HeapRange} {pos i a : Nat},
    firstFit? size point p pos l = some (i, a) → ∃ front r back, l = front ++ r :: back ∧ i = pos + front.length ∧
      fitIn? size point p r = some a ∧ ∀ q ∈ front, fitIn? size point p q = none
  | r :: rest, pos, i, a, h => by
    unfold firstFit? at h
    split at h
    · rename_i hfit
      cases h
      exact ⟨[], r, rest, rfl, rfl, hfit, nofun⟩
    · rename_i hnone
      obtain ⟨front, s, back, rfl, hi, hs, hfront⟩ := firstFit?_eq_some h
      refine ⟨r :: front, s, back, rfl, ?_, hs, List.forall_mem_cons.2 ⟨hnone, hfront⟩⟩
      rw [List.length_cons]
      omega

/-- **An allocation** finds the first stretch with room, and takes of it no more than was asked for. -/
theorem allocate_eq_some {m m' : MemoryMap} {size offset a : Nat} {p : Placement}
    (h : m.allocate size offset p = some (a, m')) :
    0 < size ∧ a + size < wordLimit ∧ Aligned (a + (offset + p.alignmentOffset)) p.alignment ∧ ∃ front r back,
      m.ranges = front ++ r :: back ∧ m' = ⟨extract m.ranges front.length a (a + size)⟩ ∧
        fitIn? size (offset + p.alignmentOffset) p r = some a ∧
        (∀ q ∈ front, fitIn? size (offset + p.alignmentOffset) p q = none) ∧
        r.taken = false ∧ p.accepts r.tag = true ∧ r.start ≤ a ∧ a + size ≤ r.stop := by
  unfold allocate at h
  dsimp only at h
  split at h
  · cases h
  · rename_i hguard
    obtain ⟨⟨pos, b⟩, hfirst, hb⟩ := Option.map_eq_some_iff.1 h
    cases hb
    obtain ⟨front, r, back, hsplit, rfl, hfit, hfront⟩ := firstFit?_eq_some hfirst
    obtain ⟨hfree, haccepts, hstart, hstop, hword, haligned⟩ := fitIn?_spec (by omega) hfit
    refine ⟨by omega, hword, haligned, front, r, back, hsplit, ?_, hfit, hfront, hfree, haccepts, hstart, hstop⟩
    rw [Nat.zero_add]

/-- **What is allotted is reserved.** -/
theorem eq_reserve_of_allocate {m m' : MemoryMap} (hm : Sound m.ranges) {size offset a : Nat} {p : Placement}
    (h : m.allocate size offset p = some (a, m')) : m' = m.reserve a (a + size) := by
  obtain ⟨hpos, -, -, front, r, back, hsplit, rfl, -, -, hfree, -, hstart, hstop⟩ := allocate_eq_some h
  have hreserve := reserve_ranges hm a (a + size)
  rw [hsplit] at hm hreserve ⊢
  rw [extract_eq_carve hfree hm hstart (by omega) hstop, ← hreserve]

/-! ## Starting over -/

theorem covers_join {g s : Nat × Nat} (hgs : g.1 ≤ s.1) (h : s.1 ≤ g.2) (a : Nat) :
    Covers (g.1, max g.2 s.2) a ↔ Covers g a ∨ Covers s a := by
  simp only [Covers]
  omega

theorem covers_go : ∀ (g : Nat × Nat) (l : List (Nat × Nat)), ((g :: l).Pairwise fun s t => s.1 ≤ t.1) → ∀ a,
    (∃ s ∈ groupSpans.go g l, Covers s a) ↔ ∃ s ∈ g :: l, Covers s a
  | _, [], _, _ => Iff.rfl
  | g, s :: rest, hsort, a => by
    have hgs : g.1 ≤ s.1 := List.rel_of_pairwise_cons hsort List.mem_cons_self
    have hrest := hsort.of_cons
    unfold groupSpans.go
    split
    · rename_i hle
      have hg : ((g.1, max g.2 s.2) :: rest).Pairwise fun s t : Nat × Nat => s.1 ≤ t.1 := by
        refine List.pairwise_cons.2 ⟨fun t ht => ?_, hrest.of_cons⟩
        exact List.rel_of_pairwise_cons hsort (List.mem_cons_of_mem _ ht)
      rw [covers_go _ rest hg]
      simp only [List.exists_mem_cons_iff, covers_join hgs hle, or_assoc]
    · rw [List.exists_mem_cons_iff, covers_go s rest hrest, List.exists_mem_cons_iff (l := s :: rest)]

/-- **Joining sorted spans keeps what they cover.** -/
theorem covers_groupSpans {l : List (Nat × Nat)} (hsort : l.Pairwise fun s t => s.1 ≤ t.1) (a : Nat) :
    (∃ s ∈ groupSpans l, Covers s a) ↔ ∃ s ∈ l, Covers s a := by
  cases l with
  | nil => exact Iff.rfl
  | cons g l => exact covers_go g l hsort a

/-! ## What a map keeps track of -/

/-- **A map tracks declared memory and spans**: it holds the declared addresses, tagged as the declaration that counts
there says, and those in a span are taken. -/
structure Tracks (memory : List MemoryRange) (spans : List (Nat × Nat)) (m : MemoryMap) : Prop where
  sound : Sound m.ranges
  view : ∀ a tag taken, Shows m.ranges a tag taken ↔ ∃ d, declaredAt? memory a = some d ∧
    (HeapRange.ofMemoryRange d).tag = tag ∧ (taken = true ↔ ∃ s ∈ spans, Covers s a)

namespace Tracks

variable {memory : List MemoryRange} {spans : List (Nat × Nat)} {m : MemoryMap}

theorem congr (h : Tracks memory spans m) {spans' : List (Nat × Nat)}
    (heq : ∀ a, (∃ s ∈ spans', Covers s a) ↔ ∃ s ∈ spans, Covers s a) : Tracks memory spans' m :=
  ⟨h.sound, fun a tag taken => by rw [h.view]; simp only [heq]⟩

theorem ofDeclared (memory : List MemoryRange) : Tracks memory [] (ofDeclared memory) := by
  refine ⟨sound_ofDeclared memory, fun a tag taken => ?_⟩
  rw [shows_ofDeclared]
  simp only [List.not_mem_nil, false_and, exists_false, iff_false, Bool.not_eq_true, eq_comm (a := false)]

theorem reserve (h : Tracks memory spans m) (start stop : Nat) :
    Tracks memory ((start, stop) :: spans) (m.reserve start stop) := by
  refine ⟨sound_reserve h.sound start stop, fun a tag taken => ?_⟩
  rw [shows_reserve h.sound, List.exists_mem_cons_iff]
  constructor
  · rintro ⟨was, hwas, rfl⟩
    obtain ⟨d, hd, htag, htaken⟩ := (h.view a tag was).1 hwas
    refine ⟨d, hd, htag, ?_⟩
    rw [Bool.or_eq_true, decide_eq_true_eq, htaken, or_comm]
  · rintro ⟨d, hd, htag, htaken⟩
    refine ⟨decide (∃ s ∈ spans, Covers s a), (h.view a tag _).2 ⟨d, hd, htag, decide_eq_true_iff⟩, ?_⟩
    rw [Bool.eq_iff_iff, Bool.or_eq_true, decide_eq_true_eq, decide_eq_true_eq, htaken, or_comm]

theorem reserves : ∀ {spans : List (Nat × Nat)} {m : MemoryMap}, Tracks memory spans m → ∀ l : List (Nat × Nat),
    Tracks memory (l ++ spans) (l.foldl (fun m s => m.reserve s.1 s.2) m)
  | spans, _, h, [] => h
  | spans, m, h, s :: l => by
    refine ((h.reserve s.1 s.2).reserves l).congr fun a => ?_
    simp only [List.mem_append, List.mem_cons, List.cons_append, or_and_right, exists_or, exists_eq_left]
    exact or_left_comm

theorem rebuild (memory : List MemoryRange) (hsort : spans.Pairwise fun s t => s.1 ≤ t.1) :
    Tracks memory spans (MemoryMap.rebuild memory spans) := by
  refine ((ofDeclared memory).reserves (groupSpans spans)).congr fun a => ?_
  rw [List.append_nil, covers_groupSpans hsort]

/-- **Where an allocation may lie**: every address is declared, tagged as the placement asks, and in no span. -/
theorem allocate (h : Tracks memory spans m) {size offset a : Nat} {p : Placement} {m' : MemoryMap}
    (halloc : m.allocate size offset p = some (a, m')) :
    Tracks memory ((a, a + size) :: spans) m' ∧ ∀ x, Covers (a, a + size) x → (¬∃ s ∈ spans, Covers s x) ∧
      ∃ d, declaredAt? memory x = some d ∧ p.accepts (HeapRange.ofMemoryRange d).tag = true := by
  obtain ⟨-, -, -, front, r, back, hsplit, -, -, -, hfree, haccepts, hstart, hstop⟩ := allocate_eq_some halloc
  have hr : r ∈ m.ranges := hsplit ▸ List.mem_append_right front List.mem_cons_self
  refine ⟨eq_reserve_of_allocate h.sound halloc ▸ h.reserve a (a + size), fun x hx => ?_⟩
  have hrx : r.Holds x := ⟨Nat.le_trans hstart hx.1, Nat.lt_of_lt_of_le hx.2 hstop⟩
  obtain ⟨d, hd, htag, htaken⟩ := (h.view x r.tag r.taken).1 ⟨r, hr, hrx, rfl, rfl⟩
  rw [hfree] at htaken
  exact ⟨fun hs => Bool.noConfusion (htaken.2 hs), d, hd, htag ▸ haccepts⟩

end Tracks

/-! ## Runs of calls -/

/-- **A call on a memory map.** -/
inductive MapCall where
  | allocate (size offset : Nat) (p : Placement)
  | reserve (start stop : Nat)
  | rebuild (spans : List (Nat × Nat))
  deriving DecidableEq, Repr

/-- A map is started over from spans that are sorted by start. -/
def MapCall.Sorted : MapCall → Prop
  | .rebuild spans => spans.Pairwise fun s t => s.1 ≤ t.1
  | _ => True

/-- **What a call took**: what was allotted to a request, or the addresses it named. -/
inductive Taking where
  | allotted (start size offset : Nat) (p : Placement)
  | named (start stop : Nat)
  deriving DecidableEq, Repr

namespace Taking

def span : Taking → Nat × Nat
  | .allotted start size _ _ => (start, start + size)
  | .named start stop => (start, stop)

/-- **An allotment is as requested**: of the size asked for, aligned, in memory that the placement accepts. -/
def AsRequested (memory : List MemoryRange) : Taking → Prop
  | .allotted start size offset p =>
    0 < size ∧ Aligned (start + (offset + p.alignmentOffset)) p.alignment ∧ ∀ a, Covers (start, start + size) a →
      ∃ d, declaredAt? memory a = some d ∧ p.accepts (HeapRange.ofMemoryRange d).tag = true
  | .named _ _ => True

/-- An allotment shares no address with what was taken before. -/
def Fresh : Taking → Taking → Prop
  | t@(.allotted ..), before => ∀ a, Covers t.span a → ¬Covers before.span a
  | .named .., _ => True

end Taking

/-- **A map with what was taken since it was last started over**, the latest first. -/
structure History where
  map : MemoryMap
  takings : List Taking
  deriving DecidableEq, Repr

namespace History

def start (memory : List MemoryRange) : History := ⟨ofDeclared memory, []⟩

/-- A request that cannot be met leaves the map as it is. -/
def step (memory : List MemoryRange) (h : History) : MapCall → History
  | .allocate size offset p => match h.map.allocate size offset p with
    | some (a, m) => ⟨m, .allotted a size offset p :: h.takings⟩
    | none => h
  | .reserve start stop => ⟨h.map.reserve start stop, .named start stop :: h.takings⟩
  | .rebuild spans => ⟨MemoryMap.rebuild memory spans, spans.map fun s => .named s.1 s.2⟩

/-- **The history of a run of calls.** -/
def run (memory : List MemoryRange) (calls : List MapCall) : History := calls.foldl (step memory) (start memory)

/-- **What every history of a memory keeps**: the map tracks the takings, every allotment is as requested, and it is
apart from all that was taken before. -/
structure Kept (memory : List MemoryRange) (h : History) : Prop where
  tracks : Tracks memory (h.takings.map Taking.span) h.map
  fresh : h.takings.Pairwise Taking.Fresh
  asRequested : ∀ t ∈ h.takings, t.AsRequested memory

theorem kept_start (memory : List MemoryRange) : Kept memory (start memory) :=
  ⟨Tracks.ofDeclared memory, .nil, nofun⟩

theorem Kept.step {memory : List MemoryRange} {h : History} (hk : Kept memory h) :
    ∀ {c : MapCall}, c.Sorted → Kept memory (h.step memory c)
  | .allocate size offset p, _ => by
    unfold History.step
    dsimp only
    split
    · rename_i a m halloc
      obtain ⟨hpos, -, haligned, -⟩ := allocate_eq_some halloc
      obtain ⟨htracks, hroom⟩ := hk.tracks.allocate halloc
      refine ⟨htracks, List.pairwise_cons.2 ⟨fun t ht x hx hxt => ?_, hk.fresh⟩,
        List.forall_mem_cons.2 ⟨⟨hpos, haligned, fun x hx => (hroom x hx).2⟩, hk.asRequested⟩⟩
      exact (hroom x hx).1 ⟨t.span, List.mem_map_of_mem ht, hxt⟩
    · exact hk
  | .reserve start stop, _ =>
    ⟨hk.tracks.reserve start stop, List.pairwise_cons.2 ⟨fun _ _ => trivial, hk.fresh⟩,
      List.forall_mem_cons.2 ⟨trivial, hk.asRequested⟩⟩
  | .rebuild spans, hsort => by
    refine ⟨?_, List.pairwise_map.2 (List.pairwise_of_forall fun _ _ => trivial), fun t ht => ?_⟩
    · have hspans : (spans.map fun s => Taking.named s.1 s.2).map Taking.span = spans := by
        rw [List.map_map]
        exact List.map_id spans
      exact hspans.symm ▸ Tracks.rebuild memory hsort
    · obtain ⟨s, -, rfl⟩ := List.mem_map.1 ht
      trivial

theorem kept_run (memory : List MemoryRange) {calls : List MapCall} (hsorted : ∀ c ∈ calls, c.Sorted) :
    Kept memory (run memory calls) := by
  have : ∀ (calls : List MapCall) (h : History), (∀ c ∈ calls, c.Sorted) → Kept memory h →
      Kept memory (calls.foldl (History.step memory) h) := by
    intro calls
    induction calls with
    | nil => exact fun _ _ hk => hk
    | cons c calls ih =>
      intro h hsorted hk
      obtain ⟨hc, hcalls⟩ := List.forall_mem_cons.1 hsorted
      exact ih _ hcalls (hk.step hc)
  exact this calls _ hsorted (kept_start memory)

/-- **A memory map refines its declarations over every run of calls.**  After any calls the map is sound and passes
its check; it holds the addresses that are declared, each tagged as the declaration that counts there says; taken are
those that were taken since the map was last started over; and every allotment is as requested and apart from all that
was taken before it. -/
theorem run_refines_declarations (memory : List MemoryRange) (calls : List MapCall)
    (hsorted : ∀ c ∈ calls, c.Sorted) :
    (run memory calls).map.fault? = none ∧ Sound (run memory calls).map.ranges ∧
    (∀ a, (∃ r ∈ (run memory calls).map.ranges, r.Holds a) ↔ ∃ d ∈ memory, d.contains a = true) ∧
    (∀ r ∈ (run memory calls).map.ranges, ∀ a, r.Holds a → ∃ d, declaredAt? memory a = some d ∧
      r.tag = (HeapRange.ofMemoryRange d).tag ∧ (r.taken = true ↔ ∃ t ∈ (run memory calls).takings, Covers t.span a)) ∧
    (run memory calls).takings.Pairwise Taking.Fresh ∧
    ∀ t ∈ (run memory calls).takings, t.AsRequested memory := by
  obtain ⟨⟨hsound, hview⟩, hfresh, hasked⟩ := kept_run memory hsorted
  refine ⟨fault?_eq_none hsound, hsound, fun a => ?_, fun r hr a hra => ?_, hfresh, hasked⟩
  · rw [← declaredAt?_isSome, Option.isSome_iff_exists]
    constructor
    · rintro ⟨r, hr, hra⟩
      obtain ⟨d, hd, -⟩ := (hview a r.tag r.taken).1 ⟨r, hr, hra, rfl, rfl⟩
      exact ⟨d, hd⟩
    · rintro ⟨d, hd⟩
      obtain ⟨r, hr, hra, -⟩ := (hview a _ _).2 ⟨d, hd, rfl, decide_eq_true_iff⟩
      exact ⟨r, hr, hra⟩
  · obtain ⟨d, hd, htag, htaken⟩ := (hview a r.tag r.taken).1 ⟨r, hr, hra, rfl, rfl⟩
    simp only [List.mem_map, exists_exists_and_eq_and] at htaken
    exact ⟨d, hd, htag.symm, htaken⟩

/-- Two ranges that overlap, declared in the wrong order, and an empty one. -/
def overlaid : List MemoryRange :=
  [⟨24, 64, ⟨none, Attribute.ram, Usage.data⟩⟩, ⟨40, 40, ⟨none, Flags.none, Usage.code⟩⟩,
    ⟨0, 32, ⟨some "boot", Attribute.flash.union Attribute.allocated, Usage.code⟩⟩]

/-- Allotments from both ends, a reservation across both ranges, and a map started over between them. -/
def overlaidCalls : List MapCall :=
  [.allocate 8 0 (Placement.simple 16 Usage.data), .reserve 4 36, .rebuild [(2, 6), (4, 10), (50, 90)],
    .allocate 6 2 { Placement.simple 8 Usage.code with fromHigh := true }, .allocate 8 0 (Placement.simple 4 Usage.data)]

theorem run_refines_declarations_overlaid : (∀ c ∈ overlaidCalls, c.Sorted) ∧
    (run overlaid overlaidCalls).map.fault? = none ∧
    (run overlaid overlaidCalls).takings.map Taking.span = [(32, 40), (22, 28), (2, 6), (4, 10), (50, 90)] := by
  have hsorted : ∀ c ∈ overlaidCalls, c.Sorted := by
    simp [overlaidCalls, MapCall.Sorted]
  -- sorting goes by well-founded recursion, so the sorted map is put in before the run is evaluated
  have hmap : ofDeclared overlaid = ⟨[⟨0, 32, ⟨some "boot", Attribute.flash, Usage.code⟩, false⟩,
      ⟨32, 64, ⟨none, Attribute.ram, Usage.data⟩, false⟩]⟩ := by cbv
  have htakings : (run overlaid overlaidCalls).takings.map Taking.span =
      [(32, 40), (22, 28), (2, 6), (4, 10), (50, 90)] := by
    simp only [run, start, overlaidCalls, List.foldl_cons, List.foldl_nil, step, MemoryMap.rebuild, hmap]
    decide +kernel
  exact ⟨hsorted, (run_refines_declarations overlaid overlaidCalls hsorted).1, htakings⟩

end History

end MemoryMap

end CodeImage

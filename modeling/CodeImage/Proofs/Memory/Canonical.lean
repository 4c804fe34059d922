import CodeImage.Proofs.Memory.History
/-!
# Canonical — a memory map is determined by what it shows

Sound lists of stretches that say the same of every address are equal, and an extraction from one stretch leaves a list
sound.  So the map of a memory is determined by the addresses that are taken (`Tracks.eq_iff`), and it does not matter by
which calls, in which order and in which pieces they were taken (`run_determined_by_takings`).
-/
namespace CodeImage

namespace MemoryMap

/-! ## Maps of one memory -/

/-- **Maps of one memory are equal when the spans take the same of it.** -/
theorem Tracks.eq_iff {memory : List MemoryRange} {spans spans' : List (Nat × Nat)} {m m' : MemoryMap}
    (h : Tracks memory spans m) (h' : Tracks memory spans' m') :
    m = m' ↔ ∀ d ∈ memory, ∀ a, d.contains a = true → ((∃ s ∈ spans, Covers s a) ↔ ∃ s ∈ spans', Covers s a) := by
  constructor
  · rintro rfl d hd a hda
    obtain ⟨d', hd'⟩ := Option.isSome_iff_exists.1 ((declaredAt?_isSome memory a).2 ⟨d, hd, hda⟩)
    obtain ⟨e, -, -, htaken⟩ := (h'.view a _ _).1 ((h.view a _ _).2 ⟨d', hd', rfl, decide_eq_true_iff⟩)
    rw [← htaken, decide_eq_true_eq]
  · intro hsame
    have hranges : m.ranges = m'.ranges := by
      apply h.sound.eq_of_shows h'.sound
      intro a tag taken
      rw [h.view, h'.view]
      refine exists_congr fun d => and_congr_right fun hd => ?_
      obtain ⟨c, hc, hca⟩ := (declaredAt?_isSome memory a).1 (Option.isSome_iff_exists.2 ⟨d, hd⟩)
      rw [hsame c hc a hca]
    cases m
    cases m'
    exact congrArg MemoryMap.mk hranges

namespace History

/-- **A memory map is determined by what was taken.**  Starting any map of the memory over from the spans of what a run
took, sorted by start, gives back the map of the run; and two runs have the same map exactly when they took the same of
the declared addresses, whatever the order and the pieces. -/
theorem run_determined_by_takings (memory : List MemoryRange) (calls : List MapCall)
    (hsorted : ∀ c ∈ calls, c.Sorted) :
    (∀ spans : List (Nat × Nat), spans.Perm ((run memory calls).takings.map Taking.span) →
      (spans.Pairwise fun s t => s.1 ≤ t.1) → ∀ h : History,
      (h.step memory (.rebuild spans)).map.ranges = (run memory calls).map.ranges) ∧
    ∀ calls' : List MapCall, (∀ c ∈ calls', c.Sorted) →
      ((run memory calls').map.ranges = (run memory calls).map.ranges ↔
        ∀ d ∈ memory, ∀ a, d.contains a = true →
          ((∃ t ∈ (run memory calls').takings, Covers t.span a) ↔ ∃ t ∈ (run memory calls).takings, Covers t.span a)) := by
  have htracks := (kept_run memory hsorted).tracks
  refine ⟨fun spans hperm hspans h => ?_, fun calls' hsorted' => ?_⟩
  · refine congrArg ranges (((Tracks.rebuild memory hspans).eq_iff htracks).2 fun _ _ a _ => ?_)
    simp only [hperm.mem_iff]
  · have hiff := (kept_run memory hsorted').tracks.eq_iff htracks
    simp only [List.mem_map, exists_exists_and_eq_and] at hiff
    rw [← hiff]
    exact ⟨fun heq => congrArg MemoryMap.mk heq, congrArg ranges⟩

/-- Two kinds of memory that touch, and a third one behind a hole. -/
def patchwork : List MemoryRange :=
  [⟨16, 40, ⟨none, Attribute.ram, Usage.data⟩⟩, ⟨48, 64, ⟨none, Attribute.ram, Usage.data⟩⟩,
    ⟨0, 16, ⟨none, Attribute.flash, Usage.code⟩⟩]

/-- An allotment, reservations across the kinds of memory and the hole, one that is empty, and an allotment behind. -/
def patchworkCalls : List MapCall :=
  [.allocate 8 0 (Placement.simple 8 Usage.data), .reserve 36 50, .reserve 12 20, .reserve 30 30,
    .allocate 4 0 (Placement.simple 4 Usage.data)]

theorem run_determined_by_takings_patchwork : (∀ c ∈ patchworkCalls, c.Sorted) ∧
    (run patchwork patchworkCalls).takings.map Taking.span = [(24, 28), (30, 30), (12, 20), (36, 50), (16, 24)] ∧
    (run patchwork patchworkCalls).map.ranges.map (fun r => (r.start, r.stop, r.taken)) =
      [(0, 12, false), (12, 16, true), (16, 28, true), (28, 36, false), (36, 40, true), (48, 50, true),
        (50, 64, false)] ∧
    ((run patchwork patchworkCalls).step patchwork
        (.rebuild [(12, 20), (16, 24), (24, 28), (30, 30), (36, 50)])).map.ranges =
      (run patchwork patchworkCalls).map.ranges := by
  have hsorted : ∀ c ∈ patchworkCalls, c.Sorted := by
    simp [patchworkCalls, MapCall.Sorted]
  have hmap : ofDeclared patchwork = ⟨[⟨0, 16, ⟨none, Attribute.flash, Usage.code⟩, false⟩,
      ⟨16, 40, ⟨none, Attribute.ram, Usage.data⟩, false⟩, ⟨48, 64, ⟨none, Attribute.ram, Usage.data⟩, false⟩]⟩ := by cbv
  have htakings : (run patchwork patchworkCalls).takings.map Taking.span =
      [(24, 28), (30, 30), (12, 20), (36, 50), (16, 24)] := by
    simp only [run, start, patchworkCalls, List.foldl_cons, List.foldl_nil, step, hmap]
    decide +kernel
  have hranges : (run patchwork patchworkCalls).map.ranges.map (fun r => (r.start, r.stop, r.taken)) =
      [(0, 12, false), (12, 16, true), (16, 28, true), (28, 36, false), (36, 40, true), (48, 50, true),
        (50, 64, false)] := by
    simp only [run, start, patchworkCalls, List.foldl_cons, List.foldl_nil, step, hmap]
    decide +kernel
  refine ⟨hsorted, htakings, hranges, ?_⟩
  apply (run_determined_by_takings patchwork patchworkCalls hsorted).1
  · rw [htakings]
    decide
  · decide

end History

end MemoryMap

end CodeImage

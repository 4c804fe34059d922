import CodeImage.Proofs.Image.Rows
import CodeImage.Proofs.Listing.ControlFlow
import CodeImage.Proofs.Listing.Validity
/-!
# EntryAlignment — what the alignment of entries aligns

The alignment for entries is asked of a method's hot code as a whole, and the schedule need not start it with the entry:
a block that jumps back to the entry may stand in front of it, and an entry that only jumps into cold code lies there.
An entry in hot code is aligned exactly when the bytes in front of it are (`entry_aligned_iff_bytesAhead`).
-/
namespace CodeImage

theorem two_pow_dvd_max (n k : Nat) : 2 ^ k ∣ max (2 ^ n) (2 ^ k) := by
  rcases Nat.le_total (2 ^ n) (2 ^ k) with hle | hle
  · rw [Nat.max_eq_right hle]
  · rw [Nat.max_eq_left hle]
    exact Nat.pow_dvd_pow 2 ((Nat.pow_le_pow_iff_right (by decide)).1 hle)

namespace Board

variable {b : Board} {options : Options} {k start : Nat}

/-- **A method's hot code starts at a multiple of the alignment for entries.** -/
theorem two_pow_dvd_of_hot (hoptions : options.entryAlignment = some (2 ^ k))
    (h : MemoryMap.Aligned (start + (b.platform.codePlacement options false).alignmentOffset)
      (b.platform.codePlacement options false).alignment) : 2 ^ k ∣ start := by
  have halignment : (b.platform.codePlacement options false).alignment = max (2 ^ 2) (2 ^ k) := by
    simp only [Platform.codePlacement, hoptions, Option.getD_some]
    rfl
  have hdvd := two_pow_dvd_max 2 k
  rw [halignment] at h
  rcases h with hle | h
  · have : 2 ^ 2 ≤ max (2 ^ 2) (2 ^ k) := Nat.le_max_left ..
    omega
  · exact hdvd.trans h

theorem aligned_of_cold (h : MemoryMap.Aligned (start + (b.platform.codePlacement options true).alignmentOffset)
    (b.platform.codePlacement options true).alignment) : MemoryMap.Aligned start b.coldAlignment := h

end Board

namespace Listing

/-- **Entries are aligned where what stands in front of them is.**  A method's entry lies behind the start of the
method's hot or cold code and the bytes that the schedule puts in front of it.  Hot code starts at a multiple of the
alignment for entries, cold code as the board aligns it.  So an entry in hot code is aligned exactly when the bytes in
front of it are, as when its slot is the first. -/
theorem entry_aligned_iff_bytesAhead (l : Listing) (mc : Machine) (b : Board) (options : Options) (k : Nat) (i : Image)
    (hoptions : options.entryAlignment = some (2 ^ k))
    (hlayout : (l.program mc).layout b.platform options = .ok i) (m : Nat) (lm : ListedMethod)
    (hm : l.methods[m]? = some lm) : ∃ s start, i.schedules[m]? = some s ∧
      i.blockAddress? m lm.entryBlock = some (start + i.bytesAhead m s lm.entryBlock) ∧
      (s.isCold lm.entryBlock = true → MemoryMap.Aligned start b.coldAlignment) ∧
      (s.isCold lm.entryBlock = false → 2 ^ k ∣ start ∧
        (2 ^ k ∣ start + i.bytesAhead m s lm.entryBlock ↔ 2 ^ k ∣ i.bytesAhead m s lm.entryBlock) ∧
        (s.indexOf lm.entryBlock = some 0 → 2 ^ k ∣ start + i.bytesAhead m s lm.entryBlock)) := by
  obtain ⟨scheduled, emitted, placed, patched, used, h⟩ := Program.exists_laid hlayout
  obtain ⟨sm, hsm, hmethod⟩ := exists_scheduledMethod h.schedule_ok hm
  obtain ⟨start, hrow⟩ := h.exists_row hsm (sm.schedule.isCold lm.entryBlock)
  have hentry : sm.method.outline.Reaches lm.entryBlock := by
    rw [hmethod]
    exact .refl
  obtain ⟨haddress, haligned⟩ := hrow hentry rfl
  refine ⟨sm.schedule, start, by rw [h.schedules_eq, List.getElem?_map, hsm, Option.map_some], haddress,
    fun hcold => ?_, fun hhot => ?_⟩
  · rw [hcold] at haligned
    exact Board.aligned_of_cold haligned
  · rw [hhot] at haligned
    have hstart := Board.two_pow_dvd_of_hot hoptions haligned
    refine ⟨hstart, Nat.dvd_add_right hstart, fun hfirst => ?_⟩
    rw [i.bytesAhead_of_first m hfirst]
    exact hstart

/-- **A loop** through its entry, the body of which the schedule puts in front. -/
def headedLoop : ListedMethod :=
  (((ListedMethod.empty "m" "a").addBlock "a" [.branch (.unresolved "b") (.unresolved "c")]).addBlock "b"
    [.op 1, .goto (.unresolved "a")]).addBlock "c" [.ret]

def headedLoopListing : Listing := ofMethod headedLoop.complete.1

def alignedEntries : Options := { Options.default with entryAlignment := some (2 ^ 6) }

theorem entry_aligned_iff_bytesAhead_headedLoop : headedLoopListing.fault? = none ∧ ∃ i s,
    (headedLoopListing.program .default).layout Board.default.platform alignedEntries = .ok i ∧
      i.schedules[0]? = some s ∧ i.blockAddress? 0 0 = some 0x08000004 ∧ ¬2 ^ 6 ∣ i.bytesAhead 0 s 0 := by
  have hdata : (headedLoopListing.program .default).Unplaced := nofun
  have hmap : MemoryMap.ofDeclared Board.default.platform.memory =
      ⟨[⟨0x08000000, 0x08100000, ⟨some "text", ⟨106⟩, ⟨1⟩⟩, false⟩,
        ⟨0x20000000, 0x20010000, ⟨some "data", ⟨25⟩, ⟨2⟩⟩, false⟩]⟩ := by cbv
  have hfirst : ((headedLoopListing.program .default).scheduleAll.toOption.bind fun scheduled =>
      ((headedLoopListing.program .default).round Board.default.platform alignedEntries scheduled
        Levels.empty).toOption.map fun r => (r.raised, (scheduled.zipIdx.mapM fun entry =>
          handlerSpans ⟨scheduled, r.regions⟩ entry.2 entry.1).toOption.isSome,
          AddressBook.blockAddress? ⟨scheduled, r.regions⟩ 0 0, scheduled.map (·.schedule.isCold 0))) =
        some ([], true, some 0x08000004, [false]) := by
    simp only [Program.round, Program.place, hmap]
    decide +kernel
  obtain ⟨scheduled, hscheduled, hround⟩ := Option.bind_eq_some_iff.1 hfirst
  obtain ⟨r, hr, hends⟩ := Option.map_eq_some_iff.1 hround
  simp only [Prod.mk.injEq] at hends
  obtain ⟨hraised, hspans, haddress, hhot⟩ := hends
  obtain ⟨spans, hspans⟩ := Option.isSome_iff_exists.1 hspans
  have hscheduled := Outcome.toOption_eq_some.1 hscheduled
  have hround := Outcome.toOption_eq_some.1 hr
  obtain ⟨i, hi⟩ := Program.exists_layout hdata hscheduled hround hraised (Outcome.toOption_eq_some.1 hspans)
  obtain ⟨s, start, hs, hentry, -, halign⟩ := entry_aligned_iff_bytesAhead headedLoopListing .default .default
    alignedEntries 6 i rfl hi 0 _ rfl
  obtain ⟨sm, hsm, hmethod⟩ := @exists_scheduledMethod headedLoopListing .default scheduled hscheduled 0 _ rfl
  have hcollect := hi
  rw [Program.layout_of_round hscheduled hround hraised] at hcollect
  have hblock := Program.blockAddress?_of_collect (b := 0) hcollect hsm (by rw [hmethod]; decide)
  rw [haddress] at hblock
  refine ⟨by decide +kernel, i, s, hi, hs, hblock, fun hahead => ?_⟩
  -- the entry is hot, so what stands in front of it decides
  have hcold : s.isCold 0 = false := by
    obtain ⟨_, _, -, -, hfields⟩ := Program.collect_eq_ok hcollect
    have hhot := congrArg (·[0]?) hhot
    rw [hfields, List.getElem?_map, hsm] at hs
    simp only [List.getElem?_map, hsm] at hhot
    cases hs
    exact Option.some.inj hhot
  have hdvd := (halign hcold).2.1.2 hahead
  rw [Option.some.inj (hentry.symm.trans hblock)] at hdvd
  exact absurd hdvd (by decide)

end Listing

end CodeImage

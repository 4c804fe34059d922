import CodeImage.BitSet
import CodeImage.Handle
/-!
# Faults of analyses

An analysis ends with an `AnalysisFault` when it meets what no checked graph shows.
-/
namespace CodeImage

/-- **What no analysis of a checked graph meets.**  `endless` stands for rounds or climbs that go on for longer than
there are blocks to settle. -/
inductive AnalysisFault where
  | climbOutOfReach (block : Nat)
  | climbUnsettled (block : Nat)
  | noPredecessor (block : Nat)
  | noSettledPredecessor (block : Nat)
  | rivalPostDominators (block : Nat) (rivals : BitSet)
  | strayMember (header member : Nat)
  | unscheduled (slot : Nat)
  | endless
  deriving DecidableEq, Repr

namespace AnalysisFault

/-- What does not hold. -/
def cause : AnalysisFault → String
  | .climbOutOfReach b => s!"dominator walk reached unreachable block {HandleKind.block.text b}"
  | .climbUnsettled b => s!"dominator walk reached block {HandleKind.block.text b} with no dominator yet"
  | .noPredecessor b => s!"reachable block {HandleKind.block.text b} has no predecessors"
  | .noSettledPredecessor b => s!"no predecessor of {HandleKind.block.text b} has a dominator"
  | .rivalPostDominators b rivals =>
    s!"block {HandleKind.block.text b} has {rivals.card} immediate post-dominators: " ++
      listText (rivals.toList.map HandleKind.block.text)
  | .strayMember h m => s!"loop header {HandleKind.block.text h} does not dominate member {HandleKind.block.text m}"
  | .unscheduled s => s!"slot {HandleKind.slot.text s} was never scheduled"
  | .endless => "the rounds do not end"

def message (f : AnalysisFault) : String := "invariant violation: " ++ f.cause

end AnalysisFault

end CodeImage

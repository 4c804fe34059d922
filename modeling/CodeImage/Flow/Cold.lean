import CodeImage.Flow.Reach
/-!
# Cold code

Exception handlers, blocks that end in dead control flow and blocks with a call that never returns are seldom run.
What they lead to is cold, and so are they, unless control also comes there from the entry through other blocks only.
The entry counts as hot whatever it is.
-/
namespace CodeImage

namespace FlowGraph

/-- **A block that is seldom run for a reason of its own.** -/
def isSeldom (g : FlowGraph) (b : Nat) : Bool := g.isHandler b || g.isDead b || g.neverReturns b

/-- **The seeds of cold code**: the seldom run blocks that control reaches. -/
def seeds (g : FlowGraph) : BitSet :=
  let reach := g.reachable
  BitSet.ofPred g.size fun b => reach.contains b && g.isSeldom b

/-- The blocks that control reaches from the entry without entering a seed. -/
def hot (g : FlowGraph) : BitSet :=
  let seeds := g.seeds
  reachableFrom g.size (fun b => (g.succs b).filter (!seeds.contains ·)) [g.entry]

/-- **The cold blocks**: what the seeds lead to, less what is hot. -/
def cold (g : FlowGraph) : BitSet := g.hot.toList.foldl BitSet.erase (reachableFrom g.size g.succs g.seeds.toList)

end FlowGraph

end CodeImage

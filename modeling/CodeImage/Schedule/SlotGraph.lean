import CodeImage.Flow.Loops
import CodeImage.Flow.Cold
import CodeImage.Schedule.Ownership
/-!
# Slots and links

`SlotGraph` is what the scheduler knows of a method: the blocks that own slots, the links between them, and the weight
and coldness of each.
-/
namespace CodeImage

/-- Control passes from slot `source` to slot `target`. -/
structure Link where
  source : Nat
  target : Nat
  deriving DecidableEq, Repr

/-- **The slots of a method.**  `passages` are all ways that control passes between owners, also within one slot and as
often as they are met; `loops` holds the owners of each loop's members, innermost loops first. -/
structure SlotGraph where
  owners : List Nat
  passages : List Link
  weight : Nat → Int
  isCold : Nat → Bool
  isLoopExit : Nat → Bool
  loops : List (List Nat)

namespace SlotGraph

/-- Weights do not grow beyond this. -/
def weightLimit : Int := 0x7fffffffffffffff

/-- **The weight of a block**: being nested in loops counts most, then being hot, then being met late. -/
def blockWeight (size depth discovery : Nat) (cold : Bool) : Int :=
  let factor : Int := (Nat.pow 8 depth : Nat)
  let nested : Int := min ((size : Int) * min factor weightLimit) weightLimit
  min ((if cold then -1000000 else 1000000) + (discovery : Int) + nested) weightLimit

/-- **The slots of a graph** with the given loops, whose blocks are owned as `own` says. -/
def of (g : FlowGraph) (forest : LoopForest) (own : Ownership) : SlotGraph :=
  let tree := g.spanningTree
  let cold := g.cold
  let owner (b : Nat) : Nat := (own.ownerOf b).getD b
  { owners := own.owners
    passages := tree.order.flatMap fun b => (g.normalSuccs b).map fun s => Link.mk (owner b) (owner s)
    weight := fun b => blockWeight g.size (forest.depthOf b) ((tree.indexOf b).getD 0) (cold.contains b)
    isCold := cold.contains
    isLoopExit := forest.isExitPoint
    loops := forest.deepestFirst.filterMap fun i => forest.loops[i]?.map fun l => l.members.toList.map owner }

/-- **The links between slots**, each once. -/
def links (g : SlotGraph) : List Link := (g.passages.filter fun l => l.source != l.target).eraseDups

end SlotGraph

end CodeImage

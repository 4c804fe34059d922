import CodeImage.BitSet
import CodeImage.Flow.Graph
/-!
# Reachability

`closure` collects the blocks that some seed leads to along a successor function.  It keeps a list of blocks to look
at; a block is expanded once, so the number of steps is bounded by the seeds and the edges, which is the fuel that
`reachableFrom` gives it.
-/
namespace CodeImage

/-- **Expand the pending blocks** until none is left, collecting every block met below the set's bound. -/
def closure (next : Nat → List Nat) : Nat → List Nat → BitSet → BitSet
  | 0, _, seen => seen
  | _ + 1, [], seen => seen
  | fuel + 1, b :: rest, seen =>
    if b < seen.bound && !seen.contains b then closure next fuel (next b ++ rest) (seen.insert b)
    else closure next fuel rest seen

/-- **The blocks below `size` that some seed leads to along `next`**, seeds included. -/
def reachableFrom (size : Nat) (next : Nat → List Nat) (seeds : List Nat) : BitSet :=
  let outgoing := (List.range size).flatMap next
  closure next (seeds.length + outgoing.length) seeds (BitSet.empty size)

namespace FlowGraph

/-- The blocks that control can reach from the entry. -/
def reachable (g : FlowGraph) : BitSet := reachableFrom g.size g.succs [g.entry]

end FlowGraph

end CodeImage

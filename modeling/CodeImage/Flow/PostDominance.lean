import CodeImage.Flow.DepthFirst
import CodeImage.Flow.Reach
import CodeImage.Flow.Rounds
/-!
# Post-dominance

An exit is a reachable block without successors.  Block `p` post-dominates block `b` when control cannot get from
`b` to an exit without passing through `p`.  `PostDominance.compute` starts from sets that hold everything and cuts them
down in rounds: what post-dominates a block is the block itself and what post-dominates all its successors.  Blocks from
which no exit can be reached keep everything; blocks out of reach are only post-dominated by themselves.
-/
namespace CodeImage

/-- **The post-dominators of every block**, the nearest of them other than the block, and the blocks from which an exit
can be reached. -/
structure PostDominance where
  sets : Array BitSet
  ipdoms : Array (Option Nat)
  exiting : BitSet
  deriving DecidableEq, Repr

namespace PostDominance

/-- The set of a block among sets for all blocks below `size`. -/
def setAt (size : Nat) (sets : Array BitSet) (b : Nat) : BitSet := sets[b]?.getD (BitSet.empty size)

/-- The reached blocks that no reached block follows. -/
def exitsOf (g : FlowGraph) (reached : Nat → Bool) : List Nat :=
  (List.range g.size).filter fun b => reached b && !(g.succs b).any reached

/-- **The sets before the first round.** -/
def initial (g : FlowGraph) (reached : Nat → Bool) : Array BitSet :=
  ((List.range g.size).map fun b =>
    if !reached b || !(g.succs b).any reached then BitSet.singleton g.size b else BitSet.full g.size).toArray

/-- Cut the set of a block down to what its successors allow, and tell whether it changed. -/
def revise (g : FlowGraph) (reached : Nat → Bool) (state : Array BitSet × Bool) (b : Nat) : Array BitSet × Bool :=
  match (g.succs b).filter reached with
  | [] => state
  | s :: rest =>
    let common := rest.foldl (fun set t => set.inter (setAt g.size state.1 t)) (setAt g.size state.1 s)
    if common.insert b = setAt g.size state.1 b then state else (state.1.setIfInBounds b (common.insert b), true)

/-- **The post-dominators** of the blocks of `order`, which are listed as a walk left them. -/
def settle (g : FlowGraph) (order : List Nat) (reached : Nat → Bool) : Except AnalysisFault (Array BitSet) :=
  untilStable (fun sets => .ok (order.foldl (revise g reached) (sets, false))) g.size (initial g reached)

/-- **The nearest post-dominators** of a block other than itself: of these, the ones that post-dominate another are
dropped. -/
def nearest (size : Nat) (sets : Array BitSet) (b : Nat) : BitSet :=
  let strict := (setAt size sets b).erase b
  strict.toList.foldl (fun left c => strict.toList.foldl (fun left d =>
    if c ≠ d ∧ (setAt size sets c).contains d then left.erase d else left) left) strict

/-- Note the nearest post-dominator of a block from which an exit can be reached, if it has one. -/
def choose (size : Nat) (sets : Array BitSet) (exiting : BitSet) (found : Array (Option Nat)) (b : Nat) :
    Except AnalysisFault (Array (Option Nat)) :=
  if exiting.contains b then
    match (nearest size sets b).toList with
    | [] => .ok found
    | [p] => .ok (found.setIfInBounds b (some p))
    | _ => .error (.rivalPostDominators b (nearest size sets b))
  else .ok found

/-- **The post-dominators of a graph** whose blocks a walk left in the given order. -/
def compute (g : FlowGraph) (order : List Nat) : Except AnalysisFault PostDominance := do
  let known := BitSet.ofPred g.size order.contains
  let sets ← settle g order known.contains
  let exiting := reachableFrom g.size (fun b => (g.preds b).filter known.contains) (exitsOf g known.contains)
  let ipdoms ← order.foldlM (choose g.size sets exiting) (Array.replicate g.size none)
  .ok ⟨sets, ipdoms, exiting⟩

/-- **The post-dominators of a graph.** -/
def of (g : FlowGraph) : Except AnalysisFault PostDominance := compute g g.postOrder

def setOf (pd : PostDominance) (b : Nat) : BitSet := pd.sets[b]?.getD (BitSet.empty pd.sets.size)

def postDominates (pd : PostDominance) (p b : Nat) : Bool := (pd.setOf b).contains p

def reachesExit (pd : PostDominance) (b : Nat) : Bool := pd.exiting.contains b

/-- **The immediate post-dominator**: the strict post-dominator that all the others post-dominate. -/
def ipdom (pd : PostDominance) (b : Nat) : Option Nat := pd.ipdoms[b]?.join

end PostDominance

end CodeImage

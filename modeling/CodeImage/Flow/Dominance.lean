import CodeImage.Flow.DepthFirst
import CodeImage.Flow.Reach
import CodeImage.Flow.Rounds
/-!
# Dominance

Block `d` dominates block `b` when control cannot reach `b` without passing through `d`.  `Dominance.compute` looks for
the immediate dominators in rounds over the blocks, the last that a walk left first.  A round gives each block the
nearest block that dominates all of its predecessors, as far as they are settled: two climbs through the dominators found so
far, which meet there.  The dominators of a block are then the blocks above it, and frontiers are found by climbs from
the predecessors of each block where edges meet.
-/
namespace CodeImage

/-- **The dominators of every block**, itself included, and the blocks where its own dominance ends; a block out of reach
has none.  The entry is its own immediate dominator. -/
structure Dominance where
  entry : Nat
  idoms : Array (Option Nat)
  sets : Array BitSet
  frontiers : Array BitSet
  deriving DecidableEq, Repr

namespace Dominance

/-- **Climb from two blocks until they meet.**  `number` counts the blocks as the walk left them and `up` leads to the
immediate dominator found so far.  The block left first is the deeper one. -/
def meet (number up : Nat → Option Nat) : Nat → Nat → Nat → Except AnalysisFault Nat
  | 0, _, _ => .error .endless
  | limit + 1, a, b =>
    if a = b then .ok a
    else match number a, number b with
      | none, _ => .error (.climbOutOfReach a)
      | some _, none => .error (.climbOutOfReach b)
      | some m, some n =>
        if m < n then match up a with
          | none => .error (.climbUnsettled a)
          | some d => meet number up limit d b
        else if n < m then match up b with
          | none => .error (.climbUnsettled b)
          | some d => meet number up limit a d
        else .error .endless

/-- The block above all predecessors so far, and above one more.  A predecessor that is not settled yet does not count. -/
def nearer (number up : Nat → Option Nat) (limit : Nat) (found : Option Nat) (p : Nat) :
    Except AnalysisFault (Option Nat) :=
  if (up p).isNone then .ok found
  else match found with
    | none => .ok (some p)
    | some d => (meet number up limit p d).map some

/-- **The nearest block above all settled predecessors** of a block. -/
def nearest (g : FlowGraph) (number up : Nat → Option Nat) (b : Nat) : Except AnalysisFault Nat :=
  let preds := (g.preds b).filter fun p => (number p).isSome
  if preds.isEmpty then .error (.noPredecessor b)
  else do match ← preds.foldlM (nearer number up (2 * g.size)) none with
    | none => .error (.noSettledPredecessor b)
    | some d => .ok d

/-- Give a block its immediate dominator, and tell whether it had another one. -/
def revise (g : FlowGraph) (number : Nat → Option Nat) (state : Array (Option Nat) × Bool) (b : Nat) :
    Except AnalysisFault (Array (Option Nat) × Bool) :=
  if b = g.entry then .ok state
  else do
    let d ← nearest g number (fun a => state.1[a]?.join) b
    if state.1[b]?.join = some d then .ok state else .ok (state.1.setIfInBounds b (some d), true)

/-- **The immediate dominators** of the blocks of `order`, which are listed as a walk left them. -/
def settle (g : FlowGraph) (order : List Nat) : Except AnalysisFault (Array (Option Nat)) :=
  let numbers := ((List.range g.size).map order.idxOf?).toArray
  untilStable (fun idoms => order.reverse.foldlM (revise g fun b => numbers[b]?.join) (idoms, false)) g.size
    ((Array.replicate g.size none).setIfInBounds g.entry (some g.entry))

/-- The dominators of a block: itself and those of its immediate dominator. -/
def setFrom (size : Nat) (idoms : Array (Option Nat)) (sets : Array BitSet) (b : Nat) : BitSet :=
  match idoms[b]?.join with
  | some d => (if d = b then BitSet.empty size else sets[d]?.getD (BitSet.empty size)).insert b
  | none => (BitSet.empty size).insert b

/-- **Climb from a block and put `y` into the frontiers on the way**, up to the block `stop`, or to one whose frontier has
`y` already: the blocks above that have been climbed before. -/
def mark (up : Nat → Option Nat) (stop : Option Nat) (y : Nat) : Nat → Option Nat → Array BitSet → Array BitSet
  | 0, _, frontiers => frontiers
  | _ + 1, none, frontiers => frontiers
  | limit + 1, some r, frontiers =>
    if some r = stop then frontiers
    else match frontiers[r]? with
      | none => frontiers
      | some s =>
        if s.contains y then frontiers
        else mark up stop y limit ((up r).filter (· != r)) (frontiers.setIfInBounds r (s.insert y))

/-- Put `y` into the frontiers that it is in.  Only where several edges meet is there anything to climb from. -/
def markAll (g : FlowGraph) (known : Nat → Bool) (up : Nat → Option Nat) (frontiers : Array BitSet) (y : Nat) :
    Array BitSet :=
  let preds := (g.preds y).filter known
  if preds.length < 2 then frontiers
  else preds.foldl (fun frontiers p => mark up (up y) y g.size (some p) frontiers) frontiers

/-- **The frontier of every block** of `order`: the blocks where its dominance ends. -/
def frontiersFrom (g : FlowGraph) (order : List Nat) (up : Nat → Option Nat) : Array BitSet :=
  let known := BitSet.ofPred g.size order.contains
  order.reverse.foldl (markAll g known.contains up) (Array.replicate g.size (BitSet.empty g.size))

/-- **The dominators and frontiers of a graph** whose blocks a walk left in the given order. -/
def compute (g : FlowGraph) (order : List Nat) : Except AnalysisFault Dominance := do
  let idoms ← settle g order
  let sets := order.reverse.foldl (fun sets b => sets.setIfInBounds b (setFrom g.size idoms sets b))
    (Array.replicate g.size (BitSet.empty g.size))
  .ok ⟨g.entry, idoms, sets, frontiersFrom g order fun b => idoms[b]?.join⟩

/-- **The dominators of a graph.** -/
def of (g : FlowGraph) : Except AnalysisFault Dominance := compute g g.postOrder

def setOf (dom : Dominance) (b : Nat) : BitSet := dom.sets[b]?.getD (BitSet.empty dom.sets.size)

def dominates (dom : Dominance) (d b : Nat) : Bool := (dom.setOf b).contains d

def strictlyDominates (dom : Dominance) (d b : Nat) : Bool := d != b && dom.dominates d b

/-- **The immediate dominator**; the entry is its own. -/
def idom (dom : Dominance) (b : Nat) : Option Nat := dom.idoms[b]?.join

/-- **The frontier of a block**: the blocks where its dominance ends. -/
def frontier (dom : Dominance) (b : Nat) : BitSet := dom.frontiers[b]?.getD (BitSet.empty dom.frontiers.size)

end Dominance

end CodeImage

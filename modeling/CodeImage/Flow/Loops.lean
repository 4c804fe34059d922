import CodeImage.Flow.DepthFirst
import CodeImage.Flow.Dominance
import CodeImage.Sorting
/-!
# Natural loops

An edge whose target dominates its source closes a loop: its target is the header, and its members are the header
and every reachable block that leads to the source without passing through the header.  Loops are listed in the
order in which their closing edges are met; an edge that an earlier loop of the same header covers adds none, and
neither does one whose members are already listed.
-/
namespace CodeImage

/-- **A natural loop.**  `exits` are the members that a normal edge leaves the loop from, `depth` is the number of
loops that contain the header. -/
structure Loop where
  header : Nat
  members : BitSet
  exits : BitSet
  depth : Nat
  deriving DecidableEq, Repr

/-- **The loops of a graph**, and how many of them contain each block. -/
structure LoopForest where
  loops : List Loop
  depths : List Nat
  exitPoints : BitSet
  deriving DecidableEq, Repr

namespace FlowGraph

/-- **The edges whose target dominates their source**, by source in the order of discovery. -/
def closingEdges (g : FlowGraph) (tree : SpanningTree) (dom : Dominance) : List (Nat × Nat) :=
  tree.order.flatMap fun b => ((g.succs b).filter fun h => dom.dominates h b).map (b, ·)

/-- **The members of the loop that the edge from `b` to `head` closes.** -/
def loopBody (g : FlowGraph) (reach : BitSet) (b head : Nat) : BitSet :=
  (reachableFrom g.size (fun m => if m == head then [] else (g.preds m).filter reach.contains) [b]).insert head

/-- **The loop that a closing edge adds** to the loops found so far.  A header that does not dominate a member is a
fault. -/
def addLoop (g : FlowGraph) (reach : BitSet) (dom : Dominance) (found : List (Nat × BitSet)) (edge : Nat × Nat) :
    Except AnalysisFault (List (Nat × BitSet)) :=
  let (b, head) := edge
  if found.any fun (h, members) => h == head && members.contains b then .ok found
  else
    let members := g.loopBody reach b head
    match members.toList.find? (!dom.dominates head ·) with
    | some m => .error (.strayMember head m)
    | none => .ok (if found.any (·.2 == members) then found else found ++ [(head, members)])

/-- The headers and members of all loops, in order. -/
def loopBodies (g : FlowGraph) (tree : SpanningTree) (dom : Dominance) : Except AnalysisFault (List (Nat × BitSet)) :=
  let reach := BitSet.ofPred g.size tree.reaches
  (g.closingEdges tree dom).foldlM (g.addLoop reach dom) []

/-- A normal edge leads from `b` out of `members`. -/
def leaves (g : FlowGraph) (members : BitSet) (b : Nat) : Bool :=
  (g.normalSuccs b).any (!members.contains ·)

/-- **The loops with the given headers and members**: their exits, and how deep they are nested. -/
def forestOf (g : FlowGraph) (bodies : List (Nat × BitSet)) : LoopForest :=
  let depth (b : Nat) : Nat := bodies.countP fun body => body.2.contains b
  let loops := bodies.map fun (head, members) =>
    { header := head, members, exits := BitSet.ofPred g.size fun b => members.contains b && g.leaves members b,
      depth := depth head }
  ⟨loops, (List.range g.size).map depth, loops.foldl (fun s l => s.union l.exits) (BitSet.empty g.size)⟩

/-- **Find the loops** of a graph whose tree of discoveries and dominators are known. -/
def findLoops (g : FlowGraph) (tree : SpanningTree) (dom : Dominance) : Except AnalysisFault LoopForest := do
  let bodies ← g.loopBodies tree dom
  .ok (g.forestOf bodies)

/-- **The loops of a graph.** -/
def loopForest (g : FlowGraph) : Except AnalysisFault LoopForest := do
  let dom ← Dominance.of g
  g.findLoops g.spanningTree dom

end FlowGraph

namespace LoopForest

def depthOf (f : LoopForest) (b : Nat) : Nat := f.depths[b]?.getD 0

def isExitPoint (f : LoopForest) (b : Nat) : Bool := f.exitPoints.contains b

/-- **The numbers of the loops, innermost first**; loops of one depth keep their order. -/
def deepestFirst (f : LoopForest) : List Nat :=
  (sortBy (fun a b => b.1.depth ≤ a.1.depth) f.loops.zipIdx).map (·.2)

end LoopForest

end CodeImage

import CodeImage.Flow.Graph
/-!
# Depth-first walks

`Walk` visits a graph from its entry.  Edges to live blocks are followed before edges to dead ones, each group in the
author's order.  A walk is a list of tasks: entering a block that was not met before records its discovery and puts
its successors in front, followed by the task of leaving it.  The edge that leads to a block is classified when it is
taken, by the tree as far as it has grown.  Every task is either one of a block's edges or a block's departure, so the
fuel of `walk` counts those.

`SpanningTree` is what the discoveries say (order, tree parents, edge classes), `PostOrder` what the departures say.
-/
namespace CodeImage

/-- One step still to be taken by a walk. -/
inductive Task where
  | enter (parent : Option Nat) (block : Nat)
  | leave (block : Nat)
  deriving DecidableEq, Repr

/-- **How an edge lies in the tree of discoveries.** -/
inductive EdgeClass where
  | tree
  | forward
  | back
  | cross
  deriving DecidableEq, Repr

/-- **A walk under way**: blocks met with their tree parents, blocks left, and edges taken with their classes, each list
with the latest first. -/
structure Walk where
  met : List (Nat × Option Nat)
  left : List Nat
  classes : List ((Nat × Nat) × EdgeClass)
  deriving DecidableEq, Repr

namespace Walk

def start : Walk := ⟨[], [], []⟩

def hasMet (w : Walk) (b : Nat) : Bool := w.met.any (·.1 == b)

/-- How many blocks were met after `b`. -/
def age (w : Walk) (b : Nat) : Nat := w.met.findIdx (·.1 == b)

/-- **`a` is `b` or one of its ancestors** among the blocks met.  A block is met after its ancestors, so the climb ends
without success where it comes to `a` before `b`. -/
def climbs (a : Nat) : List (Nat × Option Nat) → Nat → Bool
  | [], _ => false
  | (c, parent) :: older, b =>
    if c == b then a == b || match parent with
      | some p => climbs a older p
      | none => false
    else c != a && climbs a older b

/-- **The class of an edge between two blocks met**, by the tree so far. -/
def classify (w : Walk) (source target : Nat) : EdgeClass :=
  if w.age target < w.age source then if climbs source w.met target then .forward else .cross
  else if climbs target w.met source then .back else .cross

/-- The classes with that of the edge from `parent` to `b`; no edge leads to the first block. -/
def note (w : Walk) (parent : Option Nat) (b : Nat) (c : Nat → EdgeClass) : List ((Nat × Nat) × EdgeClass) :=
  match parent with
  | some p => ((p, b), c p) :: w.classes
  | none => w.classes

/-- Come to a block that was met before. -/
def pass (w : Walk) (parent : Option Nat) (b : Nat) : Walk :=
  { w with classes := w.note parent b (w.classify · b) }

/-- **Meet a block**, by an edge of the tree. -/
def meet (w : Walk) (parent : Option Nat) (b : Nat) : Walk :=
  { w with met := (b, parent) :: w.met, classes := w.note parent b fun _ => .tree }

/-- Perform the tasks in order. -/
def run (next : Nat → List Nat) : Nat → List Task → Walk → Walk
  | 0, _, w => w
  | _ + 1, [], w => w
  | fuel + 1, .leave b :: rest, w => run next fuel rest { w with left := b :: w.left }
  | fuel + 1, .enter parent b :: rest, w =>
    if w.hasMet b then run next fuel rest (w.pass parent b)
    else run next fuel ((next b).map (.enter (some b)) ++ .leave b :: rest) (w.meet parent b)

end Walk

namespace FlowGraph

/-- **The order in which a block's successors are visited**: live ones first, then dead ones. -/
def visitOrder (g : FlowGraph) (b : Nat) : List Nat :=
  (g.succs b).filter (!g.isDead ·) ++ (g.succs b).filter g.isDead

/-- **The walk from the entry.** -/
def walk (g : FlowGraph) : Walk :=
  Walk.run g.visitOrder (1 + g.size + g.edges.length) [.enter none g.entry] Walk.start

end FlowGraph

/-- **The tree of discoveries**: blocks in the order met, the block each was met from, and the classes of the edges. -/
structure SpanningTree where
  order : List Nat
  parents : List (Nat × Option Nat)
  classes : List ((Nat × Nat) × EdgeClass)
  deriving DecidableEq, Repr

namespace SpanningTree

def reaches (t : SpanningTree) (b : Nat) : Bool := t.order.contains b

/-- When a block was met, counted from zero. -/
def indexOf (t : SpanningTree) (b : Nat) : Option Nat := t.order.idxOf? b

def parentOf (t : SpanningTree) (b : Nat) : Option Nat := (t.parents.lookup b).join

/-- **The class of an edge**; an edge out of a block that was not met has none. -/
def classOf (t : SpanningTree) (e : Edge) : Option EdgeClass := t.classes.lookup (e.source, e.target)

end SpanningTree

namespace FlowGraph

def spanningTree (g : FlowGraph) : SpanningTree :=
  let walk := g.walk
  let met := walk.met.reverse
  ⟨met.map (·.1), met, walk.classes.reverse⟩

/-- **The blocks in the order in which the walk leaves them.** -/
def postOrder (g : FlowGraph) : List Nat := g.walk.left.reverse

/-- When a block was left, counted from zero. -/
def postIndexOf (g : FlowGraph) (b : Nat) : Option Nat := g.postOrder.idxOf? b

/-- **The instructions of the blocks met**, block after block. -/
def insnOrder (g : FlowGraph) : List Nat := g.spanningTree.order.flatMap g.insnsOf

/-- One more than the highest instruction number of any block. -/
def insnBound (g : FlowGraph) : Nat :=
  (g.blocks.toList.flatMap (·.insns)).foldl (fun bound i => max bound (i + 1)) 0

/-- Where each instruction below `insnBound` stands in `insnOrder`. -/
def insnIndex (g : FlowGraph) : List (Option Nat) :=
  let order := g.insnOrder
  (List.range g.insnBound).map order.idxOf?

end FlowGraph

end CodeImage

import CodeImage.Flow.Fault
/-!
# Flow graphs

`Outline` is a method's control flow as its author lists it: an entry and, for each block, its successors.
`FlowGraph.ofOutline` checks that the entry and every successor exist and keeps each edge once.  An edge into an
exception handler is exceptional, every other one is normal; both lists of a block, the edges out of it and the
edges into it, follow the author's order.
-/
namespace CodeImage

/-- **One block as its author lists it.**  A dead block ends in control flow that leads nowhere; `neverReturns` tells
that some call in the block does not come back. -/
structure BlockOutline where
  succs : List Nat
  isHandler : Bool
  isDead : Bool
  neverReturns : Bool
  insns : List Nat
  deriving DecidableEq, Repr

/-- **The control flow of a method as its author lists it.** -/
structure Outline where
  entry : Nat
  blocks : List BlockOutline
  deriving DecidableEq, Repr

/-- What control passes along an edge for. -/
inductive EdgeKind where
  | normal
  | exception
  deriving DecidableEq, Repr

structure Edge where
  source : Nat
  target : Nat
  kind : EdgeKind
  deriving DecidableEq, Repr

/-- **One block of a checked graph**, with the edges out of it. -/
structure FlowBlock where
  out : List Edge
  isHandler : Bool
  isDead : Bool
  neverReturns : Bool
  insns : List Nat
  deriving DecidableEq, Repr

/-- **A checked flow graph.**  Block `n` is `blocks[n]`. -/
structure FlowGraph where
  entry : Nat
  blocks : Array FlowBlock
  deriving DecidableEq, Repr

/-- **Why control flow cannot be analysed**: an outline is no graph, or an analysis meets a fault. -/
inductive FlowError where
  | entryMissing (entry : Nat)
  | successorMissing (source target : Nat)
  | invariant (fault : AnalysisFault)
  deriving DecidableEq, Repr

namespace FlowError

def message : FlowError → String
  | .entryMissing b => s!"entry block {HandleKind.block.text b} does not exist"
  | .successorMissing a b =>
    s!"block {HandleKind.block.text a} has successor {HandleKind.block.text b}, which does not exist"
  | .invariant fault => fault.message

end FlowError

namespace Outline

def size (o : Outline) : Nat := o.blocks.length

def isHandler (o : Outline) (b : Nat) : Bool := (o.blocks[b]?.map (·.isHandler)).getD false

/-- The first successor, in block order, that is no block, with the block that names it. -/
def missingSuccessor? (o : Outline) : Option (Nat × Nat) :=
  o.blocks.zipIdx.findSome? fun (block, b) => (block.succs.find? (o.size ≤ ·)).map (b, ·)

/-- **The edges out of block `b`**: its successors in order, each once. -/
def edgesFrom (o : Outline) (b : Nat) (succs : List Nat) : List Edge :=
  succs.eraseDups.map fun s => ⟨b, s, if o.isHandler s then .exception else .normal⟩

end Outline

namespace FlowGraph

/-- **Check an outline.**  A missing entry is reported before a missing successor. -/
def ofOutline (o : Outline) : Except FlowError FlowGraph :=
  if o.size ≤ o.entry then .error (.entryMissing o.entry)
  else match o.missingSuccessor? with
    | some (a, b) => .error (.successorMissing a b)
    | none => .ok ⟨o.entry, (o.blocks.zipIdx.map fun (block, b) =>
        ⟨o.edgesFrom b block.succs, block.isHandler, block.isDead, block.neverReturns, block.insns⟩).toArray⟩

def size (g : FlowGraph) : Nat := g.blocks.size

/-- The edges out of a block. -/
def edgesOut (g : FlowGraph) (b : Nat) : List Edge := (g.blocks[b]?.map (·.out)).getD []

/-- **Every edge**, by source and then in the order of the source's list. -/
def edges (g : FlowGraph) : List Edge := g.blocks.toList.flatMap (·.out)

def succs (g : FlowGraph) (b : Nat) : List Nat := (g.edgesOut b).map (·.target)

def preds (g : FlowGraph) (b : Nat) : List Nat := (g.edges.filter (·.target == b)).map (·.source)

/-- Successors through normal edges only. -/
def normalSuccs (g : FlowGraph) (b : Nat) : List Nat :=
  ((g.edgesOut b).filter (·.kind == .normal)).map (·.target)

def isHandler (g : FlowGraph) (b : Nat) : Bool := (g.blocks[b]?.map (·.isHandler)).getD false

def isDead (g : FlowGraph) (b : Nat) : Bool := (g.blocks[b]?.map (·.isDead)).getD false

def neverReturns (g : FlowGraph) (b : Nat) : Bool := (g.blocks[b]?.map (·.neverReturns)).getD false

/-- The instructions of a block. -/
def insnsOf (g : FlowGraph) (b : Nat) : List Nat := (g.blocks[b]?.map (·.insns)).getD []

end FlowGraph

end CodeImage

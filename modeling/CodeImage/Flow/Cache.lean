import CodeImage.Flow.PostDominance
import CodeImage.Flow.Loops
/-!
# A cache of analyses

`AnalysisCache` holds the graph of a method as it was when the cache was made or last refreshed, and each analysis
once it has been asked for.  Analyses build on one another: dominators and post-dominators are found from the cached
post-order, loops from the cached tree and dominators, and what is not there yet is cached on the way.  A fault is
answered and not kept.  Whoever relies on cached answers holds a lock on their kinds.  The cache counts the locks on
each kind; while a count is not zero, `refresh` is refused.
-/
namespace CodeImage

/-- **The kinds of cached analyses**, in the order in which locks on them are reported. -/
inductive AnalysisKind where
  | spanningTree
  | postOrder
  | dominance
  | postDominance
  | naturalLoops
  deriving DecidableEq, Repr

namespace AnalysisKind

def all : List AnalysisKind := [.spanningTree, .postOrder, .dominance, .postDominance, .naturalLoops]

def name : AnalysisKind → String
  | .spanningTree => "SpanningTree"
  | .postOrder => "PostOrder"
  | .dominance => "Dominance"
  | .postDominance => "PostDominance"
  | .naturalLoops => "NaturalLoops"

/-- The place of a kind in that order. -/
def index : AnalysisKind → Fin 5
  | .spanningTree => 0
  | .postOrder => 1
  | .dominance => 2
  | .postDominance => 3
  | .naturalLoops => 4

def ofName? (s : String) : Option AnalysisKind := all.find? (·.name == s)

end AnalysisKind

/-- Why a cache was not refreshed. -/
inductive RefreshError where
  | locked (kind : AnalysisKind)
  | flow (cause : FlowError)
  deriving DecidableEq, Repr

namespace RefreshError

def message : RefreshError → String
  | .locked kind => s!"can't invalidate {kind.name} while it is locked"
  | .flow cause => cause.message

end RefreshError

/-- **How often each kind is locked.**  A lock that lists a kind twice counts twice. -/
structure LockCounts where
  counts : Vector Nat 5
  deriving DecidableEq, Repr

namespace LockCounts

def zero : LockCounts := ⟨.replicate 5 0⟩

def get (l : LockCounts) (kind : AnalysisKind) : Nat := l.counts[kind.index]

def acquire (l : LockCounts) (kind : AnalysisKind) : LockCounts := ⟨l.counts.set kind.index (l.get kind + 1)⟩

def release (l : LockCounts) (kind : AnalysisKind) : LockCounts := ⟨l.counts.set kind.index (l.get kind - 1)⟩

end LockCounts

/-- **Analyses of one graph, computed when first asked for**, and the locks on them: the counts by kind, and the locks
held by number. -/
structure AnalysisCache where
  graph : FlowGraph
  tree : Option SpanningTree
  order : Option (List Nat)
  dom : Option Dominance
  postDom : Option PostDominance
  forest : Option LoopForest
  counts : LockCounts
  held : List (Nat × List AnalysisKind)
  issued : Nat
  deriving DecidableEq, Repr

namespace AnalysisCache

/-- A cache over `g` in which nothing has been asked for. -/
def ofGraph (g : FlowGraph) : AnalysisCache := ⟨g, none, none, none, none, none, .zero, [], 0⟩

def ofOutline (o : Outline) : Except FlowError AnalysisCache := (FlowGraph.ofOutline o).map ofGraph

def spanningTree (c : AnalysisCache) : SpanningTree × AnalysisCache :=
  match c.tree with
  | some t => (t, c)
  | none => let t := c.graph.spanningTree; (t, { c with tree := some t })

def postOrder (c : AnalysisCache) : List Nat × AnalysisCache :=
  match c.order with
  | some l => (l, c)
  | none => let l := c.graph.postOrder; (l, { c with order := some l })

/-- Dominators are found from the cached order. -/
def dominance (c : AnalysisCache) : Except AnalysisFault Dominance × AnalysisCache :=
  match c.dom with
  | some d => (.ok d, c)
  | none =>
    let (order, c) := c.postOrder
    match Dominance.compute c.graph order with
    | .ok d => (.ok d, { c with dom := some d })
    | .error fault => (.error fault, c)

/-- Post-dominators are found from the cached order. -/
def postDominance (c : AnalysisCache) : Except AnalysisFault PostDominance × AnalysisCache :=
  match c.postDom with
  | some d => (.ok d, c)
  | none =>
    let (order, c) := c.postOrder
    match PostDominance.compute c.graph order with
    | .ok d => (.ok d, { c with postDom := some d })
    | .error fault => (.error fault, c)

/-- Loops are found from the cached tree and dominators. -/
def loops (c : AnalysisCache) : Except AnalysisFault LoopForest × AnalysisCache :=
  match c.forest with
  | some f => (.ok f, c)
  | none =>
    let (tree, c) := c.spanningTree
    match c.dominance with
    | (.error fault, c) => (.error fault, c)
    | (.ok d, c) => match c.graph.findLoops tree d with
      | .ok f => (.ok f, { c with forest := some f })
      | .error fault => (.error fault, c)

/-- **Hold a lock** on some kinds; the answer is its number. -/
def lock (c : AnalysisCache) (kinds : List AnalysisKind) : Nat × AnalysisCache :=
  (c.issued, { c with
    counts := kinds.foldl LockCounts.acquire c.counts
    held := c.held ++ [(c.issued, kinds)], issued := c.issued + 1 })

/-- **Give a lock back**; the answer tells whether it was held. -/
def unlock (c : AnalysisCache) (n : Nat) : Bool × AnalysisCache :=
  match c.held.lookup n with
  | some kinds => (true, { c with
      counts := kinds.foldl LockCounts.release c.counts, held := c.held.filter (·.1 != n) })
  | none => (false, c)

/-- The lock with number `n` lists `kind`; no answer when it is not held. -/
def covers (c : AnalysisCache) (n : Nat) (kind : AnalysisKind) : Option Bool :=
  (c.held.lookup n).map (·.contains kind)

def isLocked (c : AnalysisCache) (kind : AnalysisKind) : Bool := 0 < c.counts.get kind

/-- **Take over the method as it is now** and forget every answer.  Refused while some kind is locked or when the method
is no graph, and then nothing changes. -/
def refresh (c : AnalysisCache) (o : Outline) : Except RefreshError AnalysisCache :=
  match AnalysisKind.all.find? c.isLocked with
  | some kind => .error (.locked kind)
  | none => match FlowGraph.ofOutline o with
    | .error e => .error (.flow e)
    | .ok g => .ok { ofGraph g with counts := c.counts, held := c.held, issued := c.issued }

end AnalysisCache

end CodeImage

import CodeImage.Schedule.Forest
/-!
# Indices

The slots at the top are given their indices in two halves, hot ones first.  Each half is a walk along the edges, from
every atomic slot in turn.  A slot is indexed when the walk comes to it and every slot that leads to it has been visited;
what is left over lies on cycles and follows in the order of the atomic slots.  All atomic slots of a slot are indexed
together, from left to right, by one counter.
-/
namespace CodeImage

/-- **Indices given so far**: that of each atomic slot, and the next one. -/
structure Indexing where
  indices : Array (Option Nat)
  next : Nat
  deriving DecidableEq, Repr

namespace Indexing

def none (atoms : Nat) : Indexing := ⟨.replicate atoms .none, 0⟩

def indexOf (n : Indexing) (a : Nat) : Option Nat := n.indices[a]?.join

/-- Give an atomic slot the next index. -/
def give (n : Indexing) (a : Nat) : Indexing := ⟨n.indices.setIfInBounds a (some n.next), n.next + 1⟩

end Indexing

namespace SlotForest

variable (f : SlotForest)

/-- A slot is indexed when its first atomic slot is. -/
def isIndexed (n : Indexing) (t : Nat) : Bool := (n.indexOf (f.firstOf t)).isSome

/-- **Index the atomic slots of a slot.** -/
def index (n : Indexing) (t : Nat) : Indexing := (f.enumerate t).foldl Indexing.give n

/-- All slots at the top that edges come from have been visited. -/
def allVisited (visited : List Nat) : List SlotEdge → StateM Leaders Bool
  | [] => pure true
  | e :: edges => do
    let t ← Leaders.top e.source
    if visited.contains t then allVisited visited edges else pure false

/-- **Index a slot at the top** that belongs to this half, unless some slot that leads to it has not been visited. -/
def offer (cold : Bool) (visited : List Nat) (n : Indexing) (t : Nat) : StateM Leaders Indexing :=
  if f.isCold t != cold || f.isIndexed n t then pure n
  else do
    let ready ← allVisited visited (f.edgesOf t false)
    pure (if ready then f.index n t else n)

/-- **Walk along the edges** from the atomic slots that are still to be looked at, and offer every slot met an index. -/
def indexWalk (cold : Bool) : Nat → List Nat → List Nat → Indexing → StateM Leaders Indexing
  | 0, _, _, n => pure n
  | _ + 1, [], _, n => pure n
  | fuel + 1, a :: pending, visited, n => do
    let t ← Leaders.top a
    let n ← f.offer cold visited n t
    if visited.contains t then indexWalk cold fuel pending visited n
    else indexWalk cold fuel ((f.edgesOf t true).map (·.target) ++ pending) (t :: visited) n

/-- Index the slots that a walk has left over. -/
def indexRest (cold : Bool) : List Nat → Indexing → StateM Leaders Indexing
  | [], n => pure n
  | a :: atoms, n => do
    let t ← Leaders.top a
    indexRest cold atoms (if f.isCold t == cold && !f.isIndexed n t then f.index n t else n)

/-- **Index the slots of one coldness** behind those indexed already.  A walk looks at every atomic slot and at every
edge once. -/
def indexHalf (cold : Bool) (atoms : List Nat) (edges : Nat) (n : Indexing) : StateM Leaders Indexing := do
  let n ← f.indexWalk cold (atoms.length + edges) atoms [] n
  f.indexRest cold atoms n

end SlotForest

/-- **The indices of all atomic slots.** -/
def SlotGraph.indexAll (g : SlotGraph) (f : SlotForest) : StateM Leaders Indexing := do
  let atoms := List.range g.owners.length
  let n ← f.indexHalf false atoms g.links.length (.none g.owners.length)
  f.indexHalf true atoms g.links.length n

end CodeImage

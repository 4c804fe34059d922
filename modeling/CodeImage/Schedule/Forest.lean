import CodeImage.Schedule.SlotGraph
/-!
# The slot forest

What the scheduler works on.  Every block that owns a slot starts as an atomic slot; a compound slot puts one older slot
immediately before another, and becomes the parent of both.  Slots without a parent are at the top.  `Leaders` are
shortcuts towards the top, which are drawn tighter whenever the top of a slot is looked for.  A slot at the top holds the
edges between the atomic slots in it and those in other slots, and each edge tells whether it leaves the last and enters
the first of the atomic slots on either side.
-/
namespace CodeImage

/-- **What a slot is made of**: a block, or two older slots of which `left` stands immediately before `right`. -/
inductive SlotKind where
  | atomic (block : Nat)
  | compound (left right : Nat)
  deriving DecidableEq, Repr

/-- **A slot.**  `first` and `last` are the outermost atomic slots in it. -/
structure Slot where
  kind : SlotKind
  weight : Int
  parent : Option Nat
  first : Nat
  last : Nat
  cold : Bool
  deriving DecidableEq, Repr

/-- **An edge between two atomic slots**, as the slot at the top sees it that holds one of them. -/
structure SlotEdge where
  source : Nat
  target : Nat
  /-- The edge leads out of the slot that holds it, and not into it. -/
  outward : Bool
  /-- The source is not the last atomic slot of the slot at the top. -/
  sourceInternal : Bool
  /-- The target is not the first atomic slot of the slot at the top. -/
  targetInternal : Bool
  deriving DecidableEq, Repr

namespace SlotEdge

/-- **The edge could still become a fall-through.** -/
def isBoundary (e : SlotEdge) : Bool := !e.sourceInternal && !e.targetInternal

/-- The end of an edge outside the slot that holds it. -/
def far (e : SlotEdge) : Nat := if e.outward then e.target else e.source

/-- Put an edge into a list, in the place of the same edge if it is there. -/
def record : List SlotEdge → SlotEdge → List SlotEdge
  | [], e => [e]
  | x :: edges, e =>
    if x.source == e.source && x.target == e.target && x.outward == e.outward then e :: edges else x :: record edges e

end SlotEdge

/-- **Shortcuts towards the top**, one for each slot; a slot at the top leads to itself. -/
abbrev Leaders := Array Nat

namespace Leaders

/-- Follow the shortcuts. -/
def climb (leaders : Leaders) : Nat → Nat → Nat
  | 0, s => s
  | fuel + 1, s => match leaders[s]? with
    | some next => if next == s then s else climb leaders fuel next
    | none => s

/-- Let all slots on the way lead to the root at once. -/
def compress (root : Nat) : Nat → Nat → Leaders → Leaders
  | 0, _, leaders => leaders
  | fuel + 1, s, leaders =>
    if s == root then leaders
    else match leaders[s]? with
      | some next => compress root fuel next (leaders.setIfInBounds s root)
      | none => leaders

/-- **The slot at the top over a slot**; the way there becomes shorter. -/
def top (s : Nat) : StateM Leaders Nat :=
  modifyGet fun leaders =>
    let root := climb leaders leaders.size s
    (root, compress root leaders.size s leaders)

/-- The slots at the top over several slots. -/
def topsOf : List Nat → StateM Leaders (List Nat)
  | [] => pure []
  | s :: slots => do
    let t ← top s
    let rest ← topsOf slots
    pure (t :: rest)

end Leaders

/-- **The slots of a method under way.**  `edges` has one list for each slot; `tops` are the slots at the top, in the
order in which they were made. -/
structure SlotForest where
  slots : Array Slot
  edges : Array (List SlotEdge)
  tops : List Nat
  merges : Nat
  deriving DecidableEq, Repr

namespace SlotForest

/-- The atomic slots of a slot, at most `fuel` generations down. -/
def unroll (slots : Array Slot) : Nat → Nat → List Nat
  | 0, _ => []
  | fuel + 1, s => match slots[s]?.map Slot.kind with
    | some (.compound left right) => unroll slots fuel left ++ unroll slots fuel right
    | some (.atomic _) => [s]
    | none => []

section Access

variable (f : SlotForest) (s : Nat)

def isTop : Bool := f.slots[s]?.any (·.parent.isNone)

def isCold : Bool := f.slots[s]?.any (·.cold)

def weightOf : Int := (f.slots[s]?.map (·.weight)).getD 0

def firstOf : Nat := (f.slots[s]?.map (·.first)).getD s

def lastOf : Nat := (f.slots[s]?.map (·.last)).getD s

/-- The block of an atomic slot. -/
def blockOf : Nat := match f.slots[s]?.map Slot.kind with
  | some (.atomic b) => b
  | _ => s

/-- The edges that a slot holds, in one direction. -/
def edgesOf (outward : Bool) : List SlotEdge := (f.edges[s]?.getD []).filter (·.outward == outward)

/-- **The atomic slots of a slot**, from left to right.  A slot is made of older ones, so that its own number bounds the
generations below it. -/
def enumerate : List Nat := unroll f.slots (s + 1) s

end Access

abbrev withEdges (f : SlotForest) (edges : Array (List SlotEdge)) : SlotForest := ⟨f.slots, edges, f.tops, f.merges⟩

/-- Let the slots `above` and `below` at the top record the edge between two of their atomic slots. -/
def recordEdge (f : SlotForest) (above below source target : Nat) : SlotForest :=
  let edge (outward : Bool) : SlotEdge := ⟨source, target, outward, source != f.lastOf above, target != f.firstOf below⟩
  let recorded := f.edges.modify above (SlotEdge.record · (edge true))
  f.withEdges (recorded.modify below (SlotEdge.record · (edge false)))

/-- **Connect two atomic slots.**  Both slots at the top record the edge, unless they are one; where the edge is known
already, both are told how it looks now.  Control passes to no handler's slot, so handlers need no exception here. -/
def connect (f : SlotForest) (source target : Nat) : StateM Leaders SlotForest := do
  let above ← Leaders.top source
  let below ← Leaders.top target
  pure (if above == below then f else f.recordEdge above below source target)

/-- Connect one pair of atomic slots after the other. -/
def connectAll : List (Nat × Nat) → SlotForest → StateM Leaders SlotForest
  | [], f => pure f
  | p :: pairs, f => do
    let f ← f.connect p.1 p.2
    connectAll pairs f

/-- Two slots can be merged when they differ, are at the top and are equally cold. -/
def canMerge (f : SlotForest) (a b : Nat) : Bool := a != b && f.isTop a && f.isTop b && f.isCold a == f.isCold b

/-- The compound of two slots in its place, without its edges. -/
def compound (f : SlotForest) (a b : Nat) : SlotForest :=
  let made : Slot :=
    ⟨.compound a b, max (f.weightOf a) (f.weightOf b), none, f.firstOf a, f.lastOf b, f.isCold a⟩
  let adopt (s : Slot) : Slot := { s with parent := some f.slots.size }
  { slots := ((f.slots.push made).modify a adopt).modify b adopt
    edges := ((f.edges.push []).setIfInBounds a []).setIfInBounds b []
    tops := f.tops.filter (fun s => s != a && s != b) ++ [f.slots.size]
    merges := f.merges + 1 }

/-- **Fix `a` immediately before `b`.**  The edges of both are connected anew, so that those between them vanish and every
other slot learns how its edges look now. -/
def merge (f : SlotForest) (a b : Nat) : StateM Leaders SlotForest := do
  let c := f.slots.size
  modify fun leaders => ((leaders.push c).setIfInBounds a c).setIfInBounds b c
  let old := f.edges[a]?.getD [] ++ f.edges[b]?.getD []
  connectAll (old.map fun e => (e.source, e.target)) (f.compound a b)

end SlotForest

namespace SlotGraph

/-- The atomic slot of an owner. -/
def slotOf (g : SlotGraph) (b : Nat) : Option Nat := g.owners.idxOf? b

/-- The atomic slot with number `i`, which holds block `b`. -/
def atom (g : SlotGraph) (i b : Nat) : Slot := ⟨.atomic b, g.weight b, none, i, i, g.isCold b⟩

/-- One atomic slot for each owner. -/
def atoms (g : SlotGraph) : SlotForest :=
  { slots := (g.owners.mapIdx g.atom).toArray
    edges := Array.replicate g.owners.length []
    tops := List.range g.owners.length
    merges := 0 }

/-- The atomic slots of the two ends of a passage. -/
def slotsOf (g : SlotGraph) (l : Link) : Option (Nat × Nat) :=
  match g.slotOf l.source, g.slotOf l.target with
  | some s, some d => some (s, d)
  | _, _ => none

/-- The atomic slots that control passes between, as often as it is met. -/
def connections (g : SlotGraph) : List (Nat × Nat) := g.passages.filterMap g.slotsOf

/-- **The forest before the first merge.** -/
def plant (g : SlotGraph) : StateM Leaders SlotForest := SlotForest.connectAll g.connections g.atoms

end SlotGraph

end CodeImage

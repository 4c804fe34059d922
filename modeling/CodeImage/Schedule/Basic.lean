import CodeImage.Schedule.Merging
import CodeImage.Schedule.Indexing
/-!
# Schedules

The final order of a method's blocks.  `order` lists the blocks that own slots; a hollow block shares the index of the
block it falls into.  `Schedule.adjacent` tells encoders where a jump can be left out.  A schedule is read off the slots
when they have their indices (`Schedule.read`): an atomic slot without one is a fault.
-/
namespace CodeImage

/-- **The order of a method's blocks.**  All lists but `order` and `groups` have one item per block. -/
structure Schedule where
  order : List Nat
  index : List (Option Nat)
  cold : List Bool
  aliasOf : List (Option Nat)
  aliases : List (List Nat)
  groups : List (List Nat)
  deriving DecidableEq, Repr

namespace Schedule

def indexOf (s : Schedule) (b : Nat) : Option Nat := (s.index[b]?).join

def isScheduled (s : Schedule) (b : Nat) : Bool := (s.indexOf b).isSome

def isCold (s : Schedule) (b : Nat) : Bool := s.cold[b]?.getD false

/-- The block whose slot a hollow block shares. -/
def alias? (s : Schedule) (b : Nat) : Option Nat := (s.aliasOf[b]?).join

/-- The block that owns the slot of `b`. -/
def slotOwner (s : Schedule) (b : Nat) : Nat := (s.alias? b).getD b

/-- The hollow blocks that share the slot of `b`. -/
def aliasesOf (s : Schedule) (b : Nat) : List Nat := s.aliases[b]?.getD []

/-- **Control leaving the end of `pre` arrives at the start of `post` without a jump.** -/
def adjacent (s : Schedule) (pre post : Nat) : Bool :=
  let target := s.slotOwner post
  match s.alias? pre with
  | some t => t == target
  | none => match s.indexOf pre, s.indexOf target with
    | some i, some j => j == i + 1 && s.isCold pre == s.isCold target
    | _, _ => false

/-- **A schedule that is being read off**: the blocks with their indices in the order of their slots, and what is known of
each block so far. -/
structure Draft where
  placed : List (Nat × Nat)
  index : Array (Option Nat)
  cold : Array Bool
  aliases : Array (List Nat)
  deriving DecidableEq, Repr

namespace Draft

def blank (size : Nat) : Draft := ⟨[], .replicate size none, .replicate size false, .replicate size []⟩

/-- Enter an atomic slot with its index and coldness: the block that owns it, and the blocks that share it. -/
def enter (d : Draft) (i : Nat) (cold : Bool) (owner : Nat) (shared : List Nat) : Draft :=
  { placed := d.placed ++ [(i, owner)]
    index := (owner :: shared).foldl (fun index b => index.setIfInBounds b (some i)) d.index
    cold := (owner :: shared).foldl (fun marks b => marks.setIfInBounds b cold) d.cold
    aliases := d.aliases.setIfInBounds owner shared }

end Draft

/-- An index comes before another; no index comes first. -/
def indexLe : Option Nat → Option Nat → Bool
  | none, _ => true
  | some _, none => false
  | some i, some j => i ≤ j

/-- **Enter one atomic slot after the other**, each of which has to have an index. -/
def enterAll (own : Ownership) (f : SlotForest) (n : Indexing) : List Nat → Draft → Except AnalysisFault Draft
  | [], d => .ok d
  | a :: atoms, d => match n.indexOf a with
    | none => .error (.unscheduled a)
    | some i => enterAll own f n atoms (d.enter i (f.isCold a) (f.blockOf a) (own.aliasesOf (f.blockOf a)))

/-- **Read a schedule off the indexed slots**: blocks by their indices, and groups by the index of their first slot. -/
def read (size : Nat) (own : Ownership) (f : SlotForest) (n : Indexing) (atoms : List Nat) :
    Except AnalysisFault Schedule := do
  let d ← enterAll own f n atoms (.blank size)
  let placed := sortBy (fun a b => a.1 < b.1 || (a.1 == b.1 && a.2 ≤ b.2)) d.placed
  let tops := sortBy (fun s t => indexLe (n.indexOf (f.firstOf s)) (n.indexOf (f.firstOf t))) f.tops
  .ok {
    order := placed.map (·.2)
    index := d.index.toList
    cold := d.cold.toList
    aliasOf := (List.range size).map own.aliasOf
    aliases := d.aliases.toList
    groups := tops.map fun t => (f.enumerate t).map f.blockOf }

/-- **Order the blocks of a graph** with the given loops, whose blocks have the given estimated sizes: merge slots until no
pattern applies, and give them their indices. -/
def arrange (g : FlowGraph) (forest : LoopForest) (sizes : Array Nat) : Except AnalysisFault Schedule :=
  let own := g.ownership sizes
  let slots := SlotGraph.of g forest own
  let (f, leaders) := slots.grow slots.owners.length
  let (n, _) := (slots.indexAll f).run leaders
  read g.size own f n (List.range slots.owners.length)

/-- **Order the blocks of a graph** whose blocks have the given estimated sizes. -/
def of (g : FlowGraph) (sizes : Array Nat) : Except AnalysisFault Schedule := do
  let forest ← g.loopForest
  arrange g forest sizes

end Schedule

/-- Estimated sizes do not grow beyond this. -/
def sizeLimit : Nat := 0xffffffff

/-- **The estimated size of a block**: the least sizes of its instructions together. -/
def estimatedSize (sizes : List Nat) : Nat := sizes.foldl (fun total n => min (total + n) sizeLimit) 0

end CodeImage

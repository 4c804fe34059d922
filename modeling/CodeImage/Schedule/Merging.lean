import CodeImage.Schedule.Forest
/-!
# Merging slots

Which two slots to put next to each other.  Three patterns are looked for in a working set of slots at the top: a straight
line (`straight?`), a loop exit behind its only feeder (`loopExit?`) and the arms of a branch (`branch?`).  `nextMerge?`
tries them on the whole method and on each loop, `mergeAll` merges until none applies.  Each merge leaves one slot less at
the top, so the number of atomic slots bounds the merges.
-/
namespace CodeImage

namespace SlotForest

variable (f : SlotForest)

/-- Look for a slot of the working set over `s`, at most `fuel` generations up. -/
def inSet (set : List Nat) : Nat → Nat → Bool
  | 0, _ => false
  | fuel + 1, s => set.contains s || match f.slots[s]?.bind (·.parent) with
    | some p => inSet set fuel p
    | none => false

/-- The edges of `s` in one direction whose other end lies in the working set and is as cold as `cold`. -/
def edgesInto (set : List Nat) (outward cold : Bool) (s : Nat) : List SlotEdge :=
  (f.edgesOf s outward).filter fun e => f.isCold e.far == cold && f.inSet set f.slots.size e.far

/-- **The only neighbour of `s` in the working set**, if a single edge of its coldness leads there; with `ends` the edge has
to meet the ends of both slots. -/
def sole? (set : List Nat) (outward ends : Bool) (s : Nat) : StateM Leaders (Option Nat) :=
  match f.edgesInto set outward (f.isCold s) s with
  | [e] => if ends && !e.isBoundary then pure none else do
    let t ← Leaders.top e.far
    pure (some t)
  | _ => pure none

/-- **A straight line**: `a` leads only to `b`, and only `a` leads to `b`. -/
def straight? (set : List Nat) : StateM Leaders (Option (Nat × Nat)) :=
  set.findSomeM? fun a =>
    if f.isTop a then do
      match ← f.sole? set true true a with
      | some b => do
        let back ← f.sole? set false true b
        pure (if back == some a && f.canMerge a b then some (a, b) else none)
      | none => pure none
    else pure none

/-- Slot `a` goes before `b` among slots by weight. -/
def heavier (a b : Nat) : Bool :=
  f.weightOf b < f.weightOf a || (f.weightOf a == f.weightOf b && a ≤ b)

/-- **The slots of the working set, heaviest first**; equally heavy ones stay in the order in which they were made. -/
def byWeight (set : List Nat) : List Nat := sortBy f.heavier (set.filter f.isTop)

/-- The two neighbours that two edges of the given coldness lead to, if there are exactly two. -/
def two? (outward cold : Bool) (s : Nat) : StateM Leaders (Option (Nat × Nat)) :=
  match (f.edgesOf s outward).filter fun e => f.isCold e.far == cold with
  | [d, e] => do
    let t ← Leaders.top d.far
    let u ← Leaders.top e.far
    pure (some (t, u))
  | _ => pure none

/-- **If `a` then `b`, and `c` either way**: `b` goes behind `a`. -/
def ifThen? (set : List Nat) (a b c : Nat) : StateM Leaders (Option (Nat × Nat)) :=
  if a == b || b == c || a == c || !f.canMerge a b then pure none
  else do
    let sources ← f.two? false (f.isCold a) c
    if sources == some (a, b) || sources == some (b, a) then do
      let source ← f.sole? set false false b
      pure (if source == some a then some (a, b) else none)
    else pure none

/-- **If `a` then `b` else `c`, both leading on to one slot**: the heavier arm goes behind `a`, of equally heavy ones the
one that starts with the lower block. -/
def ifThenElse? (set : List Nat) (a b c : Nat) : StateM Leaders (Option (Nat × Nat)) := do
  let x ← f.sole? set true false b
  let y ← f.sole? set true false c
  let arm := if f.weightOf c < f.weightOf b ||
    (f.weightOf b == f.weightOf c && f.blockOf (f.firstOf b) ≤ f.blockOf (f.firstOf c)) then b else c
  pure (if x.isSome && x == y && f.canMerge a arm then some (a, arm) else none)

/-- The first of two searches that finds something. -/
def orElse {α : Type} (x y : StateM Leaders (Option α)) : StateM Leaders (Option α) := do
  match ← x with
  | some a => pure (some a)
  | none => y

/-- **A branch and one of its arms.** -/
def branch? (set : List Nat) : StateM Leaders (Option (Nat × Nat)) :=
  [false, true].findSomeM? fun cold => (f.byWeight set).findSomeM? fun a =>
    if f.isCold a == cold && f.isTop a then do
      match ← f.two? true cold a with
      | some (b, c) =>
        if set.contains b && set.contains c then
          orElse (f.ifThen? set a b c) (orElse (f.ifThen? set a c b) (f.ifThenElse? set a b c))
        else pure none
      | none => pure none
    else pure none

end SlotForest

namespace SlotGraph

open SlotForest (orElse)

variable (g : SlotGraph) (f : SlotForest)

/-- **A loop exit behind its only feeder.** -/
def exitMerge? (set : List Nat) : StateM Leaders (Option (Nat × Nat)) :=
  [true, false].findSomeM? fun cold => (f.byWeight set).findSomeM? fun s =>
    if f.isCold s == cold && g.isLoopExit (f.blockOf (f.lastOf s)) then do
      let tops ← Leaders.topsOf ((f.edgesInto set false cold s).map (·.far))
      pure (match (tops.filter (· != s)).eraseDups with
        | [p] => if f.canMerge p s then some (p, s) else none
        | _ => none)
    else pure none

/-- **The next merge in a working set**; one slot alone needs none. -/
def mergeIn? (set : List Nat) : StateM Leaders (Option (Nat × Nat)) :=
  if set.length ≤ 1 then pure none
  else orElse (g.exitMerge? f set) (orElse (f.branch? set) (f.straight? set))

/-- The slots at the top, of the given coldness, that hold some slot of a loop. -/
def loopTops (loop : List Nat) (cold : Bool) : StateM Leaders (List Nat) := do
  let tops ← Leaders.topsOf ((loop.filterMap g.slotOf).filter (f.isCold · == cold))
  pure tops.eraseDups

/-- **The next merge of all**: straight lines anywhere, then inside loops from the innermost outwards, then anywhere. -/
def nextMerge? : StateM Leaders (Option (Nat × Nat)) :=
  orElse (f.straight? f.tops) (orElse
    (g.loops.findSomeM? fun loop => [false, true].findSomeM? fun cold => do
      let set ← g.loopTops f loop cold
      g.mergeIn? f set)
    (g.mergeIn? f f.tops))

/-- Merge at most `fuel` times. -/
def mergeTimes : Nat → SlotForest → StateM Leaders SlotForest
  | 0, f => pure f
  | fuel + 1, f => do
    match ← g.nextMerge? f with
    | some (a, b) => do
      let f ← f.merge a b
      mergeTimes fuel f
    | none => pure f

/-- **The forest and its shortcuts after so many merges.** -/
def grow (fuel : Nat) : SlotForest × Leaders :=
  (do
    let f ← g.plant
    g.mergeTimes fuel f : StateM Leaders SlotForest).run (Array.range g.owners.length)

/-- **Merge slots until no pattern applies.** -/
def mergeAll : SlotForest := (g.grow g.owners.length).1

end SlotGraph

end CodeImage

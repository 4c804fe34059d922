import CodeImage.Sorting
import CodeImage.Schedule.SlotGraph
/-!
# Join — merging slots, told of their rows

Merging slots puts rows of blocks next to each other, and the rows alone decide what is merged next: the links out of and
into a row, and whether a link meets the ends of both its rows, can be read off the rows at any time.  Here the same search
is told of the rows.  Three patterns are looked for in a working set of runs: a straight line (`straight?`), a loop exit
behind its only feeder (`loopExit?`) and the arms of a branch (`branch?`).  `nextJoin?` tries them on the whole method and
on each loop, `joinAll` joins until none applies.  Each join leaves one run less, so the number of runs bounds the joins.
-/
namespace CodeImage

/-- **A row of slots**, named by their owners, that stand next to each other. -/
structure Run where
  head : Nat
  tail : List Nat
  deriving DecidableEq, Repr

namespace Run

def single (b : Nat) : Run := ⟨b, []⟩

def blocks (r : Run) : List Nat := r.head :: r.tail

def last (r : Run) : Nat := r.tail.getLast?.getD r.head

def has (r : Run) (b : Nat) : Bool := r.blocks.contains b

/-- **`a` immediately before `b`.** -/
def append (a b : Run) : Run := ⟨a.head, a.tail ++ b.blocks⟩

theorem blocks_append (a b : Run) : (a.append b).blocks = a.blocks ++ b.blocks := rfl

end Run

namespace SlotGraph

/-- Links out of a run, by the slots of the run. -/
def outbound (g : SlotGraph) (r : Run) : List Link :=
  (r.blocks.flatMap fun b => g.links.filter (·.source == b)).filter (!r.has ·.target)

/-- Links into a run, by the slots of the run. -/
def inbound (g : SlotGraph) (r : Run) : List Link :=
  (r.blocks.flatMap fun b => g.links.filter (·.target == b)).filter (!r.has ·.source)

/-- A run is as heavy as its heaviest slot. -/
def runWeight (g : SlotGraph) (r : Run) : Int := r.tail.foldl (fun w b => max w (g.weight b)) (g.weight r.head)

def runCold (g : SlotGraph) (r : Run) : Bool := g.isCold r.head

end SlotGraph

/-- The run that a slot belongs to. -/
def runOf (runs : List Run) (b : Nat) : Option Run := runs.find? (·.has b)

/-- **A link that could become a fall-through**: from the last slot of its run to the first slot of the other. -/
def Link.meetsEnds (runs : List Run) (l : Link) : Bool :=
  (runOf runs l.source).any (·.last == l.source) && (runOf runs l.target).any (·.head == l.target)

namespace SlotGraph

/-- Two runs can be joined when they differ and are equally cold. -/
def joinable (g : SlotGraph) (a b : Run) : Bool := a != b && g.runCold a == g.runCold b

/-- **The only run of the working set that `r` leads to**, if a single link of its coldness leads there; with
`ends` the link has to meet the ends of both runs. -/
def soleTarget? (g : SlotGraph) (runs set : List Run) (ends : Bool) (r : Run) : Option Run :=
  match (g.outbound r).filter fun l => g.isCold l.target == g.runCold r && set.any (·.has l.target) with
  | [l] => if ends && !l.meetsEnds runs then none else runOf runs l.target
  | _ => none

/-- **The only run of the working set that leads to `r`**, likewise. -/
def soleSource? (g : SlotGraph) (runs set : List Run) (ends : Bool) (r : Run) : Option Run :=
  match (g.inbound r).filter fun l => g.isCold l.source == g.runCold r && set.any (·.has l.source) with
  | [l] => if ends && !l.meetsEnds runs then none else runOf runs l.source
  | _ => none

/-- **A straight line**: `a` leads only to `b`, and only `a` leads to `b`. -/
def straight? (g : SlotGraph) (runs set : List Run) : Option (Run × Run) :=
  set.findSome? fun a => match g.soleTarget? runs set true a with
    | some b => if g.soleSource? runs set true b == some a && g.joinable a b then some (a, b) else none
    | none => none

/-- The runs of the working set, heaviest first; equally heavy ones stay in the order in which they were made. -/
def byWeight (g : SlotGraph) (runs set : List Run) : List Run :=
  sortBy (fun r s => g.runWeight s ≤ g.runWeight r) (runs.filter set.contains)

/-- **A loop exit behind its only feeder.** -/
def loopExit? (g : SlotGraph) (runs set : List Run) : Option (Run × Run) :=
  [true, false].findSome? fun cold => (g.byWeight runs set).findSome? fun r =>
    if g.runCold r == cold && g.isLoopExit r.last then
      let feeders := (g.inbound r).filter fun l => g.isCold l.source == cold && set.any (·.has l.source)
      match (feeders.filterMap fun l => runOf runs l.source).eraseDups with
      | [p] => if g.joinable p r then some (p, r) else none
      | _ => none
    else none

/-- The two runs that two links of the given coldness lead to, if there are exactly two. -/
def twoTargets? (g : SlotGraph) (runs : List Run) (cold : Bool) (r : Run) : Option (Run × Run) :=
  match (g.outbound r).filter fun l => g.isCold l.target == cold with
  | [l, m] => match runOf runs l.target, runOf runs m.target with
    | some a, some b => some (a, b)
    | _, _ => none
  | _ => none

/-- The two runs that two links of the given coldness come from, if there are exactly two. -/
def twoSources? (g : SlotGraph) (runs : List Run) (cold : Bool) (r : Run) : Option (Run × Run) :=
  match (g.inbound r).filter fun l => g.isCold l.source == cold with
  | [l, m] => match runOf runs l.source, runOf runs m.source with
    | some a, some b => some (a, b)
    | _, _ => none
  | _ => none

/-- **If `a` then `b`, and `c` either way**: `b` goes behind `a`. -/
def ifThen? (g : SlotGraph) (runs set : List Run) (a b c : Run) : Option (Run × Run) :=
  if a != c && b != c && g.joinable a b
      && (g.twoSources? runs (g.runCold a) c == some (a, b) || g.twoSources? runs (g.runCold a) c == some (b, a))
      && g.soleSource? runs set false b == some a
  then some (a, b) else none

/-- **If `a` then `b` else `c`, both leading on to one run**: the heavier arm goes behind `a`, of equally heavy ones
the one that starts with the lower block. -/
def ifThenElse? (g : SlotGraph) (runs set : List Run) (a b c : Run) : Option (Run × Run) :=
  match g.soleTarget? runs set false b, g.soleTarget? runs set false c with
  | some x, some y =>
    let arm := if g.runWeight c < g.runWeight b || (g.runWeight b == g.runWeight c && b.head ≤ c.head) then b else c
    if x == y && g.joinable a arm then some (a, arm) else none
  | _, _ => none

/-- **A branch and one of its arms.** -/
def branch? (g : SlotGraph) (runs set : List Run) : Option (Run × Run) :=
  [false, true].findSome? fun cold => (g.byWeight runs set).findSome? fun a =>
    if g.runCold a == cold then
      match g.twoTargets? runs cold a with
      | some (b, c) =>
        if set.contains b && set.contains c then
          g.ifThen? runs set a b c <|> g.ifThen? runs set a c b <|> g.ifThenElse? runs set a b c
        else none
      | none => none
    else none

/-- **The next join in a working set**; one run alone needs none. -/
def joinIn? (g : SlotGraph) (runs set : List Run) : Option (Run × Run) :=
  if set.length ≤ 1 then none
  else g.loopExit? runs set <|> g.branch? runs set <|> g.straight? runs set

/-- The runs of the given coldness that hold some slot of a loop. -/
def loopRuns (g : SlotGraph) (runs : List Run) (loop : List Nat) (cold : Bool) : List Run :=
  ((loop.filter fun b => g.isCold b == cold).filterMap (runOf runs)).eraseDups

/-- **The next join of all**: straight lines anywhere, then inside loops from the innermost outwards, then anywhere. -/
def nextJoin? (g : SlotGraph) (runs : List Run) : Option (Run × Run) :=
  g.straight? runs runs
    <|> (g.loops.findSome? fun loop => [false, true].findSome? fun cold => g.joinIn? runs (g.loopRuns runs loop cold))
    <|> g.joinIn? runs runs

/-- Put `a` in front of `b`; the joined run is the youngest. -/
def join (runs : List Run) (a b : Run) : List Run := runs.filter (fun r => r != a && r != b) ++ [a.append b]

/-- Join at most `fuel` times. -/
def joinTimes (g : SlotGraph) : Nat → List Run → List Run
  | 0, runs => runs
  | fuel + 1, runs => match g.nextJoin? runs with
    | some (a, b) => g.joinTimes fuel (join runs a b)
    | none => runs

/-- **Join runs until no pattern applies**, from one run for each slot. -/
def joinAll (g : SlotGraph) : List Run := g.joinTimes g.owners.length (g.owners.map Run.single)

end SlotGraph

end CodeImage

import CodeImage.Bytes
import CodeImage.Memory.Placement
/-!
# The memory map

`MemoryMap` is the target's memory as a sorted list of stretches, each free or taken.  `ofDeclared` builds it from
declared ranges in any order, `allocate` finds room in the first stretch that has some, `reserve` takes given
addresses, `rebuild` starts over and takes the addresses of given spans.  Addresses are taken from one free stretch at a
time (`extract`): what is left of it stays, and what is taken goes to a taken neighbour of the same kind, if there is
one.
-/
namespace CodeImage

/-- **A stretch of memory**, free or taken. -/
structure HeapRange where
  start : Nat
  stop : Nat
  tag : MemoryTag
  taken : Bool
  deriving DecidableEq, Repr

namespace HeapRange

def size (r : HeapRange) : Nat := r.stop - r.start

/-- Two stretches differ in nothing but their addresses. -/
def alike (a b : HeapRange) : Bool := a.tag == b.tag && a.taken == b.taken

/-- The range as declared, with its state among the attributes. -/
def toMemoryRange (r : HeapRange) : MemoryRange :=
  ⟨r.start, r.stop,
    { r.tag with attributes := if r.taken then r.tag.attributes.union Attribute.allocated else r.tag.attributes }⟩

/-- A declared range, free whatever its attributes say. -/
def ofMemoryRange (r : MemoryRange) : HeapRange :=
  ⟨r.start, r.stop, { r.tag with attributes := r.tag.attributes.minus Attribute.allocated }, false⟩

/-- **A taken neighbour could absorb addresses taken from the free stretch `r`**: it is the same kind of memory. -/
def absorbs (neighbour r : HeapRange) : Bool := neighbour.tag == r.tag && neighbour.taken

end HeapRange

/-- `x` rounded up to a multiple of the alignment. -/
def alignUp (x alignment : Nat) : Nat :=
  if alignment ≤ 1 ∨ x % alignment = 0 then x else x + (alignment - x % alignment)

/-- `x` rounded down to a multiple of the alignment. -/
def alignDown (x alignment : Nat) : Nat := if alignment ≤ 1 then x else x - x % alignment

/-- **The target's memory**, sorted by address. -/
structure MemoryMap where
  ranges : List HeapRange
  deriving DecidableEq, Repr

namespace MemoryMap

/-- **Enter ranges sorted by start behind `prev`.**  What overlaps `prev` is cut off, and a range that touches it and is
alike becomes part of it. -/
def enter (prev : HeapRange) : List HeapRange → List HeapRange
  | [] => [prev]
  | r :: rest =>
    if r.start < prev.stop && r.stop ≤ prev.stop then enter prev rest
    else
      let r := { r with start := max r.start prev.stop }
      if prev.stop == r.start && prev.alike r then enter { prev with stop := r.stop } rest else prev :: enter r rest

/-- **The map of declared ranges.**  Where they overlap, the one that starts first counts, and of two that start
together the one declared first. -/
def ofDeclared (memory : List MemoryRange) : MemoryMap :=
  let sorted := ((memory.filter fun r => r.start < r.stop).map HeapRange.ofMemoryRange).mergeSort
    fun a b => a.start ≤ b.start
  match sorted with
  | [] => ⟨[]⟩
  | r :: rest => ⟨enter r rest⟩

/-- The stretch at `pos` goes on to the end of the next one, which is removed. -/
def joinNext (ranges : List HeapRange) (pos : Nat) : List HeapRange :=
  match ranges[pos + 1]? with
  | some next => (ranges.modify pos fun r => { r with stop := next.stop }).eraseIdx (pos + 1)
  | none => ranges

/-- **Take the addresses from `start` up to `stop` from the free stretch at `pos`.**  They may reach its bottom, its
top, both or none; a neighbour that they then touch absorbs them if it can. -/
def extract (ranges : List HeapRange) (pos start stop : Nat) : List HeapRange :=
  match ranges[pos]? with
  | none => ranges
  | some r =>
    let piece := { r with start, stop, taken := true }
    let mergePrev := 0 < pos && ranges[pos - 1]?.any fun prev => prev.stop == r.start && prev.absorbs r
    let mergeNext := ranges[pos + 1]?.any fun next => next.start == r.stop && next.absorbs r
    if start == r.start && stop == r.stop then
      let ranges := ranges.modify pos fun r => { r with taken := true }
      let ranges := if mergeNext then joinNext ranges pos else ranges
      if mergePrev then joinNext ranges (pos - 1) else ranges
    else if start == r.start then
      if mergePrev then
        (ranges.modify (pos - 1) fun prev => { prev with stop }).modify pos fun r => { r with start := stop }
      else (ranges.insertIdx pos piece).modify (pos + 1) fun r => { r with start := stop }
    else if stop == r.stop then
      let ranges := if mergeNext then ranges.modify (pos + 1) fun next => { next with start }
        else ranges.insertIdx (pos + 1) piece
      ranges.modify pos fun r => { r with stop := start }
    else
      let ranges := ranges.modify pos fun r => { r with stop := start }
      (ranges.insertIdx (pos + 1) piece).insertIdx (pos + 2) { r with start := stop, taken := false }

/-- **The first free stretch with addresses from `start` up to `stop`**: its place, counted from `pos`, and the first and
the end of these addresses. -/
def firstMeeting? (start stop pos : Nat) : List HeapRange → Option (Nat × Nat × Nat)
  | [] => none
  | r :: rest =>
    let lo := max r.start start
    let hi := min r.stop stop
    if !r.taken && lo < hi then some (pos, lo, hi) else firstMeeting? start stop (pos + 1) rest

/-- **Take the addresses of the span from the first free stretch that has some**, and start over with what becomes of
the list.  Every round leaves one such stretch less, so that the length of the list is rounds enough. -/
def reserveFrom (start stop : Nat) : Nat → List HeapRange → List HeapRange
  | 0, ranges => ranges
  | rounds + 1, ranges => match firstMeeting? start stop 0 ranges with
    | none => ranges
    | some (pos, lo, hi) => reserveFrom start stop rounds (extract ranges pos lo hi)

/-- **Take every free address from `start` up to `stop`**, across as many stretches as it meets. -/
def reserve (m : MemoryMap) (start stop : Nat) : MemoryMap := ⟨reserveFrom start stop m.ranges.length m.ranges⟩

/-- **Where `size` bytes fit into a stretch** so that the address `point` bytes behind their start is aligned: as low
as possible, or as high as possible.  Their end has to be a word. -/
def fitIn? (size point : Nat) (p : Placement) (r : HeapRange) : Option Nat :=
  if r.taken || !p.accepts r.tag || r.size < size then none
  else
    let aligned := if p.fromHigh then alignDown (r.stop - (size - point)) p.alignment
      else alignUp (r.start + point) p.alignment
    let stop := aligned + (size - point)
    if r.start + point ≤ aligned && stop < wordLimit && stop ≤ r.stop then some (aligned - point) else none

/-- **The first stretch with room**, counted from `pos`, and the address in it. -/
def firstFit? (size point : Nat) (p : Placement) (pos : Nat) : List HeapRange → Option (Nat × Nat)
  | [] => none
  | r :: rest => match fitIn? size point p r with
    | some a => some (pos, a)
    | none => firstFit? size point p (pos + 1) rest

/-- **Find room for `size` bytes**, `offset` bytes into which the placement's own offset starts, in the first stretch
that has some, and take it. -/
def allocate (m : MemoryMap) (size offset : Nat) (p : Placement) : Option (Nat × MemoryMap) :=
  let point := offset + p.alignmentOffset
  if size = 0 ∨ size < point then none
  else (firstFit? size point p 0 m.ranges).map fun (pos, a) => (a, ⟨extract m.ranges pos a (a + size)⟩)

/-- Join spans that touch or overlap the one before. -/
def groupSpans : List (Nat × Nat) → List (Nat × Nat)
  | [] => []
  | s :: rest => go s rest
where
  go (group : Nat × Nat) : List (Nat × Nat) → List (Nat × Nat)
    | [] => [group]
    | s :: rest => if s.1 ≤ group.2 then go (group.1, max group.2 s.2) rest else group :: go s rest

/-- **The map of declared ranges with the addresses of some spans taken.**  The spans come sorted by start. -/
def rebuild (memory : List MemoryRange) (spans : List (Nat × Nat)) : MemoryMap :=
  (groupSpans spans).foldl (fun m s => m.reserve s.1 s.2) (ofDeclared memory)

def freeBytes (m : MemoryMap) : Nat := (m.ranges.filter (!·.taken)).foldl (fun n r => n + r.size) 0

/-- The map as declared ranges. -/
def toMemory (m : MemoryMap) : List MemoryRange := m.ranges.map HeapRange.toMemoryRange

/-- What is wrong with a map. -/
inductive Fault where
  | empty (r : HeapRange)
  | unsorted (a b : HeapRange)
  | unmerged (a b : HeapRange)
  deriving DecidableEq, Repr

namespace Fault

def rangeText (r : HeapRange) : String := hex r.start ++ ".." ++ hex r.stop

def message : Fault → String
  | .empty r => s!"empty range {rangeText r}"
  | .unsorted a b => s!"ranges {rangeText a} and {rangeText b} overlap or are unsorted"
  | .unmerged a b => s!"ranges {rangeText a} and {rangeText b} should have been merged"

end Fault

/-- The first pair of neighbours that is out of order or alike. -/
def pairFault? : List HeapRange → Option Fault
  | a :: b :: rest =>
    if b.start < a.stop then some (.unsorted a b)
    else if a.stop == b.start && a.alike b then some (.unmerged a b)
    else pairFault? (b :: rest)
  | _ => none

/-- **The first fault of a map**: an empty stretch, or else neighbours out of order or not merged. -/
def fault? (m : MemoryMap) : Option Fault :=
  match m.ranges.find? fun r => r.stop ≤ r.start with
  | some r => some (.empty r)
  | none => pairFault? m.ranges

end MemoryMap

end CodeImage

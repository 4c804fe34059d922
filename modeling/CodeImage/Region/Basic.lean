import CodeImage.Bytes
import CodeImage.Memory.Map
import CodeImage.Region.Annotation
/-!
# Regions

A region is an addressable piece of the image: the bytes of one block or of one piece of data, the annotations that
say which words hold addresses, and, once it is placed, the address of its first byte.
-/
namespace CodeImage

/-- Why something has no address. -/
inductive PlacementError where
  | outOfMemory (what : String) (size : Nat) (placement : Placement)
  | unplaced (what : String)
  | emptyAllocation (what : String)
  deriving DecidableEq, Repr

namespace PlacementError

def message : PlacementError → String
  | .outOfMemory what size placement =>
    s!"cannot allocate memory for {what} ({size} bytes, {placement.text})"
  | .unplaced what => s!"{what} has no address yet"
  | .emptyAllocation what => s!"refusing to place empty {what}"

end PlacementError

/-- **An addressable piece of the image.**  Whoever refers to it points `pointerOffset` bytes behind its start. -/
structure Region where
  context : RegionContext
  placement : Placement
  cold : Bool
  pointerOffset : Nat
  base : Option Nat
  payload : Bytes
  annotations : List Annotation
  deriving DecidableEq, Repr

namespace Region

/-- A region without bytes. -/
def empty (context : RegionContext) (placement : Placement) : Region := ⟨context, placement, false, 0, none, [], []⟩

/-- The number of its bytes; a word as long as there are fewer than `wordLimit` of them. -/
def size (r : Region) : Nat := r.payload.length

def emit (r : Region) (bytes : Bytes) : Region := { r with payload := r.payload ++ bytes }

/-- **Zeros up to a multiple of the alignment.** -/
def padTo (r : Region) (alignment : Nat) : Region :=
  if alignment ≤ 1 then r else r.emit (List.replicate ((alignment - r.size % alignment) % alignment) 0)

def annotate (r : Region) (a : Annotation) : Region := { r with annotations := a.insert r.annotations }

def isPlaced (r : Region) : Bool := r.base.isSome

def address (r : Region) : Except PlacementError Nat :=
  match r.base with
  | some a => .ok a
  | none => .error (.unplaced r.context.text)

/-- The address behind the last byte. -/
def stop (r : Region) : Except PlacementError Nat := r.address.map (· + r.size)

/-- The address by which others refer to the region. -/
def pointer (r : Region) : Except PlacementError Nat := r.address.map (· + r.pointerOffset)

def contains (r : Region) (a : Nat) : Bool := r.base.any fun base => base ≤ a && a < base + r.size

/-- **Find room for the region and take it.** -/
def place (r : Region) (m : MemoryMap) : Except PlacementError (Region × MemoryMap) :=
  if r.payload.isEmpty then .error (.emptyAllocation r.context.text)
  else match m.allocate r.size r.pointerOffset r.placement with
    | some (a, m) => .ok ({ r with base := some a }, m)
    | none => .error (.outOfMemory r.context.text r.size r.placement)

/-- Forget the bytes, the annotations and the address. -/
def clear (r : Region) : Region := { r with base := none, payload := [], annotations := [] }

end Region

end CodeImage

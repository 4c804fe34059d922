import CodeImage.Relocation.Record
import CodeImage.Handler.Table
import CodeImage.Image.Program
/-!
# Images

The finished product: placed regions sorted by address, the sections they form, the records from which a loader
recreates the relocatable ones, and, for each method, its handler table, its code ranges, its schedule and the
addresses of its blocks.
-/
namespace CodeImage

/-- **A region at its address.** -/
structure PlacedRegion where
  index : Nat
  context : RegionContext
  address : Nat
  size : Nat
  cold : Bool
  payload : Bytes
  deriving DecidableEq, Repr

namespace PlacedRegion

def stop (r : PlacedRegion) : Nat := r.address + r.size

/-- The end as a word. -/
def wordStop (r : PlacedRegion) : Nat := r.stop % wordLimit

def isCode (r : PlacedRegion) : Bool :=
  match r.context with
  | .block _ _ => true
  | .data _ => false

end PlacedRegion

/-- **The address ranges that hold a method's code.** -/
structure CodeMap where
  method : String
  ranges : List (Nat × Nat)
  deriving DecidableEq, Repr

/-- **A finished image.** -/
structure Image where
  regions : List PlacedRegion
  sections : List Span
  relocations : List RelocationRecord
  handlerTables : List HandlerTable
  codeMaps : List CodeMap
  schedules : List Schedule
  blockAddresses : List (List (Option Nat))
  usedMemory : List MemoryRange
  restarts : Nat
  deriving DecidableEq, Repr

namespace Image

/-- **The region that holds an address.**  Where regions overlap, the one that starts last. -/
def regionAt? (i : Image) (a : Nat) : Option PlacedRegion :=
  (i.regions.take (partitionPoint (fun r => decide (r.address ≤ a)) i.regions)).reverse.find? fun r => a < r.wordStop

def blockAddress? (i : Image) (m b : Nat) : Option Nat := (i.blockAddresses[m]?.bind (·[b]?)).join

/-- The bytes of code. -/
def codeSize (i : Image) : Nat := (i.regions.filter (·.isCode)).foldl (fun n r => n + r.size) 0

end Image

end CodeImage

import CodeImage.Memory.Map
import CodeImage.Random.Source
/-!
# Random memory scripts

A random memory map and a row of requests for room in it.  Ranges are given in units of sixteen bytes and may overlap;
flash and RAM take turns.
-/
namespace CodeImage

/-- **A request for room.** -/
structure MemoryRequest where
  size : Nat
  alignmentLog : Nat
  offset : Nat
  fromHigh : Bool
  data : Bool
  deriving DecidableEq, Repr

namespace MemoryRequest

def choose : Choice MemoryRequest := do
  let size ← Choice.number 2
  let alignmentLog ← Choice.number 1
  let offset ← Choice.number 1
  let fromHigh ← Choice.flag
  let data ← Choice.flag
  return ⟨size, alignmentLog, offset, fromHigh, data⟩

/-- The offset of the aligned point, which lies in what is asked for. -/
def point (r : MemoryRequest) : Nat := min r.offset r.size

def alignment (r : MemoryRequest) : Nat := Nat.pow 2 (r.alignmentLog % 8)

def placement (r : MemoryRequest) : Placement :=
  { Placement.simple r.alignment (if r.data then Usage.data else Usage.code) with fromHigh := r.fromHigh }

end MemoryRequest

/-- **A memory map and requests.**  A range is a start and a length in units of sixteen bytes. -/
structure MemoryScript where
  ranges : List (Nat × Nat)
  requests : List MemoryRequest
  deriving DecidableEq, Repr

namespace MemoryScript

def choose : Choice MemoryScript := do
  let ranges ← Choice.many do
    let start ← Choice.number 2
    let length ← Choice.number 2
    return (start, length)
  let requests ← Choice.many MemoryRequest.choose
  return ⟨ranges, requests⟩

/-- The tag of range number `n`. -/
def tagOf (n : Nat) : MemoryTag :=
  if n % 2 = 1 then ⟨none, (Attribute.read.union Attribute.ram).union Attribute.write, Usage.data⟩
  else ⟨none, (Attribute.read.union Attribute.flash).union Attribute.execute, Usage.code⟩

/-- The declared memory; ranges of no length are left out. -/
def memory (s : MemoryScript) : List MemoryRange :=
  (s.ranges.zipIdx.filter fun ((_, length), _) => length != 0).map fun ((start, length), n) =>
    ⟨16 * start, 16 * start + 16 * length, tagOf n⟩

/-- Serve one request: the map afterwards, and the address behind those before. -/
def serve (state : MemoryMap × List (Option Nat)) (r : MemoryRequest) : MemoryMap × List (Option Nat) :=
  match state.1.allocate r.size r.point r.placement with
  | some (a, m) => (m, state.2 ++ [some a])
  | none => (state.1, state.2 ++ [none])

/-- **Serve all requests**: the map afterwards, and the address that each request got. -/
def run (s : MemoryScript) : MemoryMap × List (Option Nat) :=
  s.requests.foldl serve (MemoryMap.ofDeclared s.memory, [])

end MemoryScript

end CodeImage

import CodeImage.Memory.Map
/-!
# Finding room in words

The search of `MemoryMap.allocate` as it is made with addresses that are words.  Additions and subtractions that may
leave the words are tested and then find no room; `Word.sub` is the plain subtraction, which nothing tests.
-/
namespace CodeImage

/-- **A plain subtraction that would go below zero.** -/
structure Underflow where
  minuend : Nat
  subtrahend : Nat
  deriving DecidableEq, Repr

namespace Word

/-- The sum, if it is a word. -/
def add? (x y : Nat) : Option Nat := if x + y < wordLimit then some (x + y) else none

/-- The difference, if it is a word. -/
def sub? (x y : Nat) : Option Nat := if y ≤ x then some (x - y) else none

def sub (x y : Nat) : Except Underflow Nat := if y ≤ x then .ok (x - y) else .error ⟨x, y⟩

/-- `x` rounded up to a multiple of the alignment, if that is a word. -/
def alignUp (x alignment : Nat) : Except Underflow (Option Nat) :=
  if alignment ≤ 1 ∨ x % alignment = 0 then .ok (some x)
  else (sub alignment (x % alignment)).map (add? x)

/-- `x` rounded down to a multiple of the alignment. -/
def alignDown (x alignment : Nat) : Except Underflow Nat :=
  if alignment ≤ 1 then .ok x else sub x (x % alignment)

/-- Where the aligned point goes in a stretch, with `tail` bytes from there on: as high or as low as possible. -/
def alignedPoint (point tail : Nat) (p : Placement) (r : HeapRange) : Except Underflow (Option Nat) :=
  if p.fromHigh then do
    let last ← sub r.stop tail
    (alignDown last p.alignment).map some
  else match add? r.start point with
    | some first => alignUp first p.alignment
    | none => .ok none

/-- The start of the bytes that have their aligned point at `aligned`, if they lie in the stretch. -/
def startAt? (point tail : Nat) (r : HeapRange) (aligned : Nat) : Option Nat := do
  let a ← sub? aligned point
  let stop ← add? aligned tail
  if r.start ≤ a && stop ≤ r.stop then some a else none

/-- **Where `size` bytes fit into a stretch**, `tail` of them from the aligned point on. -/
def fitIn? (size point tail : Nat) (p : Placement) (r : HeapRange) : Except Underflow (Option Nat) :=
  if r.taken || !p.accepts r.tag then .ok none
  else do
    let room ← sub r.stop r.start
    if room < size then return none
    else do
      let aligned ← alignedPoint point tail p r
      return aligned.bind (startAt? point tail r)

/-- The first stretch with room, counted from `pos`, and the address in it. -/
def firstFit (size point tail : Nat) (p : Placement) (pos : Nat) :
    List HeapRange → Except Underflow (Option (Nat × Nat))
  | [] => .ok none
  | r :: rest => do
    match ← fitIn? size point tail p r with
    | some a => return some (pos, a)
    | none => firstFit size point tail p (pos + 1) rest

end Word

/-- **Find room for `size` bytes and take it**, by arithmetic on words. -/
def MemoryMap.allocateInWords (m : MemoryMap) (size offset : Nat) (p : Placement) :
    Except Underflow (Option (Nat × MemoryMap)) :=
  if size = 0 then .ok none
  else match Word.add? offset p.alignmentOffset with
    | none => .ok none
    | some point => match Word.sub? size point with
      | none => .ok none
      | some tail => do
        let found ← Word.firstFit size point tail p 0 m.ranges
        return found.map fun (pos, a) => (a, ⟨extract m.ranges pos a (a + size)⟩)

end CodeImage

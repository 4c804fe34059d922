import CodeImage.Image.Program
/-!
# Emission

Turns a program into regions: first one for each piece of data, then one for each scheduled block, method after
method.  A block's region starts with what the hollow blocks that share its slot emit.
-/
namespace CodeImage

/-- **The level at which each instruction has to be encoded**, by method and instruction; zero where none is given. -/
structure Levels where
  entries : List ((Nat × Nat) × Nat)
  deriving DecidableEq, Repr

namespace Levels

def empty : Levels := ⟨[]⟩

def get (l : Levels) (key : Nat × Nat) : Nat := (l.entries.lookup key).getD 0

/-- One level up. -/
def raise (l : Levels) (key : Nat × Nat) : Levels := ⟨(key, l.get key + 1) :: l.entries⟩

end Levels

/-- **A method with the order of its blocks.** -/
structure Scheduled where
  method : Method
  schedule : Schedule

/-- Annotations of fragments that follow each other from an offset on.  Offsets are words as long as a region has fewer than
`wordLimit` bytes. -/
def annotationsFrom (offset : Nat) : List (Option (Nat × Nat) × Fragment) → List Annotation
  | [] => []
  | (origin, f) :: rest => (f.annotation? offset origin).toList ++ annotationsFrom (offset + f.payload.length) rest

namespace Program

/-- **The region of a piece of data.** -/
def dataRegion (p : Program) (platform : Platform) (item : DataItem) : Except ImageError Region := do
  let annotations : List Annotation ← item.refs.mapM fun r =>
    if item.payload.length < r.offset + 4 then
      .error (.unresolved (.beyondData r.target item.name r.offset))
    else match p.target? r.target with
      | some t => .ok ⟨r.offset, 4, .absolute t r.addend⟩
      | none => .error (.unresolved (.symbol r.target))
  return {
    context := .data item.name, placement := item.placement.getD platform.data, cold := false
    pointerOffset := item.pointerOffset, base := none, payload := item.payload
    annotations := annotations.foldl (fun l a => a.insert l) [] }

/-- Where instruction `i` of block `b` is encoded, `offset` bytes into its region. -/
def siteOf (p : Program) (levels : Levels) (m : Nat) (s : Schedule) (b i offset : Nat) : Site :=
  { method := m, block := b, insn := i, offset, level := levels.get (m, i), fallsThrough := s.adjacent b
    methodTarget? := p.methodTarget?, dataTarget? := p.dataTarget? }

/-- **Encode instructions one after the other**, the first of them `offset` bytes into the region. -/
def encodeInsns (p : Program) (levels : Levels) (m : Nat) (s : Schedule) :
    Nat → List (Nat × Instruction) → Except ImageError (List (Option (Nat × Nat) × Fragment))
  | _, [] => .ok []
  | offset, (b, i) :: rest => do
    let fragments ← i.encode (p.siteOf levels m s b i.index offset)
    let more ← p.encodeInsns levels m s (offset + (payloadOf fragments).length) rest
    return fragments.map (some (m, i.index), ·) ++ more

/-- The instructions that a block's region holds: those of the hollow blocks in front of it, then its own. -/
def regionInsns (sm : Scheduled) (b : Nat) : List (Nat × Instruction) :=
  (sm.schedule.aliasesOf b ++ [b]).flatMap fun c => (sm.method.insnsOf c).map (c, ·)

/-- **The region of a block.** -/
def blockRegion (p : Program) (platform : Platform) (levels : Levels) (m : Nat) (sm : Scheduled) (b : Nat) :
    Except ImageError Region := do
  let cold := sm.schedule.isCold b
  let encoded ← p.encodeInsns levels m sm.schedule 0 (regionInsns sm b)
  let fragments := if (payloadOf (encoded.map (·.2))).isEmpty then encoded ++ (p.filler m b cold).map (none, ·)
    else encoded
  return {
    context := .block m b, placement := if cold then platform.coldCode else platform.hotCode, cold
    pointerOffset := 0, base := none, payload := payloadOf (fragments.map (·.2))
    annotations := annotationsFrom 0 fragments }

/-- **All regions**, numbered by their place in the list. -/
def emit (p : Program) (platform : Platform) (levels : Levels) (scheduled : List Scheduled) :
    Except ImageError (List Region) := do
  let data ← p.data.mapM (p.dataRegion platform)
  let code ← scheduled.zipIdx.mapM fun (sm, m) => sm.schedule.order.mapM (p.blockRegion platform levels m sm)
  return data ++ code.flatten

end Program

end CodeImage

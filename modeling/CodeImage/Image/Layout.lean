import CodeImage.Image.Collect
/-!
# Laying out an image

Every method is scheduled once.  A round emits all regions, places them and fills in their references.  When some
distance is out of reach, the instructions that need it are raised by one level and the next round starts from
scratch, at most `maxRestarts` times.
-/
namespace CodeImage

/-- **The end of a round**: placed and patched regions, and the instructions that need a longer encoding. -/
structure Round where
  regions : List Region
  used : MemoryMap
  raised : List (Nat × Nat)
  deriving DecidableEq, Repr

namespace Program

/-- Schedule every method. -/
def scheduleAll (p : Program) : Except FlowError (List Scheduled) :=
  p.methods.mapM fun m => m.schedule.map (Scheduled.mk m)

/-- **One round** at the given levels. -/
def round (p : Program) (platform : Platform) (options : Options) (scheduled : List Scheduled) (levels : Levels) :
    Except LayoutError Round := do
  let regions ← (p.emit platform levels scheduled).mapError .image
  let (placed, used) ← (p.place platform options regions).mapError .placement
  let (patched, raised) ← patchAll scheduled placed
  return ⟨patched, used, raised⟩

/-- **Raise instructions by one level each.** -/
def raiseAll (p : Program) (levels : Levels) (insns : List (Nat × Nat)) : Except ImageError Levels :=
  insns.foldlM (fun levels (m, i) =>
    if p.maxLevel ≤ levels.get (m, i) then .error (.exhausted (.insn i (p.methodName m)))
    else .ok (levels.raise (m, i))) levels

/-- Run rounds until one reaches everything; `left` restarts are left after `restarts` have been made. -/
def rounds (p : Program) (platform : Platform) (options : Options) (scheduled : List Scheduled) :
    Nat → Nat → Levels → Except LayoutError Image
  | left, restarts, levels => do
    let r ← p.round platform options scheduled levels
    if r.raised.isEmpty then collect platform options scheduled r.regions r.used restarts
    else match left with
      | 0 => throw (.image (.restartLimit restarts))
      | left + 1 => do
        let levels ← (p.raiseAll levels r.raised).mapError .image
        p.rounds platform options scheduled left (restarts + 1) levels

/-- **Lay out a program.** -/
def layout (p : Program) (platform : Platform) (options : Options) : Except LayoutError Image := do
  let scheduled ← p.scheduleAll.mapError .flow
  p.rounds platform options scheduled options.maxRestarts 0 Levels.empty

end Program

end CodeImage

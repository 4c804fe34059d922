import CodeImage.Image.Basic
import CodeImage.Image.Patch
/-!
# Collection

Joins placed and patched regions into the sections of the image and derives the tables that go with it.  Placed regions
end within the words, and so do the sections.
-/
namespace CodeImage

/-- **The placed regions by address**, then by end, then by number. -/
def sortRegions (regions : List Region) : List PlacedRegion :=
  let placed := regions.zipIdx.filterMap fun (r, i) =>
    r.base.map fun a => PlacedRegion.mk i r.context a r.size r.cold r.payload
  placed.mergeSort fun a b => a.address < b.address || (a.address == b.address && a.stop ≤ b.stop)

/-- The place of the first difference of two rows of bytes, as far as both reach. -/
def firstDifference? : Nat → Bytes → Bytes → Option Nat
  | i, a :: as, b :: bs => if a == b then firstDifference? (i + 1) as bs else some i
  | _, _, _ => none

/-- **Add a region that starts no later than the end of a section.**  Where they overlap they have to agree, if that
is checked. -/
def extendSection (check : Bool) (s : Span) (r : PlacedRegion) : Except ImageError Span :=
  let shared := s.bytes.drop (r.address - s.address)
  match if check then firstDifference? 0 shared r.payload else none with
  | some i => .error (.inconsistency (r.address + i))
  | none => .ok ⟨s.address, s.bytes ++ r.payload.drop shared.length⟩

/-- Add regions to the last of some sections, or begin new ones. -/
def sectionsFrom (check : Bool) (s : Span) : List PlacedRegion → Except ImageError (List Span)
  | [] => .ok [s]
  | r :: rest =>
    if r.address ≤ s.stop then do
      let s ← extendSection check s r
      sectionsFrom check s rest
    else do
      let more ← sectionsFrom check ⟨r.address, r.payload⟩ rest
      return s :: more

/-- **The sections of sorted regions**: touching and overlapping regions joined. -/
def collectSections (check : Bool) : List PlacedRegion → Except ImageError (List Span)
  | [] => .ok []
  | r :: rest => sectionsFrom check ⟨r.address, r.payload⟩ rest

/-- **The loader has to fill this address**: it is not in place before the image starts and does not hold what the
loader reads.  The first range that holds it decides. -/
def isRelocatable (memory : List MemoryRange) (a : Nat) : Bool :=
  (memory.find? (·.contains a)).any fun r =>
    !r.tag.usage.hasAll Usage.relocation && !r.tag.attributes.hasAll Attribute.loadedAtEntrypoint

/-- Join ranges that touch the one before. -/
def joinRanges : List (Nat × Nat) → List (Nat × Nat)
  | [] => []
  | r :: rest => go r rest
where
  go (r : Nat × Nat) : List (Nat × Nat) → List (Nat × Nat)
    | [] => [r]
    | q :: rest => if r.2 == q.1 then go (r.1, q.2) rest else r :: go q rest

/-- **The protected spans of a method's code**, in the order of its schedule. -/
def handlerSpans (book : AddressBook) (m : Nat) (sm : Scheduled) : Except LayoutError (List HandlerRange) :=
  sm.schedule.order.mapM fun b => do
    let r ← match book.regions.find? (·.context == .block m b) with
      | some r => .ok r
      | none => .error (.image (.unresolved (.block m b)))
    let start ← r.address.mapError .placement
    let handlers ← (sm.method.clausesOf b).mapM fun c => do
      let handler ← (book.resolve (.block m c.handler)).mapError .image
      return HandlerEntry.mk c.filter handler
    return ⟨start, start + r.size, handlers⟩

/-- **The code ranges of a method.** -/
def codeMapOf (sm : Scheduled) (spans : List HandlerRange) : CodeMap :=
  let sorted := (spans.map fun s => (s.start, s.stop)).mergeSort fun a b => a.1 < b.1 || (a.1 == b.1 && a.2 ≤ b.2)
  ⟨sm.method.name, joinRanges sorted⟩

/-- **The image of placed and patched regions.** -/
def collect (platform : Platform) (options : Options) (scheduled : List Scheduled) (regions : List Region)
    (used : MemoryMap) (restarts : Nat) : Except LayoutError Image := do
  let book : AddressBook := ⟨scheduled, regions⟩
  let placed := sortRegions regions
  let sections ← (collectSections options.checkConsistency placed).mapError .image
  let pieces := (placed.filter fun r => isRelocatable platform.memory r.address).map fun r => ⟨r.address, r.payload⟩
  let spans ← scheduled.zipIdx.mapM fun (sm, m) => handlerSpans book m sm
  return {
    regions := placed
    sections
    relocations := Relocation.encode options.minZeroRun pieces
    handlerTables := (scheduled.zip spans).map fun (sm, s) => HandlerTable.of sm.method.isSubtype s
    codeMaps := (scheduled.zip spans).map fun (sm, s) => codeMapOf sm s
    schedules := scheduled.map (·.schedule)
    blockAddresses := scheduled.zipIdx.map fun (sm, m) =>
      (List.range sm.method.blocks.length).map (book.blockAddress? m)
    usedMemory := used.toMemory
    restarts }

end CodeImage

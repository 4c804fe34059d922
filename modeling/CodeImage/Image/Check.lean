import CodeImage.Image.Basic
import CodeImage.Memory.Map
/-!
# Checks of images

What has to hold of an image that was laid out from a program: its schedules are orders of the methods' blocks and
agree with memory, its regions lie in memory apart from each other, its records recreate what the loader fills, and
its handler tables lead to code.  Ends are words: one beyond the last address is counted from zero on.
-/
namespace CodeImage

/-- **What is wrong with an image.** -/
inductive ImageFault where
  | unscheduled (method : String)
  | scheduledTwice (method : String) (block : Nat)
  | wrongIndex (method : String) (block : Nat)
  | hotAfterCold (method : String) (block : Nat)
  | entryUnscheduled (method : String)
  | noAddress (method : String) (block : Nat)
  | apart (method : String) (first second : Nat)
  | strayInGroup (method : String) (block : Nat)
  | badGroups (method : String)
  | outOfOrder (first second : Nat)
  | overlap (first second : Nat)
  | outsideMemory (context : RegionContext)
  | heap (cause : MemoryMap.Fault)
  | accounting
  | missingSection (address : Nat)
  | badHandlerRange (method : Nat)
  | handlerNotCode (method address : Nat)
  deriving DecidableEq, Repr

namespace ImageFault

def message : ImageFault → String
  | .unscheduled m => m ++ ": no schedule"
  | .scheduledTwice m b => m ++ ": " ++ HandleKind.block.text b ++ " scheduled twice"
  | .wrongIndex m b => m ++ ": " ++ HandleKind.block.text b ++ " has the wrong index"
  | .hotAfterCold m b => m ++ ": hot " ++ HandleKind.block.text b ++ " after cold code"
  | .entryUnscheduled m => m ++ ": entry block unscheduled"
  | .noAddress m b => m ++ ": " ++ HandleKind.block.text b ++ " has no address"
  | .apart m a b => m ++ ": " ++ HandleKind.block.text a ++ " and " ++ HandleKind.block.text b
    ++ " are adjacent in the schedule but not in memory"
  | .strayInGroup m b => m ++ ": group holds unscheduled " ++ HandleKind.block.text b
  | .badGroups m => m ++ ": groups don't partition the schedule"
  | .outOfOrder a b =>
    "regions " ++ HandleKind.region.text a ++ " and " ++ HandleKind.region.text b ++ " are out of order"
  | .overlap a b => "regions " ++ HandleKind.region.text a ++ " and " ++ HandleKind.region.text b ++ " overlap"
  | .outsideMemory c => "region " ++ c.text ++ " lies outside memory"
  | .heap cause => cause.message
  | .accounting => "heap accounting is off"
  | .missingSection a => "section at " ++ hex a ++ " is missing from the relocations"
  | .badHandlerRange m => "method " ++ toString m ++ ": bad exception range"
  | .handlerNotCode m a => "method " ++ toString m ++ ": handler at " ++ hex a ++ " isn't code"

end ImageFault

/-- The pairs of neighbours in a list. -/
def neighbours {α : Type} (l : List α) : List (α × α) := l.zip l.tail

namespace Schedule

/-- The first thing wrong with an order: a block named twice, a wrong index, or hot code behind cold. -/
def orderFault? (s : Schedule) (method : String) (seen : List Nat) (sawCold : Bool) : List Nat → Option ImageFault
  | [] => none
  | b :: rest =>
    if seen.contains b then some (.scheduledTwice method b)
    else if s.indexOf b ≠ some seen.length then some (.wrongIndex method b)
    else if sawCold && !s.isCold b then some (.hotAfterCold method b)
    else s.orderFault? method (b :: seen) (sawCold || s.isCold b) rest

/-- The first thing wrong with the groups. -/
def groupFault? (s : Schedule) (method : String) : Option ImageFault :=
  match s.groups.flatten.find? (!s.order.contains ·) with
  | some b => some (.strayInGroup method b)
  | none => if s.groups.flatten.length = s.order.length then none else some (.badGroups method)

end Schedule

namespace Image

/-- Neighbours in the schedule that do not touch in memory, though control falls from one into the other. -/
def apart? (i : Image) (s : Schedule) (m : Nat) (method : String) : Option ImageFault :=
  (neighbours s.order).findSome? fun (a, b) =>
    if !s.adjacent a b then none
    else match (i.blockAddress? m a).bind i.regionAt?, i.blockAddress? m b with
      | some r, some next => if r.wordStop = next then none else some (.apart method a b)
      | _, _ => some (.apart method a b)

/-- **The first thing wrong with the schedule of a method** of number `m`. -/
def scheduleFault? (i : Image) (method : Method) (m : Nat) (s : Schedule) : Option ImageFault :=
  s.orderFault? method.name [] false s.order
    <|> (if s.isScheduled method.entry then none else some (.entryUnscheduled method.name))
    <|> (((List.range method.blocks.length).find? fun b => s.isScheduled b && (i.blockAddress? m b).isNone).map
      (.noAddress method.name))
    <|> i.apart? s m method.name
    <|> s.groupFault? method.name

/-- Regions stand in order of their addresses and do not overlap. -/
def regionFault? (i : Image) : Option ImageFault :=
  (neighbours i.regions).findSome? fun (a, b) =>
    if a.address < b.address ∨ (a.address = b.address ∧
        (a.wordStop < b.wordStop ∨ (a.wordStop = b.wordStop ∧ a.index < b.index))) then
      if b.address < a.wordStop then some (.overlap a.index b.index) else none
    else some (.outOfOrder a.index b.index)

/-- Every region lies in one range of memory. -/
def memoryFault? (i : Image) (memory : List MemoryRange) : Option ImageFault :=
  (i.regions.find? fun r => !memory.any fun m => m.start ≤ r.address && r.wordStop ≤ m.stop).map
    fun r => .outsideMemory r.context

/-- The memory map that the regions leave is sound, and no byte of it is both used and free. -/
def heapFault? (i : Image) (memory : List MemoryRange) : Option ImageFault :=
  let spans := i.regions.map fun r => (r.address, r.wordStop)
  let map := MemoryMap.rebuild memory spans
  let used := spans.foldl (fun n s => n + wordSub s.2 s.1) 0
  (map.fault?.map .heap)
    <|> if memory.foldl (fun n m => n + wordSub m.stop m.start) 0 < map.freeBytes + used then some .accounting else none

/-- Nothing has to be done to bring what stands at an address into memory. -/
def isInPlace (memory : List MemoryRange) (a : Nat) : Bool :=
  memory.any fun m => m.contains a
    && (m.tag.attributes.hasAll Attribute.loadedAtEntrypoint || m.tag.usage.hasAll Usage.relocation)

/-- A span holds a section's bytes at their addresses. -/
def holds (span sect : Span) : Bool :=
  span.address ≤ sect.address && sect.wordStop ≤ span.wordStop
    && (span.bytes.drop (sect.address - span.address)).take sect.bytes.length == sect.bytes

/-- Every section that is not in place is among what the records write. -/
def recordFault? (i : Image) (memory : List MemoryRange) : Option ImageFault :=
  let written := Relocation.reconstruct i.relocations
  (i.sections.find? fun s => !isInPlace memory s.address && !written.any (holds · s)).map
    fun s => .missingSection s.address

/-- Ranges are not empty and stand in order from `bound` on, and their handlers lie in regions. -/
def handlerFault? (i : Image) (m : Nat) (bound : Nat) : List HandlerRange → Option ImageFault
  | [] => none
  | r :: rest =>
    if r.stop ≤ r.start ∨ r.start < bound then some (.badHandlerRange m)
    else match r.handlers.find? fun h => (i.regionAt? h.handler).isNone with
      | some h => some (.handlerNotCode m h.handler)
      | none => i.handlerFault? m r.stop rest

/-- What is wrong with the schedule of the `m`-th method; every method has one. -/
def methodFault? (i : Image) (method : Method) (m : Nat) : Option ImageFault :=
  match i.schedules[m]? with
  | some s => i.scheduleFault? method m s
  | none => some (.unscheduled method.name)

/-- **The first thing wrong with an image** that was laid out from the given methods for the given memory. -/
def fault? (i : Image) (methods : List Method) (memory : List MemoryRange) : Option ImageFault :=
  (methods.zipIdx.findSome? fun (method, m) => i.methodFault? method m)
    <|> i.regionFault?
    <|> i.memoryFault? memory
    <|> i.heapFault? memory
    <|> i.recordFault? memory
    <|> i.handlerTables.zipIdx.findSome? fun (t, m) => i.handlerFault? m 0 t.ranges

end Image

end CodeImage

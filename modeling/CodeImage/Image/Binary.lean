import CodeImage.Binary.Codec
import CodeImage.Image.Basic
/-!
# The binary form of images

Field after field, in the order of `Image`'s declaration.
-/
namespace CodeImage

namespace RegionContext

def codec : Codec RegionContext :=
  (Codec.either (.pair .word .word) .text).map
    (fun c => match c with
      | .block m b => .inl (m, b)
      | .data name => .inr name)
    fun x => match x with
      | .inl (m, b) => some (.block m b)
      | .inr name => some (.data name)

end RegionContext

namespace PlacedRegion

def codec : Codec PlacedRegion :=
  (Codec.pair .word (.pair RegionContext.codec (.pair .word (.pair .word (.pair .flag .bytes))))).map
    (fun r => (r.index, r.context, r.address, r.size, r.cold, r.payload))
    fun (index, context, address, size, cold, payload) => some ⟨index, context, address, size, cold, payload⟩

end PlacedRegion

namespace Span

def codec : Codec Span :=
  (Codec.pair .word .bytes).map (fun s => (s.address, s.bytes)) fun (address, bytes) => some ⟨address, bytes⟩

end Span

namespace RelocationRecord

def codec : Codec RelocationRecord :=
  (Codec.either (.pair .word (.list .word)) (.pair .word .word)).map
    (fun r => match r with
      | .copy a words => .inl (a, words)
      | .clear a n => .inr (a, n))
    fun x => match x with
      | .inl (a, words) => some (.copy a words)
      | .inr (a, n) => some (.clear a n)

end RelocationRecord

namespace HandlerTable

def entryCodec : Codec HandlerEntry :=
  (Codec.pair (.option .word) .word).map (fun h => (h.filter, h.handler)) fun (f, h) => some ⟨f, h⟩

def rangeCodec : Codec HandlerRange :=
  (Codec.pair .word (.pair .word (.list entryCodec))).map (fun r => (r.start, r.stop, r.handlers))
    fun (start, stop, handlers) => some ⟨start, stop, handlers⟩

def codec : Codec HandlerTable := (Codec.list rangeCodec).map (·.ranges) fun ranges => some ⟨ranges⟩

end HandlerTable

namespace CodeMap

def codec : Codec CodeMap :=
  (Codec.pair .text (.list (.pair .word .word))).map (fun c => (c.method, c.ranges))
    fun (method, ranges) => some ⟨method, ranges⟩

end CodeMap

namespace Schedule

def codec : Codec Schedule :=
  (Codec.pair (.list .word) (.pair (.list (.option .word)) (.pair (.list .flag) (.pair (.list (.option .word))
      (.pair (.list (.list .word)) (.list (.list .word))))))).map
    (fun s => (s.order, s.index, s.cold, s.aliasOf, s.aliases, s.groups))
    fun (order, index, cold, aliasOf, aliases, groups) => some ⟨order, index, cold, aliasOf, aliases, groups⟩

end Schedule

namespace MemoryRange

def codec : Codec MemoryRange :=
  (Codec.pair .word (.pair .word (.pair (.option .text) (.pair .word .word)))).map
    (fun r => (r.start, r.stop, r.tag.sect, r.tag.attributes.bits, r.tag.usage.bits))
    fun (start, stop, sect, attributes, usage) => some ⟨start, stop, ⟨sect, ⟨attributes⟩, ⟨usage⟩⟩⟩

end MemoryRange

namespace Image

/-- **The binary form of an image.** -/
def codec : Codec Image :=
  (Codec.pair (.list PlacedRegion.codec) (.pair (.list Span.codec) (.pair (.list RelocationRecord.codec)
      (.pair (.list HandlerTable.codec) (.pair (.list CodeMap.codec) (.pair (.list Schedule.codec)
        (.pair (.list (.list (.option .word))) (.pair (.list MemoryRange.codec) .word)))))))).map
    (fun i => (i.regions, i.sections, i.relocations, i.handlerTables, i.codeMaps, i.schedules, i.blockAddresses,
      i.usedMemory, i.restarts))
    fun (regions, sections, relocations, handlerTables, codeMaps, schedules, blockAddresses, usedMemory, restarts) =>
      some ⟨regions, sections, relocations, handlerTables, codeMaps, schedules, blockAddresses, usedMemory, restarts⟩

end Image

end CodeImage

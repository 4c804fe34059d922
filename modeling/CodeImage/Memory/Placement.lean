import CodeImage.Memory.Flags
import CodeImage.Text.Quoted
/-!
# Memory ranges and placements

`MemoryRange` is a stretch of the target's memory with what is known of it, `Placement` what something that is to be
put into memory asks for.
-/
namespace CodeImage

/-- **What kind of memory a stretch is.** -/
structure MemoryTag where
  sect : Option String
  attributes : Flags
  usage : Flags
  deriving DecidableEq, Repr

/-- **The addresses from `start` up to and without `stop`.** -/
structure MemoryRange where
  start : Nat
  stop : Nat
  tag : MemoryTag
  deriving DecidableEq, Repr

namespace MemoryRange

def contains (r : MemoryRange) (a : Nat) : Bool := r.start ≤ a && a < r.stop

end MemoryRange

/-- **What a placement asks for.**  The aligned point lies `alignmentOffset` bytes further than the caller's own
offset; alignments of zero and one are none. -/
structure Placement where
  alignment : Nat
  alignmentOffset : Nat
  fromHigh : Bool
  sect : Option String
  usage : Flags
  attributes : Flags
  deriving DecidableEq, Repr

namespace Placement

/-- A placement that asks for an alignment and a usage only. -/
def simple (alignment : Nat) (usage : Flags) : Placement := ⟨alignment, 0, false, none, usage, Flags.none⟩

/-- **Memory with this tag will do**: the named section, all attributes asked for, and one of the usages if any is
named. -/
def accepts (p : Placement) (t : MemoryTag) : Bool :=
  (p.sect.isNone || p.sect == t.sect) && t.attributes.hasAll (p.attributes.minus Attribute.allocated)
    && (p.usage.isEmpty || p.usage.hasAny t.usage)

def text (p : Placement) : String :=
  let sect := match p.sect with
    | some s => "Some(" ++ quoted s ++ ")"
    | none => "None"
  "PlacementRequirements \x7b alignment: " ++ toString p.alignment ++ ", alignment_offset: "
    ++ toString p.alignmentOffset ++ ", allocate_from_high_address: " ++ toString p.fromHigh ++ ", section: " ++ sect
    ++ ", usage: " ++ Usage.text p.usage ++ ", attributes: " ++ Attribute.text p.attributes ++ " \x7d"

end Placement

end CodeImage

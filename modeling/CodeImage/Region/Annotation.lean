import CodeImage.Handle
import CodeImage.Text.Quoted
/-!
# References and annotations

A region's bytes are final except where they hold an address.  `Annotation` marks such a word and what it refers to;
markers refer to nothing.
-/
namespace CodeImage

/-- **What a region holds**: the code of a block, or a named piece of data. -/
inductive RegionContext where
  | block (method block : Nat)
  | data (name : String)
  deriving DecidableEq, Repr

namespace RegionContext

def text : RegionContext → String
  | .block m b => HandleKind.block.text b ++ " of method " ++ HandleKind.method.text m
  | .data name => "data '" ++ name ++ "'"

end RegionContext

/-- **What an address refers to**: the first byte of a block, or the pointer to a region. -/
inductive Target where
  | block (method block : Nat)
  | region (region : Nat)
  deriving DecidableEq, Repr

namespace Target

def text : Target → String
  | .block m b => "Block \x7b method: " ++ HandleKind.method.text m ++ ", block: " ++ HandleKind.block.text b ++ " \x7d"
  | .region r => "Region(" ++ HandleKind.region.text r ++ ")"

end Target

/-- **What the word at an annotation holds**: the target's address and an addend; in its lowest `bits` bits the
distance to the target, which the instruction `origin` answers for; or nothing of note. -/
inductive AnnotationKind where
  | absolute (target : Target) (addend : Int)
  | relative (target : Target) (bits : Nat) (origin : Option (Nat × Nat))
  | marker (label : String)
  deriving DecidableEq, Repr

namespace AnnotationKind

def text : AnnotationKind → String
  | .absolute t addend => "Absolute \x7b target: " ++ t.text ++ ", addend: " ++ toString addend ++ " \x7d"
  | .relative t bits origin =>
    let from? := match origin with
      | some (m, i) => "Some((" ++ HandleKind.method.text m ++ ", " ++ HandleKind.insn.text i ++ "))"
      | none => "None"
    "Relative \x7b target: " ++ t.text ++ ", bits: " ++ toString bits ++ ", origin: " ++ from? ++ " \x7d"
  | .marker label => "Marker \x7b label: " ++ quoted label ++ " \x7d"

end AnnotationKind

structure Annotation where
  offset : Nat
  size : Nat
  kind : AnnotationKind
  deriving DecidableEq, Repr

namespace Annotation

/-- **Add an annotation to a list sorted by offset**, behind those of the same offset. -/
def insert (a : Annotation) : List Annotation → List Annotation
  | [] => [a]
  | b :: rest => if b.offset ≤ a.offset then b :: insert a rest else a :: b :: rest

end Annotation

end CodeImage

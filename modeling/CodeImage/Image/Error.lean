import CodeImage.Flow.Graph
import CodeImage.Region.Basic
/-!
# Layout errors

Why an image cannot be laid out.  Each constructor is a cause; `message` words it.
-/
namespace CodeImage

/-- **A reference that leads nowhere.** -/
inductive Dangling where
  | method (name : String)
  | data (name : String)
  | symbol (name : String)
  | beyondData (target item : String) (offset : Nat)
  | label (text owner : String)
  | block (method block : Nat)
  | region (region : Nat)
  | unplaced (context : RegionContext)
  | pastEnd (context : RegionContext)
  deriving DecidableEq, Repr

namespace Dangling

def text : Dangling → String
  | .method name => "method '" ++ name ++ "'"
  | .data name => "data '" ++ name ++ "'"
  | .symbol name => "'" ++ name ++ "'"
  | .beyondData target item offset =>
    "'" ++ target ++ "' from beyond the end of data '" ++ item ++ "' (offset " ++ toString offset ++ ")"
  | .label text owner => "label " ++ text ++ " in " ++ owner
  | .block m b => (RegionContext.block m b).text
  | .region r => HandleKind.region.text r
  | .unplaced context => context.text ++ " has no address yet"
  | .pastEnd context => "reference past the end of " ++ context.text

end Dangling

/-- **A reference that no encoding reaches**: of an instruction of a method, or of no instruction at an address. -/
inductive OutOfReach where
  | insn (insn : Nat) (method : String)
  | site (address : Nat)
  deriving DecidableEq, Repr

namespace OutOfReach

def text : OutOfReach → String
  | .insn i method => HandleKind.insn.text i ++ " in method '" ++ method ++ "'"
  | .site a => "reference at " ++ hex a

end OutOfReach

/-- **What is wrong with an image.** -/
inductive ImageError where
  | inconsistency (address : Nat)
  | unresolved (what : Dangling)
  | exhausted (what : OutOfReach)
  | restartLimit (restarts : Nat)
  deriving DecidableEq, Repr

namespace ImageError

def message : ImageError → String
  | .inconsistency a => s!"overlapping regions have different payloads at {hex a}"
  | .unresolved what => s!"unresolved reference to {what.text}"
  | .exhausted what => s!"no encoding of {what.text} reaches its target"
  | .restartLimit n => s!"gave up after {n} restarts"

end ImageError

/-- **Why an image cannot be laid out.** -/
inductive LayoutError where
  | flow (cause : FlowError)
  | placement (cause : PlacementError)
  | image (cause : ImageError)
  deriving DecidableEq, Repr

namespace LayoutError

def message : LayoutError → String
  | .flow e => "analysis error: " ++ e.message
  | .placement e => "placement error: " ++ e.message
  | .image e => "image error: " ++ e.message

end LayoutError

end CodeImage

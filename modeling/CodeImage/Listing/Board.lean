import CodeImage.Image.Program
/-!
# The board of listings

A target with flash memory, where code goes and which is programmed ahead of time, and RAM, where data go and which a
loader fills.
-/
namespace CodeImage

/-- **The sizes of a board's memories**, and the alignment of cold code. -/
structure Board where
  flashSize : Nat
  ramSize : Nat
  coldAlignment : Nat
  deriving DecidableEq, Repr

namespace Board

def default : Board := ⟨0x100000, 0x10000, 4⟩

def flashBase : Nat := 0x08000000

def ramBase : Nat := 0x20000000

def memory (b : Board) : List MemoryRange :=
  [⟨flashBase, flashBase + b.flashSize, ⟨some "text",
      ((Attribute.flash.union Attribute.read).union Attribute.execute).union Attribute.loadedAtEntrypoint, Usage.code⟩⟩,
    ⟨ramBase, ramBase + b.ramSize, ⟨some "data",
      (Attribute.ram.union Attribute.read).union Attribute.write, Usage.data⟩⟩]

/-- **The board as the layout sees it.** -/
def platform (b : Board) : Platform :=
  ⟨b.memory, .simple 4 Usage.code, .simple b.coldAlignment Usage.code, .simple 4 Usage.data⟩

end Board

end CodeImage

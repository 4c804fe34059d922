import CodeImage.Text.Hex
/-!
# Memory flags

Attributes and usages of memory are sets of flags, kept as the number whose binary digits are the flags.  Digits
without a name are kept as they are.
-/
namespace CodeImage

/-- **A set of flags.** -/
structure Flags where
  bits : Nat
  deriving DecidableEq, Repr

namespace Flags

def none : Flags := ⟨0⟩

def union (a b : Flags) : Flags := ⟨a.bits ||| b.bits⟩

/-- All of `b` are among `a`. -/
def hasAll (a b : Flags) : Bool := a.bits &&& b.bits == b.bits

/-- Some of `b` are among `a`. -/
def hasAny (a b : Flags) : Bool := a.bits &&& b.bits != 0

/-- `a` without those of `b`. -/
def minus (a b : Flags) : Flags := ⟨a.bits ^^^ (a.bits &&& b.bits)⟩

def isEmpty (a : Flags) : Bool := a.bits == 0

/-- **The text of a set**: the names of its known flags, then the rest as a number. -/
def text (names : List (String × Flags)) (a : Flags) : String :=
  let known := names.filter fun (_, f) => a.hasAll f
  let rest := known.foldl (fun a (_, f) => a.minus f) a
  let parts := known.map (·.1) ++ if rest.isEmpty then [] else [hex rest.bits]
  if parts.isEmpty then hex 0 else " | ".intercalate parts

end Flags

namespace Attribute

def ram : Flags := ⟨1⟩
def flash : Flags := ⟨2⟩
def rom : Flags := ⟨4⟩
def read : Flags := ⟨8⟩
def write : Flags := ⟨16⟩
def execute : Flags := ⟨32⟩

/-- In place before the image starts, so that no loader has to fill it. -/
def loadedAtEntrypoint : Flags := ⟨64⟩

/-- Handed out to somebody. -/
def allocated : Flags := ⟨32768⟩

def names : List (String × Flags) :=
  [("RAM", ram), ("FLASH", flash), ("ROM", rom), ("READ", read), ("WRITE", write), ("EXECUTE", execute),
    ("LOADED_AT_ENTRYPOINT", loadedAtEntrypoint), ("ALLOCATED", allocated)]

def text (a : Flags) : String := "MemoryAttributes(" ++ a.text names ++ ")"

end Attribute

namespace Usage

def code : Flags := ⟨1⟩
def data : Flags := ⟨2⟩
def stack : Flags := ⟨4⟩
def heap : Flags := ⟨8⟩

/-- Holds what the loader reads, so that the loader does not fill it. -/
def relocation : Flags := ⟨16⟩

def bootstrap : Flags := ⟨32⟩

def names : List (String × Flags) :=
  [("CODE", code), ("DATA", data), ("STACK", stack), ("HEAP", heap), ("RELOCATION", relocation),
    ("BOOTSTRAP", bootstrap)]

def text (u : Flags) : String := "MemoryUsage(" ++ u.text names ++ ")"

end Usage

end CodeImage

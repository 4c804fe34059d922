import CodeImage.Bytes
/-!
# Sources of chance

Random things are made from a row of bytes, taken from its front.  Behind the end there are only zeros, so that every
row makes something.
-/
namespace CodeImage

/-- **A choice that takes bytes from a source.** -/
abbrev Choice (α : Type) := StateM Bytes α

namespace Choice

/-- **A number of `width` bytes**, least first. -/
def number (width : Nat) : Choice Nat := fun source =>
  (ofLeBytes (source.take width), source.drop width)

/-- A number below `bound`, from one byte. -/
def below (bound : Nat) : Choice Nat := do
  let n ← number 1
  return n % bound

def flag : Choice Bool := do
  let n ← number 1
  return n % 2 == 1

/-- **`n` choices of a kind.** -/
def times {α : Type} (n : Nat) (c : Choice α) : Choice (List α) := (List.range n).mapM fun _ => c

/-- Choices of a kind while a flag says so, at most `fuel` of them. -/
def upTo {α : Type} (c : Choice α) : Nat → Choice (List α)
  | 0 => return []
  | fuel + 1 => do
    if ← flag then
      let x ← c
      let more ← upTo c fuel
      return x :: more
    else return []

/-- **Choices of a kind while a flag says so.**  Each flag that does takes a byte, so there are no more choices than
bytes. -/
def many {α : Type} (c : Choice α) : Choice (List α) := do
  let source ← get
  upTo c (source.length + 1)

end Choice

end CodeImage

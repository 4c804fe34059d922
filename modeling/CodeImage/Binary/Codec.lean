import CodeImage.Bytes
/-!
# Binary codecs

How values are written as bytes and read back from the front of a row of bytes.  Numbers are little endian, lists and
texts follow their length in eight bytes, and an alternative follows its number in four.
-/
namespace CodeImage

/-- **A binary form**: `decode` answers the value at the front and the bytes behind it. -/
structure Codec (α : Type) where
  encode : α → Bytes
  decode : Bytes → Option (α × Bytes)

namespace Codec

variable {α β : Type}

/-- The first `n` bytes, and those behind them. -/
def split? (n : Nat) (l : Bytes) : Option (Bytes × Bytes) :=
  if l.length < n then none else some (l.take n, l.drop n)

/-- **A number in `width` bytes.** -/
def number (width : Nat) : Codec Nat :=
  ⟨leBytes width, fun l => (split? width l).map fun (front, rest) => (ofLeBytes front, rest)⟩

/-- A 32-bit word. -/
def word : Codec Nat := number 4

/-- The length of a list. -/
def count : Codec Nat := number 8

/-- **The same bytes for another type.**  `back?` refuses what is not the form of any value. -/
def map (c : Codec α) (into : β → α) (back? : α → Option β) : Codec β :=
  ⟨fun b => c.encode (into b), fun l => (c.decode l).bind fun (a, rest) => (back? a).map (·, rest)⟩

/-- **One value, then another.** -/
def pair (a : Codec α) (b : Codec β) : Codec (α × β) :=
  ⟨fun (x, y) => a.encode x ++ b.encode y,
    fun l => (a.decode l).bind fun (x, rest) => (b.decode rest).map fun (y, rest) => ((x, y), rest)⟩

/-- A truth value in one byte. -/
def flag : Codec Bool :=
  (number 1).map (fun b => if b then 1 else 0) fun n => if n = 0 then some false else if n = 1 then some true else none

/-- Decode `n` values that follow each other. -/
def decodeMany (c : Codec α) : Nat → Bytes → Option (List α × Bytes)
  | 0, l => some ([], l)
  | n + 1, l => (c.decode l).bind fun (x, rest) => (c.decodeMany n rest).map fun (xs, rest) => (x :: xs, rest)

/-- **A list behind its length.** -/
def list (c : Codec α) : Codec (List α) :=
  ⟨fun xs => count.encode xs.length ++ xs.flatMap c.encode,
    fun l => (count.decode l).bind fun (n, rest) => c.decodeMany n rest⟩

/-- **Bytes behind their length.** -/
def bytes : Codec Bytes :=
  ⟨fun xs => count.encode xs.length ++ xs, fun l => (count.decode l).bind fun (n, rest) => split? n rest⟩

/-- **A text behind the length of its UTF-8 form.** -/
def text : Codec String :=
  bytes.map (fun s => s.toUTF8.toList) fun l => String.fromUTF8? ⟨l.toArray⟩

/-- **A value that may be missing**, behind a byte that tells. -/
def option (c : Codec α) : Codec (Option α) :=
  ⟨fun x => match x with
    | none => flag.encode false
    | some x => flag.encode true ++ c.encode x,
    fun l => (flag.decode l).bind fun (present, rest) =>
      if present then (c.decode rest).map fun (x, rest) => (some x, rest) else some (none, rest)⟩

/-- **One of two**, behind its number. -/
def either (a : Codec α) (b : Codec β) : Codec (α ⊕ β) :=
  ⟨fun x => match x with
    | .inl x => word.encode 0 ++ a.encode x
    | .inr y => word.encode 1 ++ b.encode y,
    fun l => (word.decode l).bind fun (which, rest) => match which with
      | 0 => (a.decode rest).map fun (x, rest) => (.inl x, rest)
      | 1 => (b.decode rest).map fun (y, rest) => (.inr y, rest)
      | _ => none⟩

end Codec

end CodeImage

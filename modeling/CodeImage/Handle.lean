/-!
# Handles — how blocks, instructions and regions are named

Everything the library numbers is named in messages by a letter for its kind and its number: block 3 is `b3`,
method 0 is `m0`.  `HandleRange` is a run of consecutive numbers, `resized` a list brought to a wanted length, and
`listText` the bracketed text of a list.
-/
namespace CodeImage

/-- **The kinds of numbered things.** -/
inductive HandleKind where
  | insn
  | block
  | edge
  | loop
  | slot
  | region
  | method
  deriving DecidableEq, Repr

namespace HandleKind

/-- The letters in front of the number. -/
def tag : HandleKind → String
  | .insn => "i"
  | .block => "b"
  | .edge => "e"
  | .loop => "loop"
  | .slot => "s"
  | .region => "r"
  | .method => "m"

/-- **The name of number `n` of this kind.** -/
def text (k : HandleKind) (n : Nat) : String := k.tag ++ toString n

/-- Every kind, in the order in which they are declared. -/
def all : List HandleKind := [.insn, .block, .edge, .loop, .slot, .region, .method]

end HandleKind

/-- **The numbers from `first` up to and without `stop`.** -/
structure HandleRange where
  first : Nat
  stop : Nat
  deriving DecidableEq, Repr

namespace HandleRange

def size (r : HandleRange) : Nat := r.stop - r.first

def items (r : HandleRange) : List Nat := List.range' r.first r.size

def contains (r : HandleRange) (n : Nat) : Bool := r.first ≤ n && n < r.stop

/-- The range of `count` numbers from `first`. -/
def ofCount (first count : Nat) : HandleRange := ⟨first, first + count⟩

theorem mem_items (r : HandleRange) (n : Nat) : n ∈ r.items ↔ r.contains n = true := by
  simp only [items, size, contains, List.mem_range', Bool.and_eq_true, decide_eq_true_eq]
  constructor
  · rintro ⟨i, hi, rfl⟩; omega
  · rintro ⟨h1, h2⟩; exact ⟨n - r.first, by omega, by omega⟩

end HandleRange

/-- **A list cut to `n` items, or filled up to `n` with `x`.** -/
def resized {α : Type} (n : Nat) (x : α) (l : List α) : List α := l.take n ++ List.replicate (n - l.length) x

theorem length_resized {α : Type} (n : Nat) (x : α) (l : List α) : (resized n x l).length = n := by
  simp only [resized, List.length_append, List.length_take, List.length_replicate]; omega

/-- The text of a list from the texts of its items. -/
def listText (items : List String) : String := "[" ++ ", ".intercalate items ++ "]"

end CodeImage

/-!
# NatSet — finite sets of numbers of any size

A finite set kept as its members in ascending order, each once.
-/
namespace CodeImage

/-- **A finite set of numbers**, its members in ascending order. -/
structure NatSet where
  items : List Nat
  deriving DecidableEq, Repr

namespace NatSet

def empty : NatSet := ⟨[]⟩

def contains (s : NatSet) (n : Nat) : Bool := s.items.contains n

/-- The members with `n` put in its place. -/
def insertItem (n : Nat) : List Nat → List Nat
  | [] => [n]
  | m :: rest => if n < m then n :: m :: rest else if n = m then m :: rest else m :: insertItem n rest

def insert (s : NatSet) (n : Nat) : NatSet := ⟨insertItem n s.items⟩

def erase (s : NatSet) (n : Nat) : NatSet := ⟨s.items.filter (· != n)⟩

def ofList (l : List Nat) : NatSet := l.foldl insert empty

def card (s : NatSet) : Nat := s.items.length

def isEmpty (s : NatSet) : Bool := s.items.isEmpty

theorem mem_insertItem (n m : Nat) : ∀ l : List Nat, m ∈ insertItem n l ↔ m = n ∨ m ∈ l
  | [] => by simp [insertItem]
  | k :: rest => by
    unfold insertItem
    split
    · simp
    · split
      · rename_i h; subst h; simp
      · simp only [List.mem_cons, mem_insertItem n m rest]
        constructor <;> rintro (h | h | h) <;> simp [h]

theorem contains_insert (s : NatSet) (n m : Nat) :
    (s.insert n).contains m = (decide (m = n) || s.contains m) := by
  simp [contains, insert, mem_insertItem]

end NatSet

end CodeImage

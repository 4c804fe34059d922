/-!
# Sorting by insertion

`sortBy` puts a list into an order in which items that could stand either way stay as they were.
-/
namespace CodeImage

/-- Insert an item in front of the first that it may stand before. -/
def insertBy {α : Type} (before : α → α → Bool) (a : α) : List α → List α
  | [] => [a]
  | b :: l => if before a b then a :: b :: l else b :: insertBy before a l

/-- **A list in order.** -/
def sortBy {α : Type} (before : α → α → Bool) (l : List α) : List α := l.foldr (insertBy before) []

end CodeImage

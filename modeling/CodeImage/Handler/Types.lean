/-!
# Exception types

Types are numbers; a hierarchy lists types with their parents.  The first parent listed for a type is the one that
counts.
-/
namespace CodeImage

/-- **Which type derives from which**: pairs of a type and its parent. -/
structure TypeHierarchy where
  parents : List (Nat × Nat)
  deriving DecidableEq, Repr

namespace TypeHierarchy

def parentOf (h : TypeHierarchy) (ty : Nat) : Option Nat := h.parents.lookup ty

/-- Climb from `ty` looking for `other`, testing at most `fuel` types. -/
def climbs (h : TypeHierarchy) (other : Nat) : Nat → Nat → Bool
  | 0, _ => false
  | fuel + 1, ty => ty == other || match h.parentOf ty with
    | some p => h.climbs other fuel p
    | none => false

/-- **`ty` is `other` or derives from it.**  A chain of distinct types is no longer than the hierarchy and one more, so
that many tests are enough even when the hierarchy has a cycle. -/
def isSubtype (h : TypeHierarchy) (ty other : Nat) : Bool := h.climbs other (h.parents.length + 1) ty

end TypeHierarchy

end CodeImage

import CodeImage.Search
/-!
# Handler tables

For each protected range of addresses, the handlers that may take an exception raised there, innermost first.
`HandlerTable.of` drops handlers that an earlier one of the same range leaves nothing to, and merges ranges that touch
and have the same handlers; `HandlerTable.find?` is the look-up of the running program.
-/
namespace CodeImage

/-- **A handler**: the type it takes, or none when it takes every type, and the address of its code. -/
structure HandlerEntry where
  filter : Option Nat
  handler : Nat
  deriving DecidableEq, Repr

namespace HandlerEntry

/-- The handler takes exceptions of type `ty`. -/
def takes (isSubtype : Nat → Nat → Bool) (h : HandlerEntry) (ty : Nat) : Bool :=
  match h.filter with
  | none => true
  | some f => isSubtype ty f

/-- Nothing is left to `h` behind `earlier`. -/
def shadows (isSubtype : Nat → Nat → Bool) (earlier h : HandlerEntry) : Bool :=
  match earlier.filter, h.filter with
  | none, _ => true
  | some _, none => false
  | some f, some g => isSubtype g f

end HandlerEntry

/-- **A protected range of addresses.** -/
structure HandlerRange where
  start : Nat
  stop : Nat
  handlers : List HandlerEntry
  deriving DecidableEq, Repr

structure HandlerTable where
  ranges : List HandlerRange
  deriving DecidableEq, Repr

namespace HandlerTable

/-- **The handlers that something is left to.** -/
def unshadowed (isSubtype : Nat → Nat → Bool) (handlers : List HandlerEntry) : List HandlerEntry :=
  handlers.foldl (fun kept h => if kept.any (·.shadows isSubtype h) then kept else kept ++ [h]) []

/-- Merge neighbours that touch and have the same handlers. -/
def merge : List HandlerRange → List HandlerRange
  | [] => []
  | r :: rest => go r rest
where
  go (r : HandlerRange) : List HandlerRange → List HandlerRange
    | [] => [r]
    | q :: rest =>
      if r.stop == q.start && r.handlers == q.handlers then go { r with stop := q.stop } rest else r :: go q rest

/-- **The table of some spans of code**, each with its handlers.  Spans that are empty or without handlers leave
gaps. -/
def of (isSubtype : Nat → Nat → Bool) (spans : List HandlerRange) : HandlerTable :=
  let sorted := spans.mergeSort fun a b => a.start < b.start || (a.start == b.start && a.stop ≤ b.stop)
  let useful := (sorted.map fun s => { s with handlers := unshadowed isSubtype s.handlers }).filter
    fun s => !s.handlers.isEmpty && s.start < s.stop
  ⟨merge useful⟩

/-- **Where an exception of type `ty` raised at `pc` goes**: to the first handler of the range at `pc` that takes it. -/
def find? (isSubtype : Nat → Nat → Bool) (t : HandlerTable) (pc ty : Nat) : Option Nat :=
  match t.ranges[partitionPoint (fun r => decide (r.stop ≤ pc)) t.ranges]? with
  | some r => if pc < r.start then none else (r.handlers.find? (·.takes isSubtype ty)).map (·.handler)
  | none => none

end HandlerTable

end CodeImage

import CodeImage.Flow.DepthFirst
/-!
# Slot ownership

A block that emits no byte and has a single normal successor is hollow: it needs no place of its own and shares the
slot of the block it falls into.  `Ownership.of` decides for every reachable block which block owns its slot.  Blocks
are settled in the order in which a scheduler meets them; on a cycle of hollow blocks the first one met twice becomes
the owner.
-/
namespace CodeImage

/-- **Who owns the slot of each block**: pairs of a block and its owner, in the order settled. -/
structure Ownership where
  entries : List (Nat × Nat)
  deriving DecidableEq, Repr

namespace Ownership

def empty : Ownership := ⟨[]⟩

def ownerOf (own : Ownership) (b : Nat) : Option Nat := own.entries.lookup b

/-- The owners, in the order settled. -/
def owners (own : Ownership) : List Nat := (own.entries.filter fun e => e.1 == e.2).map (·.1)

/-- The block whose slot `b` shares without owning it. -/
def aliasOf (own : Ownership) (b : Nat) : Option Nat := (own.ownerOf b).filter (· != b)

/-- The blocks that share the slot of `b`, in the order settled. -/
def aliasesOf (own : Ownership) (b : Nat) : List Nat :=
  (own.entries.filter fun e => e.2 == b && e.1 != b).map (·.1)

/-- Give a block a slot of its own. -/
def found (own : Ownership) (b : Nat) : Ownership := ⟨own.entries ++ [(b, b)]⟩

/-- Let every block of `chain` that has no owner yet share the slot of `o`. -/
def adopt (own : Ownership) (o : Nat) (chain : List Nat) : Ownership :=
  chain.foldl (fun own z => if (own.ownerOf z).isSome then own else ⟨own.entries ++ [(z, o)]⟩) own

/-- **Follow hollow blocks from `cur`**, `chain` being those passed so far, until an owner is found or has to be
made. -/
def follow (next : Nat → Option Nat) (own : Ownership) : Nat → List Nat → Nat → Ownership
  | 0, _, _ => own
  | fuel + 1, chain, cur =>
    match own.ownerOf cur with
    | some o => own.adopt o chain
    | none =>
      if chain.contains cur then (own.found cur).adopt cur chain
      else match next cur with
        | some n => follow next own fuel (chain ++ [cur]) n
        | none => (own.found cur).adopt cur chain

end Ownership

namespace FlowGraph

/-- **Where a hollow block falls**: a block without bytes whose normal edges lead to one block. -/
def fallThrough (g : FlowGraph) (sizes : Array Nat) (b : Nat) : Option Nat :=
  if sizes[b]?.getD 0 == 0 then
    match g.normalSuccs b with
    | [s] => some s
    | _ => none
  else none

/-- The order in which slots are asked for: each block met, followed by its normal successors. -/
def slotRequests (g : FlowGraph) : List Nat := g.spanningTree.order.flatMap fun b => b :: g.normalSuccs b

/-- **The owner of every reachable block.** -/
def ownership (g : FlowGraph) (sizes : Array Nat) : Ownership :=
  g.slotRequests.foldl (fun own b => own.follow (g.fallThrough sizes) (g.size + 1) [] b) Ownership.empty

end FlowGraph

end CodeImage

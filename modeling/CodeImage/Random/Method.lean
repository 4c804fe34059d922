import CodeImage.Listing.Method
import CodeImage.Random.Source
/-!
# Random methods

A method of up to twenty-four blocks with up to three clauses, which calls and loads nothing but itself.
-/
namespace CodeImage

namespace RandomMethod

/-- The name of every random method. -/
def name : String := "funk"

def maxBlocks : Nat := 24

def blockName (b : Nat) : String := "b" ++ toString b

/-- The name of one of `count` blocks. -/
def someBlock (count : Nat) : Choice String := do
  let b ← Choice.below count
  return blockName b

/-- An instruction that stays in its block.  Work is mostly small, sometimes so big that branches do not reach. -/
def insn : Choice Insn := do
  match ← Choice.below 8 with
  | 0 => return .word (← Choice.number 4)
  | 1 => return .call name true
  | 2 => return .call name ((← Choice.below 4) != 0)
  | 3 => return .load name
  | 4 => return .op ((← Choice.number 2) % 0x800)
  | _ => return .op (← Choice.below 8)

/-- An instruction that leaves its block for one of `count` blocks, or for good. -/
def exit (count : Nat) : Choice Insn := do
  let kind ← Choice.below 10
  if kind ≤ 3 then
    return .goto (.unresolved (← someBlock count))
  else if kind ≤ 6 then
    let taken ← someBlock count
    let notTaken ← someBlock count
    return .branch (.unresolved taken) (.unresolved notTaken)
  else if kind = 7 then return .throw
  else if kind = 8 then return .trap
  else return .ret

/-- The instructions of a block. -/
def body (count : Nat) : Choice (List Insn) := do
  let n ← Choice.below 4
  let insns ← Choice.times n insn
  let last ← exit count
  return insns ++ [last]

/-- A clause: the block it protects, its handler and its filter. -/
def clause (count : Nat) : Choice (String × String × Option Nat) := do
  let block ← someBlock count
  let handler ← someBlock count
  let filter ← Choice.below 5
  return (block, handler, if filter = 0 then none else some filter)

/-- **A random method.** -/
def choose : Choice (Except CompletionError ListedMethod) := do
  let count := 1 + (← Choice.below maxBlocks)
  let flags ← Choice.times 3 Choice.flag
  let types := (([2, 3, 4].zip flags).filter (·.2)).map fun (t, _) => (t, t / 2)
  let bodies ← Choice.times count (body count)
  let clauseCount ← Choice.below 4
  let clauses ← Choice.times clauseCount (clause count)
  let m := bodies.zipIdx.foldl (fun m (insns, b) => m.addBlock (blockName b) insns)
    (ListedMethod.empty name (blockName 0))
  let m := clauses.foldl (fun m (block, handler, filter) => m.protect block handler filter) m
  return match { m with types := ⟨types⟩ }.complete with
    | (m, none) => .ok m
    | (_, some e) => .error e

end RandomMethod

end CodeImage

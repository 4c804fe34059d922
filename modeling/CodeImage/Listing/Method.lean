import CodeImage.Handler.Types
import CodeImage.Listing.Insn
/-!
# Methods of listings

A method is a row of instructions and the blocks that divide it.  It is put together block by block, with labels as
names; `ListedMethod.complete` checks the blocks and looks all labels up.  `ListedMethod.render` writes a method the
way listings are read.
-/
namespace CodeImage

/-- **A clause that protects a block**: exceptions of a type, or of all types, go to a handler. -/
structure Protection where
  handler : Label
  filter : Option Nat
  deriving DecidableEq, Repr

/-- **A block**: `length` instructions from number `start` on, and its clauses, innermost first. -/
structure ListedBlock where
  name : String
  start : Nat
  length : Nat
  protection : List Protection
  deriving DecidableEq, Repr

/-- **A method.**  `handlers` tells of each block whether it is a handler; it is known once the method is complete. -/
structure ListedMethod where
  name : String
  entry : Label
  insns : List Insn
  blocks : List ListedBlock
  types : TypeHierarchy
  handlers : List Bool
  deriving DecidableEq, Repr

/-- **Why a method is not complete.** -/
inductive CompletionError where
  | emptyBlock (block : String)
  | noExit (block : String)
  | earlyExit (block : String)
  | unknownLabel (name : String)
  deriving DecidableEq, Repr

namespace CompletionError

def message : CompletionError → String
  | .emptyBlock b => "block " ++ b ++ " is empty"
  | .noExit b => "block " ++ b ++ " must end in control flow"
  | .earlyExit b => "block " ++ b ++ " contains control flow before its end"
  | .unknownLabel n => "can't resolve label name '" ++ n ++ "'"

end CompletionError

namespace ListedMethod

/-- A method without blocks. -/
def empty (name entry : String) : ListedMethod := ⟨name, .unresolved entry, [], [], ⟨[]⟩, []⟩

def setEntry (m : ListedMethod) (entry : String) : ListedMethod := { m with entry := .unresolved entry }

/-- **Add a block** behind the others. -/
def addBlock (m : ListedMethod) (name : String) (insns : List Insn) : ListedMethod :=
  { m with insns := m.insns ++ insns, blocks := m.blocks ++ [⟨name, m.insns.length, insns.length, []⟩] }

/-- **The number of the first block of a name.** -/
def blockNamed? (m : ListedMethod) (name : String) : Option Nat := m.blocks.findIdx? (·.name == name)

/-- **Protect a block** by one more clause, outside of those it has.  A name without a block becomes an empty block. -/
def protect (m : ListedMethod) (block handler : String) (filter : Option Nat) : ListedMethod :=
  let clause : Protection := ⟨.unresolved handler, filter⟩
  match m.blockNamed? block with
  | some b => { m with blocks := m.blocks.modify b fun x => { x with protection := x.protection ++ [clause] } }
  | none => { m with blocks := m.blocks ++ [⟨block, m.insns.length, 0, [clause]⟩] }

/-- The instructions of a block, with their numbers. -/
def insnsOf (m : ListedMethod) (b : ListedBlock) : List (Insn × Nat) :=
  ((m.insns.drop b.start).take b.length).zipIdx b.start

/-- The instruction at the end of a block. -/
def lastOf? (m : ListedMethod) (b : ListedBlock) : Option Insn := (m.insnsOf b).getLast?.map (·.1)

/-- What is wrong with the instructions of a block: the last one, and no other, has to leave it. -/
def exitFault? (block : String) : List Insn → Option CompletionError
  | [] => some (.emptyBlock block)
  | [i] => if i.isExit then none else some (.noExit block)
  | i :: rest => if i.isExit then some (.earlyExit block) else exitFault? block rest

/-- Look a label up. -/
def resolve (m : ListedMethod) (l : Label) : Except CompletionError Label :=
  match m.blockNamed? l.name with
  | some b => .ok (.resolved l.name b)
  | none => .error (.unknownLabel l.name)

/-- Look the labels of an instruction up, as far as they are known. -/
def resolveInsn (m : ListedMethod) : Insn → Insn × Option CompletionError
  | .goto l => match m.resolve l with
    | .ok l => (.goto l, none)
    | .error e => (.goto l, some e)
  | .branch a b => match m.resolve a with
    | .error e => (.branch a b, some e)
    | .ok a => match m.resolve b with
      | .ok b => (.branch a b, none)
      | .error e => (.branch a b, some e)
  | i => (i, none)

/-- Look the labels of instructions up until one is not known. -/
def resolveInsns (m : ListedMethod) : List Insn → List Insn × Option CompletionError
  | [] => ([], none)
  | i :: rest => match m.resolveInsn i with
    | (i, some e) => (i :: rest, some e)
    | (i, none) =>
      let (rest, e) := m.resolveInsns rest
      (i :: rest, e)

/-- A block with the labels of its clauses looked up. -/
def resolveBlock (m : ListedMethod) (b : ListedBlock) : Except CompletionError ListedBlock := do
  let protection ← b.protection.mapM fun p => do
    let handler ← m.resolve p.handler
    return { p with handler }
  return { b with protection }

/-- The handlers that clauses name. -/
def handlerBlocks (blocks : List ListedBlock) : List Nat :=
  blocks.flatMap fun b => b.protection.filterMap (·.handler.block?)

/-- **Check the blocks and look all labels up.**  Beside the first error stands the method with what had been looked up
before it. -/
def complete (m : ListedMethod) : ListedMethod × Option CompletionError :=
  match m.blocks.findSome? fun b => exitFault? b.name ((m.insnsOf b).map (·.1)) with
  | some e => (m, some e)
  | none => match m.resolveInsns m.insns with
    | (insns, some e) => ({ m with insns }, some e)
    | (insns, none) => match m.resolve m.entry with
      | .error e => ({ m with insns }, some e)
      | .ok entry => match m.blocks.mapM m.resolveBlock with
        | .error e => ({ m with insns, entry }, some e)
        | .ok blocks =>
          let named := handlerBlocks blocks
          ({ m with insns, entry, blocks, handlers := (List.range blocks.length).map (named.contains ·) }, none)

/-- The number of the entry; the first block until it has been looked up. -/
def entryBlock (m : ListedMethod) : Nat := m.entry.block?.getD 0

/-- The numbers of the blocks, the entry in front once it has been looked up. -/
def renderOrder (m : ListedMethod) : List Nat :=
  let all := List.range m.blocks.length
  match m.entry.block? with
  | some e => e :: all.filter (· != e)
  | none => all

def renderBlock (m : ListedMethod) (b : ListedBlock) : String :=
  b.name ++ ":\n" ++ String.join ((m.insnsOf b).map fun (i, _) => "  " ++ i.text ++ "\n")

def renderClause (b : ListedBlock) (p : Protection) : String :=
  "  protect " ++ b.name ++ " -> " ++ p.handler.name ++ (match p.filter with
    | some ty => " catch " ++ toString ty
    | none => "") ++ "\n"

/-- **The method as listings are written**: its types, its blocks from the entry on, then all clauses. -/
def render (m : ListedMethod) : String :=
  "method " ++ m.name ++ " \x7b\n"
    ++ String.join (m.types.parents.map fun (t, p) => "  type " ++ toString t ++ " : " ++ toString p ++ "\n")
    ++ String.join (m.renderOrder.map fun b => (m.blocks[b]?.map m.renderBlock).getD "")
    ++ String.join (m.blocks.flatMap fun b => b.protection.map (renderClause b))
    ++ "\x7d\n"

end ListedMethod

end CodeImage

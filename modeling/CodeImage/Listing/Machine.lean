import CodeImage.Listing.Basic
/-!
# The machine of listings

How the instructions of a listing become words.  At level zero a jump or call is one word that holds the distance to
its target in its lowest bits; at level one it loads the target's address from the word behind it.  A jump to the
block that follows takes no word at all.
-/
namespace CodeImage

namespace Opcode

def nop : Nat := 0xE320F000

def jump : Nat := 0xEA000000

def jumpIfEqual : Nat := 0x0A000000

/-- Skip the next two words unless the last comparison held. -/
def skipUnlessEqual : Nat := 0x1A000001

def call : Nat := 0xEB000000

/-- Go on at the address in the next word. -/
def jumpToNextWord : Nat := 0xE51FF004

/-- Load the next word. -/
def loadNextWord : Nat := 0xE59F0000

/-- Set the return address behind the two words that follow. -/
def setReturn : Nat := 0xE28FE004

def ret : Nat := 0xE12FFF1E

def throw : Nat := 0xEF000001

def trap : Nat := 0xE7F000F0

/-- Word number `n` of an operation. -/
def op (n : Nat) : Nat := 0xE2800000 + n % 256

end Opcode

/-- **The reach of jumps and calls**: how many of their bits hold the distance. -/
structure Machine where
  branchBits : Nat
  callBits : Nat
  deriving DecidableEq, Repr

namespace Machine

def default : Machine := ⟨16, 24⟩

/-- No encoding is above this level. -/
def maxLevel : Nat := 1

/-- What stands in a block that comes out empty. -/
def filler : List Fragment := [.word Opcode.nop]

/-- The number of a label's block, in code of the named method. -/
def blockOf (method : String) (l : Label) : Except ImageError Nat :=
  match l.block? with
  | some b => .ok b
  | none => .error (.unresolved (.label l.text method))

/-- **A jump to a block.** -/
def jump (mc : Machine) (s : Site) (b : Nat) : List Fragment :=
  if s.level = 0 then [.relative (s.blockTarget b) mc.branchBits Opcode.jump]
  else [.word Opcode.jumpToNextWord, .absolute (s.blockTarget b) 0]

/-- A jump to a block, left out where control arrives there anyway. -/
def jumpUnlessNext (mc : Machine) (s : Site) (b : Nat) : List Fragment :=
  if s.fallsThrough b then [] else mc.jump s b

/-- A jump to a block if the last comparison held. -/
def jumpIfEqual (mc : Machine) (s : Site) (b : Nat) : List Fragment :=
  if s.level = 0 then [.relative (s.blockTarget b) mc.branchBits Opcode.jumpIfEqual]
  else [.word Opcode.skipUnlessEqual, .word Opcode.jumpToNextWord, .absolute (s.blockTarget b) 0]

/-- **The encoding of an instruction** of the named method. -/
def encode (mc : Machine) (method : String) (i : Insn) (s : Site) : Except ImageError (List Fragment) :=
  match i with
  | .op words => .ok [.bytes ((List.range words).flatMap fun n => leBytes 4 (Opcode.op n))]
  | .word value => .ok [.word value]
  | .call callee _ => do
    let t ← s.methodTarget callee
    if s.level = 0 then return [.relative t mc.callBits Opcode.call]
    else return [.word Opcode.setReturn, .word Opcode.jumpToNextWord, .absolute t 0]
  | .load target => do
    let t ← match s.methodTarget? target with
      | some t => .ok t
      | none => s.dataTarget target
    return [.word Opcode.loadNextWord, .absolute t 0]
  | .goto l => do
    let b ← blockOf method l
    return mc.jumpUnlessNext s b
  | .branch taken notTaken => do
    let t ← blockOf method taken
    let n ← blockOf method notTaken
    return mc.jumpIfEqual s t ++ mc.jumpUnlessNext s n
  | .ret => .ok [.word Opcode.ret]
  | .throw => .ok [.word Opcode.throw]
  | .trap => .ok [.word Opcode.trap]

end Machine

namespace Insn

/-- **The least number of bytes** that the instruction takes. -/
def minSize : Insn → Nat
  | .op words => 4 * words
  | .load _ => 8
  | .goto _ => 0
  | .word _ | .call _ _ | .branch _ _ | .ret | .throw | .trap => 4

end Insn

namespace ListedMethod

/-- The successors of a block: where its last instruction goes, then its handlers. -/
def succsOf (m : ListedMethod) (b : ListedBlock) : List Nat :=
  ((m.lastOf? b).map fun i => i.targets.filterMap Label.block?).getD []
    ++ b.protection.filterMap (·.handler.block?)

def clausesOf (b : ListedBlock) : List Clause :=
  b.protection.filterMap fun p => p.handler.block?.map fun h => ⟨h, p.filter⟩

/-- **The method as the layout sees it.** -/
def method (m : ListedMethod) (mc : Machine) : Method :=
  { name := m.name
    entry := m.entryBlock
    blocks := m.blocks.zipIdx.map fun (b, n) =>
      { succs := m.succsOf b
        isHandler := m.handlers[n]?.getD false
        isDead := m.lastOf? b == some .trap
        insns := (m.insnsOf b).map fun (i, n) => ⟨n, i.minSize, i.neverReturns, mc.encode m.name i⟩
        clauses := clausesOf b }
    isSubtype := m.types.isSubtype }

end ListedMethod

namespace Listing

/-- **The program that a listing stands for.** -/
def program (l : Listing) (mc : Machine) : Program :=
  ⟨l.methods.map (·.method mc), l.data, Machine.maxLevel, fun _ _ _ => Machine.filler⟩

end Listing

end CodeImage

import CodeImage.Image.Error
import CodeImage.Schedule.Basic
/-!
# Programs

What is laid out: methods, whose instructions know how to encode themselves, and pieces of data.  An instruction is
encoded at a `Site`, which tells it where it stands and at which level it has to be encoded, and answers with
`Fragment`s: bytes, and words that will hold addresses.
-/
namespace CodeImage

/-- **A piece of encoded output.** -/
inductive Fragment where
  | bytes (bytes : Bytes)
  | absolute (target : Target) (addend : Int)
  | relative (target : Target) (bits word : Nat)
  | marker (label : String)
  deriving DecidableEq, Repr

namespace Fragment

/-- The bytes of a fragment before addresses are known. -/
def payload : Fragment → Bytes
  | .bytes b => b
  | .absolute _ _ => leBytes 4 0
  | .relative _ _ word => leBytes 4 word
  | .marker _ => []

/-- A literal word. -/
def word (w : Nat) : Fragment := .bytes (leBytes 4 w)

/-- What a fragment at an offset leaves to be patched; `origin` answers for it. -/
def annotation? (offset : Nat) (origin : Option (Nat × Nat)) : Fragment → Option Annotation
  | .bytes _ => none
  | .absolute t addend => some ⟨offset, 4, .absolute t addend⟩
  | .relative t bits _ => some ⟨offset, 4, .relative t bits origin⟩
  | .marker label => some ⟨offset, 0, .marker label⟩

end Fragment

/-- The bytes of a row of fragments. -/
def payloadOf (fragments : List Fragment) : Bytes := fragments.flatMap Fragment.payload

/-- **Where an instruction is encoded.**  `offset` counts the bytes in front of it in its region; `fallsThrough` tells
the blocks that control reaches from the end of this one without a jump. -/
structure Site where
  method : Nat
  block : Nat
  insn : Nat
  offset : Nat
  level : Nat
  fallsThrough : Nat → Bool
  methodTarget? : String → Option Target
  dataTarget? : String → Option Target

namespace Site

/-- A block of the method that is being encoded. -/
def blockTarget (s : Site) (b : Nat) : Target := .block s.method b

/-- The entry of the method of a name. -/
def methodTarget (s : Site) (name : String) : Except ImageError Target :=
  match s.methodTarget? name with
  | some t => .ok t
  | none => .error (.unresolved (.method name))

/-- The piece of data of a name. -/
def dataTarget (s : Site) (name : String) : Except ImageError Target :=
  match s.dataTarget? name with
  | some t => .ok t
  | none => .error (.unresolved (.data name))

end Site

/-- **An instruction.**  `minSize` is the least number of bytes that `encode` will answer. -/
structure Instruction where
  index : Nat
  minSize : Nat
  neverReturns : Bool
  encode : Site → Except ImageError (List Fragment)

/-- **A clause of a protected block**: the block that handles exceptions of a type, or of all types. -/
structure Clause where
  handler : Nat
  filter : Option Nat
  deriving DecidableEq, Repr

/-- **A block of a method**; its clauses stand innermost first. -/
structure MethodBlock where
  succs : List Nat
  isHandler : Bool
  isDead : Bool
  insns : List Instruction
  clauses : List Clause

structure Method where
  name : String
  entry : Nat
  blocks : List MethodBlock
  isSubtype : Nat → Nat → Bool

namespace Method

def outline (m : Method) : Outline :=
  ⟨m.entry, m.blocks.map fun b =>
    ⟨b.succs, b.isHandler, b.isDead, b.insns.any (·.neverReturns), b.insns.map (·.index)⟩⟩

/-- The estimated size of every block. -/
def blockSizes (m : Method) : Array Nat := (m.blocks.map fun b => estimatedSize (b.insns.map (·.minSize))).toArray

def insnsOf (m : Method) (b : Nat) : List Instruction := (m.blocks[b]?.map (·.insns)).getD []

def clausesOf (m : Method) (b : Nat) : List Clause := (m.blocks[b]?.map (·.clauses)).getD []

/-- **The order of a method's blocks.** -/
def schedule (m : Method) : Except FlowError Schedule := do
  let g ← FlowGraph.ofOutline m.outline
  (Schedule.of g m.blockSizes).mapError .invariant

end Method

/-- A word of a piece of data that refers to a method or another piece of data. -/
structure DataRef where
  offset : Nat
  target : String
  addend : Int
  deriving DecidableEq, Repr

/-- **A piece of data**, placed where it says or where the platform puts data. -/
structure DataItem where
  name : String
  payload : Bytes
  placement : Option Placement
  fixedAddress : Option Nat
  pointerOffset : Nat
  refs : List DataRef
  deriving DecidableEq, Repr

/-- **The target**: its memory, and where code and data go. -/
structure Platform where
  memory : List MemoryRange
  hotCode : Placement
  coldCode : Placement
  data : Placement
  deriving DecidableEq, Repr

/-- **How to lay out.**  Cold code follows the hot code of all methods unless `coldFirst` puts it behind its own
method's; `entryAlignment` is a further alignment for the start of each method. -/
structure Options where
  coldFirst : Bool
  maxRestarts : Nat
  minZeroRun : Nat
  checkConsistency : Bool
  entryAlignment : Option Nat
  deriving DecidableEq, Repr

namespace Options

def default : Options := ⟨false, 8, 4, true, none⟩

end Options

/-- **What is laid out.**  No instruction is encoded above `maxLevel`; a block that comes out empty gets the filler for its
method, its number and its coldness. -/
structure Program where
  methods : List Method
  data : List DataItem
  maxLevel : Nat
  filler : Nat → Nat → Bool → List Fragment

namespace Program

/-- The entry of the last method of a name. -/
def methodTarget? (p : Program) (name : String) : Option Target :=
  (p.methods.zipIdx.reverse.find? (·.1.name == name)).map fun (m, i) => .block i m.entry

/-- The region of the last piece of data of a name; data come before code. -/
def dataTarget? (p : Program) (name : String) : Option Target :=
  (p.data.zipIdx.reverse.find? (·.1.name == name)).map fun (_, i) => .region i

/-- **What a name refers to**, methods first. -/
def target? (p : Program) (name : String) : Option Target := p.methodTarget? name <|> p.dataTarget? name

end Program

end CodeImage

import CodeImage.Handle
import CodeImage.Text.Hex
/-!
# Instructions of listings

A listing writes a method as blocks of instructions.  Instructions refer to blocks by name; a `Label` is such a name,
with the number of its block once that is known.
-/
namespace CodeImage

/-- **The name of a block**, and its number once it has been looked up. -/
inductive Label where
  | unresolved (name : String)
  | resolved (name : String) (block : Nat)
  deriving DecidableEq, Repr

namespace Label

def name : Label → String
  | .unresolved n => n
  | .resolved n _ => n

def block? : Label → Option Nat
  | .unresolved _ => none
  | .resolved _ b => some b

def text : Label → String
  | .unresolved n => "??:" ++ n
  | .resolved n b => HandleKind.block.text b ++ ":" ++ n

end Label

/-- **An instruction**: work of some words, a literal word, a call, the address of a method or of data, and the five
ways to leave a block. -/
inductive Insn where
  | op (words : Nat)
  | word (value : Nat)
  | call (callee : String) (returns : Bool)
  | load (target : String)
  | goto (target : Label)
  | branch (taken notTaken : Label)
  | ret
  | throw
  | trap
  deriving DecidableEq, Repr

namespace Insn

/-- **The instruction as a listing writes it.** -/
def text : Insn → String
  | .op words => "op " ++ toString words
  | .word value => "word " ++ hex value
  | .call callee true => "call " ++ callee
  | .call callee false => "call_noreturn " ++ callee
  | .load target => "load " ++ target
  | .goto l => "goto " ++ l.name
  | .branch a b => "branch " ++ a.name ++ ", " ++ b.name
  | .ret => "ret"
  | .throw => "throw"
  | .trap => "trap"

/-- The instruction leaves its block. -/
def isExit : Insn → Bool
  | .goto _ | .branch _ _ | .ret | .throw | .trap => true
  | .op _ | .word _ | .call _ _ | .load _ => false

/-- The blocks that the instruction may go to. -/
def targets : Insn → List Label
  | .goto l => [l]
  | .branch a b => [a, b]
  | _ => []

/-- A call from which control does not come back. -/
def neverReturns : Insn → Bool
  | .call _ returns => !returns
  | _ => false

/-- The method or data that the instruction names. -/
def reference? : Insn → Option String
  | .call callee _ => some callee
  | .load target => some target
  | _ => none

end Insn

end CodeImage

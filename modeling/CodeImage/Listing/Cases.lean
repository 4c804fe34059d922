import CodeImage.Listing.Reader
/-!
# Known listings

Small listings that each show one side of layout, and a way to find them by name.  Further listings may be given as
texts beside them.
-/
namespace CodeImage

namespace Cases

def op (words : Nat) : Insn := .op words

def goto (l : String) : Insn := .goto (.unresolved l)

def branch (a b : String) : Insn := .branch (.unresolved a) (.unresolved b)

/-- A method from its blocks, the entry among them. -/
def method (name entry : String) (blocks : List (String × List Insn)) : ListedMethod :=
  blocks.foldl (fun m (name, insns) => m.addBlock name insns) (ListedMethod.empty name entry)

/-- The method with its labels looked up. -/
def completed (m : ListedMethod) : ListedMethod := m.complete.1

def single (m : ListedMethod) : Listing := Listing.ofMethod (completed m)

def straightLine : Listing := single <| method "straight_line" "start" [
  ("start", [op 2, goto "middle"]),
  ("middle", [op 1, goto "end"]),
  ("end", [.ret])]

def diamond : Listing := single <| method "diamond" "top" [
  ("top", [op 1, branch "left" "right"]),
  ("left", [op 4, goto "join"]),
  ("right", [op 1, goto "join"]),
  ("join", [.ret])]

/-- The blocks stand in the opposite of the order in which they should be placed. -/
def nestedLoops : Listing := single <| method "nested_loops" "entry" [
  ("exit", [.ret]),
  ("inner_latch", [op 1, branch "inner" "outer_latch"]),
  ("outer_latch", [op 1, branch "outer" "exit"]),
  ("inner", [op 2, goto "inner_latch"]),
  ("outer", [op 1, goto "inner"]),
  ("entry", [op 1, goto "outer"])]

def exceptions : Listing :=
  let m := method "exceptions" "entry" [
    ("entry", [op 1, goto "try"]),
    ("try", [op 2, branch "done" "fail"]),
    ("fail", [.throw]),
    ("on_2", [op 1, goto "done"]),
    ("on_any", [op 1, goto "done"]),
    ("done", [.ret])]
  let m := { m with types := ⟨[(2, 1), (3, 1)]⟩ }
  single <| (((m.protect "try" "on_2" (some 2)).protect "try" "on_any" none).protect "fail" "on_2" (some 2)).protect
    "fail" "on_any" none

def noReturn : Listing := ⟨"no_return", [
  completed <| method "main" "entry" [
    ("entry", [op 1, branch "bad" "good"]),
    ("bad", [.call "abort" false, goto "unreachable"]),
    ("unreachable", [.trap]),
    ("good", [op 2, .ret])],
  completed <| method "abort" "entry" [
    ("entry", [op 1, .throw])]], []⟩

/-- A branch over more code than a short branch can reach. -/
def farBranch : Listing := single <| method "far_branch" "entry" [
  ("entry", [op 1, branch "far" "near"]),
  ("near", [op 0x4000, goto "far"]),
  ("far", [op 1, branch "entry" "exit"]),
  ("exit", [.ret])]

def callsAndData : Listing := ⟨"calls_and_data", [
  completed <| method "main" "entry" [
    ("entry", [.load "vtable", .call "helper" true, goto "loop"]),
    ("loop", [.call "helper" true, branch "loop" "exit"]),
    ("exit", [.load "counter", .ret])],
  completed <| method "helper" "entry" [
    ("entry", [op 3, .ret])]], [
  DataItem.ofWords "vtable" [0, 0, 0xcafe] [(0, "main"), (4, "helper")],
  DataItem.ofWords "counter" [0, 0, 0, 0, 0, 0, 1] []]⟩

/-- Blocks that hold nothing but a jump take no bytes. -/
def zeroLength : Listing := single <| method "zero_length" "entry" [
  ("entry", [op 1, branch "hop1" "other"]),
  ("hop1", [goto "hop2"]),
  ("hop2", [goto "target"]),
  ("other", [op 1, goto "target"]),
  ("target", [.ret])]

/-- Two blocks that jump to each other, both entered from outside. -/
def irreducible : Listing := single <| method "irreducible" "entry" [
  ("entry", [op 1, branch "a" "b"]),
  ("a", [op 1, branch "b" "exit"]),
  ("b", [op 1, branch "a" "exit"]),
  ("exit", [.ret])]

/-- A block that is never reached, and a loop of empty blocks. -/
def unreachable : Listing := single <| method "unreachable" "entry" [
  ("entry", [op 1, branch "spin" "exit"]),
  ("orphan", [op 5, .ret]),
  ("spin", [goto "spin2"]),
  ("spin2", [goto "spin"]),
  ("exit", [.ret])]

def all : List Listing :=
  [straightLine, diamond, nestedLoops, exceptions, noReturn, farBranch, callsAndData, zeroLength, irreducible,
    unreachable]

def names : List String := all.map (·.name)

/-- Names in the order of their characters. -/
def sortNames (l : List String) : List String := l.mergeSort fun a b => decide (a ≤ b)

/-- **The answer to a search**: a listing; a text of that name that cannot be read, with the names seen before it; or
all names, in order, where none is the one sought. -/
inductive Found where
  | listing (l : Listing)
  | unreadable (e : ReadError) (names : List String)
  | unknown (names : List String)

/-- Find a listing among texts with their names; `seen` are the names passed on the way. -/
def findText (name : String) (seen : List String) : List (String × String) → Found
  | [] => .unknown (sortNames seen)
  | (n, text) :: rest =>
    if n == name then match Listing.read name text with
      | .ok l => .listing l
      | .error e => .unreadable e seen
    else findText name (seen ++ [n]) rest

/-- **Find a listing by name**, among the known ones and then among further texts. -/
def find (texts : List (String × String)) (name : String) : Found :=
  match all.find? (·.name == name) with
  | some l => .listing l
  | none => findText name names texts

end Cases

end CodeImage

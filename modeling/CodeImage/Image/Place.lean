import CodeImage.Image.Emit
/-!
# Placement

Gives every region of a program an address: data with a fixed address first, then code, then the other data.  The hot
code of a method is one allocation, and so is its cold code, so that blocks which the schedule calls adjacent touch in
memory.
-/
namespace CodeImage

namespace Region

/-- The region holds code of method `m` of the given coldness. -/
def isCodeOf (r : Region) (m : Nat) (cold : Bool) : Bool :=
  match r.context with
  | .block m' _ => m' == m && r.cold == cold
  | .data _ => false

end Region

/-- **Give the regions that satisfy `p` addresses from `a` on**, one directly behind the other. -/
def assignFrom (p : Region → Bool) : Nat → List Region → List Region
  | _, [] => []
  | a, r :: rest =>
    if p r then { r with base := some a } :: assignFrom p (a + r.size) rest else r :: assignFrom p a rest

/-- **Place the regions that satisfy `p` back to back in one allocation**; no regions need none. -/
def placeRun (p : Region → Bool) (placement : Placement) (what : String) (regions : List Region) (m : MemoryMap) :
    Except PlacementError (List Region × MemoryMap) :=
  let run := regions.filter p
  let size := run.foldl (fun n r => n + r.size) 0
  if run.isEmpty then .ok (regions, m)
  else match run.find? (·.payload.isEmpty) with
    | some r => .error (.emptyAllocation r.context.text)
    | none =>
      if wordLimit ≤ size then .error (.outOfMemory what (wordLimit - 1) placement)
      else match m.allocate size 0 placement with
        | some (a, m) => .ok (assignFrom p a regions, m)
        | none => .error (.outOfMemory what size placement)

/-- **Place the code of one coldness of a method.**  The start of hot code is aligned as the options ask; the entry need
not be first in it. -/
def placeCode (platform : Platform) (options : Options) (name : String) (m : Nat) (cold : Bool)
    (state : List Region × MemoryMap) : Except PlacementError (List Region × MemoryMap) :=
  let placement := if cold then platform.coldCode
    else { platform.hotCode with alignment := max platform.hotCode.alignment (options.entryAlignment.getD 0) }
  placeRun (·.isCodeOf m cold) placement ("method '" ++ name ++ "' " ++ (if cold then "cold" else "hot") ++ " code")
    state.1 state.2

/-- **Put a region at a given address.** -/
def placeFixed (a : Nat) (r : Region) (m : MemoryMap) : Except PlacementError (Region × MemoryMap) :=
  if r.payload.isEmpty then .error (.emptyAllocation r.context.text)
  else if wordLimit ≤ a + r.size then .error (.outOfMemory r.context.text r.size r.placement)
  else .ok ({ r with base := some a }, m.reserve a (a + r.size))

/-- Run a placement on the region with number `i`. -/
def placeAt (i : Nat) (step : Region → MemoryMap → Except PlacementError (Region × MemoryMap))
    (state : List Region × MemoryMap) : Except PlacementError (List Region × MemoryMap) :=
  match state.1[i]? with
  | some r => (step r state.2).map fun (r, m) => (state.1.set i r, m)
  | none => .ok state

namespace Program

/-- The order in which code is placed: numbers of methods and coldness. -/
def codeOrder (p : Program) (options : Options) : List (Nat × Bool) :=
  let methods := List.range p.methods.length
  if options.coldFirst then methods.flatMap fun m => [(m, false), (m, true)]
  else methods.map (·, false) ++ methods.map (·, true)

def methodName (p : Program) (m : Nat) : String := (p.methods[m]?.map (·.name)).getD ""

/-- **Place all regions** in the target's memory. -/
def place (p : Program) (platform : Platform) (options : Options) (regions : List Region) :
    Except PlacementError (List Region × MemoryMap) := do
  let items := p.data.zipIdx
  let state := (regions, MemoryMap.ofDeclared platform.memory)
  let state ← items.foldlM (fun state (item, i) => match item.fixedAddress with
    | some a => placeAt i (placeFixed a) state
    | none => .ok state) state
  let state ← (p.codeOrder options).foldlM (fun state (m, cold) =>
    placeCode platform options (p.methodName m) m cold state) state
  items.foldlM (fun state (item, i) => match item.fixedAddress with
    | some _ => .ok state
    | none => placeAt i Region.place state) state

end Program

end CodeImage

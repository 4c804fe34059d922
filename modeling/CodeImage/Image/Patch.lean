import CodeImage.Image.Place
/-!
# Patching

Once every region has an address, the words that refer to addresses are filled in.  A distance that does not fit its
bits is not written; instead the instruction that emitted it is reported, to be encoded at a higher level.
-/
namespace CodeImage

/-- Addresses of what references lead to. -/
structure AddressBook where
  scheduled : List Scheduled
  regions : List Region

namespace AddressBook

/-- The address of a block's own region. -/
def ownerAddress? (book : AddressBook) (m b : Nat) : Option Nat :=
  (book.regions.find? (·.context == .block m b)).bind (·.base)

/-- **The address of a block**: that of the block which owns its slot. -/
def blockAddress? (book : AddressBook) (m b : Nat) : Option Nat :=
  match book.scheduled[m]? with
  | some sm => if sm.schedule.isScheduled b then book.ownerAddress? m (sm.schedule.slotOwner b) else none
  | none => none

/-- **The address that a reference leads to.**  Only data at a fixed address may point beyond the last address.  Such a goal
is not counted from zero on: a word that holds it does so itself, and a distance is the one to beyond the end. -/
def resolve (book : AddressBook) : Target → Except ImageError Nat
  | .block m b => match book.blockAddress? m b with
    | some a => .ok a
    | none => .error (.unresolved (.block m b))
  | .region i => match book.regions[i]? with
    | none => .error (.unresolved (.region i))
    | some r => match r.base with
      | some a => .ok (a + r.pointerOffset)
      | none => .error (.unresolved (.unplaced r.context))

end AddressBook

/-- The number of bits a distance is given; a word has at least one and at most all of its bits for it. -/
def fieldBits (bits : Nat) : Nat := max 1 (min bits 32)

/-- **A distance fits a signed field.** -/
def fitsField (bits : Nat) (distance : Int) : Bool :=
  let limit : Int := (Nat.pow 2 (fieldBits bits - 1) : Nat)
  decide (-limit ≤ distance) && decide (distance < limit)

/-- **A word with a distance in its lowest bits**, the bits above unchanged. -/
def withField (bits word : Nat) (distance : Int) : Nat :=
  let limit := Nat.pow 2 (fieldBits bits)
  word / limit * limit + (distance % (limit : Int)).toNat

/-- What an annotation asks for: a word at an offset, or a longer encoding of an instruction. -/
inductive Fixup where
  | patch (offset word : Nat)
  | raise (method insn : Nat)
  deriving DecidableEq, Repr

/-- **What to do about an annotation** of a region placed at `base`. -/
def fixup (book : AddressBook) (r : Region) (base : Nat) (a : Annotation) : Except ImageError (Option Fixup) :=
  match a.kind with
  | .absolute t addend => do
    let goal ← book.resolve t
    return some (.patch a.offset ((((goal : Int) + addend) % (wordLimit : Int)).toNat))
  | .relative t bits origin => do
    let goal ← book.resolve t
    let distance : Int := (goal : Int) - ((base + a.offset : Nat) : Int)
    if fitsField bits distance then
      return some (.patch a.offset (withField bits ((wordAt? r.payload a.offset).getD 0) distance))
    else match origin with
      | some (m, i) => return some (.raise m i)
      | none => throw (.exhausted (.site (base + a.offset)))
  | .marker _ => .ok none

/-- What to do about the annotations of a region. -/
def fixupsOf (book : AddressBook) (r : Region) : Except LayoutError (List Fixup) := do
  let base ← r.address.mapError .placement
  let found ← (r.annotations.mapM (fixup book r base)).mapError .image
  return found.filterMap id

/-- **Write the patches of a region.** -/
def patchRegion (r : Region) (fixups : List Fixup) : Except ImageError Region :=
  fixups.foldlM (fun r f => match f with
    | .patch offset word => match patched? r.payload offset word with
      | some payload => .ok { r with payload }
      | none => .error (.unresolved (.pastEnd r.context))
    | .raise _ _ => .ok r) r

/-- **Fill in every reference.**  The answer lists the instructions that need a longer encoding, each once. -/
def patchAll (scheduled : List Scheduled) (regions : List Region) :
    Except LayoutError (List Region × List (Nat × Nat)) := do
  let book : AddressBook := ⟨scheduled, regions⟩
  let fixups ← regions.mapM (fixupsOf book)
  let patched ← ((regions.zip fixups).mapM fun (r, fs) => patchRegion r fs).mapError .image
  let raised := fixups.flatten.filterMap fun f => match f with
    | .raise m i => some (m, i)
    | .patch _ _ => none
  return (patched, raised.eraseDups)

end CodeImage

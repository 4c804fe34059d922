import CodeImage.Listing.Basic
/-!
# Checks of listings

What has to hold of a listing before it is laid out: names are distinct and known, and methods are well formed.
-/
namespace CodeImage

/-- **What is wrong with a listing.** -/
inductive ListingFault where
  | badEntry
  | emptyBlock (block : String)
  | pastEnd (block : String)
  | badExit (block : String)
  | badLabel (label : Label) (block : String)
  | badHandler (label : Label) (block : String)
  | duplicateName (name : String)
  | emptyData (name : String)
  | unknownInMethod (method name : String)
  | unknownInData (item name : String)
  | refPastEnd (item : String)
  deriving DecidableEq, Repr

namespace ListingFault

def message : ListingFault → String
  | .badEntry => "invalid or unresolved entry label"
  | .emptyBlock b => "block " ++ b ++ " is empty"
  | .pastEnd b => "block " ++ b ++ " runs past the end"
  | .badExit b => "block " ++ b ++ " is badly terminated"
  | .badLabel l b => "bad label " ++ l.text ++ " in " ++ b
  | .badHandler l b => "bad handler " ++ l.text ++ " for " ++ b
  | .duplicateName n => "duplicate name " ++ n
  | .emptyData n => "data " ++ n ++ " is empty"
  | .unknownInMethod m n => m ++ " refers to unknown " ++ n
  | .unknownInData d n => "data " ++ d ++ " refers to unknown " ++ n
  | .refPastEnd d => "data " ++ d ++ " has a reference past its end"

end ListingFault

namespace ListedMethod

/-- The label has been looked up and names a block. -/
def knows (m : ListedMethod) (l : Label) : Bool := l.block?.any (· < m.blocks.length)

/-- The first thing wrong with an instruction; `last` tells whether it ends its block. -/
def insnFault? (m : ListedMethod) (block : String) (last : Bool) (i : Insn) : Option ListingFault :=
  if i.isExit != last then some (.badExit block)
  else (i.targets.find? (!m.knows ·)).map (.badLabel · block)

/-- The first thing wrong with a block. -/
def blockFault? (m : ListedMethod) (b : ListedBlock) : Option ListingFault :=
  if b.length = 0 then some (.emptyBlock b.name)
  else if m.insns.length < b.start + b.length then some (.pastEnd b.name)
  else ((m.insnsOf b).findSome? fun (i, n) => m.insnFault? b.name (n + 1 == b.start + b.length) i)
    <|> ((b.protection.find? (!m.knows ·.handler)).map fun p => .badHandler p.handler b.name)

/-- **The first thing wrong with a method.** -/
def fault? (m : ListedMethod) : Option ListingFault :=
  if m.knows m.entry then m.blocks.findSome? m.blockFault? else some .badEntry

end ListedMethod

namespace Listing

/-- The names of methods and data, in order. -/
def names (l : Listing) : List String := l.methods.map (·.name) ++ l.data.map (·.name)

/-- The first thing wrong with methods, behind the names in `earlier`. -/
def methodsFault? (earlier : List String) : List ListedMethod → Option ListingFault
  | [] => none
  | m :: rest =>
    if earlier.contains m.name then some (.duplicateName m.name)
    else m.fault? <|> methodsFault? (m.name :: earlier) rest

/-- The first thing wrong with pieces of data by themselves, behind the names in `earlier`. -/
def dataFault? (earlier : List String) : List DataItem → Option ListingFault
  | [] => none
  | d :: rest =>
    if earlier.contains d.name then some (.duplicateName d.name)
    else if d.payload.isEmpty then some (.emptyData d.name)
    else dataFault? (d.name :: earlier) rest

/-- The first name in a method's instructions that nothing has. -/
def unknownIn? (l : Listing) (m : ListedMethod) : Option ListingFault :=
  ((m.insns.filterMap Insn.reference?).find? (!l.names.contains ·)).map (.unknownInMethod m.name)

/-- The first thing wrong with the references of a piece of data. -/
def refFault? (l : Listing) (d : DataItem) : Option ListingFault :=
  d.refs.findSome? fun r =>
    if !l.names.contains r.target then some (.unknownInData d.name r.target)
    else if d.payload.length < r.offset + 4 then some (.refPastEnd d.name)
    else none

/-- **The first thing wrong with a listing.** -/
def fault? (l : Listing) : Option ListingFault :=
  methodsFault? [] l.methods
    <|> dataFault? (l.methods.map (·.name)) l.data
    <|> l.methods.findSome? l.unknownIn?
    <|> l.data.findSome? l.refFault?

end Listing

end CodeImage

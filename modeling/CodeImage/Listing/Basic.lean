import CodeImage.Image.Program
import CodeImage.Listing.Method
/-!
# Listings

A listing is a named program in written form: methods and pieces of data.
-/
namespace CodeImage

/-- **A program in written form.** -/
structure Listing where
  name : String
  methods : List ListedMethod
  data : List DataItem
  deriving DecidableEq, Repr

namespace DataItem

/-- Data placed wherever the platform puts data. -/
def plain (name : String) (payload : Bytes) : DataItem := ⟨name, payload, none, none, 0, []⟩

/-- **Data made of words**, some of which refer to methods or data. -/
def ofWords (name : String) (words : List Nat) (refs : List (Nat × String)) : DataItem :=
  { plain name (words.flatMap (leBytes 4)) with refs := refs.map fun (offset, target) => ⟨offset, target, 0⟩ }

end DataItem

namespace Listing

/-- A listing of one method, named for it. -/
def ofMethod (m : ListedMethod) : Listing := ⟨m.name, [m], []⟩

/-- **What a listing holds**, for a reader. -/
def describe (l : Listing) : String :=
  String.join (l.methods.map fun m =>
    "\nFunc in module: name='" ++ m.name ++ "' entry='" ++ m.entry.text ++ "' \x7b\n" ++ m.render ++ "\x7d\n")
  ++ String.join (l.data.map fun d =>
    s!"data {d.name} ({d.payload.length} bytes, {d.refs.length} refs)\n")

end Listing

end CodeImage

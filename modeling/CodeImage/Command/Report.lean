import CodeImage.Image.Basic
import CodeImage.Listing.Basic
/-!
# Image maps

The text that shows a reader what an image holds: its regions, the order and the code ranges of each method, the
protected ranges, the sections and the number of records.
-/
namespace CodeImage

namespace Report

/-- A number with blanks in front, to at least `width` characters. -/
def padLeft (width n : Nat) : String :=
  let digits := toString n
  String.ofList (List.replicate (width - digits.length) ' ') ++ digits

/-- An address in eight digits. -/
def address (a : Nat) : String := hexPadded 8 a

def range (start stop : Nat) : String := address start ++ ".." ++ address stop

def region (r : PlacedRegion) : String :=
  "  " ++ address r.address ++ " " ++ padLeft 6 r.size ++ "  " ++ (if r.cold then "cold" else "hot ") ++ "  "
    ++ r.context.text ++ "\n"

def method (m : ListedMethod) (map : CodeMap) (s : Schedule) : String :=
  let order := s.order.map fun b => quoted ((m.blocks[b]?.map (·.name)).getD "")
  "method " ++ map.method ++ ": " ++ listText order ++ "\n"
    ++ String.join (map.ranges.map fun (a, b) => "  code " ++ range a b ++ "\n")

def handler (h : HandlerEntry) : String :=
  let filter := match h.filter with
    | some ty => "Some(ExceptionType(" ++ toString ty ++ "))"
    | none => "None"
  "HandlerEntry \x7b filter: " ++ filter ++ ", handler: " ++ toString h.handler ++ " \x7d"

def handlers (m : ListedMethod) (t : HandlerTable) : String :=
  String.join (t.ranges.map fun r =>
    "  " ++ m.name ++ ": protect " ++ range r.start r.stop ++ " -> " ++ listText (r.handlers.map handler) ++ "\n")

def sectionLine (s : Span) : String :=
  "section " ++ address s.address ++ ", " ++ toString s.bytes.length ++ " bytes\n"

/-- **The map of an image** that was laid out from a listing. -/
def image (l : Listing) (i : Image) : String :=
  "\nImage map of '" ++ l.name ++ "' (" ++ toString i.restarts ++ " restarts) \x7b\n"
    ++ String.join (i.regions.map region) ++ "\x7d\n"
    ++ String.join (((l.methods.zip i.codeMaps).zip i.schedules).map fun ((m, map), s) => method m map s)
    ++ String.join ((l.methods.zip i.handlerTables).map fun (m, t) => handlers m t)
    ++ String.join (i.sections.map sectionLine)
    ++ toString i.relocations.length ++ " relocation records\n"

end Report

end CodeImage

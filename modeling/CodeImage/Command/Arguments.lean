import CodeImage.Text.Numeral
/-!
# Arguments of the command

Switches have a letter and a long name.  The value of a switch is the next argument or is attached to the switch;
several letters may share one dash.  No switch may be given twice, and nothing else may be given.
-/
namespace CodeImage

/-- **What may be asked for.** -/
inductive Switch where
  | test
  | coldFirst
  | maxRestarts
  | output
  | dump
  deriving DecidableEq, Repr

namespace Switch

def takesValue : Switch → Bool
  | .test | .maxRestarts | .output => true
  | .coldFirst | .dump => false

def ofLetter? : Char → Option Switch
  | 't' => some .test
  | 'c' => some .coldFirst
  | 'r' => some .maxRestarts
  | 'o' => some .output
  | 'd' => some .dump
  | _ => none

def ofName? : String → Option Switch
  | "test" => some .test
  | "cold-first-pass" => some .coldFirst
  | "max-restarts" => some .maxRestarts
  | "output" => some .output
  | "dump" => some .dump
  | _ => none

end Switch

/-- A switch and its value; switches without one have the empty text. -/
abbrev Setting := Switch × String

namespace Arguments

/-- The settings of letters behind one dash, and the switch whose value is the next argument, if there is one. -/
def readLetters? : List Char → Option (List Setting × Option Switch)
  | [] => some ([], none)
  | c :: cs => match Switch.ofLetter? c with
    | none => none
    | some s =>
      if s.takesValue then match cs with
        | [] => some ([], some s)
        | '=' :: value => some ([(s, String.ofList value)], none)
        | value => some ([(s, String.ofList value)], none)
      else (readLetters? cs).map fun (settings, open?) => ((s, "") :: settings, open?)

/-- The setting of a long name, or the switch whose value is the next argument. -/
def readName? (name : List Char) : Option (List Setting × Option Switch) :=
  match Switch.ofName? (String.ofList (name.takeWhile (· != '='))), name.dropWhile (· != '=') with
  | none, _ => none
  | some s, [] => if s.takesValue then some ([], some s) else some ([(s, "")], none)
  | some s, _ :: value => if s.takesValue then some ([(s, String.ofList value)], none) else none

/-- What an argument sets; none if it is not a switch. -/
def readSwitch? (argument : String) : Option (List Setting × Option Switch) :=
  match argument.toList with
  | '-' :: '-' :: name => readName? name
  | '-' :: c :: cs => readLetters? (c :: cs)
  | _ => none

/-- An argument that can be the value of the switch before it: a dash may only stand alone. -/
def isValue (argument : String) : Bool :=
  match argument.toList with
  | '-' :: _ :: _ => false
  | _ => true

/-- **The settings of a row of arguments**, none if some argument has no place.  Two dashes end the switches. -/
def settings? : List String → Option (List Setting)
  | [] => some []
  | a :: rest =>
    if a = "--" then if rest.isEmpty then some [] else none
    else match readSwitch? a with
      | none => none
      | some (settings, none) => (settings? rest).map (settings ++ ·)
      | some (settings, some s) => match rest with
        | [] => none
        | value :: rest => if isValue value then (settings? rest).map (settings ++ (s, value) :: ·) else none

end Arguments

/-- **A request**: the listing to lay out, and how. -/
structure Request where
  test : String
  coldFirst : Bool
  maxRestarts : Option String
  output : Option String
  dump : Bool
  deriving DecidableEq, Repr

namespace Request

/-- **Read a request.**  A listing has to be named. -/
def ofArguments? (arguments : List String) : Option Request := do
  let settings ← Arguments.settings? arguments
  guard ((settings.map (·.1)).eraseDups.length = settings.length)
  let test ← settings.lookup .test
  return ⟨test, (settings.lookup .coldFirst).isSome, settings.lookup .maxRestarts, settings.lookup .output,
    (settings.lookup .dump).isSome⟩

/-- A count as it may be written in an argument: decimal digits, perhaps behind a plus sign. -/
def count? (text : String) : Option Nat :=
  match text.toList with
  | '+' :: digits => wordOfDigits? 10 digits
  | digits => wordOfDigits? 10 digits

end Request

end CodeImage

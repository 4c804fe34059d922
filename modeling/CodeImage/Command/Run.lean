import CodeImage.Command.Arguments
import CodeImage.Command.Report
import CodeImage.Image.Binary
import CodeImage.Image.Check
import CodeImage.Image.Layout
import CodeImage.Listing.Board
import CodeImage.Listing.Cases
import CodeImage.Listing.Check
import CodeImage.Listing.Machine
/-!
# The command

Finds a listing, lays it out for the default board, checks the image, and shows or stores it as asked.  `Command.run`
computes what is printed and which file is written; it does neither.
-/
namespace CodeImage

/-- **What a run of the command does.** -/
structure Outcome where
  exitCode : Nat
  output : String
  file : Option (String × Bytes)
  deriving DecidableEq, Repr

namespace Outcome

/-- A run that only prints. -/
def printed (text : String) : Outcome := ⟨0, text, none⟩

/-- The arguments make no request. -/
def misused : Outcome := ⟨2, "", none⟩

end Outcome

namespace Command

def namesText (names : List String) : String :=
  "available test cases are:\n" ++ String.join (names.map fun n => "     " ++ n ++ "\n")

/-- **Serve a request for a listing.**  `writeError?` tells why a file cannot be written. -/
def serve (writeError? : String → Option String) (r : Request) (options : Options) (l : Listing) : Outcome :=
  match l.fault? with
  | some f => .printed ("invalid test case: " ++ f.message ++ "\n")
  | none =>
    let shown := l.describe
    let program := l.program Machine.default
    let board := Board.default
    match program.layout board.platform options with
    | .error e => .printed (shown ++ "layout failed: " ++ e.message ++ "\n")
    | .ok i => match i.fault? program.methods board.memory with
      | some f => .printed (shown ++ "validation failed: " ++ f.message ++ "\n")
      | none =>
        let shown := if r.dump then shown ++ Report.image l i else shown
        match r.output with
        | none => .printed shown
        | some path => match writeError? path with
          | some message => .printed (shown ++ "can't write " ++ path ++ ": " ++ message ++ "\n")
          | none => ⟨0, shown ++ "wrote " ++ path ++ "\n", some (path, Image.codec.encode i)⟩

/-- **Run the command.**  `texts` are the listings beside the known ones, with their names. -/
def run (texts : List (String × String)) (writeError? : String → Option String) (arguments : List String) : Outcome :=
  match Request.ofArguments? arguments with
  | none => .misused
  | some r => match Cases.find texts r.test with
    | .unknown names => .printed (namesText names)
    | .unreadable e names =>
      .printed ("can't parse " ++ r.test ++ ": Parse(" ++ quoted e.message ++ ")\n" ++ namesText names)
    | .listing l =>
      let options := { Options.default with coldFirst := r.coldFirst }
      match r.maxRestarts with
      | none => serve writeError? r options l
      | some text => match Request.count? text with
        | some n => serve writeError? r { options with maxRestarts := n } l
        | none => .printed ("invalid max-restarts value: " ++ text ++ "\n")

end Command

end CodeImage

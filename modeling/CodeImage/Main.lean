import CodeImage.Command.Run
/-!
# The program

Reads the listings in the directory `tests`, runs the command on the arguments, and does what it says.
-/
namespace CodeImage

/-- The name of a file without what follows its last dot; a dot in front does not count. -/
def fileStem (name : String) : String :=
  match name.toList.reverse.dropWhile (· != '.') with
  | _ :: c :: rest => String.ofList (c :: rest).reverse
  | _ => name

/-- **The listings in the directory `tests`**, with their names.  Copies that editors leave behind are not listings. -/
def readListings : IO (List (String × String)) := do
  let directory := (← IO.currentDir) / "tests"
  if !(← directory.isDir) then return []
  let files := (← directory.readDir).toList.filter fun f => !f.fileName.endsWith "~"
  let texts ← files.mapM fun f => do
    try
      let text ← IO.FS.readFile f.path
      return [(fileStem f.fileName, text)]
    catch _ => return []
  return texts.flatten

/-- Store a file, or say why that cannot be done. -/
def store (path : String) (bytes : Bytes) : IO (Option String) := do
  try
    IO.FS.writeBinFile path ⟨bytes.toArray⟩
    return none
  catch e => return some (toString e)

/-- Run the command on arguments; the outcome tells of the file only after it has been stored. -/
def perform (arguments : List String) : IO Outcome := do
  let texts ← readListings
  let wanted := Command.run texts (fun _ => none) arguments
  match wanted.file with
  | none => return wanted
  | some (path, bytes) =>
    let failure ← store path bytes
    return Command.run texts (fun _ => failure) arguments

end CodeImage

def main (arguments : List String) : IO UInt32 := do
  let outcome ← CodeImage.perform arguments
  IO.print outcome.output
  return UInt32.ofNat outcome.exitCode

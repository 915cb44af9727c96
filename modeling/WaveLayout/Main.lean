import WaveLayout.Program

/-!
# The program on the disk

Here the requests of a job go to the file system, and the report of the program to the standard
streams. Everything else is decided by `Program.perform`.
-/

namespace WaveLayout

/-! ## Requests on the disk -/

/-- The cause behind a number of the system and its description. Some requests report the number
negated, which as a word lies in the upper half. -/
def FileError.ofCode (word : UInt32) (description : String) : FileError :=
  let code := if word < 0x80000000 then word else 0 - word
  if code = 2 then .notFound
  else if code = 20 then .notADirectory
  else if code = 21 then .isADirectory
  else if code = 36 then .nameTooLong
  else .other description code.toNat

/-- The cause behind an error of the system. -/
def FileError.ofSystem : IO.Error → FileError
  | .alreadyExists _ code description | .otherError code description
  | .resourceBusy code description | .resourceVanished code description
  | .unsupportedOperation code description | .hardwareFault code description
  | .unsatisfiedConstraints code description | .illegalOperation code description
  | .protocolError code description | .timeExpired code description
  | .interrupted _ code description | .noFileOrDirectory _ code description
  | .invalidArgument _ code description | .permissionDenied _ code description
  | .resourceExhausted _ code description | .inappropriateType _ code description
  | .noSuchThing _ code description => .ofCode code description
  | .unexpectedEof => .other "unexpected end of file" 0
  | .userError description => .other description 0

namespace Disk

/-- The answer to a request on a path. -/
def request {α : Type} (path : Path) (act : String → IO α) : IO (Except FileError α) := do
  if '\x00' ∈ path.text then
    return .error .nulInPath
  match ← (act (String.ofList path.text)).toBaseIO with
  | .ok answer => return .ok answer
  | .error cause => return .error (.ofSystem cause)

/-- Reads the text of a file. -/
def read (path : Path) : IO (Except FileError Text) := do
  match ← request path fun name => IO.FS.readBinFile name with
  | .error cause => return .error cause
  | .ok bytes =>
    match Content.ofBytes bytes.toList with
    | .text text => return .ok text
    | .bytes _ => return .error .notText

/-- Runs a job on the disk, and returns its value with what it said. -/
def run {α : Type} : Job α → List Event → IO (α × List Event)
  | .done value, said => return (value, said.reverse)
  | .read path next, said => do run (next (← read path)) said
  | .write path text next, said => do
    let answer ← request path fun name => IO.FS.writeFile name (String.ofList text)
    run (next answer) said
  | .remove path next, said => do
    let answer ← request path fun name => IO.FS.removeFile name
    run (next answer) said
  | .say event next, said => run next (event :: said)

end Disk

end WaveLayout

open WaveLayout in
/-- The program. -/
def main (arguments : List String) : IO UInt32 := do
  let (report, log) ← Disk.run (Program.perform (arguments.map String.toList)) []
  IO.print (String.ofList report.output)
  for note in report.notes do
    IO.eprintln (String.ofList note)
  for record in report.records log do
    for line in (record.level.label ++ ' ' :: record.line) :: record.more do
      IO.eprintln (String.ofList line)
  return UInt32.ofNat report.status

import CloudTemplate.Command.Run
import CloudTemplate.Console.Drawing

/-!
# The program

The command line reads the files to which its arguments may lead, runs the command, and prints or
writes what the run ends with.  No cloud can be reached from here.
-/

namespace CloudTemplate.Program

open Command

/-- The paths that an argument may stand for: itself, what follows its equals sign, and what
follows a short switch. -/
def possiblePaths (argument : Text) : List Text :=
  [argument, ((Text.cut '=' argument).2).getD [], argument.drop 2]

/-- What a path leads to. -/
def look (path : Text) : IO Place := do
  try
    let bytes ← IO.FS.readBinFile path.display
    return .file bytes.toList
  catch
    | .noFileOrDirectory .. => return .nothing
    | _ => return .directory

/-- The files to which arguments may lead. -/
def filesOf (arguments : List Text) : IO Files := do
  let mut places : List (Path × Place) := []
  for text in arguments.flatMap possiblePaths do
    if let .ok path := Path.ofText text then
      if !path.isEmpty then places := (path, ← look text) :: places
  let known := places
  return { lookUp := fun path => (known.lookup path).getD .nothing
           writeFault? := fun _ => none }

/-- Print outputs on a stream. -/
def showOn (stream : IO.FS.Stream) (outputs : List Console.Output) : IO Unit :=
  for line in outputs.flatMap Console.Output.lines do
    stream.putStrLn line

/-- A misuse of the command line in words. -/
def misuseText : Misuse → Text
  | .noArguments | .noCommand => "Missing command."
  | .unknownCommand name => "No such command " ++ Text.quoted name ++ "."
  | .unknownSwitch name => "No such option: " ++ name
  | .switchValue name => "Option " ++ Text.quoted name ++ " has no value or takes none."
  | .missing key => "Missing argument " ++ Text.quoted key.name ++ "."
  | .badValue key fault => "Invalid value for " ++ Text.quoted key.name ++ ": " ++ fault.message
  | .extraArgument argument => "Got unexpected extra argument (" ++ argument ++ ")"

/-- What is said about a failure beyond what is shown on the console. -/
def failureText? : Failure → Option Text
  | .misuse m => some ("Error: " ++ misuseText m)
  | .aborted _ => none
  | .badPath fault => some fault.message
  | .unwritable path fault => some (fault.message path)

end CloudTemplate.Program

open CloudTemplate CloudTemplate.Command CloudTemplate.Program in
/-- Run the command line. -/
def main (arguments : List String) : IO UInt32 := do
  let arguments := arguments.map Text.ofString
  let files ← filesOf arguments
  let ending : Ending := (Run.program files Cloud.unreachable arguments).result
  let out ← IO.getStdout
  let err ← IO.getStderr
  out.putStr ending.printed
  if let some (path, text) := ending.writing? then IO.FS.writeFile path.display text
  showOn out ending.shown
  showOn err ending.complaints
  if let .error failure := ending then
    if let some text := failureText? failure then err.putStrLn text.display
  return UInt32.ofNat ending.exitCode

import CloudTemplate.Command.Usage
import CloudTemplate.Text.Split

/-!
# Switches on a command line

A switch is an argument that begins with a hyphen and has more characters.  A long one,
`--name` or `--name=value`, stands for itself; short ones, `-x`, may be written together.  A switch
that takes a value takes the characters that are left in its argument, behind the equals sign of a
long one, or else the next argument, whatever that is.  Two hyphens alone end the switches.

All other arguments are positional.  A reader may stop at the first of them.
-/

namespace CloudTemplate.Command

/-- A switch: what it sets, how it is written, and whether it takes a value. -/
structure Switch where
  key : Key
  names : List Text
  takesValue : Bool

/-- A switch that was given, with its value if it takes one. -/
structure Occurrence where
  key : Key
  value : Option Text
  deriving DecidableEq, Repr

namespace Switch

/-- The switch that is written in a way. -/
def find? (switches : List Switch) (name : Text) : Option Switch :=
  switches.find? fun switch => switch.names.contains name

/-- Whether an argument is made of switches. -/
def isWritten (argument : Text) : Bool :=
  argument.head? = some '-' && 1 < argument.length

/-- What one argument gives: switches that are complete, and perhaps a last one that still needs a
value. -/
structure Reading where
  complete : List Occurrence
  open? : Option (Key × Text) := none

/-- Read short switches that are written together. -/
def readShort (switches : List Switch) : Text → Except Misuse Reading
  | [] => .ok ⟨[], none⟩
  | c :: rest =>
    let name : Text := ['-', c]
    match find? switches name with
    | none => .error (.unknownSwitch name)
    | some switch =>
      if switch.takesValue then
        if rest.isEmpty then .ok ⟨[], some (switch.key, name)⟩
        else .ok ⟨[⟨switch.key, some rest⟩], none⟩
      else do
        let reading ← readShort switches rest
        return { reading with complete := ⟨switch.key, none⟩ :: reading.complete }

/-- Whether a name is written with two hyphens. -/
def isLong (name : Text) : Bool := Text.startsWith "--" name

/-- Read the switches in one argument. -/
def readArgument (switches : List Switch) (argument : Text) : Except Misuse Reading :=
  let (name, value) := Text.cut '=' argument
  match if isLong name then find? switches name else none with
  | some switch =>
    match switch.takesValue, value with
    | true, some value => .ok ⟨[⟨switch.key, some value⟩], none⟩
    | true, none => .ok ⟨[], some (switch.key, name)⟩
    | false, some _ => .error (.switchValue name)
    | false, none => .ok ⟨[⟨switch.key, none⟩], none⟩
  | none =>
    if isLong argument then .error (.unknownSwitch name)
    else readShort switches (argument.drop 1)

/-- Separate switches and positional arguments.  Unless they are mixed, everything from the first
positional argument on is positional. -/
def separate (switches : List Switch) (mixed : Bool) :
    List Text → Except Misuse (List Occurrence × List Text)
  | [] => .ok ([], [])
  | argument :: rest =>
    if argument = "--" then .ok ([], rest)
    else if isWritten argument then do
      let reading ← readArgument switches argument
      match reading.open?, rest with
      | none, rest =>
        let (occurrences, positional) ← separate switches mixed rest
        return (reading.complete ++ occurrences, positional)
      | some (key, _), value :: rest =>
        let (occurrences, positional) ← separate switches mixed rest
        return (reading.complete ++ ⟨key, some value⟩ :: occurrences, positional)
      | some (_, name), [] => .error (.switchValue name)
    else if mixed then do
      let (occurrences, positional) ← separate switches mixed rest
      return (occurrences, argument :: positional)
    else .ok ([], argument :: rest)

end Switch

end CloudTemplate.Command

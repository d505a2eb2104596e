import CloudTemplate.Command.Files
import CloudTemplate.Command.Switch
import CloudTemplate.Fields
import CloudTemplate.Text.Split

/-!
# Settings of a command

What a command line sets is checked in the order in which the switches are first given, and the
template file comes last.  A switch that may be repeated collects its values; of any other the last
value counts.

Some values are pairs `KEY=VALUE`, which are cut at the first equals sign and have a key of at least
one character.  Repeated pairs make up a table in which the last value of a key counts.  The values
of conditions are truth values, in any case of letters.
-/

namespace CloudTemplate.Command

/-! ### Pairs -/

/-- Add the pairs to a table, one after the other. -/
def addPairs (table : Fields Text) : List Text → Except BadValue (Fields Text)
  | [] => .ok table
  | item :: rest =>
    match Text.cut '=' item with
    | (_, none) => .error (.notPair item)
    | (key, some value) =>
      if key.isEmpty then .error (.notPair item) else addPairs (table.set key value) rest

/-- The table that pairs make up. -/
def pairs (items : List Text) : Except BadValue (Fields Text) :=
  addPairs [] items

/-- The truth value that a text stands for. -/
def truth? (value : Text) : Option Bool :=
  if Text.lowerCase value = "true" then some true
  else if Text.lowerCase value = "false" then some false
  else none

/-- A table of truth values, from a table of texts. -/
def truths : Fields Text → Except BadValue (Fields Bool)
  | [] => .ok []
  | (name, value) :: rest =>
    match truth? value with
    | none => .error (.notTruth name value)
    | some b => return (name, b) :: (← truths rest)

/-- The outcomes of conditions that pairs give. -/
def conditions (items : List Text) : Except BadValue (Fields Bool) := do
  truths (← pairs items)

/-! ### Commands and what they set -/

/-- The commands. -/
inductive Name where
  | resolve
  | deps
  | order
  | refs
  deriving DecidableEq, Repr

/-- What a command line sets. -/
structure Settings where
  templateFile : Text := ""
  parameters : Fields Text := []
  pseudo : Fields Text := []
  conditions : Fields Bool := []
  renames : Fields Text := []
  placeholders : List Text := []
  fromAws : Bool := false
  resolveSsm : Bool := false
  stackName : Option Text := none
  profile : Option Text := none
  region : Option Text := none
  outputFile : Option Text := none
  /-- Whether a document is wanted where a drawing is the rule. -/
  asDocument : Bool := false
  deriving Inhabited

namespace Name

/-- The commands by their names. -/
def table : Fields Name :=
  [("resolve", .resolve), ("deps", .deps), ("order", .order), ("refs", .refs)]

/-- The command with a name. -/
def ofText? (name : Text) : Option Name := table.get? name

/-- The switches of all commands that expand a template. -/
def expansionSwitches : List Switch :=
  [⟨.parameters, ["--parameter", "-p"], true⟩, ⟨.pseudo, ["--pseudo"], true⟩,
    ⟨.conditions, ["--condition"], true⟩, ⟨.renames, ["--rename"], true⟩,
    ⟨.placeholders, ["--placeholder"], true⟩]

/-- The switch with which help is asked for. -/
def helpSwitch : Switch := ⟨.help, ["--help"], false⟩

/-- The switches of a command. -/
def switches : Name → List Switch
  | .resolve => expansionSwitches ++
    [⟨.fromAws, ["--from-aws"], false⟩, ⟨.resolveSsm, ["--resolve-ssm"], false⟩,
      ⟨.stackName, ["--stack-name"], true⟩, ⟨.profile, ["--profile"], true⟩,
      ⟨.region, ["--region"], true⟩, ⟨.outputFile, ["--output-file", "-o"], true⟩, helpSwitch]
  | .deps | .order => expansionSwitches ++ [⟨.output, ["--output"], true⟩, helpSwitch]
  | .refs => [helpSwitch]

/-- The kinds of output among which a command has a choice; the first is the rule. -/
def choices : Name → List Text
  | .deps => ["tree", "json"]
  | .order => ["table", "json"]
  | _ => []

end Name

namespace Settings

/-- The values that were given for a key. -/
def valuesOf (occurrences : List Occurrence) (key : Key) : List Text :=
  occurrences.filterMap fun o => if o.key = key then o.value else none

/-- Refuse a value of a parameter. -/
def refuse {α : Type} (key : Key) (fault : BadValue) : Except Failure α :=
  .error (.misuse (.badValue key fault))

/-- A value of a parameter as it was read. -/
def accept {α : Type} (key : Key) (value : Except BadValue α) : Except Failure α :=
  value.mapError fun fault => .misuse (.badValue key fault)

/-- What a path leads to, if the text is one. -/
def place (files : Files) (path : Text) : Except Failure Place :=
  ((Path.ofText path).map files.lookUp).mapError .badPath

/-- Check and set the values that were given for a key. -/
def take (command : Name) (files : Files) (settings : Settings) (key : Key)
    (values : List Text) : Except Failure Settings :=
  match key with
  | .parameters => return { settings with parameters := ← accept key (pairs values) }
  | .pseudo => return { settings with pseudo := ← accept key (pairs values) }
  | .conditions => return { settings with conditions := ← accept key (Command.conditions values) }
  | .renames => return { settings with renames := ← accept key (pairs values) }
  | .placeholders => .ok { settings with placeholders := values }
  | .fromAws => .ok { settings with fromAws := true }
  | .resolveSsm => .ok { settings with resolveSsm := true }
  | .stackName => .ok { settings with stackName := values.getLast? }
  | .profile => .ok { settings with profile := values.getLast? }
  | .region => .ok { settings with region := values.getLast? }
  | .outputFile =>
    match values.getLast? with
    | none => .ok settings
    | some path => do
      match ← place files path with
      | .directory => refuse key (.directory path)
      | _ => return { settings with outputFile := some path }
  | .output =>
    match values.getLast? with
    | none => .ok settings
    | some value =>
      if command.choices.contains value then
        .ok { settings with asDocument := value = "json" }
      else refuse key (.notChoice value command.choices)
  | _ => .ok settings

/-- Check and set what was given for several keys, one after the other. -/
def takeAll (command : Name) (files : Files) (occurrences : List Occurrence) (settings : Settings) :
    List Key → Except Failure Settings
  | [] => .ok settings
  | key :: rest => do
    let settings ← settings.take command files key (valuesOf occurrences key)
    takeAll command files occurrences settings rest

/-- Check and set the template file. -/
def takeFile (files : Files) (settings : Settings) : List Text → Except Failure Settings
  | [] => .error (.misuse (.missing .templateFile))
  | path :: rest => do
    match ← place files path, rest with
    | .nothing, _ => refuse .templateFile (.noFile path)
    | .directory, _ => refuse .templateFile (.directory path)
    | .file _, [] => return { settings with templateFile := path }
    | .file _, extra :: _ => .error (.misuse (.extraArgument extra))

/-- The settings that the arguments of a command make up. -/
def ofArguments (command : Name) (files : Files) (occurrences : List Occurrence)
    (positional : List Text) : Except Failure Settings := do
  let keys := (occurrences.map (·.key)).eraseDups
  let settings ← takeAll command files occurrences {} keys
  settings.takeFile files positional

end Settings

end CloudTemplate.Command

import CloudTemplate.Cloud.Identity
import CloudTemplate.Cloud.ParameterStore
import CloudTemplate.Command.Settings
import CloudTemplate.Console.Listing
import CloudTemplate.Console.Markup
import CloudTemplate.Expander.Document
import CloudTemplate.Json.Reader
import CloudTemplate.Json.Writer
import CloudTemplate.Text.Utf8

/-!
# Running a command

A command line is run on the files that it sees and on a cloud account.  A template file is UTF-8
text whose lines may end in any of three ways, and holds one document.  The run notes its calls to
the cloud and ends with something to print, something to write, or a failure; `Ending` has the rest
of what can be observed as functions of that.
-/

namespace CloudTemplate.Command

/-! ### Templates in files -/

/-- Why a file holds no template. -/
inductive SourceError where
  | encoding (failure : Text.Utf8.Failure)
  | document (text : List Char) (failure : Json.Failure)
  | template (e : TemplateError)

/-- The reason in words, for the file at a path. -/
def SourceError.message (path : Text) : SourceError → Text
  | .encoding failure => path ++ ": " ++ failure.message
  | .document text (.malformed problem offset) =>
    path ++ " is not valid JSON: " ++ problem.message ++ ": " ++ Json.place text offset
  | .document _ (.longInteger digits) => path ++ ": " ++ Json.longIntegerMessage digits
  | .template e => path ++ ": " ++ e.message

/-- The template that the bytes of a file hold. -/
def readTemplate (bytes : List UInt8) : Except SourceError Template := do
  let cs ← (Text.Utf8.decode bytes).mapError .encoding
  let text := Text.Utf8.unifyLineEnds cs
  let document ← (Json.read text).mapError (.document text)
  (Template.ofDocument document).mapError .template

/-! ### Runs -/

/-- What a run that succeeds leaves. -/
inductive Product where
  /-- The version of the program, which is printed. -/
  | version
  /-- A help text. -/
  | help
  /-- A document, which is printed as text. -/
  | document (v : Value)
  /-- Something that is shown on the console. -/
  | shown (output : Console.Output)
  /-- A document that is written to a file. -/
  | written (path : Text) (v : Value)

/-- A run: it calls the cloud and ends in one way or the other. -/
abbrev Run (α : Type) := Recorded CloudCall Failure α

/-- The version of the program. -/
def programVersion : String := "0.1.0"

namespace Run

/-- A run that fails. -/
def fail {α : Type} (failure : Failure) : Run α := Recorded.ofExcept (.error failure)

/-- A run that is aborted with a message. -/
def abort {α : Type} (message : Text) : Run α := fail (.aborted message)

/-- The template in a file. -/
def load (files : Files) (path : Text) : Run Template := do
  match ← Recorded.ofExcept (Settings.place files path) with
  | .file bytes =>
    Recorded.ofExcept ((readTemplate bytes).mapError fun e => .aborted (e.message path))
  | _ => fail (.misuse (.badValue .templateFile (.noFile path)))

/-- The expander that settings make up, given values for parameters and pseudo-parameters. -/
def expander (settings : Settings) (t : Template) (parameters : Fields Value)
    (pseudo : Fields Text) : Expander :=
  let known := Deployment.ofTemplate (some t)
  let deployment := { known with
    pseudo := known.pseudo.update pseudo
    parameters := known.parameters.update parameters
    conditions := known.conditions.update settings.conditions }
  let e : Expander := { deployment, placeholders := .ofList settings.placeholders }
  e.renameAll settings.renames

/-- Expand a template: its document, and the expander with the graph. -/
def expand (e : Expander) (t : Template) : Run (Value × Expander) :=
  match e.resolveTemplate t with
  | (.ok v, e) => return (v, e)
  | (.error err, _) => abort err.message

/-- The values of parameters that the settings give. -/
def parameterValues (settings : Settings) : Fields Value :=
  settings.parameters.map fun (name, text) => (name, .string text)

/-- The pseudo-parameters that come from the cloud or from the settings, explicit ones last. -/
def identity (cloud : Cloud) (settings : Settings) : Run (Fields Text) :=
  if settings.fromAws then
    (cloud.fetchIdentity settings.profile settings.region settings.stackName).mapError
      fun e => .aborted e.message
  else
    let stack := (Cloud.given? settings.stackName).toList.map fun s => (Pseudo.stackName, s)
    let region := (Cloud.given? settings.region).toList.map fun s => (Pseudo.region, s)
    return stack ++ region

/-- The values of parameters, with those from the parameter store if they are wanted. -/
def allParameterValues (cloud : Cloud) (settings : Settings) (t : Template) :
    Run (Fields Value) :=
  let given := parameterValues settings
  if settings.resolveSsm then do
    let stored ← (cloud.fetchParameters t given settings.profile settings.region).mapError
      fun e => .aborted e.message
    return Fields.update given stored
  else return given

/-- Print a document, or write it to the file that the settings name. -/
def deliver (files : Files) (settings : Settings) (v : Value) : Run Product :=
  match Cloud.given? settings.outputFile with
  | none => return .document v
  | some text => do
    let path ← Recorded.ofExcept ((Path.ofText text).mapError .badPath)
    match files.writeFault? path with
    | some fault => fail (.unwritable text fault)
    | none => return .written text v

/-- Expand a template file. -/
def resolve (files : Files) (cloud : Cloud) (settings : Settings) : Run Product := do
  let t ← load files settings.templateFile
  let identity ← identity cloud settings
  let parameters ← allParameterValues cloud settings t
  let e := expander settings t parameters (identity.update settings.pseudo)
  let (v, _) ← expand e t
  deliver files settings v

/-- Expand a template file for its graph. -/
def expandOnly (files : Files) (settings : Settings) : Run (Template × Expander) := do
  let t ← load files settings.templateFile
  let (_, e) ← expand (expander settings t (parameterValues settings) settings.pseudo) t
  return (t, e)

/-- The graph of a template file, as a document. -/
def graphDocument (g : Graph) : Value :=
  .map (g.adjacency.map fun (source, targets) => (source, .ofStrings targets))

/-- Show which resources refer to which. -/
def deps (files : Files) (settings : Settings) : Run Product := do
  let (t, e) ← expandOnly files settings
  if settings.asDocument then return .document (graphDocument e.graph)
  else return .shown (.tree (Console.graphTree e.graph (e.resourceNames t) "Resources"))

/-- Show the order of the resources. -/
def order (files : Files) (settings : Settings) : Run Product := do
  let (t, e) ← expandOnly files settings
  match e.resourceOrder t with
  | .error cycle => abort (cycle.message ++ " (" ++ Text.join " -> " cycle.path ++ ")")
  | .ok order =>
    if settings.asDocument then return .document (.ofStrings order)
    else return .shown (.table (Console.orderTable e.graph order))

/-- Show the references of a template file. -/
def refs (files : Files) (settings : Settings) : Run Product := do
  let t ← load files settings.templateFile
  match Reference.collect .root t.toDocument with
  | [] => return .shown (.line "No references found.")
  | references => return .shown (.table (Console.referenceTable references))

/-- Run a command with its arguments. -/
def command (files : Files) (cloud : Cloud) (name : Name) (arguments : List Text) :
    Run Product := do
  let (occurrences, positional) ← Recorded.ofExcept
    ((Switch.separate name.switches true arguments).mapError .misuse)
  if occurrences.any (·.key = .help) then return .help
  let settings ← Recorded.ofExcept
    (Settings.ofArguments name files occurrences positional)
  match name with
  | .resolve => resolve files cloud settings
  | .deps => deps files settings
  | .order => order files settings
  | .refs => refs files settings

/-- The switches in front of a command. -/
def programSwitches : List Switch :=
  [⟨.verbose, ["--verbose", "-v"], false⟩, ⟨.version, ["--version", "-V"], false⟩,
    Name.helpSwitch]

/-- Whether a name that is no command looks like switches, which are then checked as such. -/
def looksLikeSwitches (name : Text) : Bool :=
  match name with
  | [] => false
  | c :: _ => !CharacterSet.alphanumeric.contains c

/-- The first of the switches that end a run at once. -/
def immediate? (occurrences : List Occurrence) : Option Product :=
  occurrences.findSome? fun o =>
    match o.key with
    | .version => some .version
    | .help => some .help
    | _ => none

/-- Complain about a name that is no command. -/
def unknownCommand (name : Text) (arguments : List Text) : Run Product := do
  if looksLikeSwitches name then
    let (occurrences, _) ← Recorded.ofExcept
      ((Switch.separate programSwitches false (name :: arguments)).mapError .misuse)
    match immediate? occurrences with
    | some product => return product
    | none => fail (.misuse (.unknownCommand name))
  else fail (.misuse (.unknownCommand name))

/-- Run a command line. -/
def program (files : Files) (cloud : Cloud) (arguments : List Text) : Run Product := do
  if arguments.isEmpty then fail (.misuse .noArguments)
  let (occurrences, rest) ← Recorded.ofExcept
    ((Switch.separate programSwitches false arguments).mapError .misuse)
  match immediate? occurrences, rest with
  | some product, _ => return product
  | none, [] => fail (.misuse .noCommand)
  | none, name :: rest =>
    match Name.ofText? name with
    | some name => command files cloud name rest
    | none => unknownCommand name rest

end Run

/-! ### What can be observed of an ending -/

/-- The way a run ends. -/
abbrev Ending := Except Failure Product

namespace Ending

/-- The exit code. -/
def exitCode : Ending → Nat
  | .ok _ => 0
  | .error (.misuse _) => 2
  | .error _ => 1

/-- The text of a document, as it is printed or written. -/
def documentText (v : Value) : String := Json.indented v ++ "\n"

/-- What is printed as text. -/
def printed : Ending → String
  | .ok .version => "cfnexpand, version " ++ programVersion ++ "\n"
  | .ok (.document v) => documentText v
  | _ => ""

/-- What is shown on the console. -/
def shown : Ending → List Console.Output
  | .ok (.shown output) => [output]
  | .ok (.written path _) =>
    [.line (Console.Markup.shown ("[bold green]Wrote[/] " ++ path))]
  | _ => []

/-- What is shown on the console for errors. -/
def complaints : Ending → List Console.Output
  | .error (.aborted message) =>
    [.line (Console.Markup.shown ("[bold red]Error:[/] " ++ Console.Markup.escape message))]
  | _ => []

/-- What is written to a file: its path and its text. -/
def writing? : Ending → Option (Text × String)
  | .ok (.written path v) => some (path, documentText v)
  | _ => none

end Ending

end CloudTemplate.Command

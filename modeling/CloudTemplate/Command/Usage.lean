import CloudTemplate.Command.Files
import CloudTemplate.Text.Split

/-!
# Parameters of commands and why commands fail

A command line can be misused in its form (an unknown command or switch, a value too few or too
many) and in the values that it gives.  `BadValue.message` has the words for the values.  A command
that is used as intended may still fail.
-/

namespace CloudTemplate.Command

/-- What can be set on a command line. -/
inductive Key where
  | help
  | version
  | verbose
  | templateFile
  | parameters
  | pseudo
  | conditions
  | renames
  | placeholders
  | fromAws
  | resolveSsm
  | stackName
  | profile
  | region
  | outputFile
  | output
  deriving DecidableEq, Repr

/-- The name of a parameter. -/
def Key.name : Key → String
  | .help => "help"
  | .version => "version"
  | .verbose => "verbose"
  | .templateFile => "template_file"
  | .parameters => "parameters"
  | .pseudo => "pseudo"
  | .conditions => "conditions"
  | .renames => "renames"
  | .placeholders => "placeholders"
  | .fromAws => "from_aws"
  | .resolveSsm => "resolve_ssm"
  | .stackName => "stack_name"
  | .profile => "profile"
  | .region => "region"
  | .outputFile => "output_file"
  | .output => "output"

/-- What is wrong with the value of a parameter. -/
inductive BadValue where
  | notPair (item : Text)
  | notTruth (name value : Text)
  | noFile (path : Text)
  | directory (path : Text)
  | notChoice (value : Text) (choices : List Text)
  deriving DecidableEq, Repr

/-- The fault in words. -/
def BadValue.message : BadValue → Text
  | .notPair item => "expected KEY=VALUE, got " ++ Text.quoted item
  | .notTruth name value =>
    "condition " ++ Text.quoted name ++ " must be true or false, got " ++ Text.quoted value
  | .noFile path => "File " ++ Text.quoted (Path.shown path) ++ " does not exist."
  | .directory path => "File " ++ Text.quoted (Path.shown path) ++ " is a directory."
  | .notChoice value choices =>
    Text.quoted value ++ " is not one of " ++ Text.join ", " (choices.map Text.quoted) ++ "."

/-- A way to misuse the command line. -/
inductive Misuse where
  | noArguments
  | noCommand
  | unknownCommand (name : Text)
  | unknownSwitch (name : Text)
  /-- A switch without the value that it needs, or with one that it does not take. -/
  | switchValue (name : Text)
  | missing (key : Key)
  | badValue (key : Key) (fault : BadValue)
  | extraArgument (argument : Text)
  deriving DecidableEq, Repr

/-- Why a command fails. -/
inductive Failure where
  | misuse (m : Misuse)
  | aborted (message : Text)
  | badPath (fault : PathFault)
  | unwritable (path : Text) (fault : FileFault)

end CloudTemplate.Command

import CloudTemplate.Template
import CloudTemplate.Intrinsic
import CloudTemplate.SortedSet

/-!
# What is known about a deployment

Intrinsic functions are evaluated with what is known so far: the template with its declarations, the
pseudo-parameters, the values of parameters, attributes of resources that exist already and the
outcome of conditions.  What is not known is left for the deployment itself.

A resource that is about to be renamed has its new name among the aliases, which count as declared.
-/

namespace CloudTemplate

namespace Pseudo

/-- What the names of all pseudo-parameters begin with. -/
def mark : Text := "AWS::"

/-! ### The pseudo-parameters that every deployment has -/

def accountId : Text := "AWS::AccountId"
def region : Text := "AWS::Region"
def stackName : Text := "AWS::StackName"
def stackId : Text := "AWS::StackId"
def urlSuffix : Text := "AWS::URLSuffix"
def partition : Text := "AWS::Partition"
def noValue : Text := Intrinsic.noValue

/-! ### A deployment that is not known yet -/

/-- The region where none is given. -/
def defaultRegion : Text := "us-east-1"

/-- The identifier of a stack. -/
def stackIdentifier (partition region account stack : Text) : Text :=
  "arn:" ++ partition ++ ":cloudformation:" ++ region ++ ":" ++ account ++ ":stack/" ++ stack
    ++ "/guid"

/-- The pseudo-parameters of a made-up deployment, in use until the real ones are known. -/
def defaults : Fields Text :=
  let account := "123456789012"
  let stack := "sam-app"
  [(accountId, account), (region, defaultRegion), (stackName, stack),
    (stackId, stackIdentifier "aws" defaultRegion account stack),
    (urlSuffix, "amazonaws.com"), (partition, "aws"), (noValue, "")]

end Pseudo

/-- What is known about a deployment. -/
structure Deployment where
  template : Option Template := none
  pseudo : Fields Text := Pseudo.defaults
  parameters : Fields Value := []
  attributes : Fields (Fields Value) := []
  conditions : Fields Bool := []
  aliases : SortedSet Text := .empty
  deriving Inhabited

namespace Deployment

/-- The parameters that have a default which is not null, each with that default. -/
def seeds (t : Template) : Fields Value :=
  (t.parameters.getD []).filterMap fun entry => entry.2.seed?.map fun v => (entry.1, v)

/-- What a template alone tells. -/
def ofTemplate : Option Template → Deployment
  | none => {}
  | some t => { template := some t, parameters := seeds t }

/-- Give a pseudo-parameter a value. -/
def setPseudo (d : Deployment) (name value : Text) : Deployment :=
  { d with pseudo := d.pseudo.set name value }

/-- Give a parameter a value, declared or not. -/
def setParameter (d : Deployment) (name : Text) (v : Value) : Deployment :=
  { d with parameters := d.parameters.set name v }

/-- Make the value of an attribute of a resource known. -/
def setAttribute (d : Deployment) (resource attr : Text) (v : Value) : Deployment :=
  let known := (d.attributes.get? resource).getD []
  { d with attributes := d.attributes.set resource (known.set attr v) }

/-- Make the outcome of a condition known. -/
def setCondition (d : Deployment) (name : Text) (b : Bool) : Deployment :=
  { d with conditions := d.conditions.set name b }

/-- Count a name as that of a declared resource. -/
def addAlias (d : Deployment) (name : Text) : Deployment :=
  { d with aliases := d.aliases.insert name }

/-- Whether a name is, or is reserved for, that of a pseudo-parameter. -/
def isPseudo (d : Deployment) (name : Text) : Bool :=
  Text.startsWith Pseudo.mark name || d.pseudo.has name

/-- Whether the template declares a parameter. -/
def declaresParameter (d : Deployment) (name : Text) : Bool :=
  d.template.any (·.hasParameter name)

/-- Whether a name is that of a parameter, with a value or declared. -/
def isParameter (d : Deployment) (name : Text) : Bool :=
  d.parameters.has name || d.declaresParameter name

/-- Whether a name is that of a declared resource or an alias. -/
def declaresResource (d : Deployment) (name : Text) : Bool :=
  decide (name ∈ d.aliases) || d.template.any (·.hasResource name)

/-- Whether there is a list of resources at all; without one every name may be a resource. -/
def listsResources (d : Deployment) : Bool :=
  d.template.any (·.resources.isSome)

/-- The known value of an attribute. -/
def attribute? (d : Deployment) (resource attr : Text) : Option Value :=
  (d.attributes.get? resource).bind (·.get? attr)

/-- The mappings of the template. -/
def mappings (d : Deployment) : Option (Fields Value) :=
  d.template.bind (·.mappings)

/-- Whether a reference to a name is one to a resource: the name is neither a pseudo-parameter nor a
parameter, and it is declared if there is a list of resources. -/
def isResource (d : Deployment) (name : Text) : Bool :=
  !d.isPseudo name && !d.isParameter name && (!d.listsResources || d.declaresResource name)

end Deployment

end CloudTemplate

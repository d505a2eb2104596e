import CloudTemplate.Cloud
import CloudTemplate.Cloud.Redaction
import CloudTemplate.Deployment

/-!
# The identity of a deployment

The pseudo-parameters that follow from who is calling: the account, the partition in the caller's
resource name with the suffix of its addresses, and the region.  With a name for the stack its
identifier follows too.
-/

namespace CloudTemplate.Cloud

/-- Why the identity is not known. -/
inductive IdentityError where
  | refused (refusal : CloudRefusal)
  | notResourceName (text : Text)
  deriving DecidableEq

/-- The reason in words. -/
def IdentityError.message : IdentityError → Text
  | .refused refusal => "Failed to look up caller identity: " ++ Redaction.redact refusal.text
  | .notResourceName text => "Not an ARN: " ++ Text.quoted (Redaction.redact text)

/-- The partition in a resource name. -/
def partitionOf (arn : Text) : Except IdentityError Text :=
  match arn.splitOn (.char ':') with
  | mark :: partition :: _ =>
    if mark ≠ "arn" || partition.isEmpty then .error (.notResourceName arn) else .ok partition
  | _ => .error (.notResourceName arn)

/-- The suffixes of addresses in partitions that have one of their own. -/
def urlSuffixes : Fields Text :=
  [("aws-cn", "amazonaws.com.cn"), ("aws-iso", "c2s.ic.gov"), ("aws-iso-b", "sc2s.sgov.gov")]

/-- The suffix of addresses in a partition. -/
def urlSuffixOf (partition : Text) : Text :=
  (urlSuffixes.get? partition).getD "amazonaws.com"

/-- Whether an optional text is given and not empty. -/
def given? : Option Text → Option Text
  | some s => if s.isEmpty then none else some s
  | none => none

/-- The pseudo-parameters of a caller in a region. -/
def pseudoParameters (account region partition : Text) (stack : Option Text) :
    Fields Text :=
  [(Pseudo.accountId, account), (Pseudo.region, region), (Pseudo.partition, partition),
    (Pseudo.urlSuffix, urlSuffixOf partition)] ++
  match given? stack with
  | none => []
  | some stack =>
    [(Pseudo.stackName, stack),
      (Pseudo.stackId, Pseudo.stackIdentifier partition region account stack)]

/-- Ask who is calling, and give the pseudo-parameters that follow. -/
def fetchIdentity (cloud : Cloud) (profile region stack : Option Text) :
    Dialogue IdentityError (Fields Text) := do
  let region' := (given? (cloud.regionOf region)).getD Pseudo.defaultRegion
  Recorded.note (.session profile region)
  Recorded.note (.client "sts" (some region'))
  Recorded.note .callerIdentity
  let identity ← (Recorded.ofExcept cloud.identity).mapError .refused
  let partition ← Recorded.ofExcept (partitionOf identity.arn)
  return pseudoParameters identity.account region' partition stack

end CloudTemplate.Cloud

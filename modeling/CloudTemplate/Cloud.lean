import CloudTemplate.Recorded
import CloudTemplate.Fields
import CloudTemplate.SortedSet

/-!
# A cloud account

What a deployment asks of a cloud account: the region of a session, who is calling, and the values
behind names in its parameter store.  An account answers each request, or it refuses; every call is
noted.

`Cloud.ofAccount` answers from an account that is given as data.
-/

namespace CloudTemplate

/-- A call to the cloud. -/
inductive CloudCall where
  | session (profile region : Option Text)
  | client (service : Text) (region : Option Text)
  | callerIdentity
  | parameters (names : List Text) (decrypted : Bool)
  deriving DecidableEq

/-- A refusal, in words. -/
structure CloudRefusal where
  text : Text
  deriving DecidableEq

/-- Who is calling. -/
structure CallerIdentity where
  account : Text
  arn : Text
  deriving DecidableEq

/-- The answer to a request for stored parameters: those that were found, each with its value unless
the store gives none, and the names that are declared invalid. -/
structure StoredParameters where
  found : List (Text × Option Text)
  invalid : List Text

/-- A cloud account, by its answers. -/
structure Cloud where
  /-- The region of a session, by the region that is requested for it. -/
  regionOf : Option Text → Option Text
  identity : Except CloudRefusal CallerIdentity
  parameters : List Text → Except CloudRefusal StoredParameters

namespace Cloud

/-- A computation that calls the cloud. -/
abbrev Dialogue (ε α : Type) := Recorded CloudCall ε α

/-- A cloud without credentials. -/
def noCredentials : CloudRefusal := ⟨"Unable to locate credentials"⟩

/-- The refusal of an operation, by a code and a message. -/
def refusal (code operation message : Text) : CloudRefusal :=
  ⟨"An error occurred (" ++ code ++ ") when calling the " ++ operation ++ " operation: " ++ message⟩

/-- An account given as data. -/
structure Account where
  identity : CallerIdentity := ⟨"123456789012", ""⟩
  /-- The region of a session for which none is requested. -/
  sessionRegion : Option Text := none
  /-- The stored parameters; one may lack a value. -/
  store : Fields (Option Text) := []
  /-- Names of which the store says nothing. -/
  omitted : List Text := []
  /-- Names that the store declares invalid whatever is asked. -/
  alwaysInvalid : List Text := []
  identityRefusal : Option CloudRefusal := none
  storeRefusal : Option CloudRefusal := none

namespace Account

/-- The region of a session with the account: the requested one unless it is empty. -/
def regionOf (account : Account) (requested : Option Text) : Option Text :=
  match requested with
  | some region => if region.isEmpty then account.sessionRegion else some region
  | none => account.sessionRegion

/-- The answer of the account's store to a request. -/
def lookUp (account : Account) (names : List Text) : StoredParameters where
  found := names.filterMap fun name =>
    if account.omitted.contains name then none
    else (account.store.get? name).map fun v => (name, v)
  invalid := (names.filter fun name => !account.store.has name && !account.omitted.contains name)
    ++ account.alwaysInvalid

end Account

/-- The answers of an account that is given as data. -/
def ofAccount (account : Account) : Cloud where
  regionOf := account.regionOf
  identity := match account.identityRefusal with
    | some refusal => .error refusal
    | none => .ok account.identity
  parameters names := match account.storeRefusal with
    | some refusal => .error refusal
    | none => .ok (account.lookUp names)

/-- A cloud that nobody can reach. -/
def unreachable : Cloud :=
  .ofAccount { identityRefusal := some noCredentials, storeRefusal := some noCredentials }

end Cloud

end CloudTemplate

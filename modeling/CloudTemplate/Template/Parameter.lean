import CloudTemplate.Value.Text

/-!
# Parameters of a template

A parameter is declared by a map.  Only its type is checked: a non-empty string, `String` if none is
given.  Everything else is read off the declaration, which is kept whole.

`TemplateError` has every reason why a document is refused as a template, those for the whole
document and its sections among them.
-/

namespace CloudTemplate

/-! ### Faults in the layout of a template -/

/-- Why a document is not a template. -/
inductive TemplateError where
  /-- The document is neither null nor a map. -/
  | document (got : Value)
  /-- A section is neither null nor a map. -/
  | section (name : Text) (got : Value)
  /-- The declaration of a parameter is not a map. -/
  | parameter (name : Text) (got : Value)
  /-- The type of a parameter is not a string or is empty. -/
  | parameterType (name : Text) (got : Value)
  deriving DecidableEq

/-- The fault in words. -/
def TemplateError.message : TemplateError → Text
  | .document got => "Template must be a mapping, got " ++ got.typeName
  | .section name got =>
    "Template section " ++ Text.quoted name ++ " must be a mapping, got " ++ got.typeName
  | .parameter name got =>
    "Parameter " ++ Text.quoted name ++ " must be a mapping, got " ++ got.typeName
  | .parameterType name got =>
    "Invalid type " ++ got.quoted ++ " for parameter " ++ Text.quoted name ++ "; expected a string"

/-! ### Declarations -/

/-- A declared parameter. -/
structure Parameter where
  name : Text
  type : Text
  declaration : Fields Value
  deriving DecidableEq, Inhabited

namespace Parameter

/-- The type of a parameter that declares none. -/
def defaultType : Text := "String"

/-- What the types of parameters begin with whose values are names in the parameter store. -/
def storeMark : Text := "AWS::SSM::Parameter::Value<"

/-- The parameter that a document node declares. -/
def ofValue (name : Text) : Value → Except TemplateError Parameter
  | .map declaration =>
    match (Fields.get? declaration "Type").getD (.string defaultType) with
    | .string type =>
      if type.isEmpty then .error (.parameterType name (.string type))
      else .ok ⟨name, type, declaration⟩
    | got => .error (.parameterType name got)
  | got => .error (.parameter name got)

/-- The declaration as a document node. -/
def toValue (p : Parameter) : Value := .map p.declaration

/-- The declared default, which may be null. -/
def default? (p : Parameter) : Option Value := p.declaration.get? "Default"

/-- The declared default, unless it is null. -/
def seed? (p : Parameter) : Option Value := p.default?.bind Value.nonNull?

/-- The declared description, null if there is none. -/
def description (p : Parameter) : Value := (p.declaration.get? "Description").getD .null

/-- The declared choice of values, null if there is none. -/
def allowedValues (p : Parameter) : Value := (p.declaration.get? "AllowedValues").getD .null

/-- Whether the value is to be hidden: the declaration says so by a truth value or by the word
`true` in any case. -/
def isHidden (p : Parameter) : Bool :=
  match p.declaration.get? "NoEcho" with
  | some (.bool b) => b
  | some (.string s) => Text.lowerCase s = "true"
  | _ => false

/-- Whether the value is a name in the parameter store. -/
def isStored (p : Parameter) : Bool := Text.startsWith storeMark p.type

/-- Whether the parameter store holds a list under the name. -/
def isListed (p : Parameter) : Bool := Text.occursIn "List<" p.type

end Parameter

end CloudTemplate

import CloudTemplate.Template.Parameter

/-!
# Templates

A template has ten sections.  Three of them hold any value; the others are maps, and that of the
parameters is read into declarations.  A section that is null counts as absent, which is not the
same as empty.

`Template.ofDocument` reads a document and `Template.toDocument` gives it back: the known sections
that are present, in their conventional order.
-/

namespace CloudTemplate

/-- The sections of a template. -/
inductive Section where
  | formatVersion
  | transform
  | description
  | metadata
  | parameters
  | mappings
  | conditions
  | globals
  | resources
  | outputs
  deriving DecidableEq

namespace Section

/-- The sections in conventional order. -/
def all : List Section :=
  [formatVersion, transform, description, metadata, parameters, mappings, conditions, globals,
    resources, outputs]

/-- The name of a section in a document. -/
def name : Section → Text
  | formatVersion => "AWSTemplateFormatVersion"
  | transform => "Transform"
  | description => "Description"
  | metadata => "Metadata"
  | parameters => "Parameters"
  | mappings => "Mappings"
  | conditions => "Conditions"
  | globals => "Globals"
  | resources => "Resources"
  | outputs => "Outputs"

end Section

/-- A template, by its sections. -/
structure Template where
  formatVersion : Option Value := none
  transform : Option Value := none
  description : Option Value := none
  metadata : Option (Fields Value) := none
  parameters : Option (Fields Parameter) := none
  mappings : Option (Fields Value) := none
  conditions : Option (Fields Value) := none
  globals : Option (Fields Value) := none
  resources : Option (Fields Value) := none
  outputs : Option (Fields Value) := none
  deriving DecidableEq, Inhabited

namespace Template

/-- A section that holds any value. -/
def freeSection (document : Fields Value) (s : Section) : Option Value :=
  (document.get? s.name).bind Value.nonNull?

/-- A section that is a map. -/
def mapSection (document : Fields Value) (s : Section) :
    Except TemplateError (Option (Fields Value)) :=
  match document.get? s.name with
  | none | some .null => .ok none
  | some (.map entries) => .ok (some entries)
  | some got => .error (.section s.name got)

/-- The parameters that the entries of a section declare. -/
def readParameters : Fields Value → Except TemplateError (Fields Parameter)
  | [] => .ok []
  | (name, declaration) :: rest => do
    let p ← Parameter.ofValue name declaration
    return (name, p) :: (← readParameters rest)

/-- The template that the entries of a document make up.  The parameters' section must be a map
before any other section is looked at. -/
def ofEntries (document : Fields Value) : Except TemplateError Template := do
  let declarations ← mapSection document .parameters
  let metadata ← mapSection document .metadata
  let parameters ← match declarations with
    | none => pure none
    | some entries => some <$> readParameters entries
  let mappings ← mapSection document .mappings
  let conditions ← mapSection document .conditions
  let resources ← mapSection document .resources
  let outputs ← mapSection document .outputs
  let globals ← mapSection document .globals
  return {
    formatVersion := freeSection document .formatVersion
    transform := freeSection document .transform
    description := freeSection document .description
    metadata, parameters, mappings, conditions, globals, resources, outputs }

/-- The template in a document; null is the template without sections. -/
def ofDocument : Value → Except TemplateError Template
  | .null => .ok {}
  | .map entries => ofEntries entries
  | got => .error (.document got)

/-- The parameters' section as declared. -/
def declarations (parameters : Fields Parameter) : Fields Value :=
  parameters.map fun entry => (entry.1, entry.2.toValue)

/-- What a section holds, if it is present. -/
def content? (t : Template) : Section → Option Value
  | .formatVersion => t.formatVersion
  | .transform => t.transform
  | .description => t.description
  | .metadata => t.metadata.map .map
  | .parameters => t.parameters.map fun ps => .map (declarations ps)
  | .mappings => t.mappings.map .map
  | .conditions => t.conditions.map .map
  | .globals => t.globals.map .map
  | .resources => t.resources.map .map
  | .outputs => t.outputs.map .map

/-- The entries of the template's document. -/
def toEntries (t : Template) : Fields Value :=
  Section.all.filterMap fun s => (t.content? s).map fun v => (s.name, v)

/-- The template as a document. -/
def toDocument (t : Template) : Value := .map t.toEntries

/-- Whether the template declares a parameter. -/
def hasParameter (t : Template) (name : Text) : Bool :=
  t.parameters.any (·.has name)

/-- Whether the template declares a resource. -/
def hasResource (t : Template) (name : Text) : Bool :=
  t.resources.any fun resources => Fields.has resources name

/-- The names of the declared resources, in the order of the document. -/
def resourceNames (t : Template) : List Text :=
  (t.resources.getD []).names

end Template

end CloudTemplate

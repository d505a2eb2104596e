import CloudTemplate.Expander.Evaluation

/-!
# Expansion of whole templates

The sections of a template are expanded one after the other.  Calls are evaluated in the metadata
and conditions of the template, in the properties, metadata and update policy of each resource, and
in the value and the export name of each output.  Parameters, mappings and globals are definitions
and stay as they are, and so does every other attribute of a resource or output.  Resources get
their new names, also where other resources say that they depend on them.
-/

namespace CloudTemplate.Expander

open Intrinsic (Error)

/-- The attributes of a resource in which calls are evaluated, if they are maps. -/
def evaluatedAttributes : List Text := ["Properties", "Metadata", "UpdatePolicy"]

/-- The names of resources in a value that lists dependencies, renamed. -/
def renameDependsOn (e : Expander) : Value → Value
  | .string s => .string (e.newName s)
  | .list items => .list <| items.map fun
    | .string s => .string (e.newName s)
    | v => v
  | v => v

/-- Expand the attributes of a resource that stands at a location. -/
def expandAttributes (e : Expander) (l : Location) :
    List (Text × Value) → Recorded Edge Error (List (Text × Value))
  | [] => return []
  | (key, v) :: rest => do
    let v ← match v with
      | .map entries =>
        if evaluatedAttributes.contains key then .map <$> e.evaluateEntries (l.entry key) entries
        else pure v
      | _ => pure (if key = "DependsOn" then e.renameDependsOn v else v)
    return (key, v) :: (← e.expandAttributes l rest)

/-- Expand a resource, given its new name. -/
def expandResource (e : Expander) (name : Text) : Value → Recorded Edge Error Value
  | .map attributes =>
    .map <$> e.expandAttributes ((Location.root.entry "Resources").entry name) attributes
  | v => return v

/-- Expand resources and put each under its new name. -/
def expandResources (e : Expander) (done : Fields Value) :
    List (Text × Value) → Recorded Edge Error (Fields Value)
  | [] => return done
  | (name, v) :: rest => do
    let new := e.newName name
    let v ← e.expandResource new v
    e.expandResources (done.set new v) rest

/-- Expand the export of an output: its name, which comes first. -/
def expandExport (e : Expander) (l : Location) (entries : Fields Value) :
    Recorded Edge Error (Fields Value) :=
  match entries.get? "Name" with
  | none => return entries
  | some name => do
    let outcome ← e.evaluate (l.entry "Name") name
    return outcome.entry "Name" ++ entries.filter fun entry => entry.1 ≠ ("Name" : Text)

/-- Expand the attributes of an output that stands at a location. -/
def expandOutputAttributes (e : Expander) (l : Location) :
    List (Text × Value) → Recorded Edge Error (List (Text × Value))
  | [] => return []
  | (key, v) :: rest => do
    let expanded ←
      if key = "Value" then Outcome.entry key <$> e.evaluate (l.entry key) v
      else
        match v with
        | .map entries =>
          if key = "Export" then do
            pure [(key, .map (← e.expandExport (l.entry key) entries))]
          else pure [(key, v)]
        | _ => pure [(key, v)]
    return expanded ++ (← e.expandOutputAttributes l rest)

/-- Expand the outputs. -/
def expandOutputs (e : Expander) :
    List (Text × Value) → Recorded Edge Error (List (Text × Value))
  | [] => return []
  | (name, .map attributes) :: rest => do
    let l := (Location.root.entry "Outputs").entry name
    let attributes ← e.expandOutputAttributes l attributes
    return (name, .map attributes) :: (← e.expandOutputs rest)
  | (name, v) :: rest => return (name, v) :: (← e.expandOutputs rest)

/-- Expand a section that may be absent. -/
def expandSection (expand : Fields Value → Recorded Edge Error (Fields Value)) :
    Option (Fields Value) → Recorded Edge Error (Option (Fields Value))
  | none => return none
  | some entries => some <$> expand entries

/-- The location of a section. -/
def sectionLocation (s : Section) : Location := Location.root.entry s.name

/-- Expand all sections of a template. -/
def expand (e : Expander) (t : Template) : Recorded Edge Error Template := do
  let metadata ← expandSection (e.evaluateEntries (sectionLocation .metadata)) t.metadata
  let conditions ← expandSection (e.evaluateEntries (sectionLocation .conditions)) t.conditions
  let resources ← expandSection (e.expandResources []) t.resources
  let outputs ← expandSection e.expandOutputs t.outputs
  return { t with metadata, conditions, resources, outputs }

/-- Expand a template to a document and keep the edges, also those noted before an error. -/
def resolveTemplate (e : Expander) (t : Template) : Except Error Value × Expander :=
  e.keep (Template.toDocument <$> e.expand t)

end CloudTemplate.Expander

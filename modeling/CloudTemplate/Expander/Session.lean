import CloudTemplate.Expander.Document

/-!
# Sessions

One expander does several things, one after the other.  It resolves values and expands templates;
in between more becomes known about the deployment, resources get new names, and arguments are
named that must never be evaluated.  A step that fails leaves behind what it did before it failed.
-/

namespace CloudTemplate

/-- The template in a document, if there is a document at all: null stands for none. -/
def Template.ofDocument? : Value → Except TemplateError (Option Template)
  | .null => .ok none
  | document => some <$> ofDocument document

theorem Template.ofDocument?_of_ne_null {document : Value} (h : document ≠ .null) :
    ofDocument? document = some <$> ofDocument document := by
  rw [ofDocument?]
  exact h

namespace Expander

/-- Why a document is not expanded: it is not a template, or a call in it cannot be evaluated. -/
inductive DocumentError where
  | template (fault : TemplateError)
  | evaluation (err : Intrinsic.Error)
  deriving DecidableEq

/-- Expand the template in a document, if there is a document at all. -/
def resolveDocument (e : Expander) (document : Value) :
    Except DocumentError (Option Value) × Expander :=
  match Template.ofDocument? document with
  | .error fault => (.error (.template fault), e)
  | .ok none => (.ok none, e)
  | .ok (some t) =>
    let (result, after) := e.resolveTemplate t
    (some <$> result.mapError .evaluation, after)

/-- A step of a session. -/
inductive Step where
  | resolve (v : Value) (l : Location)
  | expand (t : Template)
  | expandDocument (document : Value)
  | setParameter (name : Text) (v : Value)
  | setPseudo (name value : Text)
  | setAttribute (resource attr : Text) (v : Value)
  | setCondition (name : Text) (b : Bool)
  | rename (old new : Text)
  | addPlaceholder (argument : Text)

/-- The expander after a step, whether this succeeds or fails. -/
def after (e : Expander) : Step → Expander
  | .resolve v l => (e.resolve v l).2
  | .expand t => (e.resolveTemplate t).2
  | .expandDocument document =>
    match Template.ofDocument? document with
    | .ok (some t) => (e.resolveTemplate t).2
    | .ok none | .error _ => e
  | .setParameter name v => { e with deployment := e.deployment.setParameter name v }
  | .setPseudo name value => { e with deployment := e.deployment.setPseudo name value }
  | .setAttribute resource attr v =>
    { e with deployment := e.deployment.setAttribute resource attr v }
  | .setCondition name b => { e with deployment := e.deployment.setCondition name b }
  | .rename old new => e.rename old new
  | .addPlaceholder argument => e.addPlaceholder argument

/-- A document leaves behind what its expansion does, whether this succeeds or fails. -/
theorem after_expandDocument (e : Expander) (document : Value) :
    e.after (.expandDocument document) = (e.resolveDocument document).2 := by
  rw [after, resolveDocument]
  cases Template.ofDocument? document with
  | error fault => rfl
  | ok t? => cases t? <;> rfl

/-- The expander after several steps. -/
def afterAll (e : Expander) (steps : List Step) : Expander :=
  steps.foldl after e

end Expander

end CloudTemplate

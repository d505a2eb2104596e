import CloudTemplate.Proofs.Graph.TargetsFirst
import CloudTemplate.Proofs.Expander.ExactEdges

/-!
# The order in which resources can be processed

The order of the resources follows the edges that the expansion of the template has noted.  So a
resource comes behind every other one that it mentions in an attribute in which calls are evaluated
(`Expander.resourceOrder_lists_mentioned_first`).

Other ways of naming a resource leave no edge: a token of a text with variables, an entry of
`DependsOn`, and an attribute that is no map or whose entry is the reference itself.  The order may
go against all of them (`Expander.resourceOrder_against_tokens_and_dependsOn`).
-/

namespace CloudTemplate.Expander

variable {e : Expander} {t : Template}

theorem resourceNames_of_renames_nil (hr : e.renames = []) :
    e.resourceNames t = t.resourceNames := by
  have hnew : e.newName = id := funext (newName_of_renames_nil hr)
  rw [resourceNames, hnew, List.map_id]

/-- An order that was found lists the resources once each, and every one behind the others to which
an edge leads from it. -/
theorem idxOf_lt_of_resourceOrder (hr : e.renames = []) {order : List Text}
    (horder : e.resourceOrder t = .ok order) :
    order.Nodup ∧ (∀ name, name ∈ order ↔ name ∈ t.resourceNames) ∧
      ∀ source ∈ t.resourceNames, ∀ target ∈ t.resourceNames,
        e.graph.has source target = true → order.idxOf target < order.idxOf source := by
  rw [resourceOrder, resourceNames_of_renames_nil hr] at horder
  obtain ⟨hnodup, hmem⟩ := Graph.nodup_and_mem_of_order horder
  exact ⟨hnodup, hmem, fun _ hsource _ htarget hedge =>
    Graph.idxOf_lt_of_order horder hsource htarget hedge⟩

/-- **What a resource mentions comes first.**  Take an expander without new names and placeholders
and a template the resources of which have names that are not empty, hold no dot, are not those of
pseudo-parameters or parameters, and count as declared if there is a list of resources at all.  If
the template is expanded and the resources are put in order, then the order holds the name of every
resource once, and whatever other resource one of them mentions in an attribute in which calls are
evaluated comes before it. -/
theorem resourceOrder_lists_mentioned_first (hr : e.renames = []) (hp : e.placeholders = .empty)
    (hnames : ∀ name ∈ t.resourceNames, name ≠ [] ∧ CodePoint.char '.' ∉ name ∧
      e.deployment.isPseudo name = false ∧ e.deployment.isParameter name = false ∧
      (e.deployment.listsResources = true → e.deployment.declaresResource name = true))
    {document : Value} (hok : (e.resolveTemplate t).1 = .ok document) {order : List Text}
    (horder : (e.resolveTemplate t).2.resourceOrder t = .ok order) :
    order.Nodup ∧ (∀ name, name ∈ order ↔ name ∈ t.resourceNames) ∧
      ∀ resource ∈ t.resources.getD [], ∀ target ∈ t.resourceNames, target ≠ resource.1 →
        MentionsInResource target resource.2 →
          order.idxOf target < order.idxOf resource.1 := by
  have hlocated : ∀ name ∈ t.resourceNames, name ≠ [] ∧ CodePoint.char '.' ∉ name :=
    fun name hname => ⟨(hnames name hname).1, (hnames name hname).2.1⟩
  have hr' : (e.resolveTemplate t).2.renames = [] := hr
  obtain ⟨hnodup, hmem, hbefore⟩ := idxOf_lt_of_resourceOrder hr' horder
  refine ⟨hnodup, hmem, fun resource hresource target htarget _ hmentions => ?_⟩
  obtain ⟨hne, -, hpseudo, hparameter, hdeclared⟩ := hnames target htarget
  have hasked : t.AsksFor e.deployment ⟨resource.1, target⟩ :=
    ⟨resource, hresource, rfl, ⟨hne, hpseudo, hparameter, hdeclared⟩, hmentions⟩
  have hedge : (e.resolveTemplate t).2.graph.has resource.1 target = true :=
    (has_graph_of_resolveTemplate hr hp hlocated hok).mpr (.inr hasked)
  exact hbefore resource.1 (List.mem_map_of_mem hresource) target htarget hedge

/-- Two resources refer to an attribute of a third one, the first of them inside a conditional that
is not decided.  The third comes first, against the order of the names. -/
theorem resourceOrder_lists_mentioned_first_of_conditional :
    let arn (text : Value) : Value := .call Intrinsic.getAtt text
    let conditional (text : Value) : Value :=
      .call Intrinsic.ifElse (.list [.string "Big", arn text, .noValueRef])
    let rule (target : Value) : Value := .map [("Properties", .map [("Target", target)])]
    let resources (text : Value) : Fields Value :=
      [("Alarm", rule (conditional text)), ("Queue", rule (arn text)), ("Topic", .map [])]
    let t (text : Value) : Template := { resources := some (resources text) }
    let e : Expander := { deployment := .ofTemplate (some (t (.string "Topic.Arn"))) }
    let order : List Text := ["Topic", "Alarm", "Queue"]
    (e.resolveTemplate (t (.string "Topic.Arn"))).1 =
        .ok (t (.ofStrings ["Topic", "Arn"])).toDocument ∧
      (e.resolveTemplate (t (.string "Topic.Arn"))).2.resourceOrder (t (.string "Topic.Arn")) =
        .ok order ∧
      ∀ source ∈ (["Alarm", "Queue"] : List Text),
        order.idxOf ("Topic" : Text) < order.idxOf source := by
  intro arn conditional rule resources t e order
  have hnames : ∀ name ∈ (t (.string "Topic.Arn")).resourceNames, name ≠ [] ∧
      CodePoint.char '.' ∉ name ∧ e.deployment.isPseudo name = false ∧
      e.deployment.isParameter name = false ∧
      (e.deployment.listsResources = true → e.deployment.declaresResource name = true) := by
    decide +kernel
  have hok : (e.resolveTemplate (t (.string "Topic.Arn"))).1 =
      .ok (t (.ofStrings ["Topic", "Arn"])).toDocument := by
    decide +kernel
  have horder : (e.resolveTemplate (t (.string "Topic.Arn"))).2.resourceOrder
      (t (.string "Topic.Arn")) = .ok order := by
    decide +kernel
  obtain ⟨-, -, hbefore⟩ := resourceOrder_lists_mentioned_first rfl rfl hnames hok horder
  have harn : Mentions "Topic" (arn (.string "Topic.Arn")) := .attributeOfText _ (by decide)
  have hconditional : Mentions "Topic" (conditional (.string "Topic.Arn")) :=
    .entry List.mem_cons_self rfl (.item (List.mem_cons_of_mem _ List.mem_cons_self) harn)
  have hrule : ∀ target, Mentions "Topic" target → MentionsInResource "Topic" (rule target) :=
    fun target h =>
      ⟨_, rfl, _, List.mem_cons_self, List.mem_cons_self, _, rfl, _, List.mem_cons_self, h⟩
  refine ⟨hok, horder, fun source hsource => ?_⟩
  have htarget : ("Topic" : Text) ∈ (t (.string "Topic.Arn")).resourceNames := by decide
  rcases List.mem_pair.mp hsource with rfl | rfl
  · exact hbefore ("Alarm", rule (conditional (.string "Topic.Arn"))) List.mem_cons_self _ htarget
      (by decide) (hrule _ hconditional)
  · exact hbefore ("Queue", rule (arn (.string "Topic.Arn")))
      (List.mem_cons_of_mem _ List.mem_cons_self) _ htarget (by decide) (hrule _ harn)

/-- Each resource names the one behind it: in `DependsOn`, by a token of a text, by a reference in
an attribute that is a list, and by an attribute that is a reference as a whole.  The order is that
of their names. -/
theorem resourceOrder_against_tokens_and_dependsOn :
    let reference (name : Text) : Value := .call Intrinsic.ref (.string name)
    let text : Text := "topic/$\x7bC\x7d"
    let resources : Fields Value :=
      [("A", .map [("DependsOn", .string "B")]),
        ("B", .map [("Properties", .map [("Name", .call Intrinsic.sub (.string text))])]),
        ("C", .map [("Properties", .list [reference "D"])]),
        ("D", .map [("Properties", reference "E")]),
        ("E", .map [])]
    let t : Template := { resources := some resources }
    let e : Expander := { deployment := .ofTemplate (some t) }
    (∀ name ∈ t.resourceNames, name ≠ [] ∧ CodePoint.char '.' ∉ name ∧
      e.deployment.isPseudo name = false ∧ e.deployment.isParameter name = false ∧
      (e.deployment.listsResources = true → e.deployment.declaresResource name = true)) ∧
      .token "C" ∈ Substitution.scan text ∧
      (e.resolveTemplate t).1 = .ok t.toDocument ∧
      (e.resolveTemplate t).2.resourceOrder t = .ok ["A", "B", "C", "D", "E"] := by
  intro reference text resources t e
  refine ⟨?names, ?token, ?document, ?order⟩
  case names => decide +kernel
  case token => decide +kernel
  case document => decide +kernel
  case order => decide +kernel

end CloudTemplate.Expander

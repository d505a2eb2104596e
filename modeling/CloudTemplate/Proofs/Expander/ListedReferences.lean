import CloudTemplate.Reference
import CloudTemplate.Proofs.Evaluation.AvoidedNames
import CloudTemplate.Proofs.Expander.ErrorLocations
import CloudTemplate.Proofs.Expander.ExactEdges

/-!
# The listed references behind the edges

References are recognized twice.  While a template is expanded, a call adds an edge before its
argument is evaluated, whatever becomes of this; `Reference.collect` lists calls by their looks
alone.  An edge is noted even for an argument that is no reference to an attribute, but then the
handler refuses it.  So if the expansion succeeds, every edge comes of calls that look like
references (`Expander.listed_of_succeeds`), with one exception: the attribute for which an
`Fn::GetAtt` asks may be what another call gives.  What is listed has to name its attribute, and so
such a call is not listed.

## Main results

* `Reference.collect_subset_of_hasAt`: what is listed in a node is listed in the document.
* `Expander.exists_callsAt_of_mentions`: what a value mentions is mentioned by one of its calls.
* `Expander.edge_is_listed`: every edge of an expanded document is backed by a reference that is
  listed, unless its source names its target with computed attributes only.
-/

namespace CloudTemplate

/-- A place below that of the resource with a name. -/
def Location.IsBelowResource (l : Location) (name : Text) : Prop :=
  resourceMark ++ name ++ [CodePoint.char '.'] <+: l.text

/-! ### What is listed -/

namespace Reference

variable {l : Location}

theorem collect_subset_collectItems {items : List Value} {k : Nat} {v : Value}
    (h : items[k]? = some v) (index : Nat) :
    collect (l.item (index + k)) v ⊆ collectItems l index items := by
  induction items generalizing k index with
  | nil => cases h
  | cons first rest ih =>
    rw [collectItems]
    cases k with
    | zero =>
      obtain rfl := Option.some.inj h
      exact List.subset_append_left _ _
    | succ k =>
      have hrest := ih h (index + 1)
      rw [Nat.add_assoc, Nat.add_comm 1] at hrest
      exact List.subset_append_of_subset_right _ hrest

theorem collect_subset_collectEntries {entries : List (Text × Value)} {name : Text} {v : Value}
    (h : (name, v) ∈ entries) : collect (l.entry name) v ⊆ collectEntries l entries := by
  induction entries with
  | nil => cases h
  | cons entry rest ih =>
    rw [collectEntries]
    rcases List.mem_cons.mp h with rfl | h
    · exact List.subset_append_left _ _
    · exact List.subset_append_of_subset_right _ (ih h)

theorem ofEntries?_getAtt (l : Location) (argument : Value) :
    ofEntries? l [(Intrinsic.getAtt, argument)] =
      (attribute? argument).map fun target => ⟨target.1, some target.2, l⟩ := rfl

/-- What is listed in a node is listed in the document. -/
theorem collect_subset_of_hasAt {d v : Value} {steps : List Location.Step} (h : d.HasAt steps v) :
    collect (l.along steps) v ⊆ collect l d := by
  induction h with
  | root => exact List.Subset.refl _
  | @entry steps entries name v _ hentry ih =>
    refine List.Subset.trans ?_ ih
    rw [← Location.entry_along, collect]
    exact List.subset_append_of_subset_right _ (collect_subset_collectEntries hentry)
  | @item steps items index v _ hitem ih =>
    refine List.Subset.trans ?_ ih
    have hfirst := collect_subset_collectItems (l := l.along steps) hitem 0
    rwa [Nat.zero_add, Location.item_along] at hfirst

/-- The reference that a call makes up is listed. -/
theorem mem_collect_of_isIn {d : Value} {site : CallSite} (h : site.IsIn d) {reference : Reference}
    (hreference : ofEntries? site.location [(site.function, site.argument)] = some reference) :
    reference ∈ collect .root d := by
  refine collect_subset_of_hasAt h.hasAt ?_
  rw [CallSite.call, Value.call, collect]
  exact List.mem_append_left _ (Option.mem_toList.mpr hreference)

end Reference

/-! ### The calls that refer to a name -/

namespace Expander

variable {e : Expander} {steps : List Location.Step} {name : Text}

theorem callsInEntries_eq_flatMap (steps : List Location.Step) (entries : Fields Value) :
    e.callsInEntries steps entries =
      entries.flatMap fun entry => e.callsAt (steps ++ [.entry entry.1]) entry.2 := by
  induction entries with
  | nil => rfl
  | cons entry rest ih => rw [callsInEntries, ih, List.flatMap_cons]

theorem forall_prefix_callsInItems {items : List Value}
    (h : ∀ v ∈ items, ∀ steps, ∀ site ∈ e.callsAt steps v, steps <+: site.steps) (index : Nat) :
    ∀ site ∈ e.callsInItems steps index items, steps <+: site.steps := by
  induction items generalizing index with
  | nil => exact List.forall_mem_nil _
  | cons v rest ih =>
    obtain ⟨hv, hrest⟩ := List.forall_mem_cons.mp h
    rw [callsInItems, List.forall_mem_append]
    exact ⟨fun site hsite => (List.prefix_append _ _).trans (hv _ site hsite),
      ih hrest (index + 1)⟩

theorem forall_prefix_callsInEntries {entries : Fields Value}
    (h : ∀ entry ∈ entries, ∀ steps, ∀ site ∈ e.callsAt steps entry.2, steps <+: site.steps) :
    ∀ site ∈ e.callsInEntries steps entries, steps <+: site.steps := by
  rw [callsInEntries_eq_flatMap, List.forall_mem_flatMap]
  intro entry hentry site hsite
  exact (List.prefix_append _ _).trans (h entry hentry _ site hsite)

/-- The calls in a node stand below it. -/
theorem forall_prefix_callsAt (v : Value) : ∀ site ∈ e.callsAt steps v, steps <+: site.steps := by
  induction v using Value.induction generalizing steps with
  | atom v hv =>
    rw [callsAt_atom hv]
    exact List.forall_mem_nil _
  | list items ih =>
    rw [callsAt]
    exact forall_prefix_callsInItems (fun v hv _ => ih v hv) 0
  | plain entries hcall ih =>
    rw [callsAt_plain hcall]
    exact forall_prefix_callsInEntries fun entry hentry _ => ih entry hentry
  | call function argument hname ih _ =>
    rw [callsAt_call hname, List.forall_mem_append, List.forall_mem_singleton]
    refine ⟨?_, List.prefix_refl _⟩
    split
    · exact List.forall_mem_nil _
    · exact fun site hsite => (List.prefix_append _ _).trans (ih site hsite)

/-- What a value mentions is mentioned by one of the calls that are evaluated in it. -/
theorem exists_callsAt_of_mentions (hp : e.placeholders = .empty) {v : Value}
    (h : Mentions name v) (steps : List Location.Step) :
    ∃ site ∈ e.callsAt steps v, referenced? site.function site.argument = some name := by
  induction v using Value.induction generalizing steps with
  | atom v hv => exact absurd h (Mentions.not_atom hv)
  | list items ih =>
    obtain ⟨v, hv, h⟩ := Mentions.list_iff.mp h
    obtain ⟨k, hk⟩ := List.mem_iff_getElem?.mp hv
    obtain ⟨site, hsite, hname⟩ := ih v hv h (steps ++ [.item (0 + k)])
    rw [callsAt]
    exact ⟨site, callsAt_subset_callsInItems hk 0 hsite, hname⟩
  | plain entries hcall ih =>
    obtain ⟨entry, hentry, h⟩ := (Mentions.plain_iff hcall).mp h
    obtain ⟨site, hsite, hname⟩ := ih entry hentry h (steps ++ [.entry entry.1])
    rw [callsAt_plain hcall]
    exact ⟨site, callsAt_subset_callsInEntries hentry hsite, hname⟩
  | call function argument hname ih _ =>
    rw [callsAt_call hname, isVerbatim_of_placeholders_empty hp]
    rcases Mentions.call_iff.mp h with href | ⟨hd, h⟩
    · exact ⟨_, List.mem_append_right _ List.mem_cons_self, href⟩
    · rw [hd, if_neg Bool.false_ne_true]
      obtain ⟨site, hsite, hname⟩ := ih h (steps ++ [.entry function])
      exact ⟨site, List.mem_append_left _ hsite, hname⟩

/-- What a resource mentions is mentioned by one of the calls that are evaluated in it. -/
theorem exists_callsOfResource_of_mentions (hp : e.placeholders = .empty) {v : Value}
    (h : MentionsInResource name v) :
    ∃ site ∈ e.callsOfResource steps v, referenced? site.function site.argument = some name := by
  obtain ⟨attributes, rfl, ⟨key, v⟩, hfield, hkey, entries, hv, entry, hentry, h⟩ := h
  obtain ⟨site, hsite, hname⟩ :=
    exists_callsAt_of_mentions hp h (steps ++ [.entry key] ++ [.entry entry.1])
  refine ⟨site, List.mem_flatMap.mpr ⟨(key, v), hfield, ?_⟩, hname⟩
  dsimp only at hv
  rw [hv, callsOfAttribute, if_pos (List.contains_iff_mem.mpr hkey)]
  exact callsAt_subset_callsInEntries hentry hsite

/-- The calls of a resource stand in one of its attributes. -/
theorem forall_prefix_callsOfResource (v : Value) :
    ∀ site ∈ e.callsOfResource steps v, ∃ key, steps ++ [.entry key] <+: site.steps := by
  cases v with
  | map attributes =>
    rw [callsOfResource, List.forall_mem_flatMap]
    rintro ⟨key, v⟩ -
    dsimp only
    unfold callsOfAttribute
    split
    · split
      · exact fun site hsite =>
          ⟨key, forall_prefix_callsInEntries (fun entry _ _ => forall_prefix_callsAt entry.2)
            site hsite⟩
      · exact List.forall_mem_nil _
    · exact List.forall_mem_nil _
  | null | bool | int | double | string | list => exact List.forall_mem_nil _

end Expander

/-! ### Calls that are evaluated without an error -/

/-- The attribute for which an `Fn::GetAtt` asks is what another call gives. -/
def CallSite.AsksForComputed (site : CallSite) : Prop :=
  site.function = Intrinsic.getAtt ∧
    ∃ name attr rest, site.argument = .list (.string name :: attr :: rest) ∧ attr.isCall = true

namespace Intrinsic

open Expander (referenced?)

variable {d : Deployment} {table : Dispatch}

/-- A call refers to a name as `Ref` does, or as `Fn::GetAtt` does with a text or with an array. -/
theorem referenced?_cases {function name : Text} {argument : Value}
    (h : referenced? function argument = some name) :
    function = ref ∧ argument = .string name ∨
      function = getAtt ∧ (∃ text, argument = .string text) ∨
      function = getAtt ∧ ∃ rest, argument = .list (.string name :: rest) := by
  unfold referenced? at h
  split at h
  · next s =>
    split at h
    · next href => exact .inl ⟨href, congrArg Value.string (Option.some.inj h)⟩
    · split at h
      · next hatt => exact .inr (.inl ⟨hatt, s, rfl⟩)
      · cases h
  · next s rest =>
    split at h
    · next hatt =>
      obtain rfl := Option.some.inj h
      exact .inr (.inr ⟨hatt, rest, rfl⟩)
    · cases h
  · cases h

/-- An array that names an attribute begins with two strings. -/
theorem exists_strings_of_attributeTarget {items : List Value} {target : Text × Text}
    (h : attributeTarget (.list items) = .ok target) :
    ∃ name attr rest, items = .string name :: .string attr :: rest := by
  obtain ⟨part, rest, rfl, -⟩ := attributeTarget_list_eq_ok_iff.mp h
  exact ⟨_, part, _, rfl⟩

/-- A text that names an attribute looks like a reference to it. -/
theorem attribute?_of_attributeTarget {text : Text} {target : Text × Text}
    (h : attributeTarget (.string text) = .ok target) :
    Reference.attribute? (.string text) = some target := by
  obtain ⟨rfl, hdot, -⟩ := attributeTarget_string_eq_ok_iff.mp h
  rw [Reference.attribute?, Text.cut_append hdot]

/-- If a call of `Fn::GetAtt` is evaluated without an error, its argument names an attribute once it
is evaluated. -/
theorem Dispatch.IsBuiltIn.attributeTarget_of_reduce (htable : table.IsBuiltIn) {argument : Value}
    {outcome : Outcome} (h : table.reduce d (.call getAtt argument) = .ok outcome) :
    ∃ evaluated target, table.reduceArgument d getAtt argument = .ok evaluated ∧
      attributeTarget evaluated = .ok target := by
  obtain ⟨evaluated, hevaluated, h⟩ := (Dispatch.reduce_call_eq_ok isName_getAtt rfl).mp h
  rw [htable.invoke_of_ne (by decide)] at h
  obtain ⟨target, htarget, -⟩ :=
    bind_eq_ok.mp (Dispatch.eval_of_invoke .getAtt (by decide) h)
  exact ⟨evaluated, target, hevaluated, htarget⟩

/-- An array that names an attribute once it is evaluated has an attribute before, too, be it a
string or what a call gives. -/
theorem Dispatch.exists_attribute_of_reduceArgument {name : Text} {rest : List Value}
    {evaluated : Value} {target : Text × Text}
    (h : table.reduceArgument d getAtt (.list (.string name :: rest)) = .ok evaluated)
    (htarget : attributeTarget evaluated = .ok target) :
    ∃ attr more, rest = attr :: more ∧ (attr.isCall = true ∨ ∃ s, attr = .string s) := by
  obtain ⟨outcomes, houtcomes, rfl⟩ := reduceArgument_list_eq_ok.mp h
  rw [Outcome.gathered_of_ne (by decide)] at htarget
  obtain ⟨first, others, hfirst, hothers, rfl⟩ := reduceEach_cons_eq_ok.mp houtcomes
  rw [reduce_atom rfl] at hfirst
  obtain rfl := Except.ok.inj hfirst
  obtain ⟨_, s, items, hitems⟩ := exists_strings_of_attributeTarget htarget
  rw [List.flatMap_cons, Outcome.item, List.singleton_append, List.cons.injEq] at hitems
  cases rest with
  | nil =>
    rw [reduceEach_nil] at hothers
    obtain rfl := Except.ok.inj hothers
    cases hitems.2
  | cons attr more =>
    refine ⟨attr, more, rfl, ?_⟩
    by_cases hcall : attr.isCall = true
    · exact .inl hcall
    · -- What is no call keeps its place and gives no string but itself.
      obtain ⟨outcome, others, hattr, -, rfl⟩ := reduceEach_cons_eq_ok.mp hothers
      obtain ⟨w, rfl, hw⟩ := exists_value_of_reduce (Bool.eq_false_iff.mpr hcall) hattr
      rw [List.flatMap_cons, Outcome.item, List.singleton_append, List.cons.injEq] at hitems
      exact .inr ⟨s, hw s hitems.2.1⟩

end Intrinsic

namespace Expander

open Intrinsic (Dispatch)

variable {e : Expander}

/-- **A call that refers to a name** and is evaluated without an error makes up a reference to it,
unless it asks for a computed attribute. -/
theorem listed_of_succeeds (hb : e.dispatch.IsBuiltIn) (hr : e.renames = [])
    (hp : e.placeholders = .empty) {site : CallSite} {name : Text} (hok : e.Succeeds site)
    (hname : referenced? site.function site.argument = some name) :
    (∃ attr, Reference.ofEntries? site.location [(site.function, site.argument)] =
      some ⟨name, attr, site.location⟩) ∨ site.AsksForComputed := by
  obtain ⟨outcome, hok⟩ := hok
  have hreduce : e.dispatch.reduce e.deployment site.call = .ok outcome := by
    rw [← result_evaluate hr hp site.call site.location]
    exact mapError_eq_ok.mpr hok
  obtain ⟨steps, function, argument⟩ := site
  dsimp only [CallSite.call] at hname hreduce
  obtain ⟨rfl, rfl⟩ | ⟨rfl, text, rfl⟩ | ⟨rfl, rest, rfl⟩ := Intrinsic.referenced?_cases hname
  · exact .inl ⟨none, rfl⟩
  · obtain ⟨evaluated, target, hevaluated, htarget⟩ := hb.attributeTarget_of_reduce hreduce
    obtain ⟨outcome, htext, rfl⟩ := (Dispatch.reduceArgument_eq_ok (by simp)).mp hevaluated
    rw [Dispatch.reduce_atom rfl] at htext
    obtain rfl := Except.ok.inj htext
    rw [Outcome.kept] at htarget
    rw [Intrinsic.referenced?_of_attributeTarget htarget] at hname
    obtain rfl := Option.some.inj hname
    refine .inl ⟨some target.2, ?_⟩
    dsimp only
    rw [Reference.ofEntries?_getAtt, Intrinsic.attribute?_of_attributeTarget htarget]
    rfl
  · obtain ⟨evaluated, target, hevaluated, htarget⟩ := hb.attributeTarget_of_reduce hreduce
    obtain ⟨attr, more, rfl, hcall | ⟨s, rfl⟩⟩ :=
      Dispatch.exists_attribute_of_reduceArgument hevaluated htarget
    · exact .inr ⟨rfl, name, attr, more, rfl, hcall⟩
    · exact .inl ⟨some s, rfl⟩

/-! ### Edges and references -/

/-- A call that is evaluated in the resource `source` of a template refers to `target`. -/
def IsEdgeCall (e : Expander) (t : Template) (source target : Text) (site : CallSite) : Prop :=
  ∃ v, (source, v) ∈ t.resources.getD [] ∧
    site ∈ e.callsOfResource [.entry "Resources", .entry source] v ∧
    referenced? site.function site.argument = some target

/-- A resource refers to a name, but all its calls that do ask for computed attributes. -/
def RefersComputed (e : Expander) (t : Template) (source target : Text) : Prop :=
  (∃ site, e.IsEdgeCall t source target site) ∧
    ∀ site, e.IsEdgeCall t source target site → site.AsksForComputed

namespace IsEdgeCall

variable {t : Template} {source target : Text} {site : CallSite}

theorem isIn (h : e.IsEdgeCall t source target site) : site.IsIn t.toDocument := by
  obtain ⟨v, hv, hsite, -⟩ := h
  cases hresources : t.resources with
  | none =>
    rw [hresources] at hv
    cases hv
  | some resources =>
    rw [hresources, Option.getD_some] at hv
    have hsection : t.toEntries.get? Section.resources.name = some (.map resources) := by
      rw [Template.get?_toEntries, Template.content?, hresources, Option.map_some]
    exact forall_isIn_callsOfResource
      ((Value.HasAt.root.entry (Fields.mem_of_get? hsection)).entry hv) site hsite

theorem mem_callsOfTemplate (h : e.IsEdgeCall t source target site) :
    site ∈ e.callsOfTemplate t := by
  obtain ⟨v, hv, hsite, -⟩ := h
  rw [callsOfTemplate]
  exact List.mem_append_left _ (List.mem_append_right _ (List.mem_flatMap.mpr ⟨_, hv, hsite⟩))

theorem referenced?_eq (h : e.IsEdgeCall t source target site) :
    referenced? site.function site.argument = some target := by
  obtain ⟨_, _, _, hname⟩ := h
  exact hname

/-- The call stands below the resource. -/
theorem isBelow (h : e.IsEdgeCall t source target site) : site.location.IsBelowResource source := by
  obtain ⟨v, -, hsite, -⟩ := h
  obtain ⟨key, more, hsteps⟩ := forall_prefix_callsOfResource v site hsite
  have hroot : (Location.root.along [.entry "Resources", .entry source, .entry key]).isRoot =
      false := isRoot_along_section .resources _
  have hattribute : (Location.root.along [.entry "Resources", .entry source, .entry key]).text =
      Location.resourceMark ++ source ++ [CodePoint.char '.'] ++ key := rfl
  rw [CallSite.location, ← hsteps, Location.along, List.foldl_append]
  refine List.IsPrefix.trans ?_ (Location.text_prefix_along hroot more)
  rw [hattribute]
  exact List.prefix_append _ _

end IsEdgeCall

/-- If the expansion of a template succeeds, so does every call in it. -/
theorem succeeds_of_resolveTemplate (hr : e.renames = []) {t : Template} {document : Value}
    (hok : (e.resolveTemplate t).1 = .ok document) :
    ∀ site ∈ e.callsOfTemplate t, e.Succeeds site := by
  rw [resolveTemplate, keep, Recorded.result_map] at hok
  obtain ⟨done, hok, -⟩ := map_eq_ok.mp hok
  have hdecided := isDecidedBy_expand hr t
  rw [hok] at hdecided
  obtain ⟨hsites⟩ := hdecided
  exact hsites

/-- An edge that a template asks for comes of a call in its source. -/
theorem exists_isEdgeCall_of_asksFor (hp : e.placeholders = .empty) {t : Template}
    {source target : Text} (h : t.AsksFor e.deployment ⟨source, target⟩) :
    ∃ site, e.IsEdgeCall t source target site := by
  obtain ⟨⟨name, v⟩, hv, rfl, -, hmentions⟩ := h
  obtain ⟨site, hsite, hname⟩ := exists_callsOfResource_of_mentions hp hmentions
  exact ⟨site, v, hv, hsite, hname⟩

/-- A document that is expanded is null, and then nothing happens, or the template in it is
expanded. -/
theorem resolveDocument_cases {d : Value} {t : Template} (hd : Template.ofDocument d = .ok t)
    {document : Option Value} (hok : (e.resolveDocument d).1 = .ok document) :
    (e.resolveDocument d).2 = e ∨
      (e.resolveDocument d).2 = (e.resolveTemplate t).2 ∧
        ∃ document, (e.resolveTemplate t).1 = .ok document := by
  by_cases hnull : d = .null
  · subst hnull
    exact .inl rfl
  · have hread : Template.ofDocument? d = .ok (some t) := by
      rw [Template.ofDocument?_of_ne_null hnull, hd]
      rfl
    rw [resolveDocument, hread] at hok ⊢
    obtain ⟨document, hresult, -⟩ := map_eq_ok.mp hok
    exact .inr ⟨rfl, document, mapError_eq_ok.mp hresult⟩

/-- **Every edge is backed by a reference that is listed.**  Let an expander with one of the
built-in tables, and without new names, placeholders and edges, expand a document in which the names
of resources are not empty and hold no dot.  If it succeeds, then for each edge of its graph a
reference to the target is listed that stands below the source; or else the source refers to the
target only by calls of `Fn::GetAtt` that ask for computed attributes. -/
theorem edge_is_listed (hb : e.dispatch.IsBuiltIn) (hr : e.renames = [])
    (hp : e.placeholders = .empty) (hg : e.graph = .empty) {d : Value} {t : Template}
    (hd : Template.ofDocument d = .ok t)
    (hnames : ∀ name ∈ t.resourceNames, name ≠ [] ∧ CodePoint.char '.' ∉ name)
    {document : Option Value} (hok : (e.resolveDocument d).1 = .ok document)
    {source target : Text} (hedge : (e.resolveDocument d).2.graph.has source target = true) :
    (∃ reference ∈ Reference.collect .root t.toDocument,
      reference.target = target ∧ reference.location.IsBelowResource source) ∨
    e.RefersComputed t source target := by
  have hnone : ¬ e.graph.has source target = true := by
    rw [hg, Graph.has_iff]
    exact List.not_mem_nil
  obtain heq | ⟨heq, document, hok⟩ := resolveDocument_cases hd hok
  · exact absurd (heq ▸ hedge) hnone
  · rw [heq, has_graph_of_resolveTemplate hr hp hnames hok] at hedge
    have hcalls := exists_isEdgeCall_of_asksFor hp (hedge.resolve_left hnone)
    by_cases hcomputed : ∀ site, e.IsEdgeCall t source target site → site.AsksForComputed
    · exact .inr ⟨hcalls, hcomputed⟩
    · -- A call that asks for nothing computed has succeeded, and so it looks like a reference.
      obtain ⟨site, hsite, hcomputed⟩ := by simpa only [not_forall, exists_prop] using hcomputed
      have hsucceeds := succeeds_of_resolveTemplate hr hok site hsite.mem_callsOfTemplate
      obtain ⟨attr, hreference⟩ :=
        (listed_of_succeeds hb hr hp hsucceeds hsite.referenced?_eq).resolve_right hcomputed
      exact .inl ⟨_, Reference.mem_collect_of_isIn hsite.isIn hreference, rfl, hsite.isBelow⟩

/-- A conditional whose outcome is known drops a reference to a queue and selects one to a topic.
Both make edges.  The attribute of the topic is computed, and that of the queue is not. -/
theorem edge_is_listed_of_conditional :
    let computed : Value := .call Intrinsic.ref (.string "Attribute")
    let topic : Value := .call Intrinsic.getAtt (.list [.string "Topic", computed, .noValueRef])
    let queue : Value := .call Intrinsic.getAtt (.string "Queue.Arn")
    let conditional : Value := .call Intrinsic.ifElse (.list [.string "Big", topic, queue])
    let parameter : Parameter := ⟨"Attribute", "String", [("Default", .string "Arn")]⟩
    let rule (target : Value) : Value := .map [("Properties", .map [("Target", target)])]
    let t (target : Value) : Template := {
      parameters := some [("Attribute", parameter)]
      resources := some [("Queue", .map []), ("Rule", rule target), ("Topic", .map [])] }
    let deployment := Deployment.ofTemplate (some (t conditional))
    let e : Expander := { deployment := deployment.setCondition "Big" true }
    let arn : Value := .call Intrinsic.getAtt (.ofStrings ["Topic", "Arn"])
    (e.resolveDocument (t conditional).toDocument).1 = .ok (some (t arn).toDocument) ∧
      (e.resolveDocument (t conditional).toDocument).2.graph.has "Rule" "Queue" = true ∧
      ∃ reference ∈ Reference.collect .root (t conditional).toDocument,
        reference.target = "Queue" ∧ reference.location.IsBelowResource "Rule" := by
  intro computed topic queue conditional parameter rule t deployment e arn
  have hd : Template.ofDocument (t conditional).toDocument = .ok (t conditional) := by
    decide +kernel
  have hnames : ∀ name ∈ (t conditional).resourceNames,
      name ≠ [] ∧ CodePoint.char '.' ∉ name := by
    decide
  have hok : (e.resolveDocument (t conditional).toDocument).1 =
      .ok (some (t arn).toDocument) := by
    decide +kernel
  have hedge : (e.resolveDocument (t conditional).toDocument).2.graph.has "Rule" "Queue" =
      true := by
    decide +kernel
  refine ⟨hok, hedge, (edge_is_listed (.inl rfl) rfl rfl rfl hd hnames hok hedge).resolve_right ?_⟩
  -- The reference to the queue has a text for an argument, and so nothing in it is computed.
  rintro ⟨-, hcomputed⟩
  let site : CallSite := ⟨[.entry "Resources", .entry "Rule", .entry "Properties",
    .entry "Target", .entry "Fn::If", .item 2], Intrinsic.getAtt, .string "Queue.Arn"⟩
  have hsite : site ∈ e.callsOfResource [.entry "Resources", .entry "Rule"] (rule conditional) := by
    decide +kernel
  obtain ⟨-, name, attr, rest, harg, -⟩ :=
    hcomputed site ⟨rule conditional, by decide +kernel, hsite, rfl⟩
  cases harg

/-- The attribute for which a resource asks is what a reference to a parameter gives.  The edge to
the topic is there, but only the parameter is listed. -/
theorem edge_is_not_listed_of_computed_attribute :
    let computed : Value := .call Intrinsic.ref (.string "Attribute")
    let arn (attr : Value) : Value := .call Intrinsic.getAtt (.list [.string "Topic", attr])
    let parameter : Parameter := ⟨"Attribute", "String", [("Default", .string "Arn")]⟩
    let rule (target : Value) : Value := .map [("Properties", .map [("Target", target)])]
    let t (attr : Value) : Template := {
      parameters := some [("Attribute", parameter)]
      resources := some [("Rule", rule (arn attr)), ("Topic", .map [])] }
    let e : Expander := { deployment := .ofTemplate (some (t computed)) }
    Template.ofDocument (t computed).toDocument = .ok (t computed) ∧
      (∀ name ∈ (t computed).resourceNames, name ≠ [] ∧ CodePoint.char '.' ∉ name) ∧
      (e.resolveDocument (t computed).toDocument).1 = .ok (some (t (.string "Arn")).toDocument) ∧
      (e.resolveDocument (t computed).toDocument).2.graph.has "Rule" "Topic" = true ∧
      ∀ reference ∈ Reference.collect .root (t computed).toDocument,
        reference.target ≠ "Topic" := by
  intro computed arn parameter rule t e
  refine ⟨?template, ?names, ?document, ?edge, ?references⟩
  case template => decide +kernel
  case names => decide
  case document => decide +kernel
  case edge => decide +kernel
  case references => decide +kernel

end Expander

end CloudTemplate

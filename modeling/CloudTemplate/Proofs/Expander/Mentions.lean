import CloudTemplate.Expander.Evaluation
import CloudTemplate.Proofs.Expander.NotedEdges

/-!
# The names that a value mentions

`Mentions` says without any evaluation that a value refers to a name: somewhere inside it, but not
inside a call that is left to the deployment, stands a `Ref` or `Fn::GetAtt` of the name.  A walk
through a value that succeeds inside a resource notes just the edges from the resource to the names
that the value mentions, as far as these are names of resources (`Expander.mem_notes_evaluate`).
Nothing that the evaluation drops or selects makes a difference: arguments are walked through before
their calls are evaluated, and so are both branches of a conditional.
-/

namespace CloudTemplate

/-- Somewhere in a value, but not inside a call that is left to the deployment, a call refers to a
name or to an attribute of what it names. -/
inductive Mentions (name : Text) : Value → Prop
  | ref : Mentions name (.call Intrinsic.ref (.string name))
  | attributeOfList (rest : List Value) :
      Mentions name (.call Intrinsic.getAtt (.list (.string name :: rest)))
  | attributeOfText (text : Text) (h : Text.before '.' text = name) :
      Mentions name (.call Intrinsic.getAtt (.string text))
  | item {items : List Value} {v : Value} (hv : v ∈ items) (h : Mentions name v) :
      Mentions name (.list items)
  | entry {entries : List (Text × Value)} {entry : Text × Value} (hentry : entry ∈ entries)
      (hd : (Value.map entries).isDeferredCall = false) (h : Mentions name entry.2) :
      Mentions name (.map entries)

namespace Mentions

open Intrinsic (isName isDeferred call?)
open Expander (referenced?)

variable {name : Text}

theorem not_atom {v : Value} (h : v.isAtom = true) : ¬ Mentions name v := by
  rintro (_ | _ | _ | _ | _) <;> simp [Value.isAtom, Value.call] at h

theorem list_iff {items : List Value} :
    Mentions name (.list items) ↔ ∃ v ∈ items, Mentions name v := by
  constructor
  · rintro (_ | _ | _ | ⟨hv, h⟩ | _)
    exact ⟨_, hv, h⟩
  · rintro ⟨v, hv, h⟩
    exact .item hv h

/-- A map that is no call mentions what its values mention. -/
theorem plain_iff {entries : List (Text × Value)} (hcall : call? entries = none) :
    Mentions name (.map entries) ↔ ∃ entry ∈ entries, Mentions name entry.2 := by
  constructor
  · rintro (_ | _ | _ | _ | ⟨hentry, -, h⟩)
    · rw [Intrinsic.call?_call _ Intrinsic.isName_ref] at hcall
      nomatch hcall
    · rw [Intrinsic.call?_call _ Intrinsic.isName_getAtt] at hcall
      nomatch hcall
    · rw [Intrinsic.call?_call _ Intrinsic.isName_getAtt] at hcall
      nomatch hcall
    · exact ⟨_, hentry, h⟩
  · rintro ⟨entry, hentry, h⟩
    exact .entry hentry (Value.isDeferredCall_of_plain hcall) h

/-- A call mentions the name to which it refers, and what its argument mentions unless the call is
left to the deployment. -/
theorem call_iff {function : Text} {argument : Value} :
    Mentions name (.call function argument) ↔
      referenced? function argument = some name ∨
        isDeferred function = false ∧ Mentions name argument := by
  constructor
  · rintro (_ | _ | ⟨_, h⟩ | _ | ⟨hentry, hd, h⟩)
    · exact .inl (by rw [referenced?, if_pos rfl])
    · exact .inl (by rw [referenced?, if_pos rfl])
    · exact .inl (by rw [referenced?, if_neg (by decide), if_pos rfl, h])
    · obtain rfl := List.mem_singleton.mp hentry
      exact .inr ⟨hd, h⟩
  · rintro (h | ⟨hd, h⟩)
    · unfold referenced? at h
      split at h
      · split at h
        · next href =>
          obtain rfl := Option.some.inj h
          exact href ▸ .ref
        · split at h
          · next hatt => exact hatt ▸ .attributeOfText _ (Option.some.inj h)
          · nomatch h
      · split at h
        · next hatt =>
          obtain rfl := Option.some.inj h
          exact hatt ▸ .attributeOfList _
        · nomatch h
      · nomatch h
    · exact .entry List.mem_cons_self hd h

end Mentions

/-- A name to which an edge can go: that of a resource, as far as one can tell.  It is not empty,
neither a pseudo-parameter nor a parameter, and declared if there is a list of resources. -/
structure Deployment.IsTarget (d : Deployment) (name : Text) : Prop where
  ne_nil : name ≠ []
  not_pseudo : d.isPseudo name = false
  not_parameter : d.isParameter name = false
  declared : d.listsResources = true → d.declaresResource name = true

theorem Deployment.isTarget_iff {d : Deployment} {name : Text} :
    d.IsTarget name ↔ (!name.isEmpty && d.isResource name) = true := by
  have hlisted : (!d.listsResources || d.declaresResource name) = true ↔
      (d.listsResources = true → d.declaresResource name = true) := by
    cases d.listsResources <;> simp
  rw [isResource, Bool.and_eq_true, Bool.and_eq_true, Bool.and_eq_true, hlisted]
  simp only [Bool.not_eq_true', List.isEmpty_eq_false_iff]
  exact ⟨fun ⟨h₁, h₂, h₃, h₄⟩ => ⟨h₁, ⟨h₂, h₃⟩, h₄⟩, fun ⟨h₁, ⟨h₂, h₃⟩, h₄⟩ => ⟨h₁, h₂, h₃, h₄⟩⟩

namespace Expander

open Intrinsic (isName isDeferred call?)

variable {e : Expander} {l : Location} {edge : Edge}

/-- A call that is left to the deployment refers to nothing. -/
theorem referenced?_of_isDeferred {function : Text} (h : isDeferred function = true)
    (argument : Value) : referenced? function argument = none := by
  have href : function ≠ Intrinsic.ref := by
    rintro rfl
    nomatch h
  have hatt : function ≠ Intrinsic.getAtt := by
    rintro rfl
    nomatch h
  unfold referenced?
  split <;> simp only [if_neg href, if_neg hatt]

/-- An edge goes from the resource to one of the names, and this is the name of a resource. -/
def IsEdgeTo (e : Expander) (resource : Option Text) (names : Text → Prop) (edge : Edge) : Prop :=
  resource = some edge.source ∧ e.deployment.IsTarget edge.target ∧ names edge.target

/-- The edge of a call goes from the resource that holds it to the name to which it refers. -/
theorem edge?_eq_some_iff {function : Text} {argument : Value} :
    e.edge? l function argument = some edge ↔
      e.IsEdgeTo l.resource? (fun name => referenced? function argument = some name) edge := by
  obtain ⟨source, target⟩ := edge
  rw [IsEdgeTo, Deployment.isTarget_iff]
  unfold edge?
  cases l.resource? with
  | none => simp
  | some s =>
    cases referenced? function argument with
    | none => simp
    | some t =>
      simp only [Option.bind_eq_bind, Option.bind_some, Option.ite_none_right_eq_some,
        Option.some.injEq, Edge.mk.injEq]
      constructor
      · rintro ⟨ht, rfl, rfl⟩
        exact ⟨rfl, ht, rfl⟩
      · rintro ⟨rfl, ht, rfl⟩
        exact ⟨ht, rfl, rfl⟩

section IsEdgeTo

variable {resource : Option Text} {names others : Text → Prop}

theorem isEdgeTo_congr (h : ∀ name, names name ↔ others name) :
    e.IsEdgeTo resource names edge ↔ e.IsEdgeTo resource others edge := by
  rw [IsEdgeTo, IsEdgeTo, h]

theorem isEdgeTo_or :
    e.IsEdgeTo resource (fun name => names name ∨ others name) edge ↔
      e.IsEdgeTo resource names edge ∨ e.IsEdgeTo resource others edge := by
  simp only [IsEdgeTo, and_or_left]

theorem not_isEdgeTo (h : ∀ name, ¬ names name) : ¬ e.IsEdgeTo resource names edge :=
  fun hedge => h _ hedge.2.2

end IsEdgeTo

/-- A walk that succeeds notes just the edges to the names that the value mentions. -/
def NotesMentions (e : Expander) (v : Value) : Prop :=
  ∀ l resource outcome, Location.IsIn l resource → (e.evaluate l v).result = .ok outcome →
    ∀ edge, edge ∈ (e.evaluate l v).notes ↔ e.IsEdgeTo resource (Mentions · v) edge

variable {resource : Option Text}

theorem mem_notes_evaluateEach {items : List Value} (h : ∀ v ∈ items, e.NotesMentions v)
    (hl : l.IsIn resource) {index : Nat} {outcomes : List Outcome}
    (hok : (e.evaluateEach l index items).result = .ok outcomes) :
    edge ∈ (e.evaluateEach l index items).notes ↔
      e.IsEdgeTo resource (fun name => ∃ v ∈ items, Mentions name v) edge := by
  induction items generalizing index outcomes with
  | nil =>
    rw [evaluateEach]
    exact iff_of_false List.not_mem_nil (not_isEdgeTo (by simp))
  | cons v rest ih =>
    obtain ⟨outcome, others, hv, hrest, -⟩ := evaluateEach_cons_eq_ok.mp hok
    rw [evaluateEach, Recorded.bind_notes_ok hv, List.mem_append,
      h v List.mem_cons_self _ _ _ (hl.item index) hv, bind_pure_comp, Recorded.notes_map,
      ih (fun u hu => h u (List.mem_cons_of_mem _ hu)) hrest, ← isEdgeTo_or]
    exact isEdgeTo_congr fun name => by simp only [List.mem_cons, exists_eq_or_imp]

theorem mem_notes_evaluateEntries {entries done : List (Text × Value)}
    (h : ∀ entry ∈ entries, e.NotesMentions entry.2) (hl : l.IsIn resource)
    (hok : (e.evaluateEntries l entries).result = .ok done) :
    edge ∈ (e.evaluateEntries l entries).notes ↔
      e.IsEdgeTo resource (fun name => ∃ entry ∈ entries, Mentions name entry.2) edge := by
  induction entries generalizing done with
  | nil =>
    rw [evaluateEntries]
    exact iff_of_false List.not_mem_nil (not_isEdgeTo (by simp))
  | cons entry rest ih =>
    obtain ⟨outcome, others, hv, hrest, -⟩ := evaluateEntries_cons_eq_ok.mp hok
    rw [evaluateEntries, Recorded.bind_notes_ok hv, List.mem_append,
      h entry List.mem_cons_self _ _ _ (hl.entry entry.1) hv, bind_pure_comp, Recorded.notes_map,
      ih (fun other hother => h other (List.mem_cons_of_mem _ hother)) hrest, ← isEdgeTo_or]
    exact isEdgeTo_congr fun name => by simp only [List.mem_cons, exists_eq_or_imp]

theorem mem_notes_evaluateArgument {argument done : Value} {function : Text}
    (h : e.NotesMentions argument)
    (hitems : ∀ items, argument = .list items → ∀ v ∈ items, e.NotesMentions v)
    (hl : l.IsIn resource) (hok : (e.evaluateArgument l function argument).result = .ok done) :
    edge ∈ (e.evaluateArgument l function argument).notes ↔
      e.IsEdgeTo resource (Mentions · argument) edge := by
  cases argument with
  | list items =>
    rw [evaluateArgument_list] at hok ⊢
    rw [Recorded.result_map] at hok
    obtain ⟨outcomes, hok, -⟩ := map_eq_ok.mp hok
    rw [Recorded.notes_map, mem_notes_evaluateEach (hitems items rfl) hl hok]
    exact isEdgeTo_congr fun name => Mentions.list_iff.symm
  | null | bool | int | double | string | map =>
    rw [evaluateArgument_of_ne_list (by simp)] at hok ⊢
    rw [Recorded.result_map] at hok
    obtain ⟨outcome, hok, -⟩ := map_eq_ok.mp hok
    rw [Recorded.notes_map, h l resource outcome hl hok]

/-- **Noted are the names that are mentioned.**  A walk that succeeds, without new names and
placeholders, notes the edges from the resource in which it takes place to the names of resources
that the value mentions, and no others. -/
theorem mem_notes_evaluate (hr : e.renames = []) (hp : e.placeholders = .empty) (v : Value) :
    e.NotesMentions v := by
  induction v using Value.induction with
  | atom v hv =>
    intro l resource outcome hl hok edge
    rw [evaluate_atom hv]
    exact iff_of_false List.not_mem_nil (not_isEdgeTo fun name => Mentions.not_atom hv)
  | list items ih =>
    intro l resource outcome hl hok edge
    rw [evaluate_list] at hok ⊢
    rw [Recorded.result_map] at hok
    obtain ⟨outcomes, hok, -⟩ := map_eq_ok.mp hok
    rw [Recorded.notes_map, mem_notes_evaluateEach ih hl hok]
    exact isEdgeTo_congr fun name => Mentions.list_iff.symm
  | plain entries hcall ih =>
    intro l resource outcome hl hok edge
    rw [evaluate_plain hcall] at hok ⊢
    rw [Recorded.result_map] at hok
    obtain ⟨done, hok, -⟩ := map_eq_ok.mp hok
    rw [Recorded.notes_map, mem_notes_evaluateEntries ih hl hok]
    exact isEdgeTo_congr fun name => (Mentions.plain_iff hcall).symm
  | call function argument hname ih ihs =>
    intro l resource outcome hl hok edge
    rw [evaluate_call hname] at hok ⊢
    cases hd : isDeferred function with
    | true =>
      rw [evaluateCall_verbatim (by rw [isVerbatim_of_placeholders_empty hp, hd])]
      refine iff_of_false List.not_mem_nil (not_isEdgeTo fun name hmentions => ?_)
      rcases Mentions.call_iff.mp hmentions with href | ⟨hd', -⟩
      · rw [referenced?_of_isDeferred hd] at href
        nomatch href
      · rw [hd] at hd'
        nomatch hd'
    | false =>
      rw [evaluateCall_eq (by rw [isVerbatim_of_placeholders_empty hp, hd]),
        renameIn_of_renames_nil hr] at hok ⊢
      obtain ⟨_, hnote, hok⟩ := Recorded.result_bind_eq_ok.mp hok
      rw [Recorded.result_mapError, mapError_eq_ok] at hok
      obtain ⟨done, hok, -⟩ := Recorded.result_bind_eq_ok.mp hok
      rw [Recorded.bind_notes_ok hnote, List.mem_append, Recorded.notes_mapError,
        Recorded.bind_notes_ok hok, Recorded.notes_ofExcept, List.append_nil,
        mem_notes_evaluateArgument ih ihs (hl.entry function) hok, Recorded.notes_noteAll,
        Option.mem_toList, edge?_eq_some_iff, hl.resource?_eq, ← isEdgeTo_or]
      exact isEdgeTo_congr fun name => by simp only [Mentions.call_iff, hd, true_and]

end Expander

end CloudTemplate

import CloudTemplate.Proofs.Evaluation.Equations

/-!
# Where the noted edges come from

Whatever a walk notes, also before it fails, is the edge of some call at a place below the location
at which the walk began (`Expander.isNotedBelow_of_mem_evaluate`).  The text of such a place begins
with the text of that location, so a walk that begins outside the resources notes nothing.
-/

namespace CloudTemplate

namespace Location

/-- The place of an entry is written by going on from the place of the map. -/
theorem exists_text_entry (l : Location) (name : Text) :
    ∃ more, (l.entry name).text = l.text ++ more := by
  unfold entry
  split
  · next h => exact ⟨name, by rw [List.isEmpty_iff.mp h, List.nil_append]⟩
  · exact ⟨"." ++ name, by rw [List.append_assoc]⟩

theorem exists_text_item (l : Location) (index : Nat) :
    ∃ more, (l.item index).text = l.text ++ more :=
  ⟨"[" ++ (Number.natural index ++ "]"), by simp only [item, List.append_assoc]⟩

variable {l : Location} {resource : Option Text}

/-- All places below a location are in one resource, or all are in none. -/
def IsIn (l : Location) (resource : Option Text) : Prop :=
  ∀ more, resource? ⟨l.text ++ more⟩ = resource

theorem IsIn.resource?_eq (h : l.IsIn resource) : l.resource? = resource := by
  have := h []
  rwa [List.append_nil] at this

theorem IsIn.of_text_eq {below : Location} {more : Text} (h : l.IsIn resource)
    (htext : below.text = l.text ++ more) : below.IsIn resource := by
  intro rest
  rw [htext, List.append_assoc]
  exact h (more ++ rest)

theorem IsIn.entry (h : l.IsIn resource) (name : Text) : (l.entry name).IsIn resource :=
  (l.exists_text_entry name).elim fun _ => h.of_text_eq

theorem IsIn.item (h : l.IsIn resource) (index : Nat) : (l.item index).IsIn resource :=
  (l.exists_text_item index).elim fun _ => h.of_text_eq

end Location

namespace Expander

open Intrinsic (isName call?)

variable {e : Expander} {l : Location} {edge : Edge}

/-- An edge is that of a call at a place below a location. -/
def IsNotedBelow (e : Expander) (l : Location) (edge : Edge) : Prop :=
  ∃ more function argument, e.edge? ⟨l.text ++ more⟩ function argument = some edge

theorem isNotedBelow_of_edge? {function : Text} {argument : Value}
    (h : e.edge? l function argument = some edge) : e.IsNotedBelow l edge :=
  ⟨[], function, argument, by rw [List.append_nil]; exact h⟩

/-- What is below a place below a location is below the location. -/
theorem IsNotedBelow.of_text_eq {below : Location} {more : Text}
    (h : e.IsNotedBelow below edge) (htext : below.text = l.text ++ more) :
    e.IsNotedBelow l edge := by
  obtain ⟨rest, function, argument, hedge⟩ := h
  refine ⟨more ++ rest, function, argument, ?_⟩
  rw [← List.append_assoc, ← htext]
  exact hedge

theorem IsNotedBelow.of_entry {name : Text} (h : e.IsNotedBelow (l.entry name) edge) :
    e.IsNotedBelow l edge :=
  (l.exists_text_entry name).elim fun _ => h.of_text_eq

theorem IsNotedBelow.of_item {index : Nat} (h : e.IsNotedBelow (l.item index) edge) :
    e.IsNotedBelow l edge :=
  (l.exists_text_item index).elim fun _ => h.of_text_eq

/-- A walk through a value notes edges below its location only, wherever it begins. -/
def NotesBelow (e : Expander) (v : Value) : Prop :=
  ∀ l, ∀ edge ∈ (e.evaluate l v).notes, e.IsNotedBelow l edge

theorem isNotedBelow_of_mem_each {items : List Value} (h : ∀ v ∈ items, e.NotesBelow v)
    {index : Nat} (hmem : edge ∈ (e.evaluateEach l index items).notes) :
    e.IsNotedBelow l edge := by
  induction items generalizing index with
  | nil =>
    rw [evaluateEach] at hmem
    simp at hmem
  | cons v rest ih =>
    rw [evaluateEach, Recorded.mem_notes_bind] at hmem
    rcases hmem with hmem | ⟨outcome, -, hmem⟩
    · exact (h v List.mem_cons_self _ edge hmem).of_item
    · simp only [bind_pure_comp, Recorded.notes_map] at hmem
      exact ih (fun u hu => h u (List.mem_cons_of_mem _ hu)) hmem

theorem isNotedBelow_of_mem_entries {entries : List (Text × Value)}
    (h : ∀ entry ∈ entries, e.NotesBelow entry.2)
    (hmem : edge ∈ (e.evaluateEntries l entries).notes) : e.IsNotedBelow l edge := by
  induction entries with
  | nil =>
    rw [evaluateEntries] at hmem
    simp at hmem
  | cons entry rest ih =>
    rw [evaluateEntries, Recorded.mem_notes_bind] at hmem
    rcases hmem with hmem | ⟨outcome, -, hmem⟩
    · exact (h entry List.mem_cons_self _ edge hmem).of_entry
    · simp only [bind_pure_comp, Recorded.notes_map] at hmem
      exact ih (fun other hother => h other (List.mem_cons_of_mem _ hother)) hmem

theorem isNotedBelow_of_mem_argument {argument : Value} (h : e.NotesBelow argument)
    (hitems : ∀ items, argument = .list items → ∀ v ∈ items, e.NotesBelow v) {function : Text}
    (hmem : edge ∈ (e.evaluateArgument l function argument).notes) : e.IsNotedBelow l edge := by
  cases argument with
  | list items =>
    rw [evaluateArgument_list, Recorded.notes_map] at hmem
    exact isNotedBelow_of_mem_each (hitems items rfl) hmem
  | null | bool | int | double | string | map =>
    rw [evaluateArgument_of_ne_list (by simp), Recorded.notes_map] at hmem
    exact h l edge hmem

/-- **Noted edges are edges of calls.**  What a walk notes below a location is the edge of a call at
a place below it.  The induction is on the size of the value, since the new names are put into the
argument of a call before the walk goes on. -/
theorem isNotedBelow_of_mem_evaluate (e : Expander) (v : Value) : e.NotesBelow v := by
  induction hsize : v.size using Nat.strongRecOn generalizing v with
  | ind n ih =>
    subst hsize
    intro l edge hmem
    cases v with
    | null | bool | int | double | string =>
      rw [evaluate_atom rfl] at hmem
      simp at hmem
    | list items =>
      rw [evaluate_list, Recorded.notes_map] at hmem
      exact isNotedBelow_of_mem_each
        (fun v hv => ih _ (Value.size_lt_of_mem_items hv) v rfl) hmem
    | map entries =>
      cases hcall : call? entries with
      | none =>
        rw [evaluate_plain hcall, Recorded.notes_map] at hmem
        exact isNotedBelow_of_mem_entries
          (fun entry hentry => ih _ (Value.size_lt_of_mem_entries hentry) _ rfl) hmem
      | some pair =>
        obtain ⟨function, argument⟩ := pair
        obtain ⟨rfl, hname⟩ := Intrinsic.call?_eq_some_iff.mp hcall
        have hargument : (function, argument) ∈ [(function, argument)] := List.mem_cons_self
        have hlt : (e.renameIn argument).size < (Value.map [(function, argument)]).size :=
          size_renameIn e argument ▸ Value.size_lt_of_mem_entries hargument
        change edge ∈ (e.evaluate l (.call function argument)).notes at hmem
        rw [evaluate_call hname] at hmem
        cases hv : e.isVerbatim function (e.renameIn argument) with
        | true =>
          rw [evaluateCall_verbatim hv] at hmem
          simp at hmem
        | false =>
          rw [evaluateCall_eq hv, Recorded.mem_notes_bind] at hmem
          rcases hmem with hmem | ⟨-, -, hmem⟩
          · exact isNotedBelow_of_edge? (Option.mem_toList.mp hmem)
          · rw [Recorded.notes_mapError, Recorded.mem_notes_bind] at hmem
            rcases hmem with hmem | ⟨evaluated, -, hmem⟩
            · refine (isNotedBelow_of_mem_argument (ih _ hlt _ rfl) ?_ hmem).of_entry
              intro items hitems v hv
              rw [hitems] at hlt
              exact ih _ (Nat.lt_trans (Value.size_lt_of_mem_items hv) hlt) v rfl
            · simp at hmem

theorem not_isNotedBelow (h : l.IsIn none) : ¬ e.IsNotedBelow l edge := by
  rintro ⟨more, function, argument, hedge⟩
  simp [edge?, h more] at hedge

/-- A walk that takes place in no resource notes nothing. -/
theorem notes_evaluate_eq_nil (h : l.IsIn none) (v : Value) : (e.evaluate l v).notes = [] :=
  List.eq_nil_iff_forall_not_mem.mpr fun edge hmem =>
    not_isNotedBelow h (e.isNotedBelow_of_mem_evaluate v l edge hmem)

theorem notes_evaluateEntries_eq_nil (h : l.IsIn none) (entries : List (Text × Value)) :
    (e.evaluateEntries l entries).notes = [] :=
  List.eq_nil_iff_forall_not_mem.mpr fun _ hmem =>
    not_isNotedBelow h
      (isNotedBelow_of_mem_entries (fun entry _ => e.isNotedBelow_of_mem_evaluate entry.2) hmem)

end Expander

end CloudTemplate

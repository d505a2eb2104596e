import CloudTemplate.Proofs.Evaluation.AvoidedNames
import CloudTemplate.Proofs.Expander.Renaming
import CloudTemplate.Proofs.Graph.Listings

/-!
# New names that make no difference

New names act on the evaluation of a value in two ways.  They are put in place in the arguments of
all calls, whatever these calls are: where the argument is a string, at the front of a list, and in
the same way in the values of a map.  And each of them counts as declared, which matters where the
attribute of a resource is asked for.

So new names make no difference to a value if none of the strings in these places has one, and if no
call comes to ask for an attribute of what is declared as a new name only.  Other strings may have
new names, wherever they stand, and so may what is known of the deployment.

## Main results

* `Expander.renamed_of_fixesFronts`: a value in which no string in such a place has a new name stays
  as it is.
* `Expander.result_evaluate_congr`: two expanders whose handlers give the same for all evaluated
  arguments give the same result, errors and their locations included.
* `Expander.resolve_renameAll_of_harmless`: what a value resolves to with harmless new names.
* `Expander.resolve_renameAll_of_condition_and_computed_target`: conditions are renamed as well, and
  a name that is computed may be a new one.
-/

namespace CloudTemplate

/-! ### Strings in front -/

namespace Value

mutual

/-- The strings of an argument that stand where names of resources do: the argument as a whole, the
first item of a list, and all of these in the values of a map. -/
def fronts : Value → List Text
  | .string s => [s]
  | .list (.string s :: _) => [s]
  | .map entries => frontsOfEntries entries
  | _ => []

/-- The strings in the values of entries that stand where names of resources do. -/
def frontsOfEntries : List (Text × Value) → List Text
  | [] => []
  | (_, v) :: rest => v.fronts ++ frontsOfEntries rest

end

theorem mem_frontsOfEntries {s : Text} {entries : List (Text × Value)} :
    s ∈ frontsOfEntries entries ↔ ∃ entry ∈ entries, s ∈ entry.2.fronts := by
  induction entries with
  | nil => simp [frontsOfEntries]
  | cons entry rest ih => simp [frontsOfEntries, ih]

theorem forall_mem_fronts_map {P : Text → Prop} {entries : List (Text × Value)} :
    (∀ s ∈ (map entries).fronts, P s) ↔ ∀ entry ∈ entries, ∀ s ∈ entry.2.fronts, P s := by
  simp only [fronts, mem_frontsOfEntries]
  exact ⟨fun h entry hentry s hs => h s ⟨entry, hentry, hs⟩,
    fun h s ⟨entry, hentry, hs⟩ => h entry hentry s hs⟩

theorem forall_mem_fronts_call {P : Text → Prop} {function : Text} {argument : Value} :
    (∀ s ∈ (call function argument).fronts, P s) ↔ ∀ s ∈ argument.fronts, P s := by
  rw [call, forall_mem_fronts_map, List.forall_mem_singleton]

end Value

namespace Expander

open Intrinsic (Error isDeferred call? attributeTarget)

variable {e : Expander} {l : Location}

/-- The strings that stand where names of resources do in the argument of a call have no new
names. -/
def FixesFronts (e : Expander) (entries : Fields Value) : Prop :=
  ∀ call ∈ call? entries, ∀ s ∈ call.2.fronts, e.newName s = s

instance (e : Expander) : DecidablePred e.FixesFronts := fun entries =>
  inferInstanceAs (Decidable (∀ call ∈ call? entries, ∀ s ∈ call.2.fronts, e.newName s = s))

/-- Entries stay as they are if their values do. -/
theorem map_entries_eq_self {f : Value → Value} {entries : List (Text × Value)}
    (h : ∀ entry ∈ entries, f entry.2 = entry.2) :
    entries.map (fun entry => (entry.1, f entry.2)) = entries :=
  (List.map_congr_left fun entry hentry => by rw [h entry hentry, id]).trans (List.map_id entries)

theorem renameIn_of_fronts {v : Value} (h : ∀ s ∈ v.fronts, e.newName s = s) :
    e.renameIn v = v := by
  induction v using Value.induction with
  | atom v hv =>
    cases v with
    | string s => rw [renameIn, h s (by rw [Value.fronts]; exact List.mem_cons_self)]
    | null | bool | int | double => rw [renameIn] <;> simp
    | list | map => cases hv
  | list items _ =>
    match items with
    | .string s :: rest => rw [renameIn, h s (by rw [Value.fronts]; exact List.mem_cons_self)]
    | [] | .null :: _ | .bool _ :: _ | .int _ :: _ | .double _ :: _ | .list _ :: _ | .map _ :: _ =>
      rw [renameIn] <;> simp
  | plain entries _ ih =>
    have hentries := Value.forall_mem_fronts_map.mp h
    rw [renameIn, renameInEntries_eq,
      map_entries_eq_self fun entry hentry => ih entry hentry (hentries entry hentry)]
  | call function argument _ ih _ =>
    have hargument := ih (Value.forall_mem_fronts_call.mp h)
    rw [Value.call, renameIn, renameInEntries_eq, List.map_singleton, hargument]

/-- The front of a list stays as it is if it has no new name. -/
theorem renameHead_of_fronts {items : List Value} {n : Nat}
    (h : n ≠ 0 → ∀ s ∈ (Value.list items).fronts, e.newName s = s) :
    e.renameHead n items = items := by
  match items with
  | .string s :: rest =>
    rw [renameHead]
    cases n with
    | zero => rfl
    | succ n =>
      have hs : e.newName s = s :=
        h n.succ_ne_zero s (by rw [Value.fronts]; exact List.mem_cons_self)
      rw [Function.iterate_fixed hs]
  | [] | .null :: _ | .bool _ :: _ | .int _ :: _ | .double _ :: _ | .list _ :: _ | .map _ :: _ =>
    rw [renameHead]
    simp

/-- **A value stays as it is** when the new names are put in place, if no string has one that stands
where names of resources do in the argument of a call.  When calls enclose the value, the same has
to hold of the value as a part of their arguments. -/
theorem renamed_of_fixesFronts {v : Value} (h : v.Everywhere e.FixesFronts) {n : Nat}
    (hfronts : n ≠ 0 → ∀ s ∈ v.fronts, e.newName s = s) : e.renamed n v = v := by
  induction v using Value.induction generalizing n with
  | atom v hv =>
    rw [← renameIn_iterate_atom n hv]
    cases n with
    | zero => rfl
    | succ n => exact renameIn_iterate_of_fixed (renameIn_of_fronts (hfronts n.succ_ne_zero)) _
  | list items ih =>
    have hitems : items.map (e.renamed 0) = items :=
      (List.map_congr_left fun v hv =>
        ih v hv (Value.everywhere_list.mp h v hv) (absurd rfl)).trans (List.map_id items)
    rw [renamed_list, hitems, renameHead_of_fronts hfronts]
  | plain entries hcall ih =>
    obtain ⟨-, hentries⟩ := (Value.everywhere_map (Value.isDeferredCall_of_plain hcall)).mp h
    rw [renamed_plain n hcall, map_entries_eq_self fun entry hentry =>
      ih entry hentry (hentries entry hentry) fun hn =>
        Value.forall_mem_fronts_map.mp (hfronts hn) entry hentry]
  | call function argument hname ih _ =>
    cases hd : isDeferred function with
    | true =>
      rw [renamed_deferred n argument hd]
      cases n with
      | zero => rfl
      | succ n =>
        have hargument := Value.forall_mem_fronts_call.mp (hfronts n.succ_ne_zero)
        rw [renameIn_iterate_of_fixed (renameIn_of_fronts hargument)]
    | false =>
      -- The call itself renames its argument once more, and so its fronts count now in any case.
      obtain ⟨hhere, hargument⟩ := (Value.everywhere_call hd).mp h
      have hrenamed : e.renamed (n + 1) argument = argument :=
        ih hargument fun _ => hhere _ (Intrinsic.call?_call argument hname)
      rw [renamed_call n argument hname hd, hrenamed]

/-! ### Handlers that give the same -/

/-- The handler of another expander gives the same as that of the first one for the evaluated
argument of a call. -/
def InvokesAlike (e other : Expander) (entries : Fields Value) : Prop :=
  ∀ call ∈ call? entries, ∀ evaluated,
    e.dispatch.reduceArgument e.deployment call.1 call.2 = .ok evaluated →
      other.dispatch.invoke other.deployment call.1 evaluated =
        e.dispatch.invoke e.deployment call.1 evaluated

/-- Two expanders give the same result for a value, wherever it stands. -/
def GivesSame (e other : Expander) (v : Value) : Prop :=
  ∀ l, (other.evaluate l v).result = (e.evaluate l v).result

section GivesSame

variable {other : Expander}

theorem result_evaluateEach_congr {items : List Value} (h : ∀ v ∈ items, e.GivesSame other v)
    (index : Nat) :
    (other.evaluateEach l index items).result = (e.evaluateEach l index items).result := by
  induction items generalizing index with
  | nil => rfl
  | cons v rest ih =>
    obtain ⟨hv, hrest⟩ := List.forall_mem_cons.mp h
    rw [evaluateEach, evaluateEach, Recorded.result_bind, Recorded.result_bind, hv]
    refine bind_congr fun outcome => ?_
    rw [Recorded.result_bind, Recorded.result_bind, ih hrest]

theorem result_evaluateEntries_congr {entries : List (Text × Value)}
    (h : ∀ entry ∈ entries, e.GivesSame other entry.2) :
    (other.evaluateEntries l entries).result = (e.evaluateEntries l entries).result := by
  induction entries with
  | nil => rw [evaluateEntries, evaluateEntries]
  | cons entry rest ih =>
    obtain ⟨hentry, hrest⟩ := List.forall_mem_cons.mp h
    rw [evaluateEntries, evaluateEntries, Recorded.result_bind, Recorded.result_bind, hentry]
    refine bind_congr fun outcome => ?_
    rw [Recorded.result_bind, Recorded.result_bind, ih hrest]

theorem result_evaluateArgument_congr {argument : Value} (h : e.GivesSame other argument)
    (hitems : ∀ items, argument = .list items → ∀ v ∈ items, e.GivesSame other v)
    (function : Text) :
    (other.evaluateArgument l function argument).result =
      (e.evaluateArgument l function argument).result := by
  by_cases hlist : ∃ items, argument = .list items
  · obtain ⟨items, rfl⟩ := hlist
    rw [evaluateArgument_list, evaluateArgument_list, Recorded.result_map, Recorded.result_map,
      result_evaluateEach_congr (hitems items rfl)]
  · have hne : ∀ items, argument ≠ .list items := fun items hv => hlist ⟨items, hv⟩
    rw [evaluateArgument_of_ne_list hne, evaluateArgument_of_ne_list hne, Recorded.result_map,
      Recorded.result_map, h]

/-- **The results are the same** if the handlers give the same for all arguments to which the first
expander evaluates those of the calls in a value. -/
theorem result_evaluate_congr (hr : e.renames = []) (hp : e.placeholders = .empty)
    (hr' : other.renames = []) (hp' : other.placeholders = .empty) {v : Value}
    (h : v.Everywhere (e.InvokesAlike other)) : e.GivesSame other v := by
  induction v using Value.induction with
  | atom v hv =>
    intro l
    rw [evaluate_atom hv, evaluate_atom hv]
  | list items ih =>
    intro l
    rw [evaluate_list, evaluate_list, Recorded.result_map, Recorded.result_map,
      result_evaluateEach_congr fun v hv => ih v hv (Value.everywhere_list.mp h v hv)]
  | plain entries hcall ih =>
    intro l
    obtain ⟨-, hentries⟩ := (Value.everywhere_map (Value.isDeferredCall_of_plain hcall)).mp h
    rw [evaluate_plain hcall, evaluate_plain hcall, Recorded.result_map, Recorded.result_map,
      result_evaluateEntries_congr fun entry hentry => ih entry hentry (hentries entry hentry)]
  | call function argument hname ih ihs =>
    intro l
    rw [evaluate_call hname, evaluate_call hname]
    cases hd : isDeferred function with
    | true =>
      rw [evaluateCall_verbatim (by rw [isVerbatim_of_placeholders_empty hp', hd]),
        evaluateCall_verbatim (by rw [isVerbatim_of_placeholders_empty hp, hd])]
    | false =>
      obtain ⟨hhere, hargument⟩ := (Value.everywhere_call hd).mp h
      have hitems : ∀ items, argument = .list items → ∀ v ∈ items, e.GivesSame other v := by
        rintro items rfl v hv
        exact ihs items rfl v hv (Value.everywhere_list.mp hargument v hv)
      rw [result_evaluateCall hr (by rw [isVerbatim_of_placeholders_empty hp, hd]),
        result_evaluateCall hr' (by rw [isVerbatim_of_placeholders_empty hp', hd]),
        result_evaluateArgument_congr (ih hargument) hitems]
      -- The hypothesis is about the argument without locations, which is the same when it succeeds.
      have hreduce := result_evaluateArgument (result_evaluate hr hp argument)
        (fun items _ v _ => result_evaluate hr hp v) (l.entry function) function
      cases hevaluated : (e.evaluateArgument (l.entry function) function argument).result with
      | error err => rfl
      | ok evaluated =>
        rw [hevaluated] at hreduce
        exact congrArg (Except.mapError (Error.locatedAt l))
          (hhere _ (Intrinsic.call?_call argument hname) evaluated hreduce.symm)

end GivesSame

/-! ### New names count as declared -/

/-- No call that is evaluated as one of `Fn::GetAtt` comes to ask for an attribute of one of some
names. -/
def AsksForNone (e : Expander) (names : Text → Prop) (entries : Fields Value) : Prop :=
  ∀ call ∈ call? entries, e.dispatch.handler? call.1 = some .getAtt →
    ∀ evaluated, e.dispatch.reduceArgument e.deployment call.1 call.2 = .ok evaluated →
      ∀ target, attributeTarget evaluated = .ok target → ¬ names target.1

instance (e : Expander) (names : Text → Prop) [DecidablePred names] :
    DecidablePred (e.AsksForNone names) := fun entries =>
  inferInstanceAs (Decidable (∀ call ∈ call? entries, e.dispatch.handler? call.1 = some .getAtt →
    ∀ evaluated, e.dispatch.reduceArgument e.deployment call.1 call.2 = .ok evaluated →
      ∀ target, attributeTarget evaluated = .ok target → ¬ names target.1))

end Expander

namespace Deployment

/-- There is a list of resources, and a name is not among them. -/
def Lacks (d : Deployment) (name : Text) : Prop :=
  d.listsResources = true ∧ d.declaresResource name = false

instance (d : Deployment) : DecidablePred d.Lacks := fun name =>
  inferInstanceAs (Decidable (d.listsResources = true ∧ d.declaresResource name = false))

/-- The same deployment, but more names count as declared. -/
def declaring (d : Deployment) (names : List Text) : Deployment :=
  { d with aliases := d.aliases.insertAll names }

variable {d : Deployment} {names : List Text}

theorem listsResources_declaring : (d.declaring names).listsResources = d.listsResources := rfl

theorem attribute?_declaring : (d.declaring names).attribute? = d.attribute? := rfl

theorem declaring_nil (d : Deployment) : d.declaring [] = d := by
  rw [declaring, SortedSet.insertAll_nil]

/-- An alias and more names are names that count as declared. -/
theorem declaring_addAlias (name : Text) :
    (d.addAlias name).declaring names = d.declaring (name :: names) := by
  rw [declaring, declaring, addAlias, SortedSet.insertAll_insert]

/-- A name that is not one of those, or that is declared anyway, is declared if it was before. -/
theorem declaresResource_declaring {name : Text} (h : ¬ (name ∈ names ∧ d.Lacks name))
    (hlists : d.listsResources = true) :
    (d.declaring names).declaresResource name = d.declaresResource name := by
  rw [Bool.eq_iff_iff]
  have hmem : (d.declaring names).declaresResource name = true ↔
      name ∈ names ∨ d.declaresResource name = true := by
    simp [declaresResource, declaring, or_assoc, or_left_comm]
  rw [hmem, or_iff_right_of_imp]
  exact fun hname => by_contra fun hdeclared => h ⟨hname, hlists, Bool.eq_false_iff.mpr hdeclared⟩

end Deployment

namespace Intrinsic

variable {d : Deployment} {names : List Text} {argument : Value}

/-- Only `Fn::GetAtt` asks what is declared. -/
theorem eval_declaring_of_ne {handler : Handler} (h : handler ≠ .getAtt) :
    handler.eval (d.declaring names) argument = handler.eval d argument := by
  cases handler with
  | getAtt => exact absurd rfl h
  | _ => rfl

theorem evalGetAtt_declaring
    (h : ∀ target, attributeTarget argument = .ok target →
      ¬ (target.1 ∈ names ∧ d.Lacks target.1)) :
    evalGetAtt (d.declaring names) argument = evalGetAtt d argument := by
  unfold evalGetAtt
  cases htarget : attributeTarget argument with
  | error fault => rfl
  | ok target =>
    have hguard : (d.listsResources && !(d.declaring names).declaresResource target.1) =
        (d.listsResources && !d.declaresResource target.1) := by
      by_cases hlists : d.listsResources = true
      · rw [Deployment.declaresResource_declaring (h target htarget) hlists]
      · rw [Bool.eq_false_iff.mpr hlists, Bool.false_and, Bool.false_and]
    simp only [bind, Except.bind, Deployment.listsResources_declaring,
      Deployment.attribute?_declaring, hguard]

end Intrinsic

namespace Expander

open Intrinsic (Dispatch Error)

variable {e : Expander}

/-- The same expander, but more names count as declared. -/
def declaring (e : Expander) (names : List Text) : Expander :=
  { e with deployment := e.deployment.declaring names }

/-- Giving new names makes them declared, and changes nothing else but the new names. -/
theorem withoutRenames_renameAll (e : Expander) (renames : Fields Text) :
    (e.renameAll renames).withoutRenames = e.withoutRenames.declaring renames.values := by
  induction renames generalizing e with
  | nil =>
    rw [Fields.values, List.map_nil, declaring, Deployment.declaring_nil]
    rfl
  | cons entry rest ih =>
    have hrest : (e.renameAll (entry :: rest)).withoutRenames =
      (e.rename entry.1 entry.2).withoutRenames.declaring (Fields.values rest) := ih _
    rw [hrest, Fields.values, Fields.values, List.map_cons, declaring, declaring,
      withoutRenames, withoutRenames, ← Deployment.declaring_addAlias]
    rfl

theorem placeholders_renameAll (e : Expander) (renames : Fields Text) :
    (e.renameAll renames).placeholders = e.placeholders := by
  induction renames generalizing e with
  | nil => rfl
  | cons entry rest ih => exact ih (e.rename entry.1 entry.2)

/-- The handlers of an expander for which more names are declared give the same, unless one asks for
an attribute of such a name. -/
theorem invokesAlike_of_asksForNone {names : List Text} {entries : Fields Value}
    (h : e.AsksForNone (fun name => name ∈ names ∧ e.deployment.Lacks name) entries) :
    e.InvokesAlike (e.declaring names) entries := by
  intro call hcall evaluated hevaluated
  have hinvoke : (e.declaring names).dispatch.invoke (e.declaring names).deployment =
    e.dispatch.invoke (e.deployment.declaring names) := rfl
  rw [hinvoke, Dispatch.invoke, Dispatch.invoke]
  cases hhandler : e.dispatch.handler? call.1 with
  | none => rfl
  | some handler =>
    have heval : handler.eval (e.deployment.declaring names) evaluated =
        handler.eval e.deployment evaluated := by
      by_cases hgetAtt : handler = .getAtt
      · subst hgetAtt
        exact Intrinsic.evalGetAtt_declaring (h call hcall hhandler evaluated hevaluated)
      · exact Intrinsic.eval_declaring_of_ne hgetAtt
    dsimp only
    rw [heval]

/-- **Harmless new names make no difference.**  Let an expander without new names and placeholders
be given new names.  If no string that stands where names of resources do in the argument of a call
has a new name, and no call of `Fn::GetAtt` comes to ask for an attribute of a new name that is not
among the resources, then a value resolves to the same as before: the same value, none, or the same
error at the same location.  Calls that are left to the deployment do not count. -/
theorem resolve_renameAll_of_harmless (hr : e.renames = []) (hp : e.placeholders = .empty)
    (renames : Fields Text) {v : Value} (hfronts : v.Everywhere (e.renameAll renames).FixesFronts)
    (htargets : v.Everywhere
      (e.AsksForNone fun name => name ∈ renames.values ∧ e.deployment.Lacks name))
    (l : Location) : ((e.renameAll renames).resolve v l).1 = (e.resolve v l).1 := by
  have hwithout : (e.renameAll renames).withoutRenames = e.declaring renames.values := by
    rw [withoutRenames_renameAll, withoutRenames, ← hr]
  have hinvoke : v.Everywhere (e.InvokesAlike (e.declaring renames.values)) :=
    fun entries hentries => invokesAlike_of_asksForNone (htargets entries hentries)
  have hr' : (e.declaring renames.values).renames = [] := hr
  have hp' : (e.declaring renames.values).placeholders = .empty := hp
  have hsame := result_evaluate_congr hr hp hr' hp' hinvoke
  rw [resolve, resolve, keep, keep]
  dsimp only
  rw [evaluate_eq_evaluate_renamed (by rw [placeholders_renameAll, hp]) v,
    renamed_of_fixesFronts hfronts (absurd rfl), hwithout, hsame l]

/-- Strings that have new names stand behind the front of an array, in a list of items, in the
branches of a conditional and in a mapping. -/
theorem resolve_renameAll_of_harmless_of_mapping :
    let entry : Value := .call Intrinsic.findInMap (.ofStrings ["Names", "Topic", "Big"])
    let arn : Value := .call Intrinsic.getAtt (.ofStrings ["Queue", "Topic"])
    let join (name : Value) : Value := .call Intrinsic.join
      (.list [.string "-", .list [.string "Topic", name, arn]])
    let v : Value := .call Intrinsic.ifElse (.list [.string "Large", join entry, .string "Big"])
    let names : Value := .map [("Topic", .map [("Big", .string "Topic")])]
    let t : Template := {
      mappings := some [("Names", names)]
      resources := some [("Queue", .map []), ("Topic", .map [])] }
    let e : Expander := { deployment := (Deployment.ofTemplate (some t)).setCondition "Large" true }
    let renames : Fields Text := [("Topic", "Alerts"), ("Big", "Small")]
    (e.resolve v .root).1 = .ok (.value (join (.string "Topic"))) ∧
      ((e.renameAll renames).resolve v .root).1 = (e.resolve v .root).1 := by
  intro entry arn join v names t e renames
  have hok : (e.resolve v .root).1 = .ok (.value (join (.string "Topic"))) := by decide +kernel
  have hfronts : v.Everywhere (e.renameAll renames).FixesFronts := by decide +kernel
  have htargets : v.Everywhere
      (e.AsksForNone fun name => name ∈ renames.values ∧ e.deployment.Lacks name) := by
    decide +kernel
  exact ⟨hok, resolve_renameAll_of_harmless rfl rfl renames hfronts htargets .root⟩

/-- Neither value refers to the old name or to the new one.  The condition of the first one is known
under its old name only; and what the second one asks for is declared as a new name only. -/
theorem resolve_renameAll_of_condition_and_computed_target :
    let conditional (name : Text) : Value :=
      .call Intrinsic.ifElse (.list [.string name, .string "yes", .string "no"])
    let computed : Value := .call Intrinsic.getAtt
      (.list [.call Intrinsic.sub (.string "B"), .string "Arn"])
    let t : Template := { resources := some [("Queue", .map [])] }
    let e : Expander := { deployment := (Deployment.ofTemplate (some t)).setCondition "A" true }
    let renamed : Expander := e.renameAll [("A", "B")]
    let names : List Text := ["A", "B"]
    let err : Error := { function := Intrinsic.getAtt, fault := .noResource "B" }
    (conditional "A").Avoids (· ∈ names) ∧ computed.Avoids (· ∈ names) ∧
      Substitution.variableNames (Substitution.scan "B") = [] ∧
      (e.resolve (conditional "A") .root).1 = .ok (.value (.string "yes")) ∧
      (renamed.resolve (conditional "A") .root).1 = .ok (.value (conditional "B")) ∧
      (e.resolve computed .root).1 = .error err ∧
      (renamed.resolve computed .root).1 =
        .ok (.value (.call Intrinsic.getAtt (.ofStrings ["B", "Arn"]))) := by
  intro conditional computed t e renamed names err
  refine ⟨?conditionalAvoids, ?computedAvoids, ?tokens, ?before, ?after, ?missing, ?found⟩
  case conditionalAvoids => decide +kernel
  case computedAvoids => decide +kernel
  case tokens => decide +kernel
  case before => decide +kernel
  case after => decide +kernel
  case missing => decide +kernel
  case found => decide +kernel

end Expander

end CloudTemplate

import CloudTemplate.Expander.Evaluation
import CloudTemplate.Proofs.Value.Nodes

/-!
# What the walk of an expander does at each kind of node

One equation for each kind of node, so that no later proof opens the definition of
`Expander.evaluate`: atoms, lists, maps that are no calls, calls that are left as they stand and
calls that are evaluated.  An expander without new names renames nothing, and one without
placeholders leaves only the calls as they stand that are always left to the deployment.
-/

namespace CloudTemplate

/-- The argument that the items of a list become: each keeps its place in a conditional, and
elsewhere those without a value disappear. -/
def Outcome.gathered (function : Text) (outcomes : List Outcome) : Value :=
  .list (if function = Intrinsic.ifElse then outcomes.map kept else outcomes.flatMap item)

theorem Outcome.gathered_ifElse (outcomes : List Outcome) :
    gathered Intrinsic.ifElse outcomes = .list (outcomes.map kept) := by
  rw [gathered, if_pos rfl]

theorem Outcome.gathered_of_ne {function : Text} (h : function ≠ Intrinsic.ifElse)
    (outcomes : List Outcome) : gathered function outcomes = .list (outcomes.flatMap item) := by
  rw [gathered, if_neg h]

namespace Expander

open Intrinsic (Error isName call? isDeferred)

variable {e : Expander} {l : Location}

/-! ### The walk -/

theorem evaluate_atom {v : Value} (h : v.isAtom = true) : e.evaluate l v = pure (.value v) := by
  cases v with
  | null | bool | int | double | string => rw [evaluate] <;> simp
  | list | map => exact absurd h Bool.false_ne_true

/-- A map that is no call is evaluated entry by entry. -/
theorem evaluate_plain {entries : List (Text × Value)} (h : call? entries = none) :
    e.evaluate l (.map entries) =
      (fun entries => .value (.map entries)) <$> e.evaluateEntries l entries := by
  rw [map_eq_pure_bind]
  match entries, h with
  | [], _ => rw [evaluate]; simp
  | _ :: _ :: _, _ => rw [evaluate]; simp
  | [(name, argument)], h =>
    have hname : ¬ isName name = true := fun hname => by simp [call?, hname] at h
    rw [evaluate, if_neg hname, evaluateEntries, bind_assoc]
    simp only [evaluateEntries, pure_bind, List.append_nil]

theorem evaluate_call {function : Text} {argument : Value} (h : isName function = true) :
    e.evaluate l (.call function argument) = e.evaluateCall l function argument := by
  rw [Value.call, evaluate, if_pos h]

/-- Evaluate the items of a list and keep apart what each of them gives. -/
def evaluateEach (e : Expander) (l : Location) (index : Nat) :
    List Value → Recorded Edge Error (List Outcome)
  | [] => return []
  | v :: rest => do
    let outcome ← e.evaluate (l.item index) v
    let outcomes ← e.evaluateEach l (index + 1) rest
    return outcome :: outcomes

theorem evaluateEach_cons_eq_ok {index : Nat} {v : Value} {rest : List Value}
    {outcomes : List Outcome} :
    (e.evaluateEach l index (v :: rest)).result = .ok outcomes ↔
      ∃ outcome others, (e.evaluate (l.item index) v).result = .ok outcome ∧
        (e.evaluateEach l (index + 1) rest).result = .ok others ∧
        outcomes = outcome :: others := by
  simp only [evaluateEach, bind_pure_comp, Recorded.result_bind_map_eq_ok]

theorem evaluateEntries_cons_eq_ok {entry : Text × Value} {rest done : List (Text × Value)} :
    (e.evaluateEntries l (entry :: rest)).result = .ok done ↔
      ∃ outcome others, (e.evaluate (l.entry entry.1) entry.2).result = .ok outcome ∧
        (e.evaluateEntries l rest).result = .ok others ∧
        done = outcome.entry entry.1 ++ others := by
  rw [evaluateEntries]
  simp only [bind_pure_comp, Recorded.result_bind_map_eq_ok]

/-- What holds of all outcomes that items can have holds of those that they have. -/
theorem forall_mem_of_evaluateEach {P : Outcome → Prop} {items : List Value} {index : Nat}
    {outcomes : List Outcome}
    (h : ∀ v ∈ items, ∀ l outcome, (e.evaluate l v).result = .ok outcome → P outcome)
    (hok : (e.evaluateEach l index items).result = .ok outcomes) :
    ∀ outcome ∈ outcomes, P outcome := by
  induction items generalizing index outcomes with
  | nil =>
    rw [evaluateEach] at hok
    obtain rfl := Except.ok.inj hok
    exact List.forall_mem_nil _
  | cons v rest ih =>
    obtain ⟨hv, hrest⟩ := List.forall_mem_cons.mp h
    obtain ⟨outcome, others, hfirst, hothers, rfl⟩ := evaluateEach_cons_eq_ok.mp hok
    exact List.forall_mem_cons.mpr ⟨hv _ outcome hfirst, ih hrest hothers⟩

/-- What holds of all values that entries can be left with holds of those that they are left
with. -/
theorem forall_mem_of_evaluateEntries {P : Text × Value → Prop} {entries done : List (Text × Value)}
    (h : ∀ entry ∈ entries, ∀ l w, (e.evaluate l entry.2).result = .ok (.value w) → P (entry.1, w))
    (hok : (e.evaluateEntries l entries).result = .ok done) : ∀ entry ∈ done, P entry := by
  induction entries generalizing done with
  | nil =>
    rw [evaluateEntries] at hok
    obtain rfl := Except.ok.inj hok
    exact List.forall_mem_nil _
  | cons entry rest ih =>
    obtain ⟨hentry, hrest⟩ := List.forall_mem_cons.mp h
    obtain ⟨outcome, others, hfirst, hothers, rfl⟩ := evaluateEntries_cons_eq_ok.mp hok
    refine List.forall_mem_append.mpr ⟨?_, ih hrest hothers⟩
    cases outcome with
    | value w => exact List.forall_mem_singleton.mpr (hentry _ w hfirst)
    | noValue => exact List.forall_mem_nil _

theorem evaluateItems_eq (index : Nat) (items : List Value) :
    e.evaluateItems l index items = List.flatMap Outcome.item <$> e.evaluateEach l index items := by
  induction items generalizing index with
  | nil => rw [evaluateItems, evaluateEach, map_pure, List.flatMap_nil]
  | cons v rest ih =>
    rw [evaluateItems, evaluateEach]
    simp only [ih, map_bind, map_pure, bind_map_left, List.flatMap_cons]

theorem evaluate_list (items : List Value) :
    e.evaluate l (.list items) =
      (fun outcomes => .value (.list (outcomes.flatMap Outcome.item))) <$>
        e.evaluateEach l 0 items := by
  rw [evaluate, evaluateItems_eq, bind_map_left, map_eq_pure_bind]

theorem evaluateBranches_eq (index : Nat) (items : List Value) :
    e.evaluateBranches l index items = List.map Outcome.kept <$> e.evaluateEach l index items := by
  induction items generalizing index with
  | nil => rw [evaluateBranches, evaluateEach, map_pure, List.map_nil]
  | cons v rest ih =>
    rw [evaluateBranches, evaluateEach]
    simp only [ih, map_bind, map_pure, bind_map_left, List.map_cons]

/-- The items of a list that is the argument of a call are evaluated one after the other; the
function decides what becomes of those without a value. -/
theorem evaluateArgument_list (function : Text) (items : List Value) :
    e.evaluateArgument l function (.list items) =
      Outcome.gathered function <$> e.evaluateEach l 0 items := by
  rw [evaluateArgument]
  by_cases hif : function = Intrinsic.ifElse
  · subst hif
    rw [if_pos rfl, evaluateBranches_eq, bind_map_left, map_eq_pure_bind]
    simp only [Outcome.gathered_ifElse]
  · rw [if_neg hif, evaluateItems_eq, bind_map_left, map_eq_pure_bind]
    simp only [Outcome.gathered_of_ne hif]

theorem evaluateArgument_of_ne_list {argument : Value} (h : ∀ items, argument ≠ .list items)
    (function : Text) :
    e.evaluateArgument l function argument = Outcome.kept <$> e.evaluate l argument := by
  cases argument with
  | list items => exact absurd rfl (h items)
  | null | bool | int | double | string | map => rw [evaluateArgument, map_eq_pure_bind]; simp

/-- A call that is left as it stands. -/
theorem evaluateCall_verbatim {function : Text} {argument : Value}
    (h : e.isVerbatim function (e.renameIn argument) = true) :
    e.evaluateCall l function argument = pure (.value (.call function argument)) := by
  rw [evaluateCall, if_pos h]

/-- A call that is evaluated: first its edge is noted, then its argument is evaluated, and the
handler of its function comes last. -/
theorem evaluateCall_eq {function : Text} {argument : Value}
    (h : e.isVerbatim function (e.renameIn argument) = false) :
    e.evaluateCall l function argument =
      Recorded.noteAll (e.edge? l function (e.renameIn argument)).toList >>= fun _ =>
        Recorded.mapError (Error.locatedAt l)
          (e.evaluateArgument (l.entry function) function (e.renameIn argument) >>= fun argument =>
            Recorded.ofExcept (e.dispatch.invoke e.deployment function argument)) := by
  rw [evaluateCall, if_neg (by simp [h])]

/-! ### Expanders without new names and placeholders -/

theorem newName_of_renames_nil (h : e.renames = []) (name : Text) : e.newName name = name := by
  rw [newName, h, Fields.get?_nil, Option.getD_none]

/-- Without new names nothing is renamed. -/
theorem renameIn_of_renames_nil (h : e.renames = []) (v : Value) : e.renameIn v = v := by
  have hentries : ∀ entries : List (Text × Value),
      (∀ entry ∈ entries, e.renameIn entry.2 = entry.2) → e.renameInEntries entries = entries := by
    intro entries ih
    induction entries with
    | nil => rw [renameInEntries]
    | cons entry rest ihr =>
      rw [renameInEntries, ih entry List.mem_cons_self,
        ihr fun e he => ih e (List.mem_cons_of_mem _ he)]
  induction v using Value.induction with
  | atom v hv =>
    cases v with
    | string s => rw [renameIn, newName_of_renames_nil h]
    | null | bool | int | double => rw [renameIn] <;> simp
    | list | map => nomatch hv
  | list items _ =>
    match items with
    | .string s :: rest => rw [renameIn, newName_of_renames_nil h]
    | [] | .null :: _ | .bool _ :: _ | .int _ :: _ | .double _ :: _ | .list _ :: _ | .map _ :: _ =>
      rw [renameIn] <;> simp
  | plain entries _ ih => rw [renameIn, hentries entries ih]
  | call function argument _ ih _ =>
    rw [Value.call, renameIn, hentries _ (by simpa using ih)]

/-- Without placeholders only the calls that are up to the deployment are left as they stand. -/
theorem isVerbatim_of_placeholders_empty (h : e.placeholders = .empty) (function : Text)
    (argument : Value) : e.isVerbatim function argument = isDeferred function := by
  unfold isVerbatim isDeferred
  cases argument <;> simp [h, SortedSet.mem_def, SortedSet.empty]

/-- A call that is evaluated gives what its handler gives for its argument; an error is located. -/
theorem result_evaluateCall (hr : e.renames = []) {function : Text} {argument : Value}
    (h : e.isVerbatim function argument = false) :
    (e.evaluateCall l function argument).result =
      ((e.evaluateArgument (l.entry function) function argument).result >>=
        e.dispatch.invoke e.deployment function).mapError (Error.locatedAt l) := by
  rw [evaluateCall_eq (by rw [renameIn_of_renames_nil hr, h]), renameIn_of_renames_nil hr]
  simp only [Recorded.result_bind, Recorded.result_noteAll, Recorded.result_mapError,
    Recorded.result_ofExcept]
  rfl

end Expander

end CloudTemplate

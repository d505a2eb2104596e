import CloudTemplate.Proofs.Evaluation.StagedArguments

/-!
# What is left of calls

If what is left of an argument gives later what the argument gives later, then what is left of the
call does too (`Dispatch.reduce_staged_of_invoked`).  A substitution with pending variables leaves a
text with fewer variables and only the local variables that are needed
(`Dispatch.reduce_substitute`).  Local variables that were given by a call are lost there
(`Dispatch.staged_sub_iff`).
-/

namespace CloudTemplate

open Substitution (LocalsGrow substitute scan variableNames pending carried needed render
  isTemplate)

/-! ### Local variables -/

namespace Outcome

theorem get?_entry_append (outcome : Outcome) {key name : Text} (h : key ≠ name)
    (t : Fields Value) : Fields.get? (outcome.entry key ++ t) name = Fields.get? t name := by
  cases outcome with
  | value v => rw [entry, List.singleton_append, Fields.get?_cons, if_neg h]
  | noValue => rfl

/-- Leaving out named outcomes leaves out their entries. -/
theorem entries_filter (keep : Text → Bool) (outcomes : List (Text × Outcome)) :
    entries (outcomes.filter fun named => keep named.1) =
      (entries outcomes).filter fun entry => keep entry.1 := by
  induction outcomes with
  | nil => rfl
  | cons named rest ih =>
    obtain ⟨name, outcome⟩ := named
    cases hkeep : keep name with
    | true => cases outcome <;> simp [hkeep, entries_cons, entry, ih]
    | false => cases outcome <;> simp [hkeep, entries_cons, entry, ih]

end Outcome

namespace Intrinsic.Dispatch

variable {d d' : Deployment}

/-- Local variables that are evaluated lose none of their texts. -/
theorem localsGrow_of_reduceNamed {locals : List (Text × Value)}
    {outcomes : List (Text × Outcome)} (hok : standard.reduceNamed d locals = .ok outcomes) :
    LocalsGrow locals (Outcome.entries outcomes) := by
  induction locals generalizing outcomes with
  | nil =>
    rw [reduceNamed_nil] at hok
    obtain rfl := Except.ok.inj hok
    exact ⟨fun _ => rfl, nofun⟩
  | cons entry rest ih =>
    obtain ⟨key, v⟩ := entry
    obtain ⟨outcome, others, hv, hrest, rfl⟩ := reduceNamed_cons_eq_ok.mp hok
    have hgrow := ih hrest
    rw [Outcome.entries_cons]
    constructor
    · intro name hnone
      rw [Fields.get?_cons] at hnone
      split at hnone
      · nomatch hnone
      · next hkey => rw [outcome.get?_entry_append hkey, hgrow.absent hnone]
    · intro name w t hsome ht
      rw [Fields.get?_cons] at hsome
      split at hsome
      · next hkey =>
        obtain rfl := Option.some.inj hsome
        rw [reduce_atom (Substitution.text_of_scalarText? ht).1] at hv
        rw [← Except.ok.inj hv, Outcome.entry, List.singleton_append, Fields.get?_cons, if_pos hkey]
      · next hkey => rw [outcome.get?_entry_append hkey, hgrow.scalar hsome ht]

theorem reduceNamed_filter (keep : Text → Bool) {entries : List (Text × Value)}
    {outcomes : List (Text × Outcome)} (hok : standard.reduceNamed d entries = .ok outcomes) :
    standard.reduceNamed d (entries.filter fun entry => keep entry.1) =
      .ok (outcomes.filter fun named => keep named.1) := by
  induction entries generalizing outcomes with
  | nil =>
    rw [reduceNamed_nil] at hok
    obtain rfl := Except.ok.inj hok
    exact reduceNamed_nil
  | cons entry rest ih =>
    obtain ⟨outcome, others, hv, hrest, rfl⟩ := reduceNamed_cons_eq_ok.mp hok
    rw [List.filter_cons, List.filter_cons]
    split
    · exact reduceNamed_cons_eq_ok.mpr ⟨outcome, _, hv, ih hrest, rfl⟩
    · exact ih hrest

/-! ### Substitution -/

theorem reduce_sub {argument evaluated : Value}
    (hok : standard.reduceArgument d sub argument = .ok evaluated) {outcome : Outcome}
    (heval : evalSub d evaluated = .ok outcome) :
    standard.reduce d (.call sub argument) = .ok outcome :=
  (reduce_call_eq_ok (by decide) (by decide)).mpr
    ⟨evaluated, hok, invoke_of_eval .sub (by decide) heval⟩

theorem reduceArgument_string {table : Dispatch} (function s : Text) :
    table.reduceArgument d function (.string s) = .ok (.string s) :=
  (reduceArgument_eq_ok (by simp)).mpr ⟨_, reduce_atom rfl, rfl⟩

/-- The argument of a substitution with local variables that do not make up a call. -/
theorem reduceArgument_textWithLocals_eq_ok {table : Dispatch} {text : Text}
    {locals : List (Text × Value)} (hcall : call? locals = none) {evaluated : Value} :
    table.reduceArgument d sub (.list [.string text, .map locals]) = .ok evaluated ↔
      ∃ outcomes, table.reduceNamed d locals = .ok outcomes ∧
        evaluated = .list [.string text, .map (Outcome.entries outcomes)] := by
  rw [reduceArgument_list_eq_ok]
  constructor
  · rintro ⟨outcomes, heach, rfl⟩
    obtain ⟨first, others, hfirst, hothers, rfl⟩ := reduceEach_cons_eq_ok.mp heach
    obtain ⟨second, rest, hsecond, hrest, rfl⟩ := reduceEach_cons_eq_ok.mp hothers
    rw [reduce_atom rfl] at hfirst
    rw [reduceEach_nil] at hrest
    obtain rfl := Except.ok.inj hfirst
    obtain rfl := Except.ok.inj hrest
    obtain ⟨named, hnamed, rfl⟩ := (reduce_plain_eq_ok hcall).mp hsecond
    exact ⟨named, hnamed, Outcome.gathered_of_ne (by decide) _⟩
  · rintro ⟨named, hnamed, rfl⟩
    have hlocals := (reduce_plain_eq_ok hcall).mpr ⟨named, hnamed, rfl⟩
    refine ⟨[.value (.string text), .value (.map (Outcome.entries named))], ?_, ?_⟩
    · exact reduceEach_cons_eq_ok.mpr ⟨_, _, reduce_atom rfl,
        reduceEach_cons_eq_ok.mpr ⟨_, _, hlocals, reduceEach_nil, rfl⟩, rfl⟩
    · rw [Outcome.gathered_of_ne (by decide)]
      rfl

/-- **What is left of a substitution** gives later what the substitution gives later. -/
theorem reduce_substitute (hd : d.GrowsTo d') (hplain : d.IsPlain) {nested : Bool} {text : Text}
    (htemplate : isTemplate nested text = true) {locals : List (Text × Value)}
    (hnames : ∀ entry ∈ locals, isName entry.1 = false)
    (htokenized : ∀ entry ∈ locals, entry.2.isTokenized true = true)
    {outcomes : List (Text × Outcome)} (hok : standard.reduceNamed d' locals = .ok outcomes) :
    standard.reduce d' (substitute d locals text) =
      .ok (.value (substitute d' (Outcome.entries outcomes) text)) := by
  have hgrow := localsGrow_of_reduceNamed hok
  by_cases hpending : pending d locals (scan text) = []
  · rw [Substitution.substitute_of_pending_eq_nil hd hgrow hpending,
      Substitution.substitute_eq_string hpending]
    exact reduce_atom rfl
  · have hknown : ∀ name ∈ variableNames (scan text), ∀ t,
        Substitution.lookup d locals name = some t → dollar ∉ t := fun _ _ _ =>
      Substitution.dollar_not_mem_lookup hplain htokenized
    have hliteral := (Substitution.isTemplate_iff.mp htemplate).1
    rw [← Substitution.substitute_render hd hgrow hliteral hknown hpending, needed,
      ← Outcome.entries_filter]
    have hcarried : standard.reduceNamed d' (carried d locals (scan text)) = _ :=
      reduceNamed_filter (fun name => (pending d locals (scan text)).contains name) hok
    have hcarriedNames : ∀ entry ∈ carried d locals (scan text), isName entry.1 = false :=
      fun entry hentry => hnames entry (List.mem_of_mem_filter hentry)
    by_cases hleft : carried d locals (scan text) = []
    · rw [hleft, reduceNamed_nil] at hcarried
      rw [Substitution.substitute_of_not_carried hpending hleft, ← Except.ok.inj hcarried]
      exact reduce_sub (reduceArgument_string sub _) rfl
    · rw [Substitution.substitute_of_carried hpending hleft]
      exact reduce_sub ((reduceArgument_textWithLocals_eq_ok
        (Value.call?_of_not_isName hcarriedNames)).mpr
        ⟨_, hcarried, rfl⟩) rfl

/-- What is left of a substitution whose text does not ask for its local variables is what is left
of its text alone. -/
theorem reduce_substitute_of_unasked (hd : d.GrowsTo d') (hplain : d.IsPlain) {nested : Bool}
    {text : Text} (htemplate : isTemplate nested text = true) {locals : List (Text × Value)}
    (hunasked : ∀ entry ∈ locals, entry.1 ∉ variableNames (scan text)) :
    standard.reduce d' (substitute d locals text) =
      standard.reduce d' (.call sub (.string text)) := by
  rw [Substitution.substitute_of_unasked hunasked, reduce_sub (reduceArgument_string sub text) rfl]
  exact reduce_substitute hd hplain htemplate (by simp) (by simp) reduceNamed_nil

/-- What is left of a substitution with local variables gives later what the substitution gives
later: the local variables are evaluated one by one, or the text does without them. -/
theorem reduce_staged_of_locals (hd : d.GrowsTo d') (hplain : d'.IsPlain) {nested : Bool}
    {text : Text} {locals : List (Text × Value)}
    (htokenized : Value.IsSubArgument nested (.list [.string text, .map locals]))
    {evaluated : Value} {later : Outcome}
    (hlocals : (∀ entry ∈ locals, isName entry.1 = false) ∨
      (∀ entry ∈ locals, entry.1 ∉ variableNames (scan text)) ∧
        standard.reduce d' (.call sub (.string text)) = .ok later)
    (hevaluated :
      standard.reduceArgument d' sub (.list [.string text, .map locals]) = .ok evaluated)
    (hlater : standard.invoke d' sub evaluated = .ok later) :
    standard.reduce d' (substitute d locals text) = .ok later := by
  obtain ⟨htemplate, hrest⟩ := htokenized
  rcases hlocals with hnames | ⟨hunasked, halone⟩
  · obtain ⟨outcomes, hnamed, rfl⟩ :=
      (reduceArgument_textWithLocals_eq_ok (Value.call?_of_not_isName hnames)).mp hevaluated
    have heval := eval_of_invoke .sub (by decide) hlater
    obtain rfl := Except.ok.inj heval
    have hvalues := (Value.isTokenized_plain (Value.call?_of_not_isName hnames)).mp
      (hrest _ List.mem_cons_self)
    exact reduce_substitute hd (hd.isPlain hplain) htemplate hnames hvalues hnamed
  · rw [reduce_substitute_of_unasked hd (hd.isPlain hplain) htemplate hunasked]
    exact halone

/-- **Local variables for which a text does not ask are lost.**  If a substitution has evaluated to
a text and to local variables that no variable of the text asks for, then what is left of it gives
later what the substitution gives later just if that is what its text alone gives. -/
theorem staged_sub_iff (hd : d.GrowsTo d') (hplain : d.IsPlain) {nested : Bool}
    {text : Text} (htemplate : isTemplate nested text = true) {argument : Value}
    {locals : List (Text × Value)}
    (hok : standard.reduceArgument d sub argument = .ok (.list [.string text, .map locals]))
    (hunasked : ∀ entry ∈ locals, entry.1 ∉ variableNames (scan text)) :
    Staged d d' (.call sub argument) ↔
      ∀ later, standard.reduce d' (.call sub argument) = .ok later →
        standard.reduce d' (.call sub (.string text)) = .ok later := by
  have hreduce : standard.reduce d (.call sub argument) = .ok (.value (substitute d locals text)) :=
    reduce_sub hok rfl
  have hleft : standard.reduce d' (Outcome.value (substitute d locals text)).kept = _ :=
    reduce_substitute_of_unasked hd hplain htemplate hunasked
  rw [← hleft]
  constructor
  · exact fun h later hlater => h _ later hreduce hlater
  · intro h outcome later hok hlater
    rw [hreduce] at hok
    exact Except.ok.inj hok ▸ h later hlater

/-! ### Mappings and attributes -/

theorem evalFindInMap_ofStrings (name topKey secondKey : Text) :
    evalFindInMap d (.ofStrings [name, topKey, secondKey]) =
      Outcome.value <$> findEntry d name topKey secondKey := by
  rw [map_eq_pure_bind]
  rfl

theorem isAtom_of_attributeTarget {items : List Value} {target : Text × Text}
    (h : attributeTarget (.list items) = .ok target) : ∀ v ∈ items, v.isAtom = true := by
  obtain ⟨part, rest, rfl, -⟩ := attributeTarget_list_eq_ok_iff.mp h
  exact List.forall_mem_map.mpr fun _ _ => rfl

/-- An argument that names an attribute holds no calls. -/
theorem isCallFree_of_attributeTarget {argument : Value} {target : Text × Text}
    (h : attributeTarget argument = .ok target) : argument.IsCallFree := by
  cases argument with
  | list items =>
    exact Value.isCallFree_list fun v hv =>
      Value.isCallFree_of_isAtom (isAtom_of_attributeTarget h v hv)
  | null | bool | int | double | string => exact Value.isCallFree_of_isAtom rfl
  | map => cases h

theorem attributeTarget_ofStrings (resource attr : Text) :
    attributeTarget (.ofStrings [resource, attr]) = .ok (resource, attr) := rfl

/-- The call that is kept of an attribute that is not known names the same attribute. -/
theorem evalGetAtt_ofStrings {argument : Value} {resource attr : Text}
    (h : attributeTarget argument = .ok (resource, attr)) :
    evalGetAtt d (.ofStrings [resource, attr]) = evalGetAtt d argument := by
  rw [evalGetAtt, evalGetAtt, h, attributeTarget_ofStrings]

theorem evalGetAtt_of_known {argument v : Value} {resource attr : Text}
    (htarget : attributeTarget argument = .ok (resource, attr))
    (h : d.attribute? resource attr = some v) {outcome : Outcome}
    (heval : evalGetAtt d argument = .ok outcome) : outcome = .value v := by
  rw [evalGetAtt, htarget] at heval
  obtain ⟨target, htarget, heval⟩ := bind_eq_ok.mp heval
  obtain rfl := Except.ok.inj htarget
  dsimp only at heval
  split at heval
  · nomatch heval
  · rw [h] at heval
    exact (Except.ok.inj heval).symm

/-! ### Calls of all functions but conditionals -/

/-- An argument without calls is the same later. -/
theorem eq_of_reduceArgument {function : Text} (hf : function ≠ ifElse) {argument later : Value}
    (h : argument.IsCallFree)
    (hlater : standard.reduceArgument d function argument = .ok later) : later = argument := by
  rw [reduceArgument_of_reduce hf (reduce_of_isCallFree h)] at hlater
  exact (Except.ok.inj hlater).symm

/-- **What is left of a call.**  If what is left of the argument gives later what the argument gives
later, then what is left of the call gives what the call gives, unless its text asks for local
variables that a call would have given. -/
theorem reduce_staged_of_invoked (hd : d.GrowsTo d') (hplain : d'.IsPlain) {function : Text}
    (hname : isName function = true) (hdeferred : isDeferred function = false)
    (hf : function ≠ ifElse) {evaluated evaluated' : Value} {outcome later : Outcome}
    (hevaluated : standard.reduceArgument d' function evaluated = .ok evaluated')
    (h : Invoked d function evaluated outcome)
    (hlater : standard.invoke d' function evaluated' = .ok later)
    {nested : Bool} (htokenized : function = sub → Value.IsSubArgument nested evaluated)
    (hlocals : ∀ text locals, function = sub → evaluated = .list [.string text, .map locals] →
      (∀ entry ∈ locals, isName entry.1 = false) ∨
        (∀ entry ∈ locals, entry.1 ∉ variableNames (scan text)) ∧
          standard.reduce d' (.call sub (.string text)) = .ok later) :
    standard.reduce d' outcome.kept = .ok later := by
  cases h with
  | kept => exact (reduce_call_eq_ok hname hdeferred).mpr ⟨evaluated', hevaluated, hlater⟩
  | noValue =>
    obtain rfl := eq_of_reduceArgument hf (Value.isCallFree_of_isAtom rfl) hevaluated
    have heval : evalRef d' (.string noValue) = .ok later :=
      eval_of_invoke .ref (by decide) hlater
    obtain rfl := Except.ok.inj heval
    exact reduce_noValueRef
  | pseudo hvalue h =>
    obtain rfl := eq_of_reduceArgument hf (Value.isCallFree_of_isAtom rfl) hevaluated
    have heval := eval_of_invoke .ref (by decide) hlater
    rw [Handler.eval, evalRef, if_neg hvalue, hd.pseudo, h] at heval
    obtain rfl := Except.ok.inj heval
    exact reduce_atom rfl
  | parameter hvalue hpseudo h =>
    obtain rfl := eq_of_reduceArgument hf (Value.isCallFree_of_isAtom rfl) hevaluated
    have heval := eval_of_invoke .ref (by decide) hlater
    rw [Handler.eval, evalRef, if_neg hvalue, hd.pseudo, hpseudo, hd.parameters h] at heval
    obtain rfl := Except.ok.inj heval
    exact reduce_of_isCallFree (hplain.parameters (hd.parameters h)).1
  | attributeKnown htarget h =>
    obtain rfl := eq_of_reduceArgument hf (isCallFree_of_attributeTarget htarget) hevaluated
    have heval := eval_of_invoke .getAtt (by decide) hlater
    have hknown := hd.attributes h
    obtain rfl := evalGetAtt_of_known htarget hknown heval
    exact reduce_of_isCallFree (hplain.attributes hknown).1
  | attributeKept htarget =>
    obtain rfl := eq_of_reduceArgument hf (isCallFree_of_attributeTarget htarget) hevaluated
    have heval := eval_of_invoke .getAtt (by decide) hlater
    rw [Handler.eval, ← evalGetAtt_ofStrings htarget] at heval
    exact (reduce_call_eq_ok hname hdeferred).mpr ⟨_,
      reduceArgument_of_reduce hf (reduce_of_isCallFree (Value.isCallFree_ofStrings _)),
      invoke_of_eval .getAtt (by decide) heval⟩
  | mapping h =>
    obtain rfl := eq_of_reduceArgument hf (Value.isCallFree_ofStrings _) hevaluated
    have heval := eval_of_invoke .findInMap (by decide) hlater
    rw [← hd.findEntry_eq] at h
    rw [Handler.eval, evalFindInMap_ofStrings, h] at heval
    obtain rfl := Except.ok.inj heval
    exact reduce_of_isCallFree (hplain.mappings h).1
  | branch h => exact absurd rfl hf
  | condition h =>
    obtain rfl := eq_of_reduceArgument hf (Value.isCallFree_of_isAtom rfl) hevaluated
    have heval := eval_of_invoke .condition (by decide) hlater
    rw [Handler.eval, evalCondition, hd.conditions h] at heval
    obtain rfl := Except.ok.inj heval
    exact reduce_atom rfl
  | text t =>
    obtain rfl := eq_of_reduceArgument hf (Value.isCallFree_of_isAtom rfl) hevaluated
    have heval := eval_of_invoke .sub (by decide) hlater
    obtain rfl := Except.ok.inj heval
    exact reduce_substitute hd (hd.isPlain hplain) (htokenized rfl) (by simp) (by simp)
      reduceNamed_nil
  | textWithLocals t locals =>
    exact reduce_staged_of_locals hd hplain (htokenized rfl) (hlocals t locals rfl rfl) hevaluated
      hlater

end Intrinsic.Dispatch

end CloudTemplate

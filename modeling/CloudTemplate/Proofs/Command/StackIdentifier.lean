import CloudTemplate.Command.Run

/-!
# The identifier of a stack in a run

Among the pseudo-parameters are the identifier of the stack and, under names of their own, the four
parts of which it is made (`Pseudo.identifierParts`).  A run starts from the made-up ones, in which
the identifier is that of its parts (`Pseudo.IdentifiesStack`), and puts the ones from the cloud or
from the settings in their places.  The identifier is made anew if the cloud is asked and the stack
has a name.  Otherwise it stays the made-up one whatever becomes of its parts: the name of a stack
or a region that is set without asking the cloud leaves it behind, and so does the account, the
partition or the region that the cloud tells for a stack without a name.

## Main results

* `Run.prepare_identifiesStack_iff`: in which runs the identifier is that of its parts.
-/

namespace CloudTemplate

/-- A text is told by what stands before the first separator and what stands behind it. -/
theorem Text.append_cons_inj {separator : CodePoint} {s t rest more : Text} (hs : separator ∉ s)
    (ht : separator ∉ t) (h : s ++ separator :: rest = t ++ separator :: more) :
    s = t ∧ rest = more := by
  have hcut := congrArg (Text.cut separator) h
  rw [Text.cut_append hs, Text.cut_append ht] at hcut
  simpa using hcut

namespace Pseudo

/-! ### Identifiers of stacks -/

/-- The names of the parts of a stack's identifier. -/
def identifierParts : List Text := [partition, region, accountId, stackName]

/-- The table has all parts of the identifier. -/
structure Describes (table : Fields Text) (p r a s : Text) : Prop where
  partition : table.get? Pseudo.partition = some p
  region : table.get? Pseudo.region = some r
  accountId : table.get? Pseudo.accountId = some a
  stackName : table.get? Pseudo.stackName = some s

/-- The identifier in the table is the one that its parts in the table make up. -/
def IdentifiesStack (table : Fields Text) : Prop :=
  ∃ p r a s, Describes table p r a s ∧ table.get? stackId = some (stackIdentifier p r a s)

theorem count_stackIdentifier (p r a s : Text) :
    (stackIdentifier p r a s).count (.char ':') = p.count (.char ':') + r.count (.char ':') +
      a.count (.char ':') + s.count (.char ':') + 5 := by
  have hmark : List.count (.char ':') (Text.ofString "arn:") = 1 := by decide
  have hservice : List.count (.char ':') (Text.ofString ":cloudformation:") = 2 := by decide
  have hcolon : List.count (.char ':') (Text.ofString ":") = 1 := by decide
  have hstack : List.count (.char ':') (Text.ofString ":stack/") = 1 := by decide
  have hend : List.count (.char ':') (Text.ofString "/guid") = 0 := by decide
  simp only [stackIdentifier, List.count_append, hmark, hservice, hcolon, hstack, hend]
  omega

theorem stackIdentifier_eq (p r a s : Text) :
    stackIdentifier p r a s = ("arn:" : Text) ++ (p ++ .char ':' :: (("cloudformation:" : Text) ++
      (r ++ .char ':' :: (a ++ .char ':' :: (("stack/" : Text) ++ (s ++ ("/guid" : Text))))))) := by
  simp only [stackIdentifier, List.append_assoc]
  rfl

/-- The parts of an identifier are told by it, if there is no colon in any of them. -/
theorem stackIdentifier_inj {p r a s p' r' a' s' : Text} (hp : .char ':' ∉ p') (hr : .char ':' ∉ r')
    (ha : .char ':' ∉ a') (hs : .char ':' ∉ s')
    (h : stackIdentifier p r a s = stackIdentifier p' r' a' s') :
    p = p' ∧ r = r' ∧ a = a' ∧ s = s' := by
  -- the other identifier has the same colons, and none of them is in a part
  have hcount := congrArg (List.count (.char ':')) h
  rw [count_stackIdentifier, count_stackIdentifier, List.count_eq_zero.mpr hp,
    List.count_eq_zero.mpr hr, List.count_eq_zero.mpr ha, List.count_eq_zero.mpr hs] at hcount
  have hp₀ : .char ':' ∉ p := List.count_eq_zero.mp (by omega)
  have hr₀ : .char ':' ∉ r := List.count_eq_zero.mp (by omega)
  have ha₀ : .char ':' ∉ a := List.count_eq_zero.mp (by omega)
  rw [stackIdentifier_eq, stackIdentifier_eq] at h
  obtain ⟨hpartition, h⟩ := Text.append_cons_inj hp₀ hp (List.append_cancel_left h)
  obtain ⟨hregion, h⟩ := Text.append_cons_inj hr₀ hr (List.append_cancel_left h)
  obtain ⟨haccount, h⟩ := Text.append_cons_inj ha₀ ha h
  have hstack : s = s' := List.append_cancel_right (List.append_cancel_left h)
  exact ⟨hpartition, hregion, haccount, hstack⟩

theorem describes_defaults :
    Describes defaults "aws" defaultRegion "123456789012" "sam-app" := by
  constructor <;>
    simp [defaults, Fields.get?, Pseudo.accountId, Pseudo.region, Pseudo.stackName, stackId,
      urlSuffix, Pseudo.partition]

theorem get?_stackId_defaults : defaults.get? stackId =
    some (stackIdentifier "aws" defaultRegion "123456789012" "sam-app") := by
  simp [defaults, Fields.get?, Pseudo.accountId, Pseudo.region, Pseudo.stackName, stackId]

/-- The made-up identifier is that of its parts in the table only if these are made up as well. -/
theorem identifiesStack_iff_of_stackId {table : Fields Text}
    (hid : table.get? stackId = defaults.get? stackId) :
    IdentifiesStack table ↔ ∀ name ∈ identifierParts, table.get? name = defaults.get? name := by
  have hdefaults := describes_defaults
  simp only [identifierParts, List.forall_mem_cons]
  rw [hdefaults.partition, hdefaults.region, hdefaults.accountId, hdefaults.stackName]
  rw [get?_stackId_defaults] at hid
  constructor
  · rintro ⟨p, r, a, s, hparts, hidentifier⟩
    obtain ⟨rfl, rfl, rfl, rfl⟩ := stackIdentifier_inj (by decide) (by decide) (by decide)
      (by decide) (Option.some.inj (hidentifier.symm.trans hid))
    exact ⟨hparts.partition, hparts.region, hparts.accountId, hparts.stackName,
      List.forall_mem_nil _⟩
  · rintro ⟨hpartition, hregion, haccount, hstack, -⟩
    exact ⟨_, _, _, _, ⟨hpartition, hregion, haccount, hstack⟩, hid⟩

/-- An identifier that is set together with all its parts is theirs. -/
theorem IdentifiesStack.update {table : Fields Text} (h : IdentifiesStack table)
    (hnodup : table.names.Nodup) (t : Fields Text) : IdentifiesStack (t.update table) := by
  have hget : ∀ {name value : Text}, table.get? name = some value →
      (t.update table).get? name = some value := by
    intro name value hname
    rw [Fields.get?_update hnodup, hname, Option.some_or]
  obtain ⟨p, r, a, s, hparts, hid⟩ := h
  exact ⟨p, r, a, s, ⟨hget hparts.partition, hget hparts.region, hget hparts.accountId,
    hget hparts.stackName⟩, hget hid⟩

end Pseudo

/-! ### The identity that the cloud tells -/

namespace Cloud

variable {cloud : Cloud} {profile region stack : Option Text} {table : Fields Text}

/-- The cloud tells the pseudo-parameters of the caller, in the region of the session or else in the
default one. -/
theorem exists_of_fetchIdentity
    (h : (cloud.fetchIdentity profile region stack).result = .ok table) :
    ∃ caller partition, cloud.identity = .ok caller ∧ partitionOf caller.arn = .ok partition ∧
      table = pseudoParameters caller.account
        ((given? (cloud.regionOf region)).getD Pseudo.defaultRegion) partition stack := by
  obtain ⟨_, _, h⟩ := Recorded.result_bind_eq_ok.mp h
  obtain ⟨_, _, h⟩ := Recorded.result_bind_eq_ok.mp h
  obtain ⟨_, _, h⟩ := Recorded.result_bind_eq_ok.mp h
  obtain ⟨caller, hcaller, h⟩ := Recorded.result_bind_eq_ok.mp h
  obtain ⟨partition, hpartition, h⟩ := Recorded.result_bind_eq_ok.mp h
  rw [Recorded.result_mapError, mapError_eq_ok] at hcaller
  exact ⟨caller, partition, hcaller, hpartition, (Except.ok.inj h).symm⟩

theorem nodup_names_pseudoParameters (account region partition : Text) (stack : Option Text) :
    (pseudoParameters account region partition stack).names.Nodup := by
  have hnames : [Pseudo.accountId, Pseudo.region, Pseudo.partition, Pseudo.urlSuffix,
      Pseudo.stackName, Pseudo.stackId].Nodup := by
    simp [Pseudo.accountId, Pseudo.region, Pseudo.partition, Pseudo.urlSuffix, Pseudo.stackName,
      Pseudo.stackId]
  rw [pseudoParameters]
  cases given? stack with
  | none => exact hnames.sublist (List.sublist_append_left [_, _, _, _] [_, _])
  | some stack => exact hnames

/-- The pseudo-parameters of a caller with a stack have its identifier. -/
theorem identifiesStack_pseudoParameters {name : Text} (hstack : given? stack = some name)
    (account region partition : Text) :
    Pseudo.IdentifiesStack (pseudoParameters account region partition stack) := by
  have hget : ∀ {key value : Text}, (key, value) ∈ pseudoParameters account region partition stack →
      (pseudoParameters account region partition stack).get? key = some value :=
    Fields.get?_of_mem (nodup_names_pseudoParameters account region partition stack)
  refine ⟨partition, region, account, name, ⟨hget ?_, hget ?_, hget ?_, hget ?_⟩, hget ?_⟩ <;>
    simp [pseudoParameters, hstack]

theorem get?_stackId_pseudoParameters (hstack : given? stack = none)
    (account region partition : Text) :
    (pseudoParameters account region partition stack).get? Pseudo.stackId = none := by
  simp [pseudoParameters, hstack, Fields.get?, Pseudo.accountId, Pseudo.region, Pseudo.partition,
    Pseudo.urlSuffix, Pseudo.stackId]

end Cloud

/-! ### The pseudo-parameters of a run -/

/-- New names for resources change no pseudo-parameter. -/
theorem Expander.pseudo_renameAll (e : Expander) (renames : Fields Text) :
    (e.renameAll renames).deployment.pseudo = e.deployment.pseudo := by
  induction renames generalizing e with
  | nil => rfl
  | cons entry rest ih => exact ih (e.rename entry.1 entry.2)

namespace Command.Run

variable {files : Files} {cloud : Cloud} {settings : Settings} {table : Fields Text}

/-- A file is loaded as the template that its bytes hold. -/
theorem load_of_readTemplate {path : Text} {bytes : List UInt8} {t : Template}
    (hplace : Settings.place files path = .ok (.file bytes)) (hread : readTemplate bytes = .ok t) :
    (load files path).result = .ok t := by
  rw [load, hplace]
  show (Recorded.ofExcept ((readTemplate bytes).mapError _)).result = .ok t
  rw [hread]
  rfl

/-- Two braces hold the template without any section. -/
theorem readTemplate_braces : readTemplate [0x7b, 0x7d] = .ok {} := by
  have hvalue : (readTemplate [0x7b, 0x7d]).toOption = some {} := by decide +kernel
  cases hread : readTemplate [0x7b, 0x7d] with
  | ok t =>
    rw [hread] at hvalue
    exact congrArg Except.ok (Option.some.inj hvalue)
  | error e =>
    rw [hread] at hvalue
    cases hvalue

/-- The template that a run expands, and the expander with which it does so. -/
def prepare (files : Files) (cloud : Cloud) (settings : Settings) : Run (Template × Expander) := do
  let t ← load files settings.templateFile
  let identity ← identity cloud settings
  let parameters ← allParameterValues cloud settings t
  return (t, expander settings t parameters (identity.update settings.pseudo))

/-- A run prepares the expander, expands the template with it and delivers what that gives. -/
theorem resolve_eq (files : Files) (cloud : Cloud) (settings : Settings) :
    resolve files cloud settings =
      prepare files cloud settings >>= fun prepared =>
        expand prepared.2 prepared.1 >>= fun expanded => deliver files settings expanded.1 := by
  simp only [resolve, prepare, bind_assoc, pure_bind]

/-- The pseudo-parameters with which a run expands the template are the made-up ones, the identity
in their places, and the given ones in the places of both. -/
theorem exists_of_prepare {t : Template} {e : Expander}
    (h : (prepare files cloud settings).result = .ok (t, e)) :
    ∃ table, (identity cloud settings).result = .ok table ∧
      e.deployment.pseudo = Pseudo.defaults.update (table.update settings.pseudo) := by
  obtain ⟨t', _, h⟩ := Recorded.result_bind_eq_ok.mp h
  obtain ⟨table, htable, h⟩ := Recorded.result_bind_eq_ok.mp h
  obtain ⟨parameters, _, h⟩ := Recorded.result_bind_eq_ok.mp h
  obtain ⟨-, rfl⟩ := Prod.mk.inj (Except.ok.inj h)
  refine ⟨table, htable, ?_⟩
  rw [expander, Expander.pseudo_renameAll]
  rfl

/-- The identity of a run: the names in it are distinct, and it has an identifier, with all its
parts, if the cloud is asked and the stack has a name. -/
theorem identity_spec (h : (identity cloud settings).result = .ok table) :
    table.names.Nodup ∧
      if settings.fromAws = true ∧ (Cloud.given? settings.stackName).isSome = true then
        Pseudo.IdentifiesStack table
      else table.get? Pseudo.stackId = none := by
  rw [identity] at h
  split at h
  · next haws =>
    rw [Recorded.result_mapError, mapError_eq_ok] at h
    obtain ⟨caller, partition, -, -, rfl⟩ := Cloud.exists_of_fetchIdentity h
    refine ⟨Cloud.nodup_names_pseudoParameters .., ?_⟩
    cases hstack : Cloud.given? settings.stackName with
    | none =>
      rw [if_neg (by simp)]
      exact Cloud.get?_stackId_pseudoParameters hstack ..
    | some stack =>
      rw [if_pos ⟨haws, rfl⟩]
      exact Cloud.identifiesStack_pseudoParameters hstack ..
  · next haws =>
    obtain rfl := Except.ok.inj h
    have hnames : [Pseudo.stackName, Pseudo.region].Nodup := by decide
    rw [if_neg fun hgiven => haws hgiven.1]
    cases Cloud.given? settings.stackName with
    | none =>
      cases Cloud.given? settings.region with
      | none => exact ⟨List.nodup_nil, rfl⟩
      | some region => exact ⟨List.pairwise_singleton _ _, rfl⟩
    | some stack =>
      cases Cloud.given? settings.region with
      | none => exact ⟨List.pairwise_singleton _ _, rfl⟩
      | some region => exact ⟨hnames, rfl⟩

/-- **The identifier of the stack is that of its parts** in a run that is given no pseudo-parameters
if and only if the cloud is asked and the stack has a name, or no part is replaced by another
value than the made-up one.  The expander that is prepared is the one with which the template is
expanded. -/
theorem prepare_identifiesStack_iff (hpseudo : settings.pseudo = []) {t : Template} {e : Expander}
    (h : (prepare files cloud settings).result = .ok (t, e)) :
    (resolve files cloud settings).result =
        (expand e t >>= fun expanded => deliver files settings expanded.1).result ∧
      (Pseudo.IdentifiesStack e.deployment.pseudo ↔
        settings.fromAws = true ∧ (Cloud.given? settings.stackName).isSome = true ∨
          ∀ name ∈ Pseudo.identifierParts,
            e.deployment.pseudo.get? name = Pseudo.defaults.get? name) := by
  refine ⟨by rw [resolve_eq, Recorded.result_bind, h]; rfl, ?_⟩
  obtain ⟨table, htable, hupdate⟩ := exists_of_prepare h
  obtain ⟨hnodup, hidentity⟩ := identity_spec htable
  rw [hpseudo] at hupdate
  have hvalues : e.deployment.pseudo = Pseudo.defaults.update table := hupdate
  rw [hvalues]
  split at hidentity
  · next hasked => exact iff_of_true (hidentity.update hnodup _) (.inl hasked)
  · next hasked =>
    have hid : (Pseudo.defaults.update table).get? Pseudo.stackId =
        Pseudo.defaults.get? Pseudo.stackId := by
      rw [Fields.get?_update hnodup, hidentity, Option.none_or]
    rw [Pseudo.identifiesStack_iff_of_stackId hid, or_iff_right hasked]

/-- The cloud is asked for a stack in another partition and region. -/
theorem prepare_identifiesStack_of_named_stack :
    let files : Files := ⟨fun _ => .file [0x7b, 0x7d], fun _ => none⟩
    let cloud : Cloud := .ofAccount
      { identity := ⟨"111122223333", "arn:aws-cn:sts::111122223333:assumed-role/x/y"⟩
        sessionRegion := some "cn-north-1" }
    let settings : Settings :=
      { templateFile := "template.json", fromAws := true, stackName := some "orders" }
    ∃ t e, settings.pseudo = [] ∧ (prepare files cloud settings).result = .ok (t, e) ∧
      Pseudo.IdentifiesStack e.deployment.pseudo := by
  intro files cloud settings
  have hload : (load files settings.templateFile).result = .ok {} :=
    load_of_readTemplate rfl readTemplate_braces
  have h : (prepare files cloud settings).result = .ok ({}, expander settings {} []
      (Cloud.pseudoParameters "111122223333" "cn-north-1" "aws-cn" (some "orders"))) := by
    rw [prepare, Recorded.result_bind, hload]
    rfl
  exact ⟨_, _, rfl, h, (prepare_identifiesStack_iff rfl h).2.mpr (.inl ⟨rfl, rfl⟩)⟩

/-- Without the cloud a stack's name is set and leaves the made-up identifier behind. -/
theorem prepare_keeps_made_up_identifier :
    let files : Files := ⟨fun _ => .file [0x7b, 0x7d], fun _ => none⟩
    let settings : Settings := { templateFile := "template.json", stackName := some "shop" }
    ∃ t e, settings.pseudo = [] ∧ (prepare files .unreachable settings).result = .ok (t, e) ∧
      ¬ Pseudo.IdentifiesStack e.deployment.pseudo := by
  intro files settings
  have hload : (load files settings.templateFile).result = .ok {} :=
    load_of_readTemplate rfl readTemplate_braces
  let e := expander settings {} [] [(Pseudo.stackName, "shop")]
  have h : (prepare files .unreachable settings).result = .ok ({}, e) := by
    rw [prepare, Recorded.result_bind, hload]
    rfl
  have hid : e.deployment.pseudo.get? Pseudo.stackId = Pseudo.defaults.get? Pseudo.stackId := rfl
  refine ⟨_, _, rfl, h, fun hidentifies => ?_⟩
  have hname := (Pseudo.identifiesStack_iff_of_stackId hid).mp hidentifies Pseudo.stackName
    (by decide)
  exact absurd hname (by decide)

end Command.Run

end CloudTemplate

import CloudTemplate.Proofs.Expander.ListedReferences
import CloudTemplate.Proofs.Expander.Spellings
import CloudTemplate.Proofs.Value.ReferenceListing

/-!
# The two readers of an attribute

The argument of an `Fn::GetAtt` is read twice.  When the call is evaluated,
`Intrinsic.attributeTarget` tells the resource and the attribute, or it refuses the argument; when
references are listed, `Reference.attribute?` tells them from the looks of the argument.  The second
reader is less careful: it stops behind the second part of an array, and it takes a string with
nothing on one side of its first dot.  An argument is misread (`Reference.IsMisread`) in these cases
and in no others.

## Main results

* `Reference.readsAlike_iff_not_isMisread`: an `Fn::GetAtt` is listed just as it is evaluated unless
  its argument is misread.  The resource is listed right even then, provided that evaluation finds
  one, and the attribute is cut short at a dot.
-/

namespace CloudTemplate

/-- With dots between them the parts are the first one, a dot and the others. -/
theorem Text.join_dot_cons_cons (part next : Text) (rest : List Text) :
    join "." (part :: next :: rest) = part.dotted (join "." (next :: rest)) :=
  List.append_assoc part _ _

theorem Text.ne_dotted (attr more : Text) : attr ≠ attr.dotted more := by
  intro h
  have hlength := congrArg List.length h
  rw [dotted, List.length_append, List.length_cons] at hlength
  omega

namespace Reference

open Intrinsic (attributeTarget attributeTarget_list_eq_ok_iff attributeTarget_string_eq_ok_iff
  attributeTarget_dotted attribute?_of_attributeTarget getAtt)

variable {l : Location} {argument : Value}

/-! ### What is listed of a call -/

/-- What is listed of an `Fn::GetAtt` is what its argument refers to, and then what is listed in the
argument. -/
theorem collect_getAtt (l : Location) (argument : Value) :
    collect l (.call getAtt argument) =
      ((attribute? argument).map fun found => ⟨found.1, some found.2, l⟩).toList ++
        collect (l.entry getAtt) argument := by
  rw [Value.call, collect, ofEntries?_getAtt, collectEntries, collectEntries, List.append_nil]

theorem collect_of_isAtom {v : Value} (h : v.isAtom = true) (l : Location) : collect l v = [] := by
  cases v with
  | null | bool | int | double | string => rfl
  | list | map => cases h

theorem collectItems_of_isAtom {items : List Value} (h : ∀ v ∈ items, v.isAtom = true)
    (l : Location) (index : Nat) : collectItems l index items = [] := by
  induction items generalizing index with
  | nil => rfl
  | cons v rest ih =>
    obtain ⟨hv, hrest⟩ := List.forall_mem_cons.mp h
    rw [collectItems, collect_of_isAtom hv, ih hrest, List.nil_append]

/-- Nothing is listed in an argument that names an attribute. -/
theorem collect_of_attributeTarget {target : Text × Text}
    (h : attributeTarget argument = .ok target) (l : Location) : collect l argument = [] := by
  cases argument with
  | list items => exact collectItems_of_isAtom (Intrinsic.Dispatch.isAtom_of_attributeTarget h) l 0
  | null | bool | int | double | string => rfl
  | map => cases h

/-! ### The two readers -/

/-- The listing of an `Fn::GetAtt` agrees with its evaluation. -/
structure ReadsAlike (l : Location) (argument : Value) : Prop where
  /-- What evaluation asks for is listed, and nothing else. -/
  listed : ∀ target attr, attributeTarget argument = .ok (target, attr) →
    collect l (.call getAtt argument) = [⟨target, some attr, l⟩]
  /-- A call that evaluation refuses is not listed, only what its argument holds is. -/
  not_listed : ∀ fault, attributeTarget argument = .error fault →
    collect l (.call getAtt argument) = collect (l.entry getAtt) argument

/-- The argument is not what its looks say: there are further parts, or there is nothing before the
first dot or nothing behind it. -/
inductive IsMisread : Value → Prop
  | furtherParts (target attr : Text) (third : Value) (rest : List Value) :
      IsMisread (.list (.string target :: .string attr :: third :: rest))
  | noTarget (attr : Text) : IsMisread (.string (Text.dotted [] attr))
  | noAttribute (target : Text) (hdot : .char '.' ∉ target) :
      IsMisread (.string (target.dotted []))

/-- If an argument names an attribute, then its looks tell the resource, and the attribute or the
part of it before one of its dots. -/
theorem exists_attribute?_of_attributeTarget {target attr : Text}
    (h : attributeTarget argument = .ok (target, attr)) :
    ∃ listed, attribute? argument = some (target, listed) ∧
      (attr = listed ∨ ∃ more, attr = listed.dotted more) := by
  cases argument with
  | list items =>
    obtain ⟨part, rest, rfl, rfl⟩ := attributeTarget_list_eq_ok_iff.mp h
    refine ⟨part, rfl, ?_⟩
    cases rest with
    | nil => exact .inl rfl
    | cons third rest => exact .inr ⟨_, Text.join_dot_cons_cons part third rest⟩
  | string text => exact ⟨attr, attribute?_of_attributeTarget h, .inl rfl⟩
  | null | bool | int | double | map => cases h

/-- The readers differ on an argument that is misread. -/
theorem IsMisread.not_agree (h : IsMisread argument) :
    ¬ ∀ found, attribute? argument = some found ↔ attributeTarget argument = .ok found := by
  intro hagree
  cases h with
  | furtherParts target attr third rest =>
    obtain ⟨part, more, hitems, hattr⟩ :=
      attributeTarget_list_eq_ok_iff.mp ((hagree (target, attr)).mp rfl)
    obtain ⟨-, hpart, hmore⟩ : target = target ∧ attr = part ∧ third :: rest = more.map .string :=
      by simpa using hitems
    obtain ⟨next, others, rfl, -⟩ := List.map_eq_cons_iff.mp hmore.symm
    rw [hpart, Text.join_dot_cons_cons] at hattr
    exact Text.ne_dotted _ _ hattr
  | noTarget attr =>
    obtain ⟨-, -, hne, -⟩ := attributeTarget_string_eq_ok_iff.mp ((hagree ([], attr)).mp rfl)
    exact hne rfl
  | noAttribute target hdot =>
    have hread : attribute? (.string (target.dotted [])) = some (target, []) := by
      rw [attribute?, Text.dotted, Text.cut_append hdot]
    obtain ⟨-, -, -, hne⟩ := attributeTarget_string_eq_ok_iff.mp ((hagree _).mp hread)
    exact hne rfl

/-- The readers agree on every argument that is not misread. -/
theorem attribute?_eq_some_iff_attributeTarget (h : ¬ IsMisread argument) (found : Text × Text) :
    attribute? argument = some found ↔ attributeTarget argument = .ok found := by
  obtain ⟨target, attr⟩ := found
  constructor
  · intro hread
    cases attribute?_eq_some_iff.mp hread with
    | parts _ _ rest =>
      cases rest with
      | nil => rfl
      | cons third rest => exact absurd (.furtherParts _ _ _ _) h
    | dotted _ _ hdot =>
      refine attributeTarget_dotted ?_ hdot ?_ <;> rintro rfl
      · exact h (.noTarget attr)
      · exact h (.noAttribute target hdot)
  · intro htarget
    cases argument with
    | list items =>
      obtain ⟨part, rest, rfl, rfl⟩ := attributeTarget_list_eq_ok_iff.mp htarget
      cases rest with
      | nil => rfl
      | cons third rest => exact absurd (.furtherParts _ _ _ _) h
    | string text => exact attribute?_of_attributeTarget htarget
    | null | bool | int | double | map => cases htarget

/-- The listing agrees with the evaluation just if the two readers agree. -/
theorem readsAlike_iff_agree :
    ReadsAlike l argument ↔
      ∀ found, attribute? argument = some found ↔ attributeTarget argument = .ok found := by
  have hlisted := collect_getAtt l argument
  constructor
  · rintro h ⟨target, attr⟩
    cases htarget : attributeTarget argument with
    | error fault =>
      rw [h.not_listed fault htarget, List.self_eq_append_left, Option.toList_eq_nil_iff,
        Option.map_eq_none_iff] at hlisted
      simp [hlisted]
    | ok found =>
      obtain ⟨listed, hread, -⟩ := exists_attribute?_of_attributeTarget htarget
      rw [h.listed _ _ htarget, collect_of_attributeTarget htarget, hread] at hlisted
      obtain rfl : found.2 = listed := by simpa using hlisted
      rw [hread, Option.some_inj, Except.ok.injEq]
  · intro h
    constructor
    · intro target attr htarget
      rw [hlisted, collect_of_attributeTarget htarget, (h _).mpr htarget]
      rfl
    · intro fault herror
      have hread : attribute? argument = none :=
        Option.eq_none_iff_forall_ne_some.mpr fun found hfound => by
          rw [(h found).mp hfound] at herror
          cases herror
      rw [hlisted, hread]
      rfl

/-! ### Which calls are listed as they are evaluated -/

/-- **Listing and evaluation read alike** unless the argument is misread.  Even then the resource is
the right one if evaluation finds one, and what is listed of the attribute is all of it or what
stands before one of its dots. -/
theorem readsAlike_iff_not_isMisread (l : Location) (argument : Value) :
    (ReadsAlike l argument ↔ ¬ IsMisread argument) ∧
      ∀ target attr, attributeTarget argument = .ok (target, attr) →
        ∃ listed, collect l (.call getAtt argument) = [⟨target, some listed, l⟩] ∧
          (attr = listed ∨ ∃ more, attr = listed.dotted more) := by
  refine ⟨readsAlike_iff_agree.trans ⟨?_, attribute?_eq_some_iff_attributeTarget⟩, ?_⟩
  · exact fun hagree hmisread => hmisread.not_agree hagree
  · intro target attr htarget
    obtain ⟨listed, hread, hattr⟩ := exists_attribute?_of_attributeTarget htarget
    refine ⟨listed, ?_, hattr⟩
    rw [collect_getAtt, collect_of_attributeTarget htarget, hread]
    rfl

/-- An output of a nested template is listed as the output that is called "Outputs". -/
theorem readsAlike_iff_not_isMisread_of_nested_output :
    attributeTarget (.ofStrings ["Nested", "Outputs", "Url"]) = .ok ("Nested", "Outputs.Url") ∧
      ∃ listed, collect .root (.call getAtt (.ofStrings ["Nested", "Outputs", "Url"])) =
          [⟨"Nested", some listed, .root⟩] ∧
        ("Outputs.Url" = listed ∨ ∃ more, ("Outputs.Url" : Text) = listed.dotted more) :=
  have htarget : attributeTarget (.ofStrings ["Nested", "Outputs", "Url"]) =
      .ok ("Nested", "Outputs.Url") := by decide
  ⟨htarget, (readsAlike_iff_not_isMisread .root _).2 _ _ htarget⟩

/-- Three arguments that are misread: of three parts the last is lost, and a text without a resource
or without an attribute is listed although evaluation refuses it. -/
theorem not_readsAlike_of_misread_arguments :
    ¬ ReadsAlike .root (.ofStrings ["Nested", "Outputs", "Url"]) ∧
      ¬ ReadsAlike .root (.string ".Arn") ∧ ¬ ReadsAlike .root (.string "Queue.") := by
  have hparts : attributeTarget (.ofStrings ["Nested", "Outputs", "Url"]) =
      .ok ("Nested", "Outputs.Url") := by decide
  have hbefore : attributeTarget (.string ".Arn") = .error (.attributeText ".Arn") := by decide
  have hbehind : attributeTarget (.string "Queue.") = .error (.attributeText "Queue.") := by decide
  refine ⟨fun h => absurd (h.listed _ _ hparts) (by decide), fun h => ?_, fun h => ?_⟩
  · exact absurd (h.not_listed _ hbefore) (by decide)
  · exact absurd (h.not_listed _ hbehind) (by decide)

end Reference

end CloudTemplate

import Mathlib.Data.List.Forall2
import CloudTemplate.Reference
import CloudTemplate.Proofs.Value.Nodes
import CloudTemplate.Proofs.Value.Positions

/-!
# Which references are listed, and in which order

A node of a value has an address: the number of the child to go to, at every step from the root.
The children of a map are the values of its entries, those of a list its items.  The dictionary
order of addresses is the order of the document, since a node comes before its contents and these
come one child after the other.

`Reference.collect` lists what it meets while it goes through a value.  Compared with addresses it
misses nothing and repeats nothing: the references that are listed stand one by one for the
addresses at which there is a node that refers to something.

## Main results

* `Reference.collect_lists_addresses`: the references that are listed are those at the addresses of
  referring nodes, in the order of the document, each with the location of its node.
-/

namespace CloudTemplate

namespace Value

open Location (Step)

/-! ### Children and addresses -/

/-- The values directly below a value, each with the step that leads to it. -/
def children : Value → List (Step × Value)
  | .list items => items.mapIdx fun index v => (.item index, v)
  | .map entries => entries.map fun entry => (.entry entry.1, entry.2)
  | _ => []

/-- The node at an address, and the steps that lead to it. -/
def at? (v : Value) : List Nat → Option (List Step × Value)
  | [] => some ([], v)
  | k :: rest => do
    let (step, child) ← v.children[k]?
    let (steps, node) ← child.at? rest
    return (step :: steps, node)

theorem at?_cons_eq_some_iff {v node : Value} {k : Nat} {rest : List Nat} {steps : List Step} :
    v.at? (k :: rest) = some (steps, node) ↔
      ∃ step child others, v.children[k]? = some (step, child) ∧
        child.at? rest = some (others, node) ∧ steps = step :: others := by
  rw [at?]
  constructor
  · intro h
    obtain ⟨⟨step, child⟩, hchild, h⟩ := Option.bind_eq_some_iff.mp h
    obtain ⟨⟨others, found⟩, hrest, h⟩ := Option.bind_eq_some_iff.mp h
    obtain ⟨rfl, rfl⟩ := Prod.mk.inj (Option.some.inj h)
    exact ⟨step, child, others, hchild, hrest, rfl⟩
  · rintro ⟨step, child, others, hchild, hrest, rfl⟩
    exact Option.bind_eq_some_iff.mpr
      ⟨_, hchild, Option.bind_eq_some_iff.mpr ⟨_, hrest, rfl⟩⟩

theorem size_lt_of_mem_children {v : Value} {child : Step × Value} (h : child ∈ v.children) :
    child.2.size < v.size := by
  cases v with
  | list items =>
    obtain ⟨k, hk, rfl⟩ := List.mem_mapIdx.mp h
    exact size_lt_of_mem_items (List.getElem_mem hk)
  | map entries =>
    obtain ⟨entry, hentry, rfl⟩ := List.mem_map.mp h
    exact size_lt_of_mem_entries hentry
  | null | bool | int | double | string => cases h

/-- **Induction on values**, from the children of a value to the value. -/
@[elab_as_elim]
theorem children_induction {P : Value → Prop}
    (step : ∀ v, (∀ child ∈ v.children, P child.2) → P v) (v : Value) : P v := by
  induction hsize : v.size using Nat.strongRecOn generalizing v with
  | ind n ih =>
    subst hsize
    exact step v fun child hchild => ih _ (size_lt_of_mem_children hchild) child.2 rfl

/-! ### Nodes that refer to something -/

/-- The value is a reference to a target, or to an attribute of it. -/
inductive RefersTo : Value → Text → Option Text → Prop
  | ref (target : Text) : RefersTo (.call Intrinsic.ref (.string target)) target none
  | parts (target attr : Text) (rest : List Value) :
      RefersTo (.call Intrinsic.getAtt (.list (.string target :: .string attr :: rest)))
        target (some attr)
  | dotted (target attr : Text) (h : .char '.' ∉ target) :
      RefersTo (.call Intrinsic.getAtt (.string (target ++ .char '.' :: attr))) target (some attr)

/-- There is a node at the address that refers to something. -/
def RefersAt (v : Value) (address : List Nat) : Prop :=
  ∃ steps node target attr, v.at? address = some (steps, node) ∧ node.RefersTo target attr

end Value

namespace Reference

open Location (Step)
open Value (RefersTo)

/-- The reference is what the node at the address refers to, and it has the location of the node in
a value that stands at `l`. -/
def StandsFor (l : Location) (v : Value) (address : List Nat) (r : Reference) : Prop :=
  ∃ steps node, v.at? address = some (steps, node) ∧ node.RefersTo r.target r.attr ∧
    r.location = l.along steps

/-! ### One node -/

/-- The reference that a node makes up. -/
def here? (l : Location) : Value → Option Reference
  | .map entries => ofEntries? l entries
  | _ => none

theorem attribute?_eq_some_iff {argument : Value} {target attr : Text} :
    attribute? argument = some (target, attr) ↔
      (Value.call Intrinsic.getAtt argument).RefersTo target (some attr) := by
  constructor
  · intro h
    unfold attribute? at h
    split at h
    · obtain ⟨rfl, rfl⟩ := Prod.mk.inj (Option.some.inj h)
      exact .parts _ _ _
    · next text =>
      split at h
      · next name rest hcut =>
        obtain ⟨rfl, rfl⟩ := Prod.mk.inj (Option.some.inj h)
        have hdot := Text.separator_not_mem_before (.char '.') text
        rw [Text.before, hcut] at hdot
        exact Text.append_of_cut hcut ▸ .dotted _ _ hdot
      · cases h
    · cases h
  · intro h
    cases h with
    | parts => rfl
    | dotted _ _ hdot => rw [attribute?, Text.cut_append hdot]

theorem here?_eq_some_iff {l : Location} {v : Value} {r : Reference} :
    here? l v = some r ↔ v.RefersTo r.target r.attr ∧ r.location = l := by
  constructor
  · intro h
    unfold here? at h
    split at h
    · next entries =>
      unfold ofEntries? at h
      split at h
      · next name argument =>
        split at h
        · next hname =>
          obtain rfl := hname
          obtain ⟨target, htarget, rfl⟩ := Option.map_eq_some_iff.mp h
          cases argument with
          | string s =>
            obtain rfl := Option.some.inj htarget
            exact ⟨.ref s, rfl⟩
          | null | bool | int | double | list | map => cases htarget
        · split at h
          · next hname =>
            obtain rfl := hname
            obtain ⟨⟨target, attr⟩, htarget, rfl⟩ := Option.map_eq_some_iff.mp h
            exact ⟨attribute?_eq_some_iff.mp htarget, rfl⟩
          · cases h
      · cases h
    · cases h
  · obtain ⟨target, attr, location⟩ := r
    rintro ⟨h, rfl⟩
    dsimp only at h
    cases attr with
    | none =>
      cases h
      rfl
    | some attr =>
      obtain ⟨argument, rfl⟩ : ∃ argument, v = .call Intrinsic.getAtt argument := by
        cases h <;> exact ⟨_, rfl⟩
      have hread : here? location (.call Intrinsic.getAtt argument) =
          (attribute? argument).map fun found => ⟨found.1, some found.2, location⟩ := rfl
      rw [hread, attribute?_eq_some_iff.mpr h, Option.map_some]

/-! ### The children of a node -/

theorem collectItems_eq_flatMap (l : Location) (index : Nat) (items : List Value) :
    collectItems l index items =
      (items.mapIdx fun k v => (Step.item (index + k), v)).flatMap fun child =>
        collect (l.step child.1) child.2 := by
  induction items generalizing index with
  | nil => rfl
  | cons v rest ih =>
    rw [collectItems, ih, List.mapIdx_cons, List.flatMap_cons]
    simp only [Nat.add_assoc, Nat.add_comm 1]
    rfl

theorem collectEntries_eq_flatMap (l : Location) (entries : List (Text × Value)) :
    collectEntries l entries =
      (entries.map fun entry => (Step.entry entry.1, entry.2)).flatMap fun child =>
        collect (l.step child.1) child.2 := by
  induction entries with
  | nil => rfl
  | cons entry rest ih => rw [collectEntries, ih, List.map_cons, List.flatMap_cons]; rfl

/-- The references in a value are the one that it makes up itself, and then those in its
children. -/
theorem collect_eq (l : Location) (v : Value) :
    collect l v =
      (here? l v).toList ++ v.children.flatMap fun child => collect (l.step child.1) child.2 := by
  cases v with
  | list items =>
    rw [collect, collectItems_eq_flatMap]
    simp only [Nat.zero_add]
    rfl
  | map entries => rw [collect, collectEntries_eq_flatMap]; rfl
  | null | bool | int | double | string => rfl

/-! ### Addresses of the references -/

/-- The addresses are those of the nodes of a value that refer to something, in increasing order,
and the references that are listed in the value stand for them. -/
structure IsListing (l : Location) (v : Value) (addresses : List (List Nat)) : Prop where
  increasing : addresses.Pairwise (· < ·)
  mem_iff (address : List Nat) : address ∈ addresses ↔ v.RefersAt address
  standsFor : List.Forall₂ (StandsFor l v) addresses (collect l v)

/-- The addresses inside several values, each behind the number of its value. -/
def numbered (index : Nat) : List (List (List Nat)) → List (List Nat)
  | [] => []
  | addresses :: rest => addresses.map (index :: ·) ++ numbered (index + 1) rest

theorem mem_numbered {address : List Nat} {parts : List (List (List Nat))} {index : Nat} :
    address ∈ numbered index parts ↔
      ∃ k addresses rest, parts[k]? = some addresses ∧ rest ∈ addresses ∧
        address = (index + k) :: rest := by
  induction parts generalizing index with
  | nil => simp [numbered]
  | cons addresses others ih =>
    rw [numbered, List.mem_append, List.mem_map, ih]
    constructor
    · rintro (⟨rest, hrest, rfl⟩ | ⟨k, found, rest, hk, hrest, rfl⟩)
      · exact ⟨0, addresses, rest, rfl, hrest, rfl⟩
      · exact ⟨k + 1, found, rest, hk, hrest, by rw [Nat.add_assoc, Nat.add_comm 1]⟩
    · rintro ⟨k, found, rest, hk, hrest, rfl⟩
      cases k with
      | zero =>
        obtain rfl := Option.some.inj hk
        exact .inl ⟨rest, hrest, rfl⟩
      | succ k => exact .inr ⟨k, found, rest, hk, hrest, by rw [Nat.add_assoc, Nat.add_comm 1]⟩

theorem pairwise_numbered {parts : List (List (List Nat))}
    (h : ∀ addresses ∈ parts, addresses.Pairwise (· < ·)) (index : Nat) :
    (numbered index parts).Pairwise (· < ·) := by
  induction parts generalizing index with
  | nil => exact .nil
  | cons addresses others ih =>
    obtain ⟨hfirst, hothers⟩ := List.forall_mem_cons.mp h
    refine List.pairwise_append.mpr ⟨?_, ih hothers (index + 1), fun a ha b hb => ?_⟩
    · exact hfirst.map _ fun _ _ hlt => List.cons_lt_cons_iff.mpr (.inr ⟨rfl, hlt⟩)
    · obtain ⟨rest, -, rfl⟩ := List.mem_map.mp ha
      obtain ⟨k, _, rest', -, -, rfl⟩ := mem_numbered.mp hb
      exact List.cons_lt_cons_iff.mpr (.inl (by omega))

/-- What is listed part by part stands for the numbered addresses if it does in each part. -/
theorem forall₂_numbered {α : Type} {R : List Nat → Reference → Prop} {parts : List α}
    {addresses : α → List (List Nat)} {listed : α → List Reference} {index : Nat}
    (h : ∀ k part, parts[k]? = some part →
      List.Forall₂ (fun rest r => R ((index + k) :: rest) r) (addresses part) (listed part)) :
    List.Forall₂ R (numbered index (parts.map addresses)) (parts.flatMap listed) := by
  induction parts generalizing index with
  | nil => exact .nil
  | cons part others ih =>
    rw [List.map_cons, numbered, List.flatMap_cons]
    refine List.rel_append ?_ (ih fun k other hother => ?_)
    · exact List.forall₂_map_left_iff.mpr (h 0 part rfl)
    · rw [Nat.add_assoc, Nat.add_comm 1]
      exact h (k + 1) other hother

/-- The address of a node inside a child begins with the number of the child. -/
theorem refersAt_cons_iff {v : Value} {k : Nat} {rest : List Nat} :
    v.RefersAt (k :: rest) ↔ ∃ child, v.children[k]? = some child ∧ child.2.RefersAt rest := by
  constructor
  · rintro ⟨steps, node, target, attr, hat, href⟩
    obtain ⟨step, child, others, hchild, hrest, rfl⟩ := Value.at?_cons_eq_some_iff.mp hat
    exact ⟨_, hchild, others, node, target, attr, hrest, href⟩
  · rintro ⟨child, hchild, others, node, target, attr, hrest, href⟩
    exact ⟨_, node, target, attr,
      Value.at?_cons_eq_some_iff.mpr ⟨child.1, child.2, others, hchild, hrest, rfl⟩, href⟩

theorem refersAt_nil_iff (l : Location) {v : Value} :
    v.RefersAt [] ↔ (here? l v).isSome = true := by
  rw [Option.isSome_iff_exists]
  constructor
  · rintro ⟨_, node, target, attr, hat, href⟩
    obtain ⟨rfl, rfl⟩ := Prod.mk.inj (Option.some.inj hat)
    exact ⟨⟨target, attr, l⟩, here?_eq_some_iff.mpr ⟨href, rfl⟩⟩
  · rintro ⟨r, hr⟩
    exact ⟨[], v, r.target, r.attr, rfl, (here?_eq_some_iff.mp hr).1⟩

/-- The address of the value itself if it refers to something. -/
def ownAddress (l : Location) (v : Value) : List (List Nat) :=
  (here? l v).toList.map fun _ => []

theorem mem_ownAddress {l : Location} {v : Value} {address : List Nat} :
    address ∈ ownAddress l v ↔ address = [] ∧ v.RefersAt [] := by
  rw [ownAddress, refersAt_nil_iff l]
  cases here? l v <;> simp

theorem forall₂_ownAddress (l : Location) (v : Value) :
    List.Forall₂ (StandsFor l v) (ownAddress l v) (here? l v).toList := by
  refine List.forall₂_map_left_iff.mpr (List.forall₂_same.mpr fun r hr => ?_)
  obtain ⟨href, hlocation⟩ := here?_eq_some_iff.mp (Option.mem_toList.mp hr)
  exact ⟨[], v, rfl, href, hlocation⟩

/-- The own address of a value comes first, and the addresses in its children follow, numbered. -/
theorem IsListing.of_children {l : Location} {v : Value} {parts : Step × Value → List (List Nat)}
    (h : ∀ child ∈ v.children, IsListing (l.step child.1) child.2 (parts child)) :
    IsListing l v (ownAddress l v ++ numbered 0 (v.children.map parts)) where
  increasing := by
    refine List.pairwise_append.mpr ⟨?_, pairwise_numbered ?_ 0, fun a ha b hb => ?_⟩
    · rw [ownAddress]
      cases here? l v <;> simp
    · intro addresses haddresses
      obtain ⟨child, hchild, rfl⟩ := List.mem_map.mp haddresses
      exact (h child hchild).increasing
    · obtain ⟨k, _, rest, -, -, rfl⟩ := mem_numbered.mp hb
      rw [(mem_ownAddress.mp ha).1]
      exact List.nil_lt_cons _ _
  mem_iff address := by
    rw [List.mem_append, mem_ownAddress, mem_numbered]
    cases address with
    | nil => simp
    | cons k rest =>
      rw [refersAt_cons_iff]
      constructor
      · rintro (⟨hnil, -⟩ | ⟨k, addresses, rest, hk, hrest, heq⟩)
        · cases hnil
        · obtain ⟨rfl, rfl⟩ := List.cons.inj heq
          rw [List.getElem?_map] at hk
          obtain ⟨child, hchild, rfl⟩ := Option.map_eq_some_iff.mp hk
          rw [Nat.zero_add]
          exact ⟨child, hchild, ((h child (List.mem_of_getElem? hchild)).mem_iff rest).mp hrest⟩
      · rintro ⟨child, hchild, href⟩
        refine .inr ⟨k, parts child, rest, ?_, ?_, by rw [Nat.zero_add]⟩
        · rw [List.getElem?_map, hchild, Option.map_some]
        · exact ((h child (List.mem_of_getElem? hchild)).mem_iff rest).mpr href
  standsFor := by
    rw [collect_eq]
    refine List.rel_append (forall₂_ownAddress l v) (forall₂_numbered fun k child hchild => ?_)
    refine (h child (List.mem_of_getElem? hchild)).standsFor.imp fun rest r hr => ?_
    obtain ⟨steps, node, hat, href, hlocation⟩ := hr
    rw [Nat.zero_add]
    exact ⟨child.1 :: steps, node,
      Value.at?_cons_eq_some_iff.mpr ⟨child.1, child.2, steps, hchild, hat, rfl⟩, href, hlocation⟩

theorem exists_isListing (l : Location) (v : Value) : ∃ addresses, IsListing l v addresses := by
  induction v using Value.children_induction generalizing l with
  | step v ih =>
    choose! parts hparts using fun child hchild => ih child hchild (l.step child.1)
    exact ⟨_, .of_children hparts⟩

/-- **Every reference is listed once, in the order of the document.**  The references that are
listed in a value stand one by one for the addresses at which the value has a node that refers to
something: a map whose only entry is a `Ref` with a string, or an `Fn::GetAtt` with an array that
begins with two strings or with a string that holds a dot.  These addresses come in dictionary
order, each of them once.  What is listed for an address has the target and the attribute of its
node, and its location is that of the value, extended by the names and indices on the way. -/
theorem collect_lists_addresses (l : Location) (v : Value) :
    ∃ addresses : List (List Nat), addresses.Pairwise (· < ·) ∧
      (∀ address, address ∈ addresses ↔ ∃ steps node target attr,
        v.at? address = some (steps, node) ∧ node.RefersTo target attr) ∧
      List.Forall₂ (fun address r => ∃ steps node,
        v.at? address = some (steps, node) ∧ node.RefersTo r.target r.attr ∧
          r.location = l.along steps) addresses (collect l v) := by
  obtain ⟨addresses, h⟩ := exists_isListing l v
  exact ⟨addresses, h.increasing, h.mem_iff, h.standsFor⟩

/-- A reference stands inside the array of another one, which holds more than it needs. -/
example :
    let inner : Value := .call Intrinsic.ref (.string "Stage")
    let v : Value := .map
      [("A", .list [.null, .call Intrinsic.getAtt (.list [.string "Db", .string "Port", inner])]),
        ("B", .call Intrinsic.getAtt (.string "Q.Arn"))]
    collect ⟨"X"⟩ v =
      [⟨"Db", some "Port", ⟨"X.A[1]"⟩⟩, ⟨"Stage", none, ⟨"X.A[1].Fn::GetAtt[2]"⟩⟩,
        ⟨"Q", some "Arn", ⟨"X.B"⟩⟩] := by
  decide +kernel

end Reference

end CloudTemplate

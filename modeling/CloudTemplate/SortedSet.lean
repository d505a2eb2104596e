/-!
# Finite sets as increasing lists

A finite set over a linearly ordered type is kept as its strictly increasing list of members, so
equal sets are equal values and every listing comes out sorted.

`SortedSet.mem_insert`, `SortedSet.mem_union` and `SortedSet.mem_ofList` say which members the
operations give.
-/

namespace CloudTemplate

/-- A finite set, as the strictly increasing list of its members. -/
@[ext]
structure SortedSet (α : Type) [LT α] where
  toList : List α
  increasing : toList.Pairwise (· < ·)

namespace SortedSet

variable {α : Type} [LT α]

instance : Membership α (SortedSet α) := ⟨fun s a => a ∈ s.toList⟩

theorem mem_def {s : SortedSet α} {a : α} : a ∈ s ↔ a ∈ s.toList := Iff.rfl

instance [DecidableEq α] (a : α) (s : SortedSet α) : Decidable (a ∈ s) :=
  inferInstanceAs (Decidable (a ∈ s.toList))

/-- The set without members. -/
def empty : SortedSet α := ⟨[], .nil⟩

instance : Inhabited (SortedSet α) := ⟨empty⟩

/-- The number of members. -/
def size (s : SortedSet α) : Nat := s.toList.length

variable [DecidableEq α] [DecidableLT α]

/-- Put a member into an increasing list, unless it is there. -/
def insertInto (a : α) : List α → List α
  | [] => [a]
  | b :: rest =>
    if a < b then a :: b :: rest
    else if a = b then b :: rest
    else b :: insertInto a rest

/-- Put `a` and what `k` gives for the rest of an increasing list in front of the members that are
greater; `k` is how the list behind `a` is merged. -/
def mergeHead (a : α) (k : List α → List α) : List α → List α
  | [] => a :: k []
  | b :: m =>
    if a < b then a :: k (b :: m)
    else if a = b then a :: k m
    else b :: mergeHead a k m

/-- Two increasing lists in one; what both have is taken once. -/
def merge : List α → List α → List α
  | [], m => m
  | a :: l, m => mergeHead a (merge l) m

theorem mem_insertInto {a x : α} {l : List α} : x ∈ insertInto a l ↔ x = a ∨ x ∈ l := by
  induction l with
  | nil => simp [insertInto]
  | cons b rest ih =>
    unfold insertInto
    split
    · simp
    · split
      · next h => subst h; simp
      · simp only [List.mem_cons, ih]
        constructor
        · rintro (h | h | h) <;> simp [h]
        · rintro (h | h | h) <;> simp [h]

variable [Trans (α := α) (· < ·) (· < ·) (· < ·)] [Std.Trichotomous (α := α) (· < ·)]

omit [DecidableEq α] [DecidableLT α] [Trans (α := α) (· < ·) (· < ·) (· < ·)] in
theorem lt_of_not_lt_of_ne {a b : α} (hlt : ¬ a < b) (hne : a ≠ b) : b < a :=
  ((Std.lt_trichotomy a b).resolve_left hlt).resolve_left hne

theorem pairwise_insertInto (a : α) {l : List α} (h : l.Pairwise (· < ·)) :
    (insertInto a l).Pairwise (· < ·) := by
  induction l with
  | nil => simp [insertInto]
  | cons b rest ih =>
    obtain ⟨hb, hr⟩ := List.pairwise_cons.mp h
    unfold insertInto
    split
    · next hab =>
      refine List.pairwise_cons.mpr ⟨fun x hx => ?_, h⟩
      rcases List.mem_cons.mp hx with rfl | hx
      · exact hab
      · exact Std.lt_trans hab (hb x hx)
    · split
      · exact h
      · next hab hne =>
        refine List.pairwise_cons.mpr ⟨fun x hx => ?_, ih hr⟩
        rcases mem_insertInto.mp hx with rfl | hx
        · exact lt_of_not_lt_of_ne hab hne
        · exact hb x hx

/-- The set with one more member. -/
def insert (s : SortedSet α) (a : α) : SortedSet α :=
  ⟨insertInto a s.toList, pairwise_insertInto a s.increasing⟩

omit [Std.Trichotomous (α := α) (· < ·)] [Trans (α := α) (· < ·) (· < ·) (· < ·)] in
theorem mem_mergeHead {a x : α} {k : List α → List α} {l : List α}
    (hk : ∀ m, x ∈ k m ↔ x ∈ l ∨ x ∈ m) (m : List α) :
    x ∈ mergeHead a k m ↔ x ∈ a :: l ∨ x ∈ m := by
  induction m with
  | nil => simp [mergeHead, hk]
  | cons b m ih =>
    unfold mergeHead
    split
    · simp [hk, or_assoc]
    · split
      · next h => subst h; simp [hk]; grind
      · simp only [List.mem_cons, ih]; grind

omit [Std.Trichotomous (α := α) (· < ·)] [Trans (α := α) (· < ·) (· < ·) (· < ·)] in
theorem mem_merge {x : α} (l m : List α) : x ∈ merge l m ↔ x ∈ l ∨ x ∈ m := by
  induction l generalizing m with
  | nil => simp [merge]
  | cons a l ih => exact mem_mergeHead ih m

omit [Std.Trichotomous (α := α) (· < ·)] [Trans (α := α) (· < ·) (· < ·) (· < ·)] in
theorem merge_nil (l : List α) : merge l [] = l := by
  induction l with
  | nil => rfl
  | cons a l ih => rw [merge, mergeHead, ih]

theorem pairwise_merge {l m : List α} (hl : l.Pairwise (· < ·)) (hm : m.Pairwise (· < ·)) :
    (merge l m).Pairwise (· < ·) := by
  induction l generalizing m with
  | nil => exact hm
  | cons a l ih =>
    obtain ⟨ha, hl⟩ := List.pairwise_cons.mp hl
    unfold merge
    induction m with
    | nil =>
      refine List.pairwise_cons.mpr ⟨fun x hx => ?_, ih hl .nil⟩
      rcases (mem_merge l []).mp hx with hx | hx
      · exact ha x hx
      · exact absurd hx List.not_mem_nil
    | cons b m ihm =>
      obtain ⟨hb, hm'⟩ := List.pairwise_cons.mp hm
      unfold mergeHead
      split
      · next hab =>
        refine List.pairwise_cons.mpr ⟨fun x hx => ?_, ih hl hm⟩
        rcases (mem_merge l (b :: m)).mp hx with hx | hx
        · exact ha x hx
        · rcases List.mem_cons.mp hx with rfl | hx
          · exact hab
          · exact Std.lt_trans hab (hb x hx)
      · split
        · next h =>
          subst h
          refine List.pairwise_cons.mpr ⟨fun x hx => ?_, ih hl hm'⟩
          rcases (mem_merge l m).mp hx with hx | hx
          · exact ha x hx
          · exact hb x hx
        · next hab hne =>
          have hba : b < a := lt_of_not_lt_of_ne hab hne
          refine List.pairwise_cons.mpr ⟨fun x hx => ?_, ihm hm'⟩
          rcases (mem_mergeHead (mem_merge l) m).mp hx with hx | hx
          · rcases List.mem_cons.mp hx with rfl | hx
            · exact hba
            · exact Std.lt_trans hba (ha x hx)
          · exact hb x hx

/-- The members of either set. -/
def union (s t : SortedSet α) : SortedSet α :=
  ⟨merge s.toList t.toList, pairwise_merge s.increasing t.increasing⟩

/-- The members of a list: those of its first half and those of the other half. -/
def ofList (members : List α) : SortedSet α :=
  match members with
  | [] => empty
  | [a] => empty.insert a
  | a :: b :: rest =>
    let half := (a :: b :: rest).length / 2
    (ofList ((a :: b :: rest).take half)).union (ofList ((a :: b :: rest).drop half))
termination_by members.length
decreasing_by
  · simp only [List.length_take, List.length_cons]; omega
  · simp only [List.length_drop, List.length_cons]; omega

/-- The set with the members of a list added. -/
def insertAll (s : SortedSet α) (members : List α) : SortedSet α :=
  s.union (ofList members)

@[simp]
theorem mem_insert {s : SortedSet α} {a x : α} : x ∈ s.insert a ↔ x = a ∨ x ∈ s :=
  mem_insertInto

@[simp]
theorem mem_union {s t : SortedSet α} {x : α} : x ∈ s.union t ↔ x ∈ s ∨ x ∈ t :=
  mem_merge s.toList t.toList

@[simp]
theorem mem_ofList {members : List α} {x : α} : x ∈ ofList members ↔ x ∈ members := by
  fun_induction ofList members with
  | case1 => simp [mem_def, empty]
  | case2 a => simp [mem_def, empty, insert, insertInto]
  | case3 a b rest half ihl ihr =>
    rw [mem_union, ihl, ihr, ← List.mem_append, List.take_append_drop]

@[simp]
theorem mem_insertAll {s : SortedSet α} {members : List α} {x : α} :
    x ∈ s.insertAll members ↔ x ∈ s ∨ x ∈ members := by
  rw [insertAll, mem_union, mem_ofList]

/-- Adding nothing changes nothing. -/
@[simp]
theorem insertAll_nil (s : SortedSet α) : s.insertAll [] = s := by
  rw [insertAll, ofList, union, empty]
  exact SortedSet.ext (merge_nil s.toList)

end SortedSet

end CloudTemplate

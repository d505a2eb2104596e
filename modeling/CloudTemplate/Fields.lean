import CloudTemplate.Text

/-!
# Tables in writing order

A table from names to values keeps its entries in the order in which their names were first
written.  Setting a name that is already there replaces its value in place; a new name goes to the
end.  This is the order in which documents are read and written back.

`Fields.get?_set_self` and `Fields.get?_set_of_ne` say what a look-up sees after a write, and
`Fields.nodup_names_set` that a table in which all names are distinct stays one.
-/

namespace CloudTemplate

/-- A table from names to values of type `α`, in writing order. -/
abbrev Fields (α : Type) := List (Text × α)

namespace Fields

variable {α β : Type}

/-- The value of the first entry called `name`. -/
def get? : Fields α → Text → Option α
  | [], _ => none
  | (key, a) :: rest, name => if key = name then some a else get? rest name

/-- Whether some entry is called `name`. -/
def has (t : Fields α) (name : Text) : Bool :=
  (t.get? name).isSome

/-- Give `name` the value `a`: in place if the name is there, at the end otherwise. -/
def set : Fields α → Text → α → Fields α
  | [], name, a => [(name, a)]
  | (key, b) :: rest, name, a =>
    if key = name then (name, a) :: rest else (key, b) :: set rest name a

/-- Set every entry of `changes` in turn. -/
def update (t changes : Fields α) : Fields α :=
  changes.foldl (fun t entry => t.set entry.1 entry.2) t

/-- The table that the entries describe when written one after the other. -/
def ofList (entries : List (Text × α)) : Fields α :=
  update [] entries

/-- The names of the entries, in order. -/
def names (t : Fields α) : List Text :=
  t.map Prod.fst

/-- The values of the entries, in order. -/
def values (t : Fields α) : List α :=
  t.map Prod.snd

@[simp]
theorem get?_nil (name : Text) : get? ([] : Fields α) name = none := rfl

theorem get?_cons (key : Text) (a : α) (rest : Fields α) (name : Text) :
    get? ((key, a) :: rest) name = if key = name then some a else get? rest name := rfl

/-- A write is seen under its name. -/
@[simp]
theorem get?_set_self (t : Fields α) (name : Text) (a : α) :
    (t.set name a).get? name = some a := by
  induction t with
  | nil => simp [set, get?]
  | cons entry rest ih =>
    obtain ⟨key, b⟩ := entry
    by_cases h : key = name <;> simp [set, get?, h, ih]

/-- A write is seen under no other name. -/
theorem get?_set_of_ne (t : Fields α) {name other : Text} (a : α) (h : other ≠ name) :
    (t.set name a).get? other = t.get? other := by
  induction t with
  | nil => simp [set, get?, h.symm]
  | cons entry rest ih =>
    obtain ⟨key, b⟩ := entry
    by_cases hk : key = name
    · subst hk
      simp [set, get?, h.symm]
    · simp [set, get?, hk, ih]

/-- A new name takes nothing away. -/
theorem get?_set_of_get?_eq_none {t : Fields α} {name other : Text} {a b : α}
    (h : t.get? name = none) (hother : t.get? other = some b) :
    (t.set name a).get? other = some b := by
  have hne : other ≠ name := by
    rintro rfl
    rw [h] at hother
    nomatch hother
  rw [get?_set_of_ne t a hne, hother]

/-- A write adds its own entry at most. -/
theorem mem_set {t : Fields α} {name : Text} {a : α} {entry : Text × α}
    (h : entry ∈ t.set name a) : entry = (name, a) ∨ entry ∈ t := by
  induction t with
  | nil => exact .inl (List.mem_singleton.mp h)
  | cons first rest ih =>
    rw [set] at h
    split at h
    · exact (List.mem_cons.mp h).imp_right (List.mem_cons_of_mem _)
    · rcases List.mem_cons.mp h with rfl | h
      · exact .inr List.mem_cons_self
      · exact (ih h).imp_right (List.mem_cons_of_mem _)

/-- The names after a write are those from before and the one that is written. -/
theorem mem_names_set {t : Fields α} {name other : Text} {a : α} :
    other ∈ (t.set name a).names ↔ other = name ∨ other ∈ t.names := by
  induction t with
  | nil => simp [set, names]
  | cons entry rest ih =>
    obtain ⟨key, b⟩ := entry
    rw [names, names] at ih
    by_cases h : key = name
    · simp [set, names, h]
    · simp [set, names, h, ih, or_left_comm]

/-- Writes add no entries but their own. -/
theorem mem_update {t changes : Fields α} {entry : Text × α} (h : entry ∈ t.update changes) :
    entry ∈ t ∨ entry ∈ changes := by
  induction changes generalizing t with
  | nil => exact .inl h
  | cons change rest ih =>
    rcases ih h with hset | hrest
    · rcases mem_set hset with rfl | hmem
      · exact .inr List.mem_cons_self
      · exact .inl hmem
    · exact .inr (List.mem_cons_of_mem _ hrest)

/-- The names after some writes are those from before and those that are written. -/
theorem mem_names_update {t changes : Fields α} {name : Text} :
    name ∈ (t.update changes).names ↔ name ∈ t.names ∨ name ∈ changes.names := by
  induction changes generalizing t with
  | nil => simp [update, names]
  | cons change rest ih =>
    have hstep : t.update (change :: rest) = (t.set change.1 change.2).update rest := rfl
    have hnames : Fields.names (change :: rest) = change.1 :: Fields.names rest := rfl
    rw [hstep, ih, mem_names_set, hnames, List.mem_cons, or_assoc, or_left_comm]

/-- What is seen is an entry of the table. -/
theorem mem_of_get? {t : Fields α} {name : Text} {a : α} (h : t.get? name = some a) :
    (name, a) ∈ t := by
  induction t with
  | nil => nomatch h
  | cons entry rest ih =>
    obtain ⟨key, b⟩ := entry
    rw [get?_cons] at h
    split at h
    · next hkey => exact hkey ▸ Option.some.inj h ▸ List.mem_cons_self
    · exact List.mem_cons_of_mem _ (ih h)

/-- Writes under distinct names are seen, and under other names is seen what was there before. -/
theorem get?_update {changes : Fields α} (h : changes.names.Nodup) (t : Fields α) (name : Text) :
    (t.update changes).get? name = (changes.get? name).or (t.get? name) := by
  induction changes generalizing t with
  | nil => rfl
  | cons change rest ih =>
    obtain ⟨key, a⟩ := change
    rw [names, List.map_cons, List.nodup_cons] at h
    have hstep : t.update ((key, a) :: rest) = (t.set key a).update rest := rfl
    rw [hstep, ih h.2, get?_cons]
    by_cases hkey : key = name
    · subst hkey
      have hrest : get? rest key = none := by
        rw [Option.eq_none_iff_forall_ne_some]
        exact fun b hb => h.1 (List.mem_map.mpr ⟨(key, b), mem_of_get? hb, rfl⟩)
      rw [if_pos rfl, hrest, get?_set_self, Option.none_or, Option.some_or]
    · rw [if_neg hkey, get?_set_of_ne t a (Ne.symm hkey)]

/-- What is not seen is not there. -/
theorem ne_of_get?_eq_none {t : Fields α} {name : Text} (h : t.get? name = none) :
    ∀ entry ∈ t, entry.1 ≠ name := by
  induction t with
  | nil => exact List.forall_mem_nil _
  | cons entry rest ih =>
    rw [get?_cons] at h
    split at h
    · cases h
    · next hkey => exact List.forall_mem_cons.mpr ⟨hkey, ih h⟩

/-- What has a name in the table is seen. -/
theorem exists_get?_of_mem_names {t : Fields α} {name : Text} (h : name ∈ t.names) :
    ∃ a, t.get? name = some a := by
  obtain ⟨entry, hmem, hname⟩ := List.mem_map.mp h
  cases hget : t.get? name with
  | none => exact absurd hname (ne_of_get?_eq_none hget entry hmem)
  | some a => exact ⟨a, rfl⟩

/-- Only entries whose names are kept are seen. -/
theorem get?_filter (t : Fields α) (keep : Text → Bool) (name : Text) :
    get? (t.filter fun entry => keep entry.1) name = if keep name then t.get? name else none := by
  induction t with
  | nil => simp
  | cons entry rest ih =>
    obtain ⟨key, a⟩ := entry
    by_cases hkey : key = name
    · subst hkey
      by_cases hkeep : keep key = true <;> simp [get?, hkeep, ih]
    · by_cases hkeep : keep key = true <;> simp [get?, hkeep, hkey, ih]

/-- A write keeps names distinct. -/
theorem nodup_names_set {t : Fields α} (h : t.names.Nodup) (name : Text) (a : α) :
    (t.set name a).names.Nodup := by
  induction t with
  | nil => simp [set, names]
  | cons entry rest ih =>
    obtain ⟨key, b⟩ := entry
    rw [names, List.map_cons, List.nodup_cons] at h
    rw [set]
    split
    · next hkey =>
      rw [names, List.map_cons, List.nodup_cons]
      exact ⟨hkey ▸ h.1, h.2⟩
    · next hkey =>
      rw [names, List.map_cons, List.nodup_cons]
      refine ⟨fun hmem => ?_, ih h.2⟩
      obtain ⟨other, hother, hname⟩ := List.mem_map.mp hmem
      rcases mem_set hother with rfl | hother
      · exact hkey hname.symm
      · exact h.1 (hname ▸ List.mem_map_of_mem hother)

/-- A new name goes to the end. -/
theorem set_of_not_mem {t : Fields α} {name : Text} (h : name ∉ t.names) (a : α) :
    t.set name a = t ++ [(name, a)] := by
  induction t with
  | nil => rfl
  | cons entry rest ih =>
    obtain ⟨key, b⟩ := entry
    rw [names, List.map_cons, List.mem_cons, not_or] at h
    rw [set, if_neg (Ne.symm h.1), ih h.2, List.cons_append]

/-- As long as names are distinct, the next one of them is new and goes to the end. -/
theorem set_of_nodup {t : Fields α} {name : Text} {others : List Text}
    (h : (t.names ++ name :: others).Nodup) (a : α) :
    t.set name a = t ++ [(name, a)] ∧ ((t.set name a).names ++ others).Nodup := by
  have hset : t.set name a = t ++ [(name, a)] := by
    refine set_of_not_mem (fun hmem => ?_) a
    exact (List.nodup_append.mp h).2.2 name hmem name List.mem_cons_self rfl
  refine ⟨hset, ?_⟩
  rw [hset, names, List.map_append, List.map_singleton, List.append_assoc, List.singleton_append]
  exact h

/-- If names are distinct, every entry is seen. -/
theorem get?_of_mem {t : Fields α} (h : t.names.Nodup) {name : Text} {a : α}
    (hmem : (name, a) ∈ t) : t.get? name = some a := by
  induction t with
  | nil => cases hmem
  | cons entry rest ih =>
    obtain ⟨key, b⟩ := entry
    rw [names, List.map_cons, List.nodup_cons] at h
    rcases List.mem_cons.mp hmem with heq | hmem
    · obtain ⟨rfl, rfl⟩ := Prod.mk.inj heq
      exact if_pos rfl
    · have hne : key ≠ name := by
        rintro rfl
        exact h.1 (List.mem_map.mpr ⟨_, hmem, rfl⟩)
      rw [get?_cons, if_neg hne, ih h.2 hmem]

/-- If names are distinct, only the entry that is seen has its name. -/
theorem filter_of_get? {t : Fields α} (hnodup : t.names.Nodup) {name : Text} {a : α}
    (h : t.get? name = some a) : t.filter (fun entry => entry.1 = name) = [(name, a)] := by
  induction t with
  | nil => cases h
  | cons entry rest ih =>
    rw [names, List.map_cons, List.nodup_cons] at hnodup
    rw [get?_cons] at h
    split at h
    · next hkey =>
      have hrest : ∀ other ∈ rest, other.1 ≠ name := fun other hother hname =>
        hnodup.1 (hkey ▸ hname ▸ List.mem_map_of_mem hother)
      have hentry : entry = (name, a) := Prod.ext hkey (Option.some.inj h)
      rw [List.filter_cons_of_pos (by simpa using hkey),
        List.filter_eq_nil_iff.mpr (by simpa using hrest), hentry]
    · next hkey => rw [List.filter_cons_of_neg (by simpa using hkey), ih hnodup.2 h]

end Fields

end CloudTemplate

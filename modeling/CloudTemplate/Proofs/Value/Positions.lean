import CloudTemplate.Value
import CloudTemplate.Location

/-!
# Positions in a document

The steps from the root of a document to a node go from a map to one of its entries, or from a list
to one of its items.  `Location.along` writes down where steps lead, and `Value.HasAt` says that
they lead to a node.  Different steps may be written alike, because names may hold dots and
brackets.
-/

namespace CloudTemplate

namespace Location

/-- A step from a map to an entry, or from a list to an item. -/
inductive Step where
  | entry (name : Text)
  | item (index : Nat)
  deriving DecidableEq

/-- The place to which a step leads. -/
def step (l : Location) : Step → Location
  | .entry name => l.entry name
  | .item index => l.item index

/-- The place to which several steps lead. -/
def along (l : Location) (steps : List Step) : Location :=
  steps.foldl step l

variable {l : Location} {steps : List Step}

theorem along_concat (s : Step) : l.along (steps ++ [s]) = (l.along steps).step s := by
  rw [along, List.foldl_append]
  rfl

theorem entry_along (name : Text) :
    (l.along steps).entry name = l.along (steps ++ [.entry name]) :=
  (along_concat (.entry name)).symm

theorem item_along (index : Nat) :
    (l.along steps).item index = l.along (steps ++ [.item index]) :=
  (along_concat (.item index)).symm

/-- No step leads back to the whole document. -/
theorem isRoot_step (h : l.isRoot = false) (s : Step) : (l.step s).isRoot = false := by
  have hne : l.text ≠ [] := by simpa [isRoot] using h
  cases s with
  | entry name =>
    rw [step, entry, if_neg (Bool.eq_false_iff.mp h)]
    simp [isRoot, hne]
  | item index =>
    rw [step, item]
    simp [isRoot, hne]

theorem isRoot_along (h : l.isRoot = false) (steps : List Step) :
    (l.along steps).isRoot = false := by
  induction steps generalizing l with
  | nil => exact h
  | cons s rest ih => exact ih (isRoot_step h s)

/-- A place below another one is written behind it. -/
theorem text_prefix_step (h : l.isRoot = false) (s : Step) : l.text <+: (l.step s).text := by
  cases s with
  | entry name =>
    rw [step, entry, if_neg (Bool.eq_false_iff.mp h), List.append_assoc]
    exact List.prefix_append _ _
  | item index =>
    rw [step, item, List.append_assoc, List.append_assoc]
    exact List.prefix_append _ _

theorem text_prefix_along (h : l.isRoot = false) (steps : List Step) :
    l.text <+: (l.along steps).text := by
  induction steps generalizing l with
  | nil => exact List.prefix_refl _
  | cons s rest ih => exact (text_prefix_step h s).trans (ih (isRoot_step h s))

theorem isRoot_along_concat (h : (l.along steps).isRoot = false) (s : Step) :
    (l.along (steps ++ [s])).isRoot = false := by
  rw [along_concat]
  exact isRoot_step h s

end Location

namespace Value

/-- The steps lead from the root of the document to the node. -/
inductive HasAt (d : Value) : List Location.Step → Value → Prop
  | root : HasAt d [] d
  | entry {steps : List Location.Step} {entries : List (Text × Value)} {name : Text} {v : Value}
      (h : HasAt d steps (.map entries)) (hentry : (name, v) ∈ entries) :
      HasAt d (steps ++ [.entry name]) v
  | item {steps : List Location.Step} {items : List Value} {index : Nat} {v : Value}
      (h : HasAt d steps (.list items)) (hitem : items[index]? = some v) :
      HasAt d (steps ++ [.item index]) v

end Value

end CloudTemplate

import CloudTemplate.Proofs.Value.Nodes

/-!
# What encloses a node

An `Enclosure` is a value with a hole in it.  It lists what encloses the hole, from the outside in:
lists, maps that are no calls, and calls.  It holds no call that is left to the deployment, so an
evaluation gets to whatever fills the hole.
-/

namespace CloudTemplate

open Intrinsic (isName isDeferred call?)

/-- What encloses a node in a value. -/
inductive Enclosure where
  | hole
  | item (before : List Value) (inner : Enclosure) (after : List Value)
  | entry (before : List (Text × Value)) (name : Text) (inner : Enclosure)
      (after : List (Text × Value)) (hcall : ∀ v, call? (before ++ (name, v) :: after) = none)
  | argument (function : Text) (inner : Enclosure) (hname : isName function = true)
      (hd : isDeferred function = false)

namespace Enclosure

variable {v : Value}

/-- The value with a node in the hole. -/
def fill : Enclosure → Value → Value
  | hole, v => v
  | item before inner after, v => .list (before ++ inner.fill v :: after)
  | entry before name inner after _, v => .map (before ++ (name, inner.fill v) :: after)
  | argument function inner _ _, v => .call function (inner.fill v)

/-- Whether some call of a function encloses the hole. -/
def Encloses (function : Text) : Enclosure → Prop
  | hole => False
  | item _ inner _ => inner.Encloses function
  | entry _ _ inner _ _ => inner.Encloses function
  | argument other inner _ _ => other = function ∨ inner.Encloses function

instance decidableEncloses (function : Text) : (c : Enclosure) → Decidable (c.Encloses function)
  | hole => inferInstanceAs (Decidable False)
  | item _ inner _ | entry _ _ inner _ _ => inner.decidableEncloses function
  | argument other inner _ _ =>
    have := inner.decidableEncloses function
    inferInstanceAs (Decidable (other = function ∨ inner.Encloses function))

/-- What encloses something makes no string of it. -/
theorem fill_ne_string (c : Enclosure) (h : ∀ s, v ≠ .string s) (s : Text) :
    c.fill v ≠ .string s := by
  cases c with
  | hole => exact h s
  | item | entry | argument => simp [fill, Value.call]

end Enclosure

end CloudTemplate

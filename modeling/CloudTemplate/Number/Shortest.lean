import CloudTemplate.Number.Double

/-!
# The shortest decimal of a double

Among the decimals that read back as a given double, `Double.shortest` finds one with the fewest
digits, and of those the nearest to the double.

A positive double `m · 2 ^ q` has a finite decimal expansion: it is `N · 10 ^ t` with
`N = m · 2 ^ q` and `t = 0` when `q` is not negative, and `N = m · 5 ^ (-q)` and `t = q` when it
is.  Write `gap` for the `N` of `1 · 2 ^ q`.  A decimal reads back as the double if it is at most
half a gap away (a quarter below a narrow double), the ends counting when `m` is even.  Digits are
dropped from `N` at the right end; of the two neighbours of `N` on the coarser grid, at least one
is near enough whenever any decimal of that length is.
-/

namespace CloudTemplate.Double

/-- A positive decimal `digits · 10 ^ exponent`. -/
structure Decimal where
  digits : Nat
  exponent : Int
  deriving DecidableEq

/-- The neighbours of a double, seen from its expansion `exact`, in units of the last place. -/
structure Neighbourhood where
  exact : Nat
  gap : Nat
  narrow : Bool
  closed : Bool

namespace Neighbourhood

/-- Whether a number `distance` below the double still reads back as it. -/
def reachesDown (v : Neighbourhood) (distance : Nat) : Bool :=
  let reach := if v.narrow then 4 * distance else 2 * distance
  if v.closed then reach ≤ v.gap else reach < v.gap

/-- Whether a number `distance` above the double still reads back as it. -/
def reachesUp (v : Neighbourhood) (distance : Nat) : Bool :=
  if v.closed then 2 * distance ≤ v.gap else 2 * distance < v.gap

/-- The nearest multiple of `10 ^ dropped` that reads back, divided by `10 ^ dropped`; a tie goes
to the even one. -/
def onGrid? (v : Neighbourhood) (dropped : Nat) : Option Nat :=
  let unit := Nat.pow 10 dropped
  let below := v.exact / unit
  let down := v.exact - below * unit
  let up := (below + 1) * unit - v.exact
  match v.reachesDown down, v.reachesUp up with
  | true, true =>
    some (if down < up ∨ (down = up ∧ below % 2 = 0) then below else below + 1)
  | true, false => some below
  | false, true => some (below + 1)
  | false, false => none

/-- Try the grids from the coarsest to the finest; the last one holds the double itself. -/
def coarsest (v : Neighbourhood) : Nat → Nat × Nat
  | 0 => (v.exact, 0)
  | dropped + 1 =>
    match v.onGrid? (dropped + 1) with
    | some digits => (digits, dropped + 1)
    | none => v.coarsest dropped

end Neighbourhood

/-- The shortest decimal that reads back as `m · 2 ^ q`, for a positive `m`. -/
def shortest (m : Nat) (q : Int) (narrow : Bool) : Decimal :=
  let gap := Nat.pow 2 q.toNat * Nat.pow 5 (-q).toNat
  let v : Neighbourhood := ⟨m * gap, gap, narrow, m % 2 = 0⟩
  let (digits, dropped) := v.coarsest ((Nat.toDigits 10 v.exact).length - 1)
  ⟨digits, min q 0 + dropped⟩

end CloudTemplate.Double

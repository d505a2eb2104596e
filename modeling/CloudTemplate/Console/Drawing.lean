import CloudTemplate.Console

/-!
# Console output as plain text

A plain drawing for a console without styles: a tree is indented by two spaces a level, and the
columns of a table are as wide as their widest cell.
-/

namespace CloudTemplate.Console

/-- Spaces. -/
def spaces (n : Nat) : String := String.ofList (List.replicate n ' ')

mutual

/-- The lines of a tree whose root stands at the given level. -/
def treeLines (level : Nat) : Tree → List String
  | .node label children =>
    (spaces (2 * level) ++ label.text.display) :: forestLines (level + 1) children

/-- The lines of several trees. -/
def forestLines (level : Nat) : List Tree → List String
  | [] => []
  | t :: rest => treeLines level t ++ forestLines level rest

end

/-- The width of each column: that of its widest cell. -/
def columnWidths : List (List String) → List Nat
  | [] => []
  | row :: rest =>
    let below := columnWidths rest
    row.mapIdx fun i cell => max cell.length (below.getD i 0)

/-- A cell filled up to the width of its column. -/
def paddedCell (side : Side) (width : Nat) (cell : String) : String :=
  match side with
  | .left => cell ++ spaces (width - cell.length)
  | .right => spaces (width - cell.length) ++ cell

/-- A row of a table with columns of the given sides and widths. -/
def rowLine (columns : List (Side × Nat)) (row : List String) : String :=
  String.intercalate "  " (List.zipWith (fun c cell => paddedCell c.1 c.2 cell) columns row)

/-- The lines of a table. -/
def tableLines (t : Table) : List String :=
  let rows := t.columns.map (·.header) :: t.rows.map (·.map Text.display)
  let columns := List.zip (t.columns.map (·.side)) (columnWidths rows)
  t.title.display :: rows.map (rowLine columns)

/-- The lines of an output. -/
def Output.lines : Output → List String
  | .line text => [text.display]
  | .tree t => treeLines 0 t
  | .table t => tableLines t

end CloudTemplate.Console

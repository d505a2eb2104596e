import CloudTemplate.Fields
import CloudTemplate.Number.Double

/-!
# Document values

A template document is a tree of scalars, lists and maps.  Integers have any size and are never
confused with doubles.  The entries of a map keep their order.  Equality of values is decidable.

`Value.kind` is the name of a value's shape in messages about intrinsic functions, where the two
sorts of numbers are one; `Value.typeName` is its name in messages about the layout of a document.
-/

namespace CloudTemplate

/-- A node of a document. -/
inductive Value where
  | null
  | bool (b : Bool)
  | int (n : Int)
  | double (x : Double)
  | string (t : Text)
  | list (items : List Value)
  | map (entries : List (Text × Value))
  deriving Inhabited

namespace Value

/-- The shape of a value as messages about intrinsic functions name it. -/
def kind : Value → String
  | .null => "null"
  | .bool _ => "boolean"
  | .int _ | .double _ => "number"
  | .string _ => "string"
  | .list _ => "array"
  | .map _ => "object"

/-- The shape of a value as messages about document layout name it. -/
def typeName : Value → String
  | .null => "NoneType"
  | .bool _ => "bool"
  | .int _ => "int"
  | .double _ => "float"
  | .string _ => "str"
  | .list _ => "list"
  | .map _ => "dict"

/-- The value itself unless it is null. -/
def nonNull? : Value → Option Value
  | .null => none
  | v => some v

/-- The text of a string value. -/
def string? : Value → Option Text
  | .string s => some s
  | _ => none

/-- The entries of a map value. -/
def map? : Value → Option (Fields Value)
  | .map entries => some entries
  | _ => none

/-- A list of strings as a value. -/
def ofStrings (texts : List Text) : Value :=
  .list (texts.map .string)

mutual

/-- Decide whether two values are equal. -/
def decEq : (a b : Value) → Decidable (a = b)
  | .null, .null => isTrue rfl
  | .null, .bool _ | .null, .int _ | .null, .double _
  | .null, .string _ | .null, .list _ | .null, .map _ => isFalse nofun
  | .bool a, .bool b => decidable_of_iff (a = b) (by simp)
  | .bool _, .null | .bool _, .int _ | .bool _, .double _
  | .bool _, .string _ | .bool _, .list _ | .bool _, .map _ => isFalse nofun
  | .int a, .int b => decidable_of_iff (a = b) (by simp)
  | .int _, .null | .int _, .bool _ | .int _, .double _
  | .int _, .string _ | .int _, .list _ | .int _, .map _ => isFalse nofun
  | .double a, .double b => decidable_of_iff (a = b) (by simp)
  | .double _, .null | .double _, .bool _ | .double _, .int _
  | .double _, .string _ | .double _, .list _ | .double _, .map _ => isFalse nofun
  | .string a, .string b => decidable_of_iff (a = b) (by simp)
  | .string _, .null | .string _, .bool _ | .string _, .int _
  | .string _, .double _ | .string _, .list _ | .string _, .map _ => isFalse nofun
  | .list a, .list b => match decEqItems a b with
    | isTrue h => isTrue (congrArg Value.list h)
    | isFalse h => isFalse fun e => h (Value.list.inj e)
  | .list _, .null | .list _, .bool _ | .list _, .int _
  | .list _, .double _ | .list _, .string _ | .list _, .map _ => isFalse nofun
  | .map a, .map b => match decEqEntries a b with
    | isTrue h => isTrue (congrArg Value.map h)
    | isFalse h => isFalse fun e => h (Value.map.inj e)
  | .map _, .null | .map _, .bool _ | .map _, .int _
  | .map _, .double _ | .map _, .string _ | .map _, .list _ => isFalse nofun

/-- Decide whether two lists of items are equal. -/
def decEqItems : (a b : List Value) → Decidable (a = b)
  | [], [] => isTrue rfl
  | [], _ :: _ | _ :: _, [] => isFalse nofun
  | a :: as, b :: bs => match decEq a b, decEqItems as bs with
    | isTrue h, isTrue hs => isTrue (congr (congrArg List.cons h) hs)
    | isFalse h, _ => isFalse fun e => h (List.cons.inj e).1
    | _, isFalse h => isFalse fun e => h (List.cons.inj e).2

/-- Decide whether the entries of two maps are equal. -/
def decEqEntries : (a b : List (Text × Value)) → Decidable (a = b)
  | [], [] => isTrue rfl
  | [], _ :: _ | _ :: _, [] => isFalse nofun
  | (m, a) :: as, (n, b) :: bs =>
    if hn : m = n then
      match decEq a b, decEqEntries as bs with
      | isTrue h, isTrue hs => isTrue (by rw [hn, h, hs])
      | isFalse h, _ => isFalse fun e => h (Prod.mk.inj (List.cons.inj e).1).2
      | _, isFalse h => isFalse fun e => h (List.cons.inj e).2
    else isFalse fun e => hn (Prod.mk.inj (List.cons.inj e).1).1

end

instance : DecidableEq Value := decEq

mutual

/-- The number of nodes of a value, the entries of maps and items of lists counting once more. -/
def size : Value → Nat
  | .list items => 1 + sizeItems items
  | .map entries => 1 + sizeEntries entries
  | _ => 1

/-- The number of nodes in a list of items. -/
def sizeItems : List Value → Nat
  | [] => 0
  | v :: rest => 1 + v.size + sizeItems rest

/-- The number of nodes in the entries of a map. -/
def sizeEntries : List (Text × Value) → Nat
  | [] => 0
  | (_, v) :: rest => 1 + v.size + sizeEntries rest

end

end Value

end CloudTemplate

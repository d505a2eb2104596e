import CloudTemplate.Intrinsic
import CloudTemplate.Deployment

/-!
# Variables in text

A text may hold tokens `${Name}`: a dollar sign, an opening brace, a name of at least one character
that holds no closing brace, and the closing brace.  Tokens are found from left to right and do not
overlap; whatever is not part of one is literal.

A token names a variable: a local one, an attribute of a resource (`Name.Attribute`), a
pseudo-parameter or a parameter, in this order.  Variables that are known are replaced by their
texts.  As long as one is not known, the text remains a text with variables; it then carries along
the local variables that it still needs.  A name that begins with an exclamation mark is an escape,
and the mark is taken out once no variable is left.

`Substitution.substitute_cases` says which values a substitution gives.
-/

namespace CloudTemplate.Substitution

/-- A part of a text: a literal code point, or a token by its name. -/
inductive Piece where
  | literal (c : CodePoint)
  | token (name : Text)
  deriving DecidableEq, Repr

/-- The code points with which a token opens. -/
def opening : Text := ['$', '{']

/-- The code point that closes a token. -/
def closing : CodePoint := '}'

/-- The pieces of the rest of a text.  After an opening, `name` holds the name of the token so far,
last first. -/
def scanFrom : (name : Option Text) → Text → List Piece
  | none, [] => []
  | none, .char '$' :: .char '{' :: rest => scanFrom (some []) rest
  | none, c :: rest => .literal c :: scanFrom none rest
  | some name, [] => (opening ++ name.reverse).map .literal
  | some [], .char '}' :: rest => (opening ++ [closing]).map .literal ++ scanFrom none rest
  | some (c :: name), .char '}' :: rest => .token (c :: name).reverse :: scanFrom none rest
  | some name, c :: rest => scanFrom (some (c :: name)) rest

/-- The pieces of a text. -/
def scan (text : Text) : List Piece :=
  scanFrom none text

/-- A token in writing. -/
def tokenText (name : Text) : Text :=
  opening ++ name ++ [closing]

/-- Whether a name is that of an escape. -/
def isEscape (name : Text) : Bool :=
  name.head? = some '!'

/-- The names of the tokens that are not escapes. -/
def variableNames (pieces : List Piece) : List Text :=
  pieces.filterMap fun
    | .literal _ => none
    | .token name => if isEscape name then none else some name

/-- The text of a value that may take the place of a local variable or an attribute: null, lists
and maps may not. -/
def scalarText? : Value → Option Text
  | .null | .list _ | .map _ => none
  | v => some v.text

/-- The text that takes the place of a variable, if it is known. -/
def lookup (d : Deployment) (locals : Fields Value) (name : Text) : Option Text :=
  match locals.get? name with
  | some v => scalarText? v
  | none =>
    match Text.cut '.' name with
    | (resource, some attr) => (d.attribute? resource attr).bind scalarText?
    | (_, none) =>
      match d.pseudo.get? name with
      | some text => some text
      | none => ((d.parameters.get? name).bind Value.nonNull?).map Value.text

/-- The variables whose text is not known. -/
def pending (d : Deployment) (locals : Fields Value) (pieces : List Piece) : List Text :=
  (variableNames pieces).filter fun name => (lookup d locals name).isNone

/-- The text of a piece, `final` if no variable is pending. -/
def renderPiece (d : Deployment) (locals : Fields Value) (final : Bool) : Piece → Text
  | .literal c => [c]
  | .token name =>
    if isEscape name then
      tokenText (if final then name.drop 1 else name)
    else
      match lookup d locals name with
      | some text => text
      | none => tokenText name

/-- The text with every known variable replaced. -/
def render (d : Deployment) (locals : Fields Value) (pieces : List Piece) : Text :=
  let final := (pending d locals pieces).isEmpty
  pieces.flatMap (renderPiece d locals final)

/-- The local variables that are still needed. -/
def carried (d : Deployment) (locals : Fields Value) (pieces : List Piece) : Fields Value :=
  let names := pending d locals pieces
  locals.filter fun entry => names.contains entry.1

/-- The value of a text with variables. -/
def substitute (d : Deployment) (locals : Fields Value) (text : Text) : Value :=
  let pieces := scan text
  let rendered := Value.string (render d locals pieces)
  if (pending d locals pieces).isEmpty then rendered
  else
    match carried d locals pieces with
    | [] => .call Intrinsic.sub rendered
    | needed => .call Intrinsic.sub (.list [rendered, .map needed])

/-! ### What a substitution gives -/

variable {d : Deployment} {locals : Fields Value} {text : Text}

theorem substitute_eq_string (h : pending d locals (scan text) = []) :
    substitute d locals text = .string (render d locals (scan text)) := by
  rw [substitute, h, List.isEmpty_nil, if_pos rfl]

theorem substitute_of_not_carried (h : pending d locals (scan text) ≠ [])
    (hcarried : carried d locals (scan text) = []) :
    substitute d locals text = .call Intrinsic.sub (.string (render d locals (scan text))) := by
  rw [substitute, if_neg (mt List.isEmpty_iff.mp h), hcarried]

theorem substitute_of_carried (h : pending d locals (scan text) ≠ [])
    (hcarried : carried d locals (scan text) ≠ []) :
    substitute d locals text = .call Intrinsic.sub
      (.list [.string (render d locals (scan text)), .map (carried d locals (scan text))]) := by
  rw [substitute, if_neg (mt List.isEmpty_iff.mp h)]
  split
  · next hnil => exact absurd hnil hcarried
  · rfl

/-- A substitution gives a text if no variable is pending.  Otherwise it gives a call, with local
variables if some are carried along. -/
theorem substitute_cases (d : Deployment) (locals : Fields Value) (text : Text) :
    (pending d locals (scan text) = [] ∧
      substitute d locals text = .string (render d locals (scan text))) ∨
    (pending d locals (scan text) ≠ [] ∧ carried d locals (scan text) = [] ∧
      substitute d locals text = .call Intrinsic.sub (.string (render d locals (scan text)))) ∨
    (pending d locals (scan text) ≠ [] ∧ carried d locals (scan text) ≠ [] ∧
      substitute d locals text = .call Intrinsic.sub
        (.list [.string (render d locals (scan text)), .map (carried d locals (scan text))])) := by
  by_cases hpending : pending d locals (scan text) = []
  · exact .inl ⟨hpending, substitute_eq_string hpending⟩
  · by_cases hcarried : carried d locals (scan text) = []
    · exact .inr (.inl ⟨hpending, hcarried, substitute_of_not_carried hpending hcarried⟩)
    · exact .inr (.inr ⟨hpending, hcarried, substitute_of_carried hpending hcarried⟩)

end CloudTemplate.Substitution

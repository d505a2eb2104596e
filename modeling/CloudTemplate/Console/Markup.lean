import CloudTemplate.Console

/-!
# Markup

A line of markup holds tags: an opening bracket, one of `a` to `z`, `#`, `/` or `@`, and then code
points other than an opening bracket up to the first closing bracket.  Tags are not shown.  An odd
number of backslashes in front of a tag makes it plain text; of the backslashes themselves half are
shown, rounded down.  A backslash in front of an opening bracket that does not begin a tag is not
shown either.

`Markup.escape` writes a text so that no part of it is a tag, and `Markup.shown` is the text that a
line of markup shows.
-/

namespace CloudTemplate.Console.Markup

/-- Whether a tag may begin with the code point behind its opening bracket. -/
def beginsTag : CodePoint → Bool
  | .char c => ('a' ≤ c && c ≤ 'z') || c = '#' || c = '/' || c = '@'
  | .surrogate _ => false

/-- The length of the tag with which a text begins, brackets included. -/
def tagLength? : Text → Option Nat
  | .char '[' :: c :: rest =>
    let body := rest.takeWhile fun (c : CodePoint) => c ≠ '[' && c ≠ ']'
    if beginsTag c && (rest.drop body.length).head? = some ']' then some (body.length + 3)
    else none
  | _ => none

/-- A part of a line of markup. -/
inductive Part where
  | plain (c : CodePoint)
  /-- A tag with its brackets, and the number of backslashes in front of it. -/
  | tag (backslashes : Nat) (text : Text)

/-- What makes the tag behind it plain text. -/
def backslash : CodePoint := '\\'

/-- The parts of a line. -/
def parts (line : Text) : List Part :=
  match line with
  | [] => []
  | c :: rest =>
    let backslashes := (line.takeWhile (· = backslash)).length
    match tagLength? (line.drop backslashes) with
    | some length =>
      .tag backslashes ((line.drop backslashes).take length)
        :: parts (rest.drop (backslashes + length - 1))
    | none => .plain c :: parts rest
termination_by line.length
decreasing_by all_goals simp only [List.length_cons, List.length_drop]; omega

/-- A run of backslashes. -/
def backslashes (n : Nat) : Text := List.replicate n backslash

/-- A text as markup: in front of each tag the backslashes are doubled and one is added.  A
backslash that ends the text alone is doubled too, lest it escape what follows. -/
def escape (t : Text) : Text :=
  let escaped : Text := (parts t).flatMap fun
    | .plain c => [c]
    | .tag n text => backslashes (2 * n + 1) ++ text
  let trailing := (escaped.reverse.takeWhile (· = backslash)).length
  if trailing = 1 then escaped ++ [backslash] else escaped

/-- What parts of a line show. -/
def shownParts : List Part → Text
  | [] => []
  | .plain (.char '\\') :: .plain (.char '[') :: rest => '[' :: shownParts rest
  | .plain c :: rest => c :: shownParts rest
  | .tag n text :: rest =>
    backslashes (n / 2) ++ (if n % 2 = 1 then text else []) ++ shownParts rest

/-- The text that a line of markup shows. -/
def shown (line : Text) : Text :=
  clean (shownParts (parts line))

end CloudTemplate.Console.Markup

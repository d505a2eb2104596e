import Mathlib.Data.List.Infix
import CloudTemplate.Intrinsic.Handler
import CloudTemplate.Proofs.Substitution.Staging

/-!
# Scanning a text that is left

A text with variables of which some are pending is left as a text with variables, and is scanned
again later.  The texts of the variables that are known stand in it as they are, so that scanning it
can find other tokens than those that are left: a text may hold a token, a dollar sign and a brace
may come together at its ends, and an opening without an end runs into the next token.

`rescan` is the scan of what pieces write, piece by piece.  It finds the tokens of the pieces, and
no others, just if no opening strays among their literals (`tokenNames_rescan_iff`).

## Main results

* `Substitution.tokenNames_left_iff`: in a text that is left the tokens are those of the original
  text that are escapes or pending if and only if no opening strays in it.
-/

namespace CloudTemplate.Substitution

/-! ### The tokens among pieces -/

/-- The names of the tokens, those of escapes too. -/
def tokenNames (pieces : List Piece) : List Text :=
  pieces.filterMap fun
    | .literal _ => none
    | .token name => some name

@[simp]
theorem tokenNames_nil : tokenNames [] = [] := rfl

@[simp]
theorem tokenNames_literal (c : CodePoint) (rest : List Piece) :
    tokenNames (.literal c :: rest) = tokenNames rest := rfl

@[simp]
theorem tokenNames_token (name : Text) (rest : List Piece) :
    tokenNames (.token name :: rest) = name :: tokenNames rest := rfl

@[simp]
theorem tokenNames_append (pieces more : List Piece) :
    tokenNames (pieces ++ more) = tokenNames pieces ++ tokenNames more :=
  List.filterMap_append

@[simp]
theorem tokenNames_map_literal (t : Text) : tokenNames (t.map Piece.literal) = [] := by
  induction t with
  | nil => rfl
  | cons c t ih => exact ih

/-- Whether a piece ends an opening that stands before it. -/
def Piece.closes : Piece → Bool
  | .literal c => c = closing
  | .token _ => true

/-- An opening strays if it is followed by something that ends it, but not at once. -/
def Strays (behind : List Piece) : Prop :=
  behind.head? ≠ some (.literal closing) ∧ ∃ piece ∈ behind, piece.closes = true

/-- The literals among some pieces write no opening that strays. -/
def NoneStrays (pieces : List Piece) : Prop :=
  ∀ behind, .literal '$' :: .literal '{' :: behind <:+ pieces → ¬ Strays behind

instance (behind : List Piece) : Decidable (Strays behind) :=
  inferInstanceAs (Decidable (_ ∧ _))

instance (pieces : List Piece) : Decidable (NoneStrays pieces) :=
  decidable_of_iff (∀ tail ∈ pieces.tails,
      tail.take 2 = [.literal '$', .literal '{'] → ¬ Strays (tail.drop 2)) <| by
    constructor
    · intro h behind hsuffix
      exact h (.literal '$' :: .literal '{' :: behind) ((List.mem_tails _ _).mpr hsuffix) rfl
    · intro h tail htail hopening
      rw [List.mem_tails, ← List.take_append_drop 2 tail, hopening] at htail
      exact h _ htail

theorem noneStrays_nil : NoneStrays [] := by
  intro behind hsuffix
  simp at hsuffix

theorem noneStrays_opening_iff {behind : List Piece} :
    NoneStrays (.literal '$' :: .literal '{' :: behind) ↔ ¬ Strays behind ∧ NoneStrays behind := by
  constructor
  · exact fun h => ⟨h behind List.suffix_rfl, fun other hsuffix => h other
      ((hsuffix.trans (List.suffix_cons _ _)).trans (List.suffix_cons _ _))⟩
  · rintro ⟨hhere, hlater⟩ other hsuffix
    rcases List.suffix_cons_iff.mp hsuffix with heq | hsuffix
    · obtain rfl : other = behind := by simpa using heq
      exact hhere
    · rcases List.suffix_cons_iff.mp hsuffix with heq | hsuffix
      · simp at heq
      · exact hlater other hsuffix

theorem noneStrays_cons_iff {piece : Piece} {rest : List Piece}
    (h : ∀ behind, piece = .literal '$' → rest ≠ .literal '{' :: behind) :
    NoneStrays (piece :: rest) ↔ NoneStrays rest := by
  constructor
  · exact fun hall behind hsuffix => hall behind (hsuffix.trans (List.suffix_cons _ _))
  · intro hall behind hsuffix
    rcases List.suffix_cons_iff.mp hsuffix with heq | hsuffix
    · obtain ⟨hpiece, hrest⟩ := List.cons.inj heq
      exact absurd hrest.symm (h behind hpiece.symm)
    · exact hall behind hsuffix

/-- Where nothing ends an opening, none strays. -/
theorem noneStrays_of_not_closes {pieces : List Piece}
    (h : ∀ piece ∈ pieces, ¬ piece.closes = true) : NoneStrays pieces := by
  rintro behind hsuffix ⟨-, piece, hpiece, hcloses⟩
  exact h piece (hsuffix.subset (List.mem_cons_of_mem _ (List.mem_cons_of_mem _ hpiece))) hcloses

/-! ### Scanning what pieces write -/

/-- The pieces that the scan of what pieces write finds.  After an opening, `name` holds the name of
the token so far, last first; a token that comes up then is part of the name. -/
def rescan : (name : Option Text) → List Piece → List Piece
  | none, [] => []
  | none, .literal (.char '$') :: .literal (.char '{') :: rest => rescan (some []) rest
  | none, piece :: rest => piece :: rescan none rest
  | some name, [] => (opening ++ name.reverse).map .literal
  | some [], .literal (.char '}') :: rest =>
    (opening ++ [closing]).map .literal ++ rescan none rest
  | some (c :: name), .literal (.char '}') :: rest =>
    .token (c :: name).reverse :: rescan none rest
  | some name, .literal c :: rest => rescan (some (c :: name)) rest
  | some seen, .token name :: rest =>
    .token (seen.reverse ++ (opening ++ name)) :: rescan none rest

/-- A dollar sign before which no brace opens is literal. -/
theorem scanFrom_dollar {text : Text} (h : ∀ rest, text ≠ .char '{' :: rest) :
    scanFrom none (dollar :: text) = .literal dollar :: scanFrom none text := by
  rw [scanFrom]
  exact fun rest _ heq => h rest heq

/-- A brace opens only if a literal one is written. -/
theorem flatMap_written_ne {pieces : List Piece}
    (h : ∀ rest, pieces ≠ .literal (.char '{') :: rest) (text : Text) :
    pieces.flatMap Piece.written ≠ .char '{' :: text := by
  intro heq
  cases pieces with
  | nil => cases heq
  | cons piece rest =>
    cases piece with
    | token name => cases heq
    | literal c =>
      obtain rfl := (List.cons.inj heq).1
      exact h rest rfl

/-- The scan goes through what was written piece by piece. -/
theorem scanFrom_written {seen : Option Text} {pieces : List Piece}
    (h : ∀ name, .token name ∈ pieces → name ≠ [] ∧ closing ∉ name) :
    scanFrom seen (pieces.flatMap Piece.written) = rescan seen pieces := by
  have hrest : ∀ {piece : Piece} {rest : List Piece},
      (∀ name, .token name ∈ piece :: rest → name ≠ [] ∧ closing ∉ name) →
      ∀ name, .token name ∈ rest → name ≠ [] ∧ closing ∉ name :=
    fun h name hname => h name (List.mem_cons_of_mem _ hname)
  fun_induction rescan seen pieces with
  | case1 => rw [List.flatMap_nil, scanFrom]
  | case2 rest ih =>
    rw [← ih (hrest (hrest h)), List.flatMap_cons, List.flatMap_cons]
    exact scanFrom.eq_2 _
  | case3 piece rest hne ih =>
    rw [← ih (hrest h), List.flatMap_cons]
    cases piece with
    | token name =>
      have hname := h name List.mem_cons_self
      exact scanFrom_token hname.1 hname.2 _
    | literal c =>
      by_cases hc : c = dollar
      · subst hc
        exact scanFrom_dollar (flatMap_written_ne fun more heq => hne more rfl heq)
      · exact scanFrom_literal hc _
  | case4 name => rw [List.flatMap_nil, scanFrom]
  | case5 rest ih =>
    rw [← ih (hrest h), List.flatMap_cons]
    exact scanFrom.eq_5 _
  | case6 c name rest ih =>
    rw [← ih (hrest h), List.flatMap_cons]
    exact scanFrom.eq_6 _ _ _
  | case7 name c rest hempty hname ih =>
    rw [← ih (hrest h), List.flatMap_cons, Piece.written, List.singleton_append, scanFrom]
    · exact hempty
    · exact hname
  | case8 seen name rest ih =>
    have hname := h name List.mem_cons_self
    have hclosing : closing ∉ opening ++ name := fun hmem =>
      (List.mem_append.mp hmem).elim (by decide) hname.2
    rw [← ih (hrest h), List.flatMap_cons, Piece.written, tokenText, List.append_assoc,
      List.singleton_append, scanFrom_name hclosing _ _ (by simp [opening])]

/-- No token gets lost: each of them ends one that is found. -/
theorem length_tokenNames_le (seen : Option Text) (pieces : List Piece) :
    (tokenNames pieces).length ≤ (tokenNames (rescan seen pieces)).length := by
  fun_induction rescan seen pieces with
  | case1 => exact Nat.le_refl _
  | case2 rest ih => simpa using ih
  | case3 piece rest _ ih => cases piece <;> simpa using ih
  | case4 name => simp
  | case5 rest ih => simpa using ih
  | case6 c name rest ih => simpa using Nat.le_succ_of_le ih
  | case7 name c rest _ _ ih => simpa using ih
  | case8 seen name rest ih => simpa using ih

/-- After an opening that nothing ends there is no token. -/
theorem tokenNames_rescan_of_not_closes (seen : Text) {pieces : List Piece}
    (h : ∀ piece ∈ pieces, ¬ piece.closes = true) :
    tokenNames (rescan (some seen) pieces) = tokenNames pieces := by
  induction pieces generalizing seen with
  | nil => rw [rescan, tokenNames_map_literal, tokenNames_nil]
  | cons piece rest ih =>
    obtain ⟨hpiece, hrest⟩ := List.forall_mem_cons.mp h
    cases piece with
    | token name => exact absurd rfl hpiece
    | literal c =>
      have hc : c ≠ closing := fun hc => hpiece (decide_eq_true hc)
      rw [rescan, tokenNames_literal, ih _ hrest]
      · exact fun _ heq => hc heq
      · exact fun _ _ _ heq => hc heq

/-- An opening that something ends, but not at once, makes a token of its own. -/
theorem tokenNames_rescan_ne {seen : Text} {pieces : List Piece}
    (hfirst : seen ≠ [] ∨ pieces.head? ≠ some (.literal closing))
    (hcloses : ∃ piece ∈ pieces, piece.closes = true) :
    tokenNames (rescan (some seen) pieces) ≠ tokenNames pieces := by
  induction pieces generalizing seen with
  | nil => simp at hcloses
  | cons piece rest ih =>
    cases piece with
    | token name =>
      -- The name that is found is longer than that of the token.
      rw [rescan, tokenNames_token, tokenNames_token]
      intro heq
      have hlength := congrArg List.length (List.cons.inj heq).1
      simp only [List.length_append, List.length_reverse, opening, List.length_cons] at hlength
      omega
    | literal c =>
      by_cases hc : c = closing
      · subst hc
        have hseen : seen ≠ [] := hfirst.resolve_right (by simp)
        obtain ⟨d, name, rfl⟩ := List.exists_cons_of_ne_nil hseen
        rw [closing, rescan, tokenNames_token, tokenNames_literal]
        intro heq
        have hle := length_tokenNames_le none rest
        rw [← heq, List.length_cons] at hle
        omega
      · rw [rescan, tokenNames_literal]
        · refine ih (.inl (List.cons_ne_nil _ _)) ?_
          simpa [Piece.closes, hc] using hcloses
        · exact fun _ heq => hc heq
        · exact fun _ _ _ heq => hc heq

/-- After an opening the tokens are found if and only if it does not stray and no other does. -/
theorem tokenNames_rescan_opening_iff {behind : List Piece}
    (ih : ∀ rest, behind = .literal closing :: rest →
      (tokenNames (rescan none rest) = tokenNames rest ↔ NoneStrays rest)) :
    tokenNames (rescan (some []) behind) = tokenNames behind ↔
      ¬ Strays behind ∧ NoneStrays behind := by
  by_cases hcloses : ∃ piece ∈ behind, piece.closes = true
  · by_cases hfirst : behind.head? = some (.literal closing)
    · -- The braces are empty, and the scan begins anew behind them.
      obtain ⟨rest, rfl⟩ := List.head?_eq_some_iff.mp hfirst
      have hcons : NoneStrays (.literal closing :: rest) ↔ NoneStrays rest :=
        noneStrays_cons_iff fun _ heq => by simp [closing] at heq
      rw [hcons, closing, rescan, tokenNames_append, tokenNames_map_literal, List.nil_append,
        tokenNames_literal, ih rest rfl]
      exact (and_iff_right fun hstrays => hstrays.1 rfl).symm
    · exact iff_of_false (tokenNames_rescan_ne (.inr hfirst) hcloses)
        fun h => h.1 ⟨hfirst, hcloses⟩
  · have hnone : ∀ piece ∈ behind, ¬ piece.closes = true := fun piece hpiece h =>
      hcloses ⟨piece, hpiece, h⟩
    exact iff_of_true (tokenNames_rescan_of_not_closes [] hnone)
      ⟨fun h => hcloses h.2, noneStrays_of_not_closes hnone⟩

/-- **Which tokens a scan finds.**  In what pieces write the scan finds the tokens of the pieces,
and no others, if and only if no opening strays among the literals. -/
theorem tokenNames_rescan_iff (pieces : List Piece) :
    tokenNames (rescan none pieces) = tokenNames pieces ↔ NoneStrays pieces := by
  induction hlength : pieces.length using Nat.strongRecOn generalizing pieces with
  | ind n ih =>
    subst hlength
    rcases pieces with _ | ⟨piece, rest⟩
    · exact iff_of_true (by rw [rescan]) noneStrays_nil
    · by_cases hopening : ∃ behind, piece = .literal '$' ∧ rest = .literal '{' :: behind
      · obtain ⟨behind, rfl, rfl⟩ := hopening
        rw [rescan, tokenNames_literal, tokenNames_literal, noneStrays_opening_iff]
        refine tokenNames_rescan_opening_iff ?_
        rintro rest rfl
        exact ih _ (by simp only [List.length_cons]; omega) rest rfl
      · have hne : ∀ behind, piece = .literal '$' → rest ≠ .literal '{' :: behind :=
          fun behind hpiece hrest => hopening ⟨behind, hpiece, hrest⟩
        have hrescan : rescan none (piece :: rest) = piece :: rescan none rest := by
          rw [rescan]
          exact hne
        have hrest := ih _ (Nat.lt_succ_self _) rest rfl
        rw [noneStrays_cons_iff hne, ← hrest, hrescan]
        cases piece with
        | literal c => rw [tokenNames_literal, tokenNames_literal]
        | token name => rw [tokenNames_token, tokenNames_token, List.cons_inj_right]

/-! ### Texts that are left -/

/-- The tokens that stay as long as some variable is pending: escapes, and those whose variable is
pending itself. -/
def remaining (d : Deployment) (locals : Fields Value) (pieces : List Piece) : List Text :=
  (tokenNames pieces).filter fun name => isEscape name || (lookup d locals name).isNone

variable {d : Deployment} {locals : Fields Value}

theorem tokenNames_advance (pieces : List Piece) :
    tokenNames (pieces.flatMap (advance d locals)) = remaining d locals pieces := by
  induction pieces with
  | nil => rfl
  | cons piece rest ih =>
    rw [List.flatMap_cons, tokenNames_append, ih]
    cases piece with
    | literal c => rfl
    | token name =>
      rw [advance, remaining, remaining, tokenNames_token, List.filter_cons]
      by_cases hescape : isEscape name = true
      · simp [hescape]
      · cases hlookup : lookup d locals name with
        | some t => simp [hescape]
        | none => simp [hescape]

/-- Scanning a text that is left finds the tokens that stay, and no others, if and only if no
opening strays in it. -/
theorem tokenNames_scan_render_iff {text : Text} (h : pending d locals (scan text) ≠ []) :
    tokenNames (scan (render d locals (scan text))) = remaining d locals (scan text) ↔
      NoneStrays ((scan text).flatMap (advance d locals)) := by
  have htokens : ∀ name, .token name ∈ (scan text).flatMap (advance d locals) →
      name ≠ [] ∧ closing ∉ name := by
    intro name hname
    rcases mem_advance hname with hname | ⟨_, _, c, -, -, -, heq⟩
    · exact token_of_mem_scan hname
    · cases heq
  rw [← tokenNames_rescan_iff, tokenNames_advance, render_of_pending h, scan,
    scanFrom_written htokens]

/-- The text and the local variables in the argument of a substitution. -/
def textAndLocals? : Value → Option (Text × Fields Value)
  | .string text => some (text, [])
  | .list [.string text, .map locals] => some (text, locals)
  | _ => none

theorem evalSub_of_textAndLocals {argument : Value} {text : Text}
    (h : textAndLocals? argument = some (text, locals)) :
    Intrinsic.evalSub d argument = .ok (.value (substitute d locals text)) := by
  unfold textAndLocals? at h
  split at h
  · obtain ⟨rfl, rfl⟩ := Prod.mk.inj (Option.some.inj h)
    rfl
  · obtain ⟨rfl, rfl⟩ := Prod.mk.inj (Option.some.inj h)
    rfl
  · cases h

/-- What a substitution leaves is the text with every known variable replaced. -/
theorem pending_of_substitute_eq_call {text : Text} {left : Value}
    (h : substitute d locals text = .call Intrinsic.sub left) :
    pending d locals (scan text) ≠ [] ∧
      ∃ needed, textAndLocals? left = some (render d locals (scan text), needed) := by
  obtain ⟨-, heq⟩ | ⟨hpending, -, heq⟩ | ⟨hpending, -, heq⟩ := substitute_cases d locals text
  · cases heq.symm.trans h
  all_goals
    obtain rfl := (Prod.mk.inj (List.singleton_inj.mp (Value.map.inj (heq.symm.trans h)))).2
    exact ⟨hpending, _, rfl⟩

/-- **Which tokens are left.**  If a substitution leaves a call, the text in that call is scanned
again later.  The tokens that are found in it then are those of the original text that are escapes
or pending, in their order, if and only if no opening strays among the literals and the texts of
known variables that stand in it.

An opening strays if a closing brace or one of these tokens follows, but no closing brace at
once. -/
theorem tokenNames_left_iff {argument left : Value} {text : Text}
    (hargument : textAndLocals? argument = some (text, locals))
    (hleft : Intrinsic.evalSub d argument = .ok (.value (.call Intrinsic.sub left))) :
    ∃ emitted needed, textAndLocals? left = some (emitted, needed) ∧
      (tokenNames (scan emitted) = remaining d locals (scan text) ↔
        NoneStrays ((scan text).flatMap (advance d locals))) := by
  rw [evalSub_of_textAndLocals hargument] at hleft
  obtain ⟨hpending, needed, hparts⟩ :=
    pending_of_substitute_eq_call (Outcome.value.inj (Except.ok.inj hleft))
  exact ⟨_, needed, hparts, tokenNames_scan_render_iff hpending⟩

/-- The text of a known variable has a dollar sign before a brace that closes at once, and another
one at its end.  Neither does harm. -/
theorem tokenNames_left_iff_of_empty_braces :
    let argument : Value := .list
      [.string "$\x7bPrice\x7d or $\x7bLater\x7d, $\x7b!Free\x7d",
        .map [("Price", .string "$\x7b\x7d 9$")]]
    let left : Value := .string "$\x7b\x7d 9$ or $\x7bLater\x7d, $\x7b!Free\x7d"
    Intrinsic.evalSub {} argument = .ok (.value (.call Intrinsic.sub left)) ∧
      ∃ emitted needed, textAndLocals? left = some (emitted, needed) ∧
        tokenNames (scan emitted) = ["Later", "!Free"] := by
  intro argument left
  have hleft : Intrinsic.evalSub {} argument = .ok (.value (.call Intrinsic.sub left)) := by
    decide +kernel
  obtain ⟨emitted, needed, hparts, hiff⟩ := tokenNames_left_iff rfl hleft
  exact ⟨hleft, emitted, needed, hparts, hiff.mpr (by decide +kernel)⟩

/-- A text that is substituted can hold a token, complete one with what stands behind it, and open
one that runs into a token which stays.  Of the original text only one token is pending each
time. -/
theorem tokenNames_left_of_stray_openings :
    let argument (text known : Text) : Value :=
      .list [.string text, .map [("Known", .string known)]]
    let left (text known emitted : Text) (names : List Text) : Prop :=
      Intrinsic.evalSub {} (argument text known) =
          .ok (.value (.call Intrinsic.sub (.string emitted))) ∧
        tokenNames (scan emitted) = names ∧
        remaining {} [("Known", .string known)] (scan text) = ["Later"]
    left "$\x7bKnown\x7d/$\x7bLater\x7d" "$\x7bOther\x7d" "$\x7bOther\x7d/$\x7bLater\x7d"
        ["Other", "Later"] ∧
      left "$\x7bKnown\x7d\x7bOther\x7d/$\x7bLater\x7d" "$" "$\x7bOther\x7d/$\x7bLater\x7d"
        ["Other", "Later"] ∧
      left "$\x7bKnown\x7d$\x7bLater\x7d" "$\x7b" "$\x7b$\x7bLater\x7d" ["$\x7bLater"] := by
  decide +kernel

end CloudTemplate.Substitution

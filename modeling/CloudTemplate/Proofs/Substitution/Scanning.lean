import CloudTemplate.Intrinsic.Substitution
import CloudTemplate.Proofs.Value.Dollars

/-!
# Scanning what was written

Pieces are written one after the other.  If no literal is a dollar sign, so that every dollar sign
begins a token, then scanning what was written gives the same pieces back
(`Substitution.scan_written`).  A text without dollar signs has no tokens at all.
-/

namespace CloudTemplate.Substitution

/-- A piece in writing. -/
def Piece.written : Piece → Text
  | .literal c => [c]
  | .token name => tokenText name

/-- A piece that stands apart from its neighbours: a literal that opens no token, or a token with a
name as tokens have it. -/
def Piece.StandsApart : Piece → Prop
  | .literal c => c ≠ dollar
  | .token name => name ≠ [] ∧ closing ∉ name

theorem scanFrom_literal {c : CodePoint} (hc : c ≠ dollar) (rest : Text) :
    scanFrom none (c :: rest) = .literal c :: scanFrom none rest := by
  rw [scanFrom]
  intro _ h
  exact absurd h hc

/-- After an opening the scan goes on to the first closing brace, which ends the token. -/
theorem scanFrom_name {name : Text} (hclosing : closing ∉ name) (seen rest : Text)
    (hne : seen.reverse ++ name ≠ []) :
    scanFrom (some seen) (name ++ closing :: rest) =
      .token (seen.reverse ++ name) :: scanFrom none rest := by
  induction name generalizing seen with
  | nil =>
    cases seen with
    | nil => simp at hne
    | cons c seen => rw [List.append_nil, List.nil_append, closing, scanFrom]
  | cons c name ih =>
    obtain ⟨hc, hname⟩ := not_or.mp fun h => hclosing (List.mem_cons.mpr h)
    have hscan : scanFrom (some seen) (c :: (name ++ closing :: rest)) =
        scanFrom (some (c :: seen)) (name ++ closing :: rest) := by
      rw [scanFrom]
      · exact fun _ h => absurd h.symm hc
      · exact fun _ _ _ h => absurd h.symm hc
    rw [List.cons_append, hscan, ih hname _ (by simp)]
    simp

theorem scanFrom_token {name : Text} (hne : name ≠ []) (hclosing : closing ∉ name) (rest : Text) :
    scanFrom none (tokenText name ++ rest) = .token name :: scanFrom none rest := by
  have hwritten : tokenText name ++ rest =
      CodePoint.char '$' :: CodePoint.char '{' :: (name ++ closing :: rest) := by
    simp [tokenText, opening]
  rw [hwritten, scanFrom, scanFrom_name hclosing [] rest hne]
  rfl

/-- **Scanning undoes writing.** -/
theorem scan_written {pieces : List Piece} (h : ∀ piece ∈ pieces, piece.StandsApart) :
    scan (pieces.flatMap Piece.written) = pieces := by
  rw [scan]
  induction pieces with
  | nil => rw [List.flatMap_nil, scanFrom]
  | cons piece rest ih =>
    have hpiece := h piece List.mem_cons_self
    have hrest := ih fun p hp => h p (List.mem_cons_of_mem _ hp)
    rw [List.flatMap_cons]
    cases piece with
    | literal c =>
      rw [Piece.written, List.singleton_append, scanFrom_literal hpiece, hrest]
    | token name =>
      rw [Piece.written, scanFrom_token hpiece.1 hpiece.2, hrest]

/-- A token stands for itself alone. -/
theorem scan_tokenText {name : Text} (hne : name ≠ []) (hclosing : closing ∉ name) :
    scan (tokenText name) = [.token name] := by
  have hapart : ∀ piece ∈ [Piece.token name], piece.StandsApart :=
    List.forall_mem_singleton.mpr ⟨hne, hclosing⟩
  rw [← scan_written hapart, List.flatMap_singleton, Piece.written]

theorem written_map_literal (text : Text) :
    (text.map Piece.literal).flatMap Piece.written = text := by
  rw [List.flatMap_map]
  exact List.flatMap_singleton' text

/-- A text without dollar signs is all literal. -/
theorem scan_of_not_mem {text : Text} (h : dollar ∉ text) : scan text = text.map .literal := by
  have hapart : ∀ piece ∈ text.map Piece.literal, piece.StandsApart := by
    intro piece hmem
    obtain ⟨c, hc, rfl⟩ := List.mem_map.mp hmem
    exact ne_of_mem_of_not_mem hc h
  rw [← scan_written hapart, written_map_literal]

/-- While a name is read, what was seen of it holds no closing brace. -/
theorem token_of_mem_scanFrom {seen : Option Text} {text name : Text}
    (hseen : ∀ t, seen = some t → closing ∉ t) (h : Piece.token name ∈ scanFrom seen text) :
    name ≠ [] ∧ closing ∉ name := by
  fun_induction scanFrom seen text with
  | case1 => simp at h
  | case2 rest ih => exact ih (by simp) h
  | case3 c rest _ ih => exact ih (by simp) (by simpa using h)
  | case4 seen => simp [opening] at h
  | case5 rest ih => exact ih (by simp) (by simpa [opening] using h)
  | case6 c seen rest ih =>
    rcases List.mem_cons.mp h with h | h
    · obtain rfl := Piece.token.inj h
      refine ⟨by simp, fun hmem => hseen _ rfl (List.mem_reverse.mp hmem)⟩
    · exact ih (by simp) h
  | case7 seen c rest hfirst hlater ih =>
    have hc : closing ≠ c := by
      rintro rfl
      cases seen with
      | nil => exact hfirst rfl rfl
      | cons d seen => exact hlater d seen rfl rfl
    refine ih (fun t ht hmem => ?_) h
    obtain rfl := Option.some.inj ht
    exact (List.mem_cons.mp hmem).elim hc (hseen seen rfl)

/-- The names of tokens are not empty and hold no closing brace. -/
theorem token_of_mem_scan {text name : Text} (h : Piece.token name ∈ scan text) :
    name ≠ [] ∧ closing ∉ name :=
  token_of_mem_scanFrom (by simp) h

end CloudTemplate.Substitution

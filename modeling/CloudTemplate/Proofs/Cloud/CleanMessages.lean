import Mathlib.Data.List.Infix
import CloudTemplate.Cloud.Redaction

/-!
# Redacted messages are clean

In a message that was redacted there is no resource name and no account number.  Resource names are
replaced before account numbers, and neither of the texts that take their places makes a new one:
an asterisk ends every resource name that runs into it, unless a blank ended it earlier, and where
it comes after the second colon, something else that is no blank stood there before.  Nor does it
make a word boundary, since the digits that it takes the place of lay between two of them.

A message without resource names and account numbers is left as it is.  So redacting twice is the
same as redacting once.

Of the classes of code points it matters only that digits belong to words, that nothing that belongs
to words is a blank, and that an asterisk does not belong to words.

## Main results

* `Redaction.redact_clean`: a redacted message is clean, and just the clean messages are left as
  they are.
-/

namespace CloudTemplate.Cloud.Redaction

open CharacterSet (blank decimalDigit alphanumeric)

/-! ### Classes of code points -/

/-- The code point that stands where something is hidden. -/
def star : CodePoint := '*'

/-- All that is needed of the tables. -/
theorem words_have_digits_and_no_blanks :
    decimalDigit.isPartOf alphanumeric = true ∧ alphanumeric.isApartFrom blank = true ∧
      isWordPoint star = false := by decide +kernel

theorem isWordPoint_of_decimalDigit {c : CodePoint} (h : decimalDigit.contains c = true) :
    isWordPoint c = true := by
  have hpart := words_have_digits_and_no_blanks.1
  rw [isWordPoint, CharacterSet.contains_of_isPartOf hpart h, Bool.or_true]

theorem not_blank_of_isWordPoint {c : CodePoint} (h : isWordPoint c = true) :
    ¬ blank.contains c = true := by
  have hapart := words_have_digits_and_no_blanks.2.1
  rw [isWordPoint, Bool.or_eq_true, decide_eq_true_eq] at h
  rcases h with rfl | h
  · decide
  · exact CharacterSet.not_contains_of_isApartFrom hapart h

theorem not_isWordPoint_star : isWordPoint star = false := words_have_digits_and_no_blanks.2.2

theorem not_decimalDigit_star : ¬ decimalDigit.contains star = true := fun h =>
  Bool.eq_false_iff.mp not_isWordPoint_star (isWordPoint_of_decimalDigit h)

/-! ### What a clean message does not hold -/

/-- What resource names begin with, up to their second colon behind the mark. -/
def IsNameHead (head : Text) : Prop :=
  ∃ partition service : Text, (∀ c ∈ partition, isLetterOrHyphen c = true) ∧
    (∀ c ∈ service, (isLetterOrHyphen c || isDigit c) = true) ∧
    head = nameMark ++ (partition ++ .char ':' :: (service ++ [.char ':']))

/-- A resource name: behind its head come one or more code points that are no blanks. -/
def IsResourceName (t : Text) : Prop :=
  ∃ head rest : Text, IsNameHead head ∧ rest ≠ [] ∧ (∀ c ∈ rest, ¬ blank.contains c = true) ∧
    t = head ++ rest

/-- An account number. -/
def IsAccountNumber (t : Text) : Prop :=
  t.length = accountLength ∧ ∀ c ∈ t, decimalDigit.contains c = true

/-- Between two texts there is a word boundary: on just one side of it stands a code point that
belongs to words. -/
def IsWordBoundary (before after : Text) : Prop :=
  before.getLast?.any isWordPoint ≠ after.head?.any isWordPoint

/-- A message that holds no resource name, and no account number between two word boundaries. -/
structure IsClean (t : Text) : Prop where
  no_name (s : Text) (h : s <:+: t) : ¬ IsResourceName s
  no_account (before digits after : Text) (h : t = before ++ (digits ++ after))
    (hdigits : IsAccountNumber digits) (hbefore : IsWordBoundary before (digits ++ after)) :
    ¬ IsWordBoundary (before ++ digits) after

/-! ### Finding a resource name -/

/-- A resource name begins with the text. -/
def BeginsName (t : Text) : Prop :=
  ∃ (head : Text) (c : CodePoint) (rest : Text), IsNameHead head ∧ ¬ blank.contains c = true ∧
    t = head ++ c :: rest

theorem star_not_mem_head {head : Text} (h : IsNameHead head) : star ∉ head := by
  obtain ⟨partition, service, hpartition, hservice, rfl⟩ := h
  have hstar : ¬ (isLetterOrHyphen star || isDigit star) = true := by decide
  intro hmem
  simp only [List.mem_append, List.mem_cons, List.not_mem_nil, or_false] at hmem
  rcases hmem with hmem | hmem | hmem | hmem | hmem
  · exact absurd hmem (by decide)
  · exact hstar (by rw [hpartition _ hmem, Bool.true_or])
  · exact absurd hmem (by decide)
  · exact hstar (hservice _ hmem)
  · exact absurd hmem (by decide)

theorem BeginsName.nameMark_prefix {t : Text} (h : BeginsName t) : nameMark <+: t := by
  obtain ⟨_, c, rest, ⟨partition, service, -, -, rfl⟩, -, rfl⟩ := h
  rw [List.append_assoc]
  exact List.prefix_append _ _

theorem beginsName_append {t : Text} (h : IsResourceName t) (behind : Text) :
    BeginsName (t ++ behind) := by
  obtain ⟨head, rest, hhead, hne, hrest, rfl⟩ := h
  obtain ⟨c, rest, rfl⟩ := List.exists_cons_of_ne_nil hne
  exact ⟨head, c, rest ++ behind, hhead, hrest c List.mem_cons_self, by simp⟩

/-- A text holds a resource name if one begins somewhere in it. -/
theorem forall_not_beginsName_iff {t : Text} :
    (∀ u, u <:+ t → ¬ BeginsName u) ↔ ∀ s, s <:+: t → ¬ IsResourceName s := by
  constructor
  · rintro h s ⟨before, after, rfl⟩ hs
    refine h (s ++ after) ?_ (beginsName_append hs after)
    rw [List.append_assoc]
    exact List.suffix_append _ _
  · rintro h u ⟨before, rfl⟩ ⟨head, c, rest, hhead, hc, rfl⟩
    refine h (head ++ [c]) ⟨before, rest, by simp⟩ ⟨head, [c], hhead, by simp,
      List.forall_mem_singleton.mpr hc, rfl⟩

theorem exists_of_resourceNameLength? {t : Text} {n : Nat} (h : resourceNameLength? t = some n) :
    ∃ head body rest : Text, IsNameHead head ∧ body ≠ [] ∧
      (∀ c ∈ body, ¬ blank.contains c = true) ∧ t = head ++ (body ++ rest) ∧
      n = (head ++ body).length := by
  unfold resourceNameLength? at h
  split at h
  · cases h
  next hmark =>
  rw [Bool.not_eq_true', Bool.not_eq_false, Text.startsWith, List.isPrefixOf_iff_prefix] at hmark
  obtain ⟨behindMark, rfl⟩ := hmark
  rw [List.drop_left] at h
  extract_lets partition behindPartition service behindService body at h
  split at h
  case isFalse => cases h
  next hshape =>
  simp only [Bool.and_eq_true, decide_eq_true_eq, Bool.not_eq_true',
    List.isEmpty_eq_false_iff] at hshape
  obtain ⟨⟨hcolon, hcolon'⟩, hbody⟩ := hshape
  obtain ⟨afterPartition, hbehind⟩ := List.head?_eq_some_iff.mp hcolon
  obtain ⟨afterService, hbehind'⟩ := List.head?_eq_some_iff.mp hcolon'
  have hpartition : partition ++ behindPartition = behindMark := by
    simp only [behindPartition, List.drop_length_add_append]
    exact List.prefix_iff_eq_append.mp (List.takeWhile_prefix _)
  have hservice : service ++ behindService = afterPartition := by
    simp only [behindService, service, hbehind, Nat.add_comm 1, List.drop_succ_cons, List.drop_zero]
    exact List.prefix_iff_eq_append.mp (List.takeWhile_prefix _)
  have hrest : body ++ afterService.drop body.length = afterService := by
    simp only [body, hbehind', List.drop_succ_cons, List.drop_zero]
    exact List.prefix_iff_eq_append.mp (List.takeWhile_prefix _)
  refine ⟨_, body, afterService.drop body.length, ⟨partition, service,
    List.all_eq_true.mp List.all_takeWhile, List.all_eq_true.mp List.all_takeWhile, rfl⟩, hbody,
    fun c hc => by simpa using List.all_eq_true.mp List.all_takeWhile c hc, ?_, ?_⟩
  · rw [hrest, ← hpartition, hbehind, ← hservice, hbehind']
    simp
  · obtain rfl := Option.some.inj h
    simp only [List.length_append, List.length_cons, List.length_nil]
    omega

/-- A run ends where something else comes. -/
theorem takeWhile_append_cons {p : CodePoint → Bool} {run : Text} {c : CodePoint}
    (hrun : ∀ a ∈ run, p a = true) (hc : ¬ p c = true) (rest : Text) :
    (run ++ c :: rest).takeWhile p = run := by
  rw [List.takeWhile_append_of_pos hrun, List.takeWhile_cons_of_neg hc, List.append_nil]

theorem resourceNameLength?_ne_none {t : Text} (h : BeginsName t) :
    resourceNameLength? t ≠ none := by
  obtain ⟨_, c, rest, ⟨partition, service, hpartition, hservice, rfl⟩, hc, rfl⟩ := h
  have hrun : (partition ++ .char ':' :: (service ++ .char ':' :: c :: rest)).takeWhile
      isLetterOrHyphen = partition := takeWhile_append_cons hpartition (by decide) _
  have hrun' : (service ++ .char ':' :: c :: rest).takeWhile
      (fun c => isLetterOrHyphen c || isDigit c) = service :=
    takeWhile_append_cons hservice (by decide) _
  rw [resourceNameLength?]
  simp only [List.append_assoc, List.cons_append, List.nil_append, List.drop_left,
    List.drop_length_add_append]
  rw [hrun, List.drop_left, List.drop_succ_cons, List.drop_zero, hrun']
  simp [Text.startsWith, hc, Nat.add_comm 1]

/-! ### Hiding makes no resource names -/

/-- The second text is the first one with some parts of it hidden, none of which begins with a
blank. -/
inductive Hides : Text → Text → Prop
  | nil : Hides [] []
  | keep (c : CodePoint) {t u : Text} (h : Hides t u) : Hides (c :: t) (c :: u)
  | hide {c : CodePoint} (hc : ¬ blank.contains c = true) (part : Text) {t u : Text}
      (h : Hides t u) : Hides (c :: (part ++ t)) (hiddenAccount ++ u)

namespace Hides

variable {t u : Text}

/-- What stands before the first asterisk was there already, and behind it came something that is no
blank if this is so now. -/
theorem exists_eq_append (h : Hides t u) {kept rest : Text} {c : CodePoint} (hkept : star ∉ kept)
    (hc : ¬ blank.contains c = true) (hu : u = kept ++ c :: rest) :
    ∃ d behind, ¬ blank.contains d = true ∧ t = kept ++ d :: behind := by
  induction h generalizing kept with
  | nil => simp at hu
  | keep a h ih =>
    cases kept with
    | nil =>
      obtain ⟨rfl, -⟩ := List.cons.inj hu
      exact ⟨_, _, hc, rfl⟩
    | cons b kept =>
      obtain ⟨rfl, hu'⟩ := List.cons.inj hu
      obtain ⟨d, behind, hd, rfl⟩ := ih (fun hmem => hkept (List.mem_cons_of_mem _ hmem)) hu'
      exact ⟨d, behind, hd, rfl⟩
  | hide ha part h ih =>
    cases kept with
    | nil => exact ⟨_, _, ha, rfl⟩
    | cons b kept =>
      obtain ⟨hstar, -⟩ := List.cons.inj hu
      exact absurd (hstar ▸ List.mem_cons_self) hkept

theorem beginsName (h : Hides t u) (hu : BeginsName u) : BeginsName t := by
  obtain ⟨head, c, rest, hhead, hc, rfl⟩ := hu
  obtain ⟨d, behind, hd, rfl⟩ := h.exists_eq_append (star_not_mem_head hhead) hc rfl
  exact ⟨head, d, behind, hhead, hd, rfl⟩

/-- If no resource name begins anywhere in a text, none does when parts of it are hidden. -/
theorem forall_not_beginsName (h : Hides t u) (ht : ∀ s, s <:+ t → ¬ BeginsName s) :
    ∀ s, s <:+ u → ¬ BeginsName s := by
  induction h with
  | nil => exact ht
  | keep c h ih =>
    intro s hs
    rcases List.suffix_cons_iff.mp hs with rfl | hs
    · exact fun hname => ht _ List.suffix_rfl ((h.keep c).beginsName hname)
    · exact ih (fun r hr => ht r (hr.trans (List.suffix_cons _ _))) s hs
  | @hide c hc part t u h ih =>
    have hnot (rest : Text) : ¬ BeginsName (star :: rest) := by
      intro hname
      obtain ⟨behind, hmark⟩ := hname.nameMark_prefix
      exact absurd (List.cons.inj hmark).1 (by decide)
    have htail : ∀ r, r <:+ t → r <:+ c :: (part ++ t) := fun r hr =>
      (hr.trans (List.suffix_append _ _)).trans (List.suffix_cons _ _)
    intro s hs
    rcases List.suffix_cons_iff.mp hs with rfl | hs
    · exact hnot _
    rcases List.suffix_cons_iff.mp hs with rfl | hs
    · exact hnot _
    rcases List.suffix_cons_iff.mp hs with rfl | hs
    · exact hnot _
    exact ih (fun r hr => ht r (htail r hr)) s hs

end Hides

/-! ### Hiding resource names -/

/-- A resource name that is found begins with its mark and ends where the redaction goes on. -/
theorem exists_eq_nameMark_append {c : CodePoint} {rest : Text} {n : Nat}
    (h : resourceNameLength? (c :: rest) = some n) :
    ∃ part : Text, c :: rest = nameMark ++ (part ++ rest.drop (n - 1)) := by
  obtain ⟨head, body, behind, hhead, hne, -, ht, rfl⟩ := exists_of_resourceNameLength? h
  have hlength : 0 < (head ++ body).length :=
    List.length_pos_of_ne_nil (List.append_ne_nil_of_right_ne_nil head hne)
  have hbehind : rest.drop ((head ++ body).length - 1) = behind := by
    rw [← List.drop_cons hlength, ht, ← List.append_assoc, List.drop_left]
  obtain ⟨partition, service, -, -, rfl⟩ := hhead
  refine ⟨partition ++ .char ':' :: (service ++ [.char ':']) ++ body, ?_⟩
  rw [hbehind, ht]
  simp only [List.append_assoc]

theorem hides_redactNames (t : Text) : Hides t (redactNames t) := by
  induction t using redactNames.induct with
  | case1 => rw [redactNames]; exact .nil
  | case2 c rest n hn ih =>
    rw [redactNames, hn]
    obtain ⟨part, hpart⟩ := exists_eq_nameMark_append hn
    rw [hpart]
    exact .keep 'a' (.keep 'r' (.keep 'n' (.keep ':' (.hide (by decide) ("ws" ++ part) ih))))
  | case3 c rest hn ih =>
    rw [redactNames, hn]
    exact .keep c ih

/-- No resource name begins where a hidden one stands, or in it. -/
theorem not_beginsName_append {w : Text} (hw : w <:+ hiddenName) (hne : w ≠ []) (rest : Text) :
    ¬ BeginsName (w ++ rest) := by
  have htails : ∀ w ∈ hiddenName.tails, w ≠ [] → ¬ w <+: nameMark := by decide
  have hlength : hiddenName.length ≤ nameMark.length := by decide
  intro h
  refine htails w ((List.mem_tails _ _).mpr hw) hne ?_
  exact List.prefix_of_prefix_length_le (List.prefix_append _ _) h.nameMark_prefix
    (hw.length_le.trans hlength)

/-- In what is left no resource name begins anywhere. -/
theorem forall_not_beginsName_redactNames (t : Text) :
    ∀ s, s <:+ redactNames t → ¬ BeginsName s := by
  induction t using redactNames.induct with
  | case1 =>
    rintro s hs ⟨head, c, rest, -, -, rfl⟩
    rw [redactNames] at hs
    simp at hs
  | case2 c rest n hn ih =>
    rw [redactNames, hn]
    rintro s ⟨before, hs⟩
    rcases List.append_eq_append_iff.mp hs with ⟨w, hw, rfl⟩ | ⟨w, rfl, hw⟩
    · cases w with
      | nil => exact ih _ List.suffix_rfl
      | cons a w => exact not_beginsName_append ⟨_, hw.symm⟩ (List.cons_ne_nil _ _) _
    · exact ih s ⟨w, hw.symm⟩
  | case3 c rest hn ih =>
    have hhides := hides_redactNames (c :: rest)
    rw [redactNames, hn] at hhides ⊢
    intro s hs
    rcases List.suffix_cons_iff.mp hs with rfl | hs
    · exact fun hname => resourceNameLength?_ne_none (hhides.beginsName hname) hn
    · exact ih s hs

theorem redactNames_eq_self {t : Text} (h : ∀ s, s <:+ t → ¬ BeginsName s) :
    redactNames t = t := by
  induction t using redactNames.induct with
  | case1 => rw [redactNames]
  | case2 c rest n hn =>
    obtain ⟨head, body, behind, hhead, hne, hbody, ht, -⟩ := exists_of_resourceNameLength? hn
    have hname : IsResourceName (head ++ body) := ⟨head, body, hhead, hne, hbody, rfl⟩
    rw [ht, ← List.append_assoc] at h
    exact absurd (beginsName_append hname behind) (h _ List.suffix_rfl)
  | case3 c rest hn ih =>
    rw [redactNames, hn]
    exact congrArg (c :: ·) (ih fun s hs => h s (hs.trans (List.suffix_cons _ _)))

/-! ### Finding an account number -/

theorem beginsAccount_iff {behindWord : Bool} {t : Text} :
    beginsAccount behindWord t = true ↔ behindWord = false ∧ ∃ digits after : Text,
      t = digits ++ after ∧ IsAccountNumber digits ∧ after.head?.any isWordPoint = false := by
  simp only [beginsAccount, Bool.and_eq_true, Bool.not_eq_true', decide_eq_true_eq,
    List.all_eq_true]
  constructor
  · rintro ⟨⟨⟨hbehind, hlength⟩, hdigits⟩, hafter⟩
    exact ⟨hbehind, _, _, (List.take_append_drop _ t).symm, ⟨hlength, hdigits⟩, hafter⟩
  · rintro ⟨hbehind, digits, after, rfl, ⟨hlength, hdigits⟩, hafter⟩
    rw [← hlength, List.take_left, List.drop_left]
    exact ⟨⟨⟨hbehind, rfl⟩, hdigits⟩, hafter⟩

theorem not_beginsAccount_of_behindWord (t : Text) : ¬ beginsAccount true t = true := fun h =>
  Bool.noConfusion (beginsAccount_iff.mp h).1

/-- An account number begins with a digit, and what follows it does not go on with a word. -/
theorem decimalDigit_of_beginsAccount {behindWord : Bool} {c : CodePoint} {rest : Text}
    (h : beginsAccount behindWord (c :: rest) = true) :
    decimalDigit.contains c = true ∧
      (rest.drop (accountLength - 1)).head?.any isWordPoint = false := by
  obtain ⟨-, digits, after, ht, ⟨hlength, hdigits⟩, hafter⟩ := beginsAccount_iff.mp h
  cases digits with
  | nil => cases hlength
  | cons d digits =>
    obtain ⟨rfl, hrest⟩ := List.cons.inj ht
    have hdrop : rest.drop (accountLength - 1) = after := by
      rw [hrest, ← hlength]
      exact List.drop_left
    exact ⟨hdigits c List.mem_cons_self, hdrop ▸ hafter⟩

/-- Somewhere in a text, which stands behind a code point that belongs to a word or not, an account
number begins. -/
inductive HoldsAccount : Bool → Text → Prop
  | here {behindWord : Bool} {t : Text} (h : beginsAccount behindWord t = true) :
      HoldsAccount behindWord t
  | later {behindWord : Bool} {c : CodePoint} {t : Text} (h : HoldsAccount (isWordPoint c) t) :
      HoldsAccount behindWord (c :: t)

theorem not_holdsAccount_nil (behindWord : Bool) : ¬ HoldsAccount behindWord [] := by
  intro h
  cases h with
  | here h =>
    obtain ⟨-, digits, after, ht, ⟨hlength, -⟩, -⟩ := beginsAccount_iff.mp h
    rw [(List.append_eq_nil_iff.mp ht.symm).1] at hlength
    cases hlength

/-- An account number begins at the start of a text or behind its first code point. -/
theorem holdsAccount_cons_iff {behindWord : Bool} {c : CodePoint} {t : Text} :
    HoldsAccount behindWord (c :: t) ↔
      beginsAccount behindWord (c :: t) = true ∨ HoldsAccount (isWordPoint c) t := by
  constructor
  · intro h
    cases h with
    | here h => exact .inl h
    | later h => exact .inr h
  · exact Or.rec .here .later

theorem holdsAccount_star_cons_iff {behindWord : Bool} {t : Text} :
    HoldsAccount behindWord (star :: t) ↔ HoldsAccount false t := by
  rw [holdsAccount_cons_iff, not_isWordPoint_star, or_iff_right]
  exact fun h => not_decimalDigit_star (decimalDigit_of_beginsAccount h).1

/-! ### Hiding account numbers -/

theorem redactAccounts_cons_of_not {behindWord : Bool} {c : CodePoint} {rest : Text}
    (h : ¬ beginsAccount behindWord (c :: rest) = true) :
    redactAccounts behindWord (c :: rest) = c :: redactAccounts (isWordPoint c) rest := by
  rw [redactAccounts, if_neg h]

/-- Within a word nothing is hidden. -/
theorem exists_of_redactAccounts_behindWord {run t after : Text}
    (hrun : ∀ c ∈ run, isWordPoint c = true) (h : redactAccounts true t = run ++ after) :
    ∃ rest, t = run ++ rest ∧ after = redactAccounts true rest := by
  induction run generalizing t with
  | nil => exact ⟨t, rfl, h.symm⟩
  | cons d run ih =>
    obtain ⟨hd, hothers⟩ := List.forall_mem_cons.mp hrun
    cases t with
    | nil => rw [redactAccounts] at h; cases h
    | cons c t =>
      rw [redactAccounts_cons_of_not (not_beginsAccount_of_behindWord _)] at h
      obtain ⟨rfl, hbehind⟩ := List.cons.inj h
      rw [hd] at hbehind
      obtain ⟨rest, rfl, hafter⟩ := ih hothers hbehind
      exact ⟨rest, rfl, hafter⟩

theorem head?_redactAccounts_behindWord (t : Text) : (redactAccounts true t).head? = t.head? := by
  cases t with
  | nil => rw [redactAccounts]
  | cons c t => rw [redactAccounts_cons_of_not (not_beginsAccount_of_behindWord _)]; rfl

/-- Hiding account numbers further on makes none at the start. -/
theorem beginsAccount_of_redactAccounts {behindWord : Bool} {c : CodePoint} {rest : Text}
    (h : beginsAccount behindWord (c :: redactAccounts (isWordPoint c) rest) = true) :
    beginsAccount behindWord (c :: rest) = true := by
  obtain ⟨hbehind, digits, after, ht, ⟨hlength, hdigits⟩, hafter⟩ := beginsAccount_iff.mp h
  have hword := fun d hd => isWordPoint_of_decimalDigit (hdigits d hd)
  cases digits with
  | nil => cases hlength
  | cons d digits =>
    obtain ⟨rfl, hrest⟩ := List.cons.inj ht
    obtain ⟨hc, hrun⟩ := List.forall_mem_cons.mp hword
    rw [hc] at hrest
    obtain ⟨rest, rfl, rfl⟩ := exists_of_redactAccounts_behindWord hrun hrest
    rw [head?_redactAccounts_behindWord] at hafter
    exact beginsAccount_iff.mpr ⟨hbehind, c :: digits, rest, rfl, ⟨hlength, hdigits⟩, hafter⟩

/-- In what is left no account number begins anywhere. -/
theorem not_holdsAccount_redactAccounts (behindWord : Bool) (t : Text) :
    ¬ HoldsAccount behindWord (redactAccounts behindWord t) := by
  induction behindWord, t using redactAccounts.induct with
  | case1 behindWord =>
    rw [redactAccounts]
    exact not_holdsAccount_nil _
  | case2 behindWord c rest hbegins ih =>
    have hbehind := (decimalDigit_of_beginsAccount hbegins).2
    rw [redactAccounts, if_pos hbegins]
    generalize rest.drop (accountLength - 1) = behind at *
    have hhead := head?_redactAccounts_behindWord behind
    intro h
    have h : HoldsAccount false (redactAccounts true behind) :=
      holdsAccount_star_cons_iff.mp (holdsAccount_star_cons_iff.mp
        (holdsAccount_star_cons_iff.mp h))
    cases hredacted : redactAccounts true behind with
    | nil =>
      rw [hredacted] at h
      exact not_holdsAccount_nil _ h
    | cons d redacted =>
      rw [hredacted] at h ih hhead
      rcases holdsAccount_cons_iff.mp h with h | h
      · rw [← hhead] at hbehind
        have hd := isWordPoint_of_decimalDigit (decimalDigit_of_beginsAccount h).1
        exact Bool.eq_false_iff.mp hbehind hd
      · exact ih (.later h)
  | case3 behindWord c rest hbegins ih =>
    rw [redactAccounts_cons_of_not hbegins, holdsAccount_cons_iff, not_or]
    exact ⟨fun h => hbegins (beginsAccount_of_redactAccounts h), ih⟩

theorem hides_redactAccounts (behindWord : Bool) (t : Text) :
    Hides t (redactAccounts behindWord t) := by
  induction behindWord, t using redactAccounts.induct with
  | case1 => rw [redactAccounts]; exact .nil
  | case2 behindWord c rest hbegins ih =>
    have hc := isWordPoint_of_decimalDigit (decimalDigit_of_beginsAccount hbegins).1
    rw [redactAccounts, if_pos hbegins]
    conv => arg 1; rw [← List.take_append_drop (accountLength - 1) rest]
    exact .hide (not_blank_of_isWordPoint hc) _ ih
  | case3 behindWord c rest hbegins ih =>
    rw [redactAccounts_cons_of_not hbegins]
    exact .keep c ih

theorem redactAccounts_eq_self {behindWord : Bool} {t : Text} (h : ¬ HoldsAccount behindWord t) :
    redactAccounts behindWord t = t := by
  induction t generalizing behindWord with
  | nil => rw [redactAccounts]
  | cons c rest ih =>
    obtain ⟨hbegins, hrest⟩ := not_or.mp (mt holdsAccount_cons_iff.mpr h)
    rw [redactAccounts_cons_of_not hbegins, ih hrest]

/-! ### Clean messages -/

/-- Where an account number begins, no word goes on before it or behind it. -/
theorem holdsAccount_iff {behindWord : Bool} {t : Text} :
    HoldsAccount behindWord t ↔ ∃ before digits after : Text, t = before ++ (digits ++ after) ∧
      IsAccountNumber digits ∧ (before.getLast?.map isWordPoint).getD behindWord = false ∧
      after.head?.any isWordPoint = false := by
  have hlast (b : Bool) (c : CodePoint) (before : Text) :
      ((c :: before).getLast?.map isWordPoint).getD b =
        (before.getLast?.map isWordPoint).getD (isWordPoint c) := by
    rw [List.getLast?_cons]
    cases before.getLast? <;> rfl
  constructor
  · intro h
    induction h with
    | here h =>
      obtain ⟨hbehind, digits, after, rfl, hdigits, hafter⟩ := beginsAccount_iff.mp h
      exact ⟨[], digits, after, rfl, hdigits, hbehind, hafter⟩
    | later h ih =>
      obtain ⟨before, digits, after, rfl, hdigits, hbefore, hafter⟩ := ih
      exact ⟨_ :: before, digits, after, rfl, hdigits, (hlast _ _ before).trans hbefore, hafter⟩
  · rintro ⟨before, digits, after, rfl, hdigits, hbefore, hafter⟩
    induction before generalizing behindWord with
    | nil => exact .here (beginsAccount_iff.mpr ⟨hbefore, digits, after, rfl, hdigits, hafter⟩)
    | cons c before ih => exact .later (ih ((hlast _ c before).symm.trans hbefore))

/-- Before an account number is a word boundary unless a word goes on. -/
theorem isWordBoundary_append_iff {before digits after : Text} (h : IsAccountNumber digits) :
    IsWordBoundary before (digits ++ after) ↔
      (before.getLast?.map isWordPoint).getD false = false := by
  obtain ⟨hlength, hdigits⟩ := h
  cases digits with
  | nil => cases hlength
  | cons d digits =>
    have hd := isWordPoint_of_decimalDigit (hdigits d List.mem_cons_self)
    rw [IsWordBoundary, List.cons_append, List.head?_cons, Option.any_some, hd]
    cases before.getLast? <;> simp

/-- Behind an account number is a word boundary unless a word goes on. -/
theorem append_isWordBoundary_iff {before digits after : Text} (h : IsAccountNumber digits) :
    IsWordBoundary (before ++ digits) after ↔ after.head?.any isWordPoint = false := by
  obtain ⟨hlength, hdigits⟩ := h
  rcases List.eq_nil_or_concat digits with rfl | ⟨digits, d, rfl⟩
  · cases hlength
  · have hd := isWordPoint_of_decimalDigit (hdigits d (by simp))
    rw [IsWordBoundary, List.concat_eq_append, ← List.append_assoc, List.getLast?_concat,
      Option.any_some, hd]
    cases after.head?.any isWordPoint <;> simp

/-- A message is clean if no resource name and no account number begins anywhere in it. -/
theorem isClean_iff {t : Text} :
    IsClean t ↔ (∀ s, s <:+ t → ¬ BeginsName s) ∧ ¬ HoldsAccount false t := by
  rw [forall_not_beginsName_iff, holdsAccount_iff]
  constructor
  · rintro ⟨hname, haccount⟩
    refine ⟨hname, ?_⟩
    rintro ⟨before, digits, after, ht, hdigits, hbefore, hafter⟩
    exact haccount before digits after ht hdigits ((isWordBoundary_append_iff hdigits).mpr hbefore)
      ((append_isWordBoundary_iff hdigits).mpr hafter)
  · rintro ⟨hname, haccount⟩
    refine ⟨hname, fun before digits after ht hdigits hbefore hafter => haccount ?_⟩
    exact ⟨before, digits, after, ht, hdigits, (isWordBoundary_append_iff hdigits).mp hbefore,
      (append_isWordBoundary_iff hdigits).mp hafter⟩

/-- **A redacted message is clean.**  No part of it is a resource name, and no account number stands
between two word boundaries; redacting it once more changes nothing.  The messages that are left as
they are, are those that are clean. -/
theorem redact_clean (m : Text) :
    IsClean (redact m) ∧ redact (redact m) = redact m ∧ (redact m = m ↔ IsClean m) := by
  have hclean (m : Text) : IsClean (redact m) := by
    refine isClean_iff.mpr ⟨?_, not_holdsAccount_redactAccounts false _⟩
    exact (hides_redactAccounts false _).forall_not_beginsName (forall_not_beginsName_redactNames m)
  have hkept {m : Text} (h : IsClean m) : redact m = m := by
    obtain ⟨hnames, haccounts⟩ := isClean_iff.mp h
    rw [redact, redactNames_eq_self hnames, redactAccounts_eq_self haccounts]
  exact ⟨hclean m, hkept (hclean m), fun h => h ▸ hclean m, hkept⟩

end CloudTemplate.Cloud.Redaction

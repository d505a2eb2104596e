import CloudTemplate.Json.Reader
import CloudTemplate.Recorded
import CloudTemplate.Proofs.Value.Nodes

/-!
# Distinct names

A map of a document has no name twice.  `Value.HasDistinctNames` says so of every map in a value,
and every document that is read is of this kind (`Json.hasDistinctNames_of_read`): a name that a map
holds twice keeps its first place and its last value.
-/

namespace CloudTemplate

namespace Value

/-- The names of the entries, if the value is a map. -/
def names : Value → List Text
  | .map entries => Fields.names entries
  | _ => []

/-- In every map of the value the names are distinct. -/
def HasDistinctNames (v : Value) : Prop :=
  ∀ n ∈ v.nodes, n.names.Nodup

instance (v : Value) : Decidable v.HasDistinctNames :=
  inferInstanceAs (Decidable (∀ n ∈ v.nodes, n.names.Nodup))

theorem hasDistinctNames_of_isAtom {v : Value} (h : v.isAtom = true) : v.HasDistinctNames := by
  cases v with
  | null | bool | int | double | string => simp [HasDistinctNames, nodes, names]
  | list | map => cases h

theorem hasDistinctNames_list_iff {items : List Value} :
    (list items).HasDistinctNames ↔ ∀ v ∈ items, v.HasDistinctNames := by
  simp only [HasDistinctNames, mem_nodes_list]
  constructor
  · exact fun h v hv n hn => h n (.inr ⟨v, hv, hn⟩)
  · rintro h n (rfl | ⟨v, hv, hn⟩)
    · exact List.nodup_nil
    · exact h v hv n hn

theorem hasDistinctNames_map_iff {entries : Fields Value} :
    (map entries).HasDistinctNames ↔
      entries.names.Nodup ∧ ∀ entry ∈ entries, entry.2.HasDistinctNames := by
  simp only [HasDistinctNames, mem_nodes_map]
  constructor
  · exact fun h => ⟨h _ (.inl rfl), fun entry hentry n hn => h n (.inr ⟨entry, hentry, hn⟩)⟩
  · rintro ⟨hnames, hentries⟩ n (rfl | ⟨entry, hentry, hn⟩)
    · exact hnames
    · exact hentries entry hentry n hn

/-- Writing an entry keeps names distinct. -/
theorem hasDistinctNames_set {done : Fields Value} {name : Text} {v : Value}
    (hdone : (map done).HasDistinctNames) (hv : v.HasDistinctNames) :
    (map (done.set name v)).HasDistinctNames := by
  rw [hasDistinctNames_map_iff] at hdone ⊢
  refine ⟨Fields.nodup_names_set hdone.1 name v, fun entry hentry => ?_⟩
  rcases Fields.mem_set hentry with rfl | hentry
  · exact hv
  · exact hdone.2 entry hentry

end Value

namespace Json

open Value (hasDistinctNames_of_isAtom hasDistinctNames_list_iff hasDistinctNames_set)

/-! ### Tokens -/

/-- The token holds neither a list nor a map. -/
def Token.IsAtomic : Token → Prop
  | .scalar v => v.isAtom = true
  | _ => True

theorem isAtomic_of_scanNumber {cs : List Char} {found : Nat × Token}
    (h : scanNumber cs = some found) : found.2.IsAtomic := by
  unfold scanNumber at h
  extract_lets negative sign whole behindWhole fraction point n at h
  split at h
  · cases h
  · generalize scanExponent _ = scanned at h
    obtain ⟨exponentLength, exponent⟩ := scanned
    dsimp only at h
    split at h
    · split at h
      · exact Option.some.inj h ▸ trivial
      · exact Option.some.inj h ▸ rfl
    · exact Option.some.inj h ▸ rfl

theorem isAtomic_of_scanWord {cs : List Char} {found : Nat × Token}
    (h : scanWord cs = some found) : found.2.IsAtomic := by
  obtain ⟨word, hword, rfl⟩ := Option.map_eq_some_iff.mp h
  have hwords : ∀ word ∈ words, word.2.isAtom = true := by decide
  exact hwords word (List.mem_of_find?_eq_some hword)

theorem isAtomic_scanToken (offset : Nat) (c : Char) (rest : List Char) :
    (scanToken offset c rest).2.IsAtomic := by
  unfold scanToken
  split
  · split <;> trivial
  · split
    · next token hpunctuation =>
      unfold punctuation? at hpunctuation
      split at hpunctuation <;> cases hpunctuation <;> trivial
    · split
      · next length token hfound =>
        rcases Option.or_eq_some_iff.mp hfound with hword | ⟨-, hnumber⟩
        · have := isAtomic_of_scanWord hword
          exact this
        · have := isAtomic_of_scanNumber hnumber
          exact this
      · trivial

theorem isAtomic_of_mem_tokensFrom {offset : Nat} {cs : List Char} :
    ∀ lexeme ∈ tokensFrom offset cs, lexeme.token.IsAtomic := by
  fun_induction tokensFrom offset cs with
  | case1 => simp
  | case2 _ _ _ _ ih => exact ih
  | case3 offset c rest _ length token hscan ih =>
    have htoken := isAtomic_scanToken offset c rest
    rw [hscan] at htoken
    exact List.forall_mem_cons.mpr ⟨htoken, ih⟩

/-! ### The reader -/

/-- The part of a list or map that has been read has distinct names. -/
def Frame.HasDistinctNames : Frame → Prop
  | .list done => (Value.list done).HasDistinctNames
  | .map done _ => (Value.map done).HasDistinctNames

/-- What has been read of the innermost list or map has distinct names. -/
def Due.HasDistinctNames : Due → Prop
  | .value | .firstItem => True
  | .name done | .colon done _ | .moreEntries done => (Value.map done).HasDistinctNames
  | .moreItems done => (Value.list done).HasDistinctNames
  | .nothing v => v.HasDistinctNames

/-- Everything that has been read has distinct names. -/
structure State.HasDistinctNames (state : State) : Prop where
  frames : ∀ frame ∈ state.frames, frame.HasDistinctNames
  due : state.due.HasDistinctNames

theorem hasDistinctNames_list_nil : (Value.list []).HasDistinctNames := by decide

theorem hasDistinctNames_map_nil : (Value.map []).HasDistinctNames := by decide

theorem State.hasDistinctNames_place {frames : List Frame} {v : Value}
    (hframes : ∀ frame ∈ frames, frame.HasDistinctNames) (hv : v.HasDistinctNames) :
    (place frames v).HasDistinctNames := by
  match frames, hframes with
  | [], hframes => exact ⟨hframes, hv⟩
  | .list done :: frames, hframes =>
    obtain ⟨hdone, hframes⟩ := List.forall_mem_cons.mp hframes
    have hitems : ∀ u ∈ v :: done, u.HasDistinctNames :=
      List.forall_mem_cons.mpr ⟨hv, hasDistinctNames_list_iff.mp hdone⟩
    exact ⟨hframes, hasDistinctNames_list_iff.mpr hitems⟩
  | .map done name :: frames, hframes =>
    obtain ⟨hdone, hframes⟩ := List.forall_mem_cons.mp hframes
    exact ⟨hframes, hasDistinctNames_set hdone hv⟩

theorem State.hasDistinctNames_readValue {frames : List Frame} {lexeme : Lexeme} {state : State}
    (hframes : ∀ frame ∈ frames, frame.HasDistinctNames) (htoken : lexeme.token.IsAtomic)
    (h : readValue frames lexeme = .ok state) : state.HasDistinctNames := by
  unfold readValue at h
  split at h
  · next v heq =>
    rw [heq] at htoken
    exact Except.ok.inj h ▸ hasDistinctNames_place hframes (hasDistinctNames_of_isAtom htoken)
  · exact Except.ok.inj h ▸ hasDistinctNames_place hframes (hasDistinctNames_of_isAtom rfl)
  · exact Except.ok.inj h ▸ ⟨hframes, trivial⟩
  · exact Except.ok.inj h ▸ ⟨hframes, hasDistinctNames_map_nil⟩
  · cases h
  · cases h
  · cases h

/-- A token that is read keeps names distinct. -/
theorem State.HasDistinctNames.read {state after : State} {lexeme : Lexeme}
    (hstate : state.HasDistinctNames) (htoken : lexeme.token.IsAtomic)
    (h : state.read lexeme = .ok after) : after.HasDistinctNames := by
  obtain ⟨frames, due⟩ := state
  obtain ⟨hframes, hdue⟩ := hstate
  unfold State.read at h
  dsimp only at h hframes hdue
  split at h
  · exact hasDistinctNames_readValue hframes htoken h
  · exact Except.ok.inj h ▸ hasDistinctNames_place hframes hasDistinctNames_list_nil
  · have hopen : (Frame.list []).HasDistinctNames := hasDistinctNames_list_nil
    exact hasDistinctNames_readValue (List.forall_mem_cons.mpr ⟨hopen, hframes⟩) htoken h
  · exact Except.ok.inj h ▸ ⟨hframes, hdue⟩
  · cases h
  · exact Except.ok.inj h ▸ hasDistinctNames_place hframes hdue
  · cases h
  · exact Except.ok.inj h ▸ ⟨List.forall_mem_cons.mpr ⟨hdue, hframes⟩, trivial⟩
  · cases h
  · exact Except.ok.inj h ▸ ⟨List.forall_mem_cons.mpr ⟨hdue, hframes⟩, trivial⟩
  · next done _ =>
    have hreverse : ∀ v ∈ done.reverse, v.HasDistinctNames :=
      fun v hv => hasDistinctNames_list_iff.mp hdue v (List.mem_reverse.mp hv)
    exact Except.ok.inj h ▸
      hasDistinctNames_place hframes (hasDistinctNames_list_iff.mpr hreverse)
  · cases h
  · exact Except.ok.inj h ▸ ⟨hframes, hdue⟩
  · exact Except.ok.inj h ▸ hasDistinctNames_place hframes hdue
  · cases h
  · cases h

/-- All tokens that are read keep names distinct. -/
theorem State.HasDistinctNames.readAll {lexemes : List Lexeme} {state after : State}
    (hstate : state.HasDistinctNames) (htokens : ∀ lexeme ∈ lexemes, lexeme.token.IsAtomic)
    (h : lexemes.foldlM State.read state = .ok after) : after.HasDistinctNames := by
  induction lexemes generalizing state with
  | nil => exact Except.ok.inj h ▸ hstate
  | cons lexeme rest ih =>
    obtain ⟨htoken, hrest⟩ := List.forall_mem_cons.mp htokens
    rw [List.foldlM_cons] at h
    obtain ⟨next, hread, h⟩ := bind_eq_ok.mp h
    exact ih (hstate.read htoken hread) hrest h

/-- **A document that is read has distinct names**: a map never has a name twice. -/
theorem hasDistinctNames_of_read {cs : List Char} {v : Value} (h : read cs = .ok v) :
    v.HasDistinctNames := by
  rw [read] at h
  split at h
  · cases h
  · obtain ⟨state, hstate, h⟩ := bind_eq_ok.mp h
    have hbegin : (State.mk [] .value).HasDistinctNames := ⟨by simp, trivial⟩
    have hend := hbegin.readAll isAtomic_of_mem_tokensFrom hstate
    rw [State.finish] at h
    split at h
    · next heq =>
      have hdue := hend.due
      rw [heq] at hdue
      exact Except.ok.inj h ▸ hdue
    all_goals cases h

end Json

end CloudTemplate

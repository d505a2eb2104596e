/-!
# Computations that keep a record

A computation notes events as it goes and may fail.  A failure ends it, but what was noted before
stays.

`Recorded.bind_notes_ok` and `Recorded.bind_notes_error` say which notes a sequence of two
computations leaves.
-/

namespace CloudTemplate

/-- A computation that notes events of type `ω`, and gives an `α` or fails with an `ε`. -/
structure Recorded (ω ε α : Type) where
  notes : List ω
  result : Except ε α

/-- Another account of the failure of a sequence is another account of the failure of either
part. -/
@[simp]
theorem mapError_bind {ε δ α β : Type} (f : ε → δ) (x : Except ε α) (g : α → Except ε β) :
    (x >>= g).mapError f = x.mapError f >>= fun a => (g a).mapError f := by
  cases x <;> rfl

@[simp]
theorem mapError_map {ε δ α β : Type} (f : ε → δ) (x : Except ε α) (g : α → β) :
    (g <$> x).mapError f = g <$> x.mapError f := by
  cases x <;> rfl

/-- A sequence succeeds if both parts do. -/
theorem bind_eq_ok {ε α β : Type} {x : Except ε α} {f : α → Except ε β} {b : β} :
    (x >>= f) = .ok b ↔ ∃ a, x = .ok a ∧ f a = .ok b := by
  cases x with
  | error e => exact ⟨nofun, fun ⟨_, h, _⟩ => nomatch h⟩
  | ok a => exact ⟨fun h => ⟨a, rfl, h⟩, fun ⟨_, h, hf⟩ => Except.ok.inj h ▸ hf⟩

/-- A sequence fails if the first part does, or the second after it. -/
theorem bind_eq_error {ε α β : Type} {x : Except ε α} {f : α → Except ε β} {e : ε} :
    (x >>= f) = .error e ↔ x = .error e ∨ ∃ a, x = .ok a ∧ f a = .error e := by
  cases x <;> simp [bind, Except.bind]

theorem map_eq_ok {ε α β : Type} {x : Except ε α} {f : α → β} {b : β} :
    f <$> x = .ok b ↔ ∃ a, x = .ok a ∧ f a = b := by
  cases x with
  | error e => exact ⟨nofun, fun ⟨_, h, _⟩ => nomatch h⟩
  | ok a => exact ⟨fun h => ⟨a, rfl, Except.ok.inj h⟩, fun ⟨_, h, hf⟩ => by rw [h, ← hf]; rfl⟩

theorem map_eq_error {ε α β : Type} {x : Except ε α} {f : α → β} {e : ε} :
    f <$> x = .error e ↔ x = .error e := by
  cases x <;> simp [Functor.map, Except.map]

/-- Two computations whose results are put together succeed if both do. -/
theorem bind_map_eq_ok {ε α β γ : Type} {x : Except ε α} {y : Except ε β} {f : α → β → γ} {c : γ} :
    (x >>= fun a => f a <$> y) = .ok c ↔ ∃ a b, x = .ok a ∧ y = .ok b ∧ c = f a b := by
  rw [bind_eq_ok]
  constructor
  · rintro ⟨a, hx, h⟩
    obtain ⟨b, hy, rfl⟩ := map_eq_ok.mp h
    exact ⟨a, b, hx, hy, rfl⟩
  · rintro ⟨a, b, hx, hy, rfl⟩
    exact ⟨a, hx, map_eq_ok.mpr ⟨b, hy, rfl⟩⟩

theorem mapError_eq_ok {ε δ α : Type} {x : Except ε α} {f : ε → δ} {a : α} :
    x.mapError f = .ok a ↔ x = .ok a := by
  cases x with
  | error e => exact ⟨nofun, nofun⟩
  | ok b => exact ⟨fun h => congrArg _ (Except.ok.inj h), fun h => congrArg _ (Except.ok.inj h)⟩

namespace Recorded

variable {ω ε δ α β : Type}

/-- First `x`, then what follows from its result; its failure is the failure of the whole. -/
def bind (x : Recorded ω ε α) (f : α → Recorded ω ε β) : Recorded ω ε β :=
  match x.result with
  | .ok a => ⟨x.notes ++ (f a).notes, (f a).result⟩
  | .error e => ⟨x.notes, .error e⟩

instance : Monad (Recorded ω ε) where
  pure a := ⟨[], .ok a⟩
  bind := bind

/-- Note some events. -/
def noteAll (events : List ω) : Recorded ω ε Unit := ⟨events, .ok ()⟩

/-- Note an event. -/
def note (event : ω) : Recorded ω ε Unit := noteAll [event]

/-- A result that was found without noting anything. -/
def ofExcept (result : Except ε α) : Recorded ω ε α := ⟨[], result⟩

/-- The same computation with another account of its failure. -/
def mapError (f : ε → δ) (x : Recorded ω ε α) : Recorded ω δ α :=
  ⟨x.notes, match x.result with | .ok a => .ok a | .error e => .error (f e)⟩

instance : LawfulMonad (Recorded ω ε) :=
  LawfulMonad.mk' _
    (fun x => by
      obtain ⟨notes, result⟩ := x
      cases result <;> simp [Functor.map, bind])
    (fun a f => by simp [Bind.bind, bind, Pure.pure])
    (fun x f g => by
      obtain ⟨notes, result⟩ := x
      cases result with
      | error e => rfl
      | ok a =>
        simp only [Bind.bind, bind]
        cases (f a).result <;> simp)

@[simp]
theorem result_pure (a : α) : (pure a : Recorded ω ε α).result = .ok a := rfl

@[simp]
theorem notes_pure (a : α) : (pure a : Recorded ω ε α).notes = [] := rfl

@[simp]
theorem result_ofExcept (r : Except ε α) : (ofExcept r : Recorded ω ε α).result = r := rfl

@[simp]
theorem notes_ofExcept (r : Except ε α) : (ofExcept r : Recorded ω ε α).notes = [] := rfl

@[simp]
theorem result_noteAll (events : List ω) : (noteAll events : Recorded ω ε Unit).result = .ok () :=
  rfl

@[simp]
theorem notes_noteAll (events : List ω) : (noteAll events : Recorded ω ε Unit).notes = events := rfl

@[simp]
theorem notes_mapError (f : ε → δ) (x : Recorded ω ε α) : (mapError f x).notes = x.notes := rfl

@[simp]
theorem result_mapError (f : ε → δ) (x : Recorded ω ε α) :
    (mapError f x).result = x.result.mapError f := by
  obtain ⟨notes, result⟩ := x
  cases result <;> rfl

@[simp]
theorem result_bind (x : Recorded ω ε α) (f : α → Recorded ω ε β) :
    (x >>= f).result = x.result >>= fun a => (f a).result := by
  obtain ⟨notes, result⟩ := x
  cases result <;> rfl

theorem result_bind_eq_ok {x : Recorded ω ε α} {f : α → Recorded ω ε β} {b : β} :
    (x >>= f).result = .ok b ↔ ∃ a, x.result = .ok a ∧ (f a).result = .ok b := by
  rw [result_bind, bind_eq_ok]

@[simp]
theorem result_map (f : α → β) (x : Recorded ω ε α) : (f <$> x).result = f <$> x.result := by
  obtain ⟨notes, result⟩ := x
  cases result <;> rfl

@[simp]
theorem notes_map (f : α → β) (x : Recorded ω ε α) : (f <$> x).notes = x.notes := by
  obtain ⟨notes, result⟩ := x
  cases result with
  | ok a => exact List.append_nil notes
  | error e => rfl

theorem result_bind_map_eq_ok {γ : Type} {x : Recorded ω ε α} {y : Recorded ω ε β}
    {f : α → β → γ} {c : γ} :
    (x >>= fun a => f a <$> y).result = .ok c ↔
      ∃ a b, x.result = .ok a ∧ y.result = .ok b ∧ c = f a b := by
  simp only [result_bind, result_map, bind_map_eq_ok]

/-- After a success the notes of the second computation follow. -/
theorem bind_notes_ok {x : Recorded ω ε α} {f : α → Recorded ω ε β} {a : α}
    (h : x.result = .ok a) : (x >>= f).notes = x.notes ++ (f a).notes := by
  simp [Bind.bind, bind, h]

/-- After a failure nothing more is noted. -/
theorem bind_notes_error {x : Recorded ω ε α} {f : α → Recorded ω ε β} {e : ε}
    (h : x.result = .error e) : (x >>= f).notes = x.notes := by
  simp [Bind.bind, bind, h]

theorem note_bind (event : ω) (f : Unit → Recorded ω ε α) :
    note event >>= f = ⟨event :: (f ()).notes, (f ()).result⟩ := rfl

theorem mk_ok_bind (notes : List ω) (a : α) (f : α → Recorded ω ε β) :
    (⟨notes, .ok a⟩ : Recorded ω ε α) >>= f = ⟨notes ++ (f a).notes, (f a).result⟩ := rfl

/-- A sequence of computations that note nothing notes nothing. -/
theorem notes_bind_eq_nil {x : Recorded ω ε α} {f : α → Recorded ω ε β} (hx : x.notes = [])
    (hf : ∀ a, (f a).notes = []) : (x >>= f).notes = [] := by
  cases h : x.result with
  | ok a => rw [bind_notes_ok h, hx, hf, List.append_nil]
  | error e => rw [bind_notes_error h, hx]

/-- What a sequence notes is noted by one of its parts. -/
theorem mem_notes_bind {x : Recorded ω ε α} {f : α → Recorded ω ε β} {event : ω} :
    event ∈ (x >>= f).notes ↔
      event ∈ x.notes ∨ ∃ a, x.result = .ok a ∧ event ∈ (f a).notes := by
  cases h : x.result with
  | ok a => simp [bind_notes_ok h]
  | error e => simp [bind_notes_error h]

end Recorded

end CloudTemplate

import Mathlib.Order.Defs.Unbundled
import Sfs.Lib.Run

/-!
# Computations that keep their state when they fail

`EStateM ε σ` without backtracking is code that works on a state in place and returns early: an
error leaves the state as the steps before it made it. `Keeps φ m` says that `m` leaves the part
`φ` of the state alone, whatever its outcome, and `Follows R m` that it only moves the state along
the preorder `R`.
-/

namespace Sfs.Lib

variable {ε σ τ ρ α β : Type}

variable {m : EStateM ε σ α} {s s' : σ} {a : α} {e : ε} {f : α → EStateM ε σ β} {as : List α}

/-- The state that `m` leaves, on either outcome. -/
def after (m : EStateM ε σ α) (s : σ) : σ :=
  match m s with
  | .ok _ s' => s'
  | .error _ s' => s'

theorem after_of_ok (h : m s = .ok a s') : after m s = s' := by
  rw [after, h]

theorem after_of_error (h : m s = .error e s') : after m s = s' := by
  rw [after, h]

/-- What `m` returns. -/
def outcome (m : EStateM ε σ α) (s : σ) : Except ε α :=
  match m s with
  | .ok a _ => .ok a
  | .error e _ => .error e

theorem outcome_of_ok (h : m s = .ok a s') : outcome m s = .ok a := by
  rw [outcome, h]

theorem outcome_of_error (h : m s = .error e s') : outcome m s = .error e := by
  rw [outcome, h]

/-! ## Sequencing -/

theorem bind_of_ok (h : m s = .ok a s') :
    (m >>= f) s = f a s' := by
  show EStateM.bind m f s = _
  rw [EStateM.bind, h]

theorem bind_of_error (h : m s = .error e s') :
    (m >>= f) s = .error e s' := by
  show EStateM.bind m f s = _
  rw [EStateM.bind, h]

theorem bind_eq_ok_iff {s'' : σ} {b : β} :
    (m >>= f) s = .ok b s'' ↔ ∃ a s', m s = .ok a s' ∧ f a s' = .ok b s'' := by
  cases h : m s with
  | ok a s' =>
    rw [bind_of_ok h]
    constructor
    · exact fun hf => ⟨a, s', rfl, hf⟩
    · rintro ⟨_, _, ⟨⟩, hf⟩
      exact hf
  | error e s' => simp [bind_of_error h]

theorem bind_eq_error_iff {s'' : σ} :
    (m >>= f) s = .error e s'' ↔ m s = .error e s'' ∨
      ∃ a s', m s = .ok a s' ∧ f a s' = .error e s'' := by
  cases h : m s with
  | ok a s' =>
    rw [bind_of_ok h]
    constructor
    · exact fun hf => .inr ⟨a, s', rfl, hf⟩
    · rintro (⟨⟨⟩⟩ | ⟨_, _, ⟨⟩, hf⟩)
      exact hf
  | error e s' => simp [bind_of_error h]

theorem get_bind (f : σ → EStateM ε σ α) (s : σ) : (get >>= f) s = f s s := rfl

/-- A step that is made whole or not at all. -/
def transact (f : σ → Except ε σ) : EStateM ε σ Unit := fun s =>
  match f s with
  | .ok s' => .ok () s'
  | .error e => .error e s

theorem transact_eq_ok_iff {f : σ → Except ε σ} : transact f s = .ok () s' ↔ f s = .ok s' := by
  unfold transact
  cases f s with
  | ok s₁ =>
    constructor
    · rintro ⟨⟩
      rfl
    · rintro ⟨⟩
      rfl
  | error e => exact ⟨fun h => (nomatch h), fun h => (nomatch h)⟩

theorem after_transact (f : σ → Except ε σ) (s : σ) :
    f s = .ok (after (transact f) s) ∨ after (transact f) s = s := by
  unfold after transact
  cases f s with
  | ok s₁ => exact .inl rfl
  | error e => exact .inr rfl

/-- The outcome of `m` as a value. -/
def attempt (m : EStateM ε σ α) : EStateM ε σ (Except ε α) := fun s =>
  match m s with
  | .ok a s' => .ok (.ok a) s'
  | .error e s' => .ok (.error e) s'

theorem attempt_eq (m : EStateM ε σ α) (s : σ) : ∃ r, attempt m s = .ok r (after m s) := by
  cases h : m s <;> simp [attempt, after, h]

/-! ## Loops -/

def forEach : List α → (α → EStateM ε σ Unit) → EStateM ε σ Unit
  | [], _ => pure ()
  | a :: as, f => do
    f a
    forEach as f

/-! ## Both outcomes -/

/-- From `s`, `m` returns into `Q` or fails into `E`, and only with errors in `C`. -/
def Ends (C : ε → Prop) (m : EStateM ε σ α) (s : σ) (Q : α → σ → Prop) (E : σ → Prop) : Prop :=
  (∀ a s', m s = .ok a s' → Q a s') ∧ ∀ e s', m s = .error e s' → C e ∧ E s'

section

variable {C : ε → Prop} {Q Q' : α → σ → Prop} {R : β → σ → Prop} {E E' : σ → Prop} {s : σ}

theorem Ends.pure (h : Q a s) : Ends C (Pure.pure a : EStateM ε σ α) s Q E := by
  refine ⟨?_, fun _ _ h => (nomatch h)⟩
  rintro _ _ ⟨⟩
  exact h

theorem Ends.throw (he : C e) (h : E s) : Ends C (throw e : EStateM ε σ α) s Q E := by
  refine ⟨fun _ _ h => (nomatch h), ?_⟩
  rintro _ _ ⟨⟩
  exact ⟨he, h⟩

theorem Ends.modify {f : σ → σ} {Q : PUnit → σ → Prop} (h : Q ⟨⟩ (f s)) :
    Ends C (modify f : EStateM ε σ PUnit) s Q E := by
  refine ⟨?_, fun _ _ h => (nomatch h)⟩
  rintro _ _ ⟨⟩
  exact h

theorem Ends.mono (h : Ends C m s Q E) (hQ : ∀ a s', Q a s' → Q' a s') (hE : ∀ s', E s' → E' s') :
    Ends C m s Q' E' :=
  ⟨fun a s' hm => hQ a s' (h.1 a s' hm), fun e s' hm => (h.2 e s' hm).imp_right (hE s')⟩

theorem Ends.failing (h : Ends C m s Q E) (hE : ∀ s', E s' → E' s') : Ends C m s Q E' :=
  h.mono (fun _ _ h => h) hE

theorem Ends.bind (h : Ends C m s Q E) (hf : ∀ a s', Q a s' → Ends C (f a) s' R E) :
    Ends C (m >>= f) s R E := by
  constructor
  · intro b s'' hb
    obtain ⟨a, s', hm, hfa⟩ := bind_eq_ok_iff.mp hb
    exact (hf a s' (h.1 a s' hm)).1 b s'' hfa
  · intro e s'' he
    rcases bind_eq_error_iff.mp he with hm | ⟨a, s', hm, hfa⟩
    · exact h.2 e s'' hm
    · exact (hf a s' (h.1 a s' hm)).2 e s'' hfa

theorem Ends.get {f : σ → EStateM ε σ α} (h : Ends C (f s) s Q E) :
    Ends C (MonadState.get >>= f) s Q E :=
  h

end

/-! ## What is left alone -/

def Keeps (φ : σ → τ) (m : EStateM ε σ α) : Prop := ∀ s, φ (after m s) = φ s

section

variable {φ : σ → τ}

theorem Keeps.of_ok (h : Keeps φ m) (hm : m s = .ok a s') : φ s' = φ s :=
  after_of_ok hm ▸ h s

theorem Keeps.of_error (h : Keeps φ m) (hm : m s = .error e s') :
    φ s' = φ s :=
  after_of_error hm ▸ h s

theorem Keeps.pure (a : α) : Keeps φ (Pure.pure a : EStateM ε σ α) := fun _ => rfl

theorem Keeps.throw (e : ε) : Keeps φ (throw e : EStateM ε σ α) := fun _ => rfl

theorem Keeps.get : Keeps φ (get : EStateM ε σ σ) := fun _ => rfl

theorem Keeps.modify {f : σ → σ} (h : ∀ s, φ (f s) = φ s) : Keeps φ (modify f : EStateM ε σ PUnit) := h

theorem Keeps.bind (hm : Keeps φ m) (hf : ∀ a, Keeps φ (f a)) :
    Keeps φ (m >>= f) := by
  intro s
  cases h : m s with
  | ok a s' => rw [after, bind_of_ok h, ← hm.of_ok h, ← hf a s', after]
  | error e s' => rw [after, bind_of_error h, ← hm.of_error h]

theorem Keeps.ite {c : Prop} [Decidable c] {m' : EStateM ε σ α} (h : Keeps φ m) (h' : Keeps φ m') :
    Keeps φ (if c then m else m') := by
  split
  · exact h
  · exact h'

theorem Keeps.ofExcept (x : Except ε α) : Keeps φ (ofExcept x : EStateM ε σ α) := by
  cases x
  · exact Keeps.throw _
  · exact Keeps.pure _

theorem Keeps.forEach {f : α → EStateM ε σ Unit} (h : ∀ a ∈ as, Keeps φ (f a)) :
    Keeps φ (forEach as f) := by
  induction as with
  | nil => exact Keeps.pure ()
  | cons a as ih => exact Keeps.bind (h a (.head _)) fun _ => ih fun b hb => h b (.tail _ hb)

theorem Keeps.attempt (h : Keeps φ m) : Keeps φ (attempt m) := by
  intro s
  obtain ⟨r, hr⟩ := attempt_eq m s
  rw [after_of_ok hr, h s]

end

/-! ## Steps along a preorder -/

/-- Whatever its outcome, `m` leads to a state that `R` allows. -/
def Follows (R : σ → σ → Prop) (m : EStateM ε σ α) : Prop := ∀ s, R s (after m s)

section

variable {R : σ → σ → Prop}

theorem Follows.of_ok (h : Follows R m) (hm : m s = .ok a s') : R s s' :=
  after_of_ok hm ▸ h s

theorem Follows.of_error (h : Follows R m) (hm : m s = .error e s') : R s s' :=
  after_of_error hm ▸ h s

theorem Follows.pure [Std.Refl R] (a : α) : Follows R (Pure.pure a : EStateM ε σ α) :=
  fun s => Std.Refl.refl s

theorem Follows.throw [Std.Refl R] (e : ε) : Follows R (throw e : EStateM ε σ α) :=
  fun s => Std.Refl.refl s

theorem Follows.get {f : σ → EStateM ε σ α} (hf : ∀ s, Follows R (f s)) : Follows R (get >>= f) :=
  fun s => hf s s

theorem Follows.bind [IsTrans σ R] (hm : Follows R m) (hf : ∀ a, Follows R (f a)) :
    Follows R (m >>= f) := by
  intro s
  cases h : m s with
  | ok a s' =>
    rw [after, bind_of_ok h]
    exact IsTrans.trans _ _ _ (hm.of_ok h) (hf a s')
  | error e s' =>
    rw [after, bind_of_error h]
    exact hm.of_error h

theorem Follows.ofExcept [Std.Refl R] (x : Except ε α) : Follows R (ofExcept x : EStateM ε σ α) := by
  cases x
  · exact Follows.throw _
  · exact Follows.pure _

theorem Follows.forEach [Std.Refl R] [IsTrans σ R] {f : α → EStateM ε σ Unit}
    (h : ∀ a ∈ as, Follows R (f a)) : Follows R (forEach as f) := by
  induction as with
  | nil => exact Follows.pure ()
  | cons a as ih => exact Follows.bind (h a (.head _)) fun _ => ih fun b hb => h b (.tail _ hb)

end

/-! ## Putting a part back

`Leaves φ v m` says that `φ` is `v` after `m`, whatever it was before and whatever the outcome. -/

def Leaves (φ : σ → τ) (v : τ) (m : EStateM ε σ α) : Prop := ∀ s, φ (after m s) = v

/-- `m` does not fail. -/
def Total (m : EStateM ε σ α) : Prop := ∀ s, ∃ a s', m s = .ok a s'

theorem Total.modify (f : σ → σ) : Total (modify f : EStateM ε σ PUnit) := fun s => ⟨⟨⟩, f s, rfl⟩

theorem Total.pure (a : α) : Total (Pure.pure a : EStateM ε σ α) := fun s => ⟨a, s, rfl⟩

theorem Total.attempt (m : EStateM ε σ α) : Total (attempt m) := fun s =>
  have ⟨r, h⟩ := attempt_eq m s
  ⟨r, after m s, h⟩

theorem Total.ite {c : Prop} [Decidable c] {m' : EStateM ε σ α} (h : Total m) (h' : Total m') :
    Total (if c then m else m') := by
  split
  · exact h
  · exact h'

section

variable {φ : σ → τ} {v : τ}

theorem Leaves.modify {f : σ → σ} (h : ∀ s, φ (f s) = v) :
    Leaves φ v (modify f : EStateM ε σ PUnit) :=
  h

/-- What keeps the part may follow. -/
theorem Leaves.bind (hm : Leaves φ v m) (hf : ∀ a, Keeps φ (f a)) :
    Leaves φ v (m >>= f) := by
  intro s
  cases h : m s with
  | ok a s' => rw [after, bind_of_ok h, ← hm s, after_of_ok h, ← hf a s', after]
  | error e s' => rw [after, bind_of_error h, ← hm s, after_of_error h]

/-- What does not fail may come before. -/
theorem Total.leaves (hm : Total m) (hf : ∀ a, Leaves φ v (f a)) :
    Leaves φ v (m >>= f) := by
  intro s
  obtain ⟨a, s', h⟩ := hm s
  rw [after, bind_of_ok h, ← hf a s', after]

/-- A scope that leaves the part as it found it. -/
theorem Keeps.of_get {f : σ → EStateM ε σ α} (hf : ∀ s, Leaves φ (φ s) (f s)) :
    Keeps φ (MonadState.get >>= f) := fun s => hf s s

end

/-! ## Working on a part of the state -/

/-- A step on the part `get` of the state. -/
def onPart (get : σ → ρ) (set : σ → ρ → σ) (m : EStateM ε ρ α) : EStateM ε σ α := fun s =>
  match m (get s) with
  | .ok a p => .ok a (set s p)
  | .error e p => .error e (set s p)

theorem Keeps.onPart {φ : σ → τ} {get : σ → ρ} {set : σ → ρ → σ} (h : ∀ s p, φ (set s p) = φ s)
    (m : EStateM ε ρ α) : Keeps φ (onPart get set m) := by
  intro s
  cases hm : m (get s) <;> simp [after, Lib.onPart, hm, h]

end Sfs.Lib

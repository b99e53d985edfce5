/-!
# Runs of a step function

`run step s as` applies the actions in turn. `Along P s as` says that every action meets `P`
in the state it is taken in; the two rules reduce a statement about a run to one about a step.
-/

namespace Sfs.Lib

variable {σ α : Type} (step : σ → α → σ)

def run (s : σ) (as : List α) : σ := as.foldl step s

def Along (P : σ → α → Prop) : σ → List α → Prop
  | _, [] => True
  | s, a :: as => P s a ∧ Along P (step s a) as

instance Along.decidable (P : σ → α → Prop) [∀ s a, Decidable (P s a)] :
    (s : σ) → (as : List α) → Decidable (Along step P s as)
  | _, [] => isTrue trivial
  | s, a :: as => @instDecidableAnd _ _ inferInstance (Along.decidable P (step s a) as)

variable {step}

variable {P : σ → α → Prop} {s : σ} {as : List α} {I : σ → Prop}

@[simp] theorem run_nil (s : σ) : run step s [] = s := rfl

@[simp] theorem run_cons (s : σ) (a : α) (as : List α) :
    run step s (a :: as) = run step (step s a) as := rfl

theorem run_append (s : σ) (as bs : List α) :
    run step s (as ++ bs) = run step (run step s as) bs := List.foldl_append

theorem along_cons {s' : σ} {a : α} (h : step s a = s') (as : List α) :
    Along step P s (a :: as) ↔ P s a ∧ Along step P s' as := by
  subst h
  exact Iff.rfl

theorem along_append {bs : List α} :
    Along step P s (as ++ bs) ↔ Along step P s as ∧ Along step P (run step s as) bs := by
  induction as generalizing s with
  | nil => simp [Along]
  | cons a as ih =>
    rw [List.cons_append, run_cons]
    simp only [Along, ih]
    exact and_assoc.symm

theorem along_true (s : σ) (as : List α) : Along step (fun _ _ => True) s as := by
  induction as generalizing s with
  | nil => trivial
  | cons a as ih => exact ⟨trivial, ih _⟩

theorem along_of_forall (h : ∀ a ∈ as, ∀ s, P s a) (s : σ) :
    Along step P s as := by
  induction as generalizing s with
  | nil => trivial
  | cons a as ih =>
    exact ⟨h a List.mem_cons_self s, ih (fun b hb => h b (List.mem_cons_of_mem a hb)) _⟩

theorem Along.and {Q : σ → α → Prop} (hP : Along step P s as) (hQ : Along step Q s as) :
    Along step (fun s a => P s a ∧ Q s a) s as := by
  induction as generalizing s with
  | nil => trivial
  | cons a as ih => exact ⟨⟨hP.1, hQ.1⟩, ih hP.2 hQ.2⟩

/-- What every step meeting `P` keeps, every run along `P` keeps. -/
theorem run_inv (hstep : ∀ s a, I s → P s a → I (step s a))
    (hs : I s) (hP : Along step P s as) : I (run step s as) := by
  induction as generalizing s with
  | nil => exact hs
  | cons a as ih => exact ih (hstep s a hs hP.1) hP.2

/-- What every step meeting `P` does from a state with `I`, it does along a run. -/
theorem along_of_inv {Q : σ → α → Prop} (hstep : ∀ s a, I s → P s a → I (step s a) ∧ Q s a)
    (hs : I s) (hP : Along step P s as) : Along step Q s as := by
  induction as generalizing s with
  | nil => trivial
  | cons a as ih =>
    obtain ⟨hI, hQ⟩ := hstep s a hs hP.1
    exact ⟨hQ, ih hI hP.2⟩

/-- If a step keeps `I` exactly when it meets `P`, and never restores it, a run keeps `I`
exactly when all its steps meet `P`. -/
theorem run_iff (hstep : ∀ s a, I (step s a) ↔ I s ∧ P s a)
    (s : σ) (as : List α) : I (run step s as) ↔ I s ∧ Along step P s as := by
  induction as generalizing s with
  | nil => simp [Along]
  | cons a as ih =>
    rw [run_cons, ih, hstep]
    exact and_assoc

/-- If from a state with `I` a step keeps `I` exactly when it meets `P`, then `I` holds all along a
run exactly when all its steps meet `P`. -/
theorem forall_take_iff (hstep : ∀ s a, I s → (I (step s a) ↔ P s a)) (hs : I s)
    (as : List α) : (∀ n, I (run step s (as.take n))) ↔ Along step P s as := by
  induction as generalizing s with
  | nil => simp [Along, hs]
  | cons a as ih =>
    refine ⟨fun h => ?_, fun ⟨hP, hrest⟩ n => ?_⟩
    · have h₁ : I (step s a) := h 1
      exact ⟨(hstep s a hs).mp h₁, (ih h₁).mp fun n => h (n + 1)⟩
    · cases n with
      | zero => exact hs
      | succ n => exact (ih ((hstep s a hs).mpr hP)).mpr hrest n

end Sfs.Lib

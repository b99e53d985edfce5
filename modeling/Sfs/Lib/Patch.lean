import Sfs.Lib.Bytes

/-!
# Overwrites of a file

A file is seen as its length and its bytes, zeros beyond the end. A patch `(offset, data)`
overwrites the file from `offset` on and makes it longer if it has to. A byte after a list of
patches is that of the last patch that covers it, so patches that cover the same byte do not
commute, and a base hidden under patches does not matter (`patches_congr`).
-/

namespace Sfs.Lib

open List

variable {vs : List Patch} {n : Nat}

abbrev Patch := Nat × Bytes

namespace Patch

def stop (w : Patch) : Nat := w.1 + w.2.length

def Covers (w : Patch) (i : Nat) : Prop := w.1 ≤ i ∧ i < w.stop

instance (w : Patch) (i : Nat) : Decidable (w.Covers i) := inferInstanceAs (Decidable (_ ∧ _))

/-- No byte is covered by both. -/
def Apart (w v : Patch) : Prop := w.stop ≤ v.1 ∨ v.stop ≤ w.1

instance (w v : Patch) : Decidable (w.Apart v) := inferInstanceAs (Decidable (_ ∨ _))

theorem not_covers_both {w v : Patch} (h : w.Apart v) {i : Nat} (hw : w.Covers i) : ¬ v.Covers i := by
  intro hv
  unfold Covers at hw hv
  rcases h with h | h <;> omega

end Patch

def patch (w : Patch) (f : Nat → UInt8) (i : Nat) : UInt8 :=
  if w.Covers i then w.2.getD (i - w.1) 0 else f i

def patches (ws : List Patch) (f : Nat → UInt8) : Nat → UInt8 := ws.foldl (fun f w => patch w f) f

/-- The length of a file of length `n` after the patches. -/
def reach (ws : List Patch) (n : Nat) : Nat := (ws.map Patch.stop).foldr max n

def Covered (ws : List Patch) (i : Nat) : Prop := ∃ w ∈ ws, w.Covers i

variable {f g : Nat → UInt8} {w v : Patch} {ws : List Patch} {i : Nat}

@[simp] theorem patches_nil : patches [] f = f := rfl

@[simp] theorem patches_cons : patches (w :: ws) f = patches ws (patch w f) := rfl

theorem patches_append (ws vs : List Patch) : patches (ws ++ vs) f = patches vs (patches ws f) :=
  foldl_append

theorem patch_of_covers (h : w.Covers i) : patch w f i = w.2.getD (i - w.1) 0 := if_pos h

theorem patch_of_not_covers (h : ¬ w.Covers i) : patch w f i = f i := if_neg h

theorem covered_cons : Covered (w :: ws) i ↔ w.Covers i ∨ Covered ws i := by
  simp [Covered]

theorem Covered.mono (h : Covered ws i) (hsub : ∀ w ∈ ws, w ∈ vs) : Covered vs i := by
  obtain ⟨w, hw, hc⟩ := h
  exact ⟨w, hsub w hw, hc⟩

theorem patches_of_not_covered (h : ¬ Covered ws i) : patches ws f i = f i := by
  induction ws generalizing f with
  | nil => rfl
  | cons w ws ih =>
    rw [covered_cons, not_or] at h
    rw [patches_cons, ih h.2, patch_of_not_covers h.1]

/-- What is under the patches does not show. -/
theorem patches_congr (h : ¬ Covered ws i → f i = g i) : patches ws f i = patches ws g i := by
  induction ws generalizing f g with
  | nil => exact h fun hc => by simp [Covered] at hc
  | cons w ws ih =>
    rw [patches_cons, patches_cons]
    apply ih
    intro hn
    by_cases hw : w.Covers i
    · rw [patch_of_covers hw, patch_of_covers hw]
    · rw [patch_of_not_covers hw, patch_of_not_covers hw]
      exact h (by rw [covered_cons]; exact fun hc => hc.elim hw hn)

/-- Patches that were already applied to the base may be applied again. -/
theorem patches_absorb (hsub : ∀ w ∈ vs, w ∈ ws) :
    patches ws (patches vs f) = patches ws f := by
  funext i
  exact patches_congr fun hn => patches_of_not_covered fun hc => hn (hc.mono hsub)

/-- A patch apart from the others may be applied before or after them. -/
theorem patches_patch (h : ∀ v ∈ ws, w.Apart v) : patches ws (patch w f) = patch w (patches ws f) := by
  funext i
  by_cases hw : w.Covers i
  · have hn : ¬ Covered ws i := fun ⟨v, hv, hc⟩ => Patch.not_covers_both (h v hv) hw hc
    rw [patches_of_not_covered hn, patch_of_covers hw, patch_of_covers hw]
  · rw [patch_of_not_covers hw]
    exact patches_congr fun _ => patch_of_not_covers hw

/-- Patches that are apart may be applied in two goes. -/
theorem patches_filter (p : Patch → Bool) (h : ws.Pairwise Patch.Apart) :
    patches ws f = patches (ws.filter p) (patches (ws.filter (! p ·)) f) := by
  induction ws generalizing f with
  | nil => rfl
  | cons w ws ih =>
    obtain ⟨hw, hws⟩ := pairwise_cons.mp h
    rw [patches_cons, ih hws]
    have hout : ∀ v ∈ ws.filter (! p ·), w.Apart v := fun v hv => hw v (mem_of_mem_filter hv)
    by_cases hp : p w = true
    · rw [filter_cons_of_pos hp, filter_cons_of_neg (by simp [hp]), patches_cons, patches_patch hout]
    · rw [filter_cons_of_neg hp, filter_cons_of_pos (by simp [hp]), patches_cons]

/-- A patch hides another that starts where it starts and is no longer. -/
theorem patch_patch (h : w.1 = v.1) (hl : v.2.length ≤ w.2.length) :
    patch w (patch v f) = patch w f := by
  funext i
  by_cases hw : w.Covers i
  · rw [patch_of_covers hw, patch_of_covers hw]
  · rw [patch_of_not_covers hw, patch_of_not_covers hw]
    apply patch_of_not_covers
    unfold Patch.Covers Patch.stop at *
    omega

theorem patch_append (a : Nat) (x y : Bytes) :
    patch (a, x ++ y) f = patch (a + x.length, y) (patch (a, x) f) := by
  unfold patch Patch.Covers Patch.stop
  grind

theorem patch_take (a n : Nat) (d : Bytes) (i : Nat) :
    patch (a, d.take n) f i = if i < a + n then patch (a, d) f i else f i := by
  unfold patch Patch.Covers Patch.stop
  grind

theorem patch_drop (a n : Nat) (d : Bytes) (i : Nat) :
    patch (a + n, d.drop n) f i = if a + n ≤ i then patch (a, d) f i else f i := by
  unfold patch Patch.Covers Patch.stop
  grind

theorem patch_nil (a : Nat) : patch (a, []) f = f := by
  funext i
  refine patch_of_not_covers fun hc => ?_
  unfold Patch.Covers Patch.stop at hc
  simp only [length_nil] at hc
  omega

/-- A patch written into one that reaches further on both sides. -/
theorem patch_overlay (h₁ : w.1 ≤ v.1) (h₂ : v.stop ≤ w.stop) :
    patch (w.1, overlay w.2 (v.1 - w.1) v.2) f = patch v (patch w f) := by
  unfold Patch.stop at h₂
  have hlen : v.1 - w.1 + v.2.length ≤ w.2.length := by omega
  unfold patch Patch.Covers Patch.stop
  simp only [length_overlay hlen, getD_overlay hlen]
  grind

/-! ## Lengths -/

@[simp] theorem reach_nil (n : Nat) : reach [] n = n := rfl

@[simp] theorem reach_cons (n : Nat) : reach (w :: ws) n = max w.stop (reach ws n) := rfl

theorem lt_reach_iff : i < reach ws n ↔ i < n ∨ ∃ w ∈ ws, i < w.stop := by
  induction ws with
  | nil => simp
  | cons w ws ih =>
    rw [reach_cons, lt_max_iff, ih]
    simp only [mem_cons, exists_eq_or_imp]
    tauto

theorem reach_le_iff {m : Nat} : reach ws n ≤ m ↔ n ≤ m ∧ ∀ w ∈ ws, w.stop ≤ m := by
  induction ws with
  | nil => simp
  | cons w ws ih =>
    rw [reach_cons, max_le_iff, ih]
    simp only [mem_cons, forall_eq_or_imp]
    tauto

theorem reach_lt_iff {m : Nat} : reach ws n < m ↔ n < m ∧ ∀ w ∈ ws, w.stop < m := by
  cases m with
  | zero => simp
  | succ m => simp only [Nat.lt_succ_iff, reach_le_iff]

theorem reach_max (n m : Nat) : reach ws (max n m) = max (reach ws n) m := by
  induction ws with
  | nil => rfl
  | cons w ws ih => rw [reach_cons, reach_cons, ih, max_assoc]

theorem le_reach (ws : List Patch) (n : Nat) : n ≤ reach ws n := (reach_le_iff.mp le_rfl).1

theorem stop_le_reach (h : w ∈ ws) (n : Nat) : w.stop ≤ reach ws n := (reach_le_iff.mp le_rfl).2 w h

theorem reach_absorb (hsub : ∀ v ∈ vs, v ∈ ws) (n : Nat) :
    reach ws (reach vs n) = reach ws n := by
  apply le_antisymm
  · have hvs : reach vs n ≤ reach ws n :=
      reach_le_iff.mpr ⟨le_reach ws n, fun v hv => stop_le_reach (hsub v hv) n⟩
    exact reach_le_iff.mpr ⟨hvs, fun w hw => stop_le_reach hw n⟩
  · exact reach_le_iff.mpr ⟨le_trans (le_reach vs n) (le_reach ws _), fun w hw => stop_le_reach hw _⟩

/-! ## Lists of patches that show the same -/

/-- Over every file the patches show the same bytes. -/
def Same (ws vs : List Patch) : Prop := ∀ f, patches ws f = patches vs f

theorem covered_iff : Covered ws i ↔ ∀ f g, patches ws f i = patches ws g i := by
  refine ⟨fun hc f g => patches_congr fun hn => absurd hc hn, fun h => ?_⟩
  by_contra hn
  have := h (fun _ => 0) fun _ => 1
  rw [patches_of_not_covered hn, patches_of_not_covered hn] at this
  cases this

theorem Same.covered (h : Same ws vs) : Covered ws i ↔ Covered vs i := by
  simp only [covered_iff, h _]

/-- Patches that show the same make a file the same length, when none is empty. -/
theorem Same.reach_le (h : Same ws vs) (hne : ∀ w ∈ ws, w.2 ≠ []) (n : Nat) :
    reach ws n ≤ reach vs n := by
  refine reach_le_iff.mpr ⟨le_reach vs n, fun w hw => ?_⟩
  have hpos := length_pos_iff.mpr (hne w hw)
  -- the last byte of `w` is covered by a patch of `vs`
  have hlast : w.Covers (w.stop - 1) := by
    unfold Patch.Covers Patch.stop
    omega
  obtain ⟨v, hv, hc⟩ := h.covered.mp ⟨w, hw, hlast⟩
  have := stop_le_reach hv n
  have := hc.2
  omega

theorem Same.symm (h : Same ws vs) : Same vs ws := fun f => (h f).symm

theorem Same.reach_eq (h : Same ws vs) (hw : ∀ w ∈ ws, w.2 ≠ []) (hv : ∀ v ∈ vs, v.2 ≠ []) (n : Nat) :
    reach ws n = reach vs n := le_antisymm (h.reach_le hw n) (h.symm.reach_le hv n)

/-! ## Byte strings as files -/

theorem ext_getD {a b : Bytes} (hl : a.length = b.length) (h : ∀ i, a.getD i 0 = b.getD i 0) :
    a = b := by
  apply ext_getElem hl
  intro i h1 h2
  have := h i
  rwa [getD_eq_getElem _ _ h1, getD_eq_getElem _ _ h2] at this

/-- `data` written at `offset` to the file `b`, which grows with zeros if it has to. -/
def splice (offset : Nat) (data b : Bytes) : Bytes :=
  overlay (resize (max b.length (offset + data.length)) b) offset data

@[simp] theorem length_splice (offset : Nat) (data b : Bytes) :
    (splice offset data b).length = max b.length (offset + data.length) := by
  rw [splice, length_overlay (by rw [length_resize]; omega), length_resize]

theorem getD_splice (offset : Nat) (data b : Bytes) :
    (fun i => (splice offset data b).getD i 0) = patch (offset, data) fun i => b.getD i 0 := by
  funext i
  rw [splice, getD_overlay (by rw [length_resize]; omega), getD_resize]
  by_cases hc : offset ≤ i ∧ i < offset + data.length
  · rw [if_pos hc, patch_of_covers (w := (offset, data)) hc]
  · rw [if_neg hc, patch_of_not_covers (w := (offset, data)) hc]
    split
    · rfl
    · exact (getD_of_length_le (by omega)).symm

/-- The file `b` after the writes `ws`. -/
def spliced (ws : List Patch) (b : Bytes) : Bytes := ws.foldl (fun b w => splice w.1 w.2 b) b

theorem length_spliced (ws : List Patch) (b : Bytes) : (spliced ws b).length = reach ws b.length := by
  induction ws generalizing b with
  | nil => rfl
  | cons w ws ih => rw [spliced, foldl_cons, ← spliced, ih, length_splice, reach_max, reach_cons,
    max_comm, Patch.stop]

theorem getD_spliced (ws : List Patch) (b : Bytes) :
    (fun i => (spliced ws b).getD i 0) = patches ws fun i => b.getD i 0 := by
  induction ws generalizing b with
  | nil => rfl
  | cons w ws ih => rw [spliced, foldl_cons, ← spliced, ih, getD_splice, patches_cons]

theorem spliced_concat (ws : List Patch) (w : Patch) (b : Bytes) :
    spliced (ws ++ [w]) b = splice w.1 w.2 (spliced ws b) :=
  foldl_append

theorem Same.spliced_eq (h : Same ws vs) (hw : ∀ w ∈ ws, w.2 ≠ []) (hv : ∀ v ∈ vs, v.2 ≠ [])
    (b : Bytes) : spliced ws b = spliced vs b := by
  refine ext_getD ?_ fun i => ?_
  · rw [length_spliced, length_spliced, h.reach_eq hw hv]
  · exact congrFun ((getD_spliced ws b).trans ((h _).trans (getD_spliced vs b).symm)) i

end Sfs.Lib

import Mathlib.Tactic

/-!
# Sparse counter vectors

A vector of counters over an ordered key type, as a list of `(key, counter)` pairs with the
keys strictly ascending and no counter zero. `Sparse` is that invariant. `lookup` reads a
counter (absent keys count zero), `bumpAt` increments one, `joinMax` is the pointwise maximum.
Two sparse lists with the same counters are equal (`Sparse.ext`), so laws of the operations
follow from laws of `max` and `+`.
-/

namespace Sfs.Lib

open List

variable {κ : Type} [LinearOrder κ]

variable {es xs ys : List (κ × Nat)} {a h : κ}

def lookup (h : κ) : List (κ × Nat) → Nat
  | [] => 0
  | (a, v) :: es => if a = h then v else lookup h es

def bumpAt (h : κ) : List (κ × Nat) → List (κ × Nat)
  | [] => [(h, 1)]
  | (a, v) :: es =>
    if a < h then (a, v) :: bumpAt h es
    else if a = h then (a, v + 1) :: es
    else (h, 1) :: (a, v) :: es

/-- One row of `joinMax`: the merge of `(a, v) :: xs` with a list, where `rest` merges `xs`. -/
def joinRow (a : κ) (v : Nat) (xs : List (κ × Nat)) (rest : List (κ × Nat) → List (κ × Nat)) :
    List (κ × Nat) → List (κ × Nat)
  | [] => (a, v) :: xs
  | (b, w) :: ys =>
    if a < b then (a, v) :: rest ((b, w) :: ys)
    else if b < a then (b, w) :: joinRow a v xs rest ys
    else (a, max v w) :: rest ys

def joinMax : List (κ × Nat) → List (κ × Nat) → List (κ × Nat)
  | [] => id
  | (a, v) :: xs => joinRow a v xs (joinMax xs)

structure Sparse (es : List (κ × Nat)) : Prop where
  sorted : es.Pairwise fun x y => x.1 < y.1
  nonzero : ∀ e ∈ es, e.2 ≠ 0

theorem Sparse.nil : Sparse ([] : List (κ × Nat)) := ⟨.nil, by simp⟩

theorem Sparse.tail {e : κ × Nat} (h : Sparse (e :: es)) : Sparse es :=
  ⟨h.sorted.of_cons, fun x hx => h.nonzero x (.tail _ hx)⟩

theorem Sparse.head_lt {e : κ × Nat} (h : Sparse (e :: es)) :
    ∀ x ∈ es, e.1 < x.1 :=
  (pairwise_cons.mp h.sorted).1

theorem Sparse.lt_of_head_lt {b : κ} {w : Nat} (hlt : a < b)
    (hy : Sparse ((b, w) :: ys)) : ∀ y ∈ (b, w) :: ys, a < y.1 := by
  intro y hm
  rcases mem_cons.mp hm with rfl | hm
  · exact hlt
  · exact lt_trans hlt (hy.head_lt y hm)

theorem Sparse.cons {v : Nat} (hv : v ≠ 0)
    (hlt : ∀ x ∈ es, a < x.1) (h : Sparse es) : Sparse ((a, v) :: es) := by
  refine ⟨pairwise_cons.mpr ⟨hlt, h.sorted⟩, ?_⟩
  intro e he
  rcases mem_cons.mp he with rfl | he
  · exact hv
  · exact h.nonzero e he

theorem lookup_eq_zero (hlt : ∀ x ∈ es, h < x.1) : lookup h es = 0 := by
  induction es with
  | nil => rfl
  | cons e es ih =>
    have hne : e.1 ≠ h := ne_of_gt (hlt e (.head _))
    simp only [lookup, hne, if_false]
    exact ih fun x hx => hlt x (.tail _ hx)

theorem lookup_mem {v : Nat} (hs : Sparse es) (hm : (h, v) ∈ es) :
    lookup h es = v := by
  induction es with
  | nil => cases hm
  | cons e es ih =>
    rcases mem_cons.mp hm with rfl | hm
    · simp [lookup]
    · have hne : e.1 ≠ h := ne_of_lt (hs.head_lt _ hm)
      simp only [lookup, hne, if_false]
      exact ih hs.tail hm

theorem mem_of_lookup (hz : lookup h es ≠ 0) :
    (h, lookup h es) ∈ es := by
  induction es with
  | nil => exact absurd rfl hz
  | cons e es ih =>
    obtain ⟨a, v⟩ := e
    by_cases ha : a = h
    · simp [lookup, ha]
    · simp only [lookup, ha, if_false] at hz ⊢
      exact .tail _ (ih hz)

/-- A head key below the other list's head would count zero there. -/
theorem Sparse.not_head_lt {b : κ} {v w : Nat}
    (hx : Sparse ((a, v) :: xs)) (hy : Sparse ((b, w) :: ys))
    (heq : lookup a ((a, v) :: xs) = lookup a ((b, w) :: ys)) : ¬ a < b := by
  intro hlt
  rw [lookup_eq_zero (hy.lt_of_head_lt hlt)] at heq
  simp only [lookup, if_true] at heq
  exact hx.nonzero (a, v) (.head _) heq

theorem Sparse.ext (hx : Sparse xs) (hy : Sparse ys)
    (heq : ∀ h, lookup h xs = lookup h ys) : xs = ys := by
  induction xs generalizing ys with
  | nil =>
    cases ys with
    | nil => rfl
    | cons e ys =>
      have h1 := heq e.1
      simp only [lookup, if_true] at h1
      exact absurd h1.symm (hy.nonzero e (.head _))
  | cons x xs ih =>
    cases ys with
    | nil =>
      have h1 := heq x.1
      simp only [lookup, if_true] at h1
      exact absurd h1 (hx.nonzero x (.head _))
    | cons y ys =>
      obtain ⟨a, v⟩ := x
      obtain ⟨b, w⟩ := y
      have hab : a = b :=
        le_antisymm (not_lt.mp (hy.not_head_lt hx (heq b).symm))
          (not_lt.mp (hx.not_head_lt hy (heq a)))
      subst hab
      have hvw : v = w := by simpa [lookup] using heq a
      subst hvw
      have htl : xs = ys := by
        apply ih hx.tail hy.tail
        intro h
        by_cases ha : a = h
        · subst ha
          rw [lookup_eq_zero hx.head_lt, lookup_eq_zero hy.head_lt]
        · simpa [lookup, ha] using heq h
      rw [htl]

/-! ## Increment -/

theorem lt_bumpAt (hah : a < h) (hes : ∀ x ∈ es, a < x.1) : ∀ x ∈ bumpAt h es, a < x.1 := by
  induction es with
  | nil => simpa [bumpAt] using hah
  | cons e es ih =>
    rw [forall_mem_cons] at hes
    simp only [bumpAt]
    split
    · exact forall_mem_cons.mpr ⟨hes.1, ih hes.2⟩
    split
    · exact forall_mem_cons.mpr hes
    · exact forall_mem_cons.mpr ⟨hah, forall_mem_cons.mpr hes⟩

theorem Sparse.bumpAt (hs : Sparse es) (h : κ) : Sparse (bumpAt h es) := by
  induction es with
  | nil => exact .cons (by decide) (by simp) .nil
  | cons e es ih =>
    obtain ⟨a, v⟩ := e
    have hv : v ≠ 0 := hs.nonzero (a, v) (.head _)
    simp only [Lib.bumpAt]
    split
    · rename_i hlt
      exact .cons hv (lt_bumpAt hlt hs.head_lt) (ih hs.tail)
    · rename_i hge
      split
      · exact .cons (by omega) hs.head_lt hs.tail
      rename_i hne
      have hlt : h < a := lt_of_le_of_ne (not_lt.mp hge) (Ne.symm hne)
      exact .cons (by decide) (hs.lt_of_head_lt hlt) hs

theorem lookup_bumpAt (hs : Sparse es) (h k : κ) :
    lookup k (bumpAt h es) = if k = h then lookup h es + 1 else lookup k es := by
  induction es with
  | nil => simp [bumpAt, lookup, eq_comm]
  | cons e es ih =>
    obtain ⟨a, v⟩ := e
    simp only [bumpAt]
    split
    · rename_i hlt
      have hah : a ≠ h := ne_of_lt hlt
      by_cases hak : a = k
      · subst hak
        simp [lookup, hah]
      · simp [lookup, hak, hah, ih hs.tail]
    rename_i hge
    split
    · rename_i hah
      subst hah
      by_cases hak : a = k
      · subst hak
        simp [lookup]
      · simp [lookup, hak, Ne.symm hak]
    rename_i hne
    have hlt : h < a := lt_of_le_of_ne (not_lt.mp hge) (Ne.symm hne)
    by_cases hkh : k = h
    · subst hkh
      rw [if_pos rfl, lookup_eq_zero (hs.lt_of_head_lt hlt)]
      simp [lookup]
    · rw [if_neg hkh, lookup, if_neg (Ne.symm hkh)]

/-! ## Pointwise maximum -/

theorem joinMax_nil_left (ys : List (κ × Nat)) : joinMax [] ys = ys := rfl

theorem joinMax_nil_right (xs : List (κ × Nat)) : joinMax xs [] = xs := by
  cases xs <;> rfl

theorem joinMax_cons (a b : κ) (v w : Nat) (xs ys : List (κ × Nat)) :
    joinMax ((a, v) :: xs) ((b, w) :: ys) =
      if a < b then (a, v) :: joinMax xs ((b, w) :: ys)
      else if b < a then (b, w) :: joinMax ((a, v) :: xs) ys
      else (a, max v w) :: joinMax xs ys := rfl

/-- A key below both lists is below their join. -/
theorem lt_joinMax (hx : ∀ x ∈ xs, h < x.1) (hy : ∀ y ∈ ys, h < y.1) :
    ∀ x ∈ joinMax xs ys, h < x.1 := by
  induction xs generalizing ys with
  | nil => exact hy
  | cons e xs ih =>
    obtain ⟨hex, hxs⟩ := forall_mem_cons.mp hx
    induction ys with
    | nil => rwa [joinMax_nil_right]
    | cons e' ys ihy =>
      obtain ⟨hey, hys⟩ := forall_mem_cons.mp hy
      rw [joinMax_cons]
      split
      · exact forall_mem_cons.mpr ⟨hex, ih hxs hy⟩
      split
      · exact forall_mem_cons.mpr ⟨hey, ihy hys⟩
      · exact forall_mem_cons.mpr ⟨hex, ih hxs hys⟩

theorem Sparse.joinMax (hx : Sparse xs) (hy : Sparse ys) :
    Sparse (joinMax xs ys) := by
  induction xs generalizing ys with
  | nil => exact hy
  | cons e xs ih =>
    obtain ⟨a, v⟩ := e
    have hv : v ≠ 0 := hx.nonzero (a, v) (.head _)
    induction ys with
    | nil => rw [joinMax_nil_right]; exact hx
    | cons e ys ihy =>
      obtain ⟨b, w⟩ := e
      have hw : w ≠ 0 := hy.nonzero (b, w) (.head _)
      rw [joinMax_cons]
      split
      · rename_i hlt
        exact .cons hv (lt_joinMax hx.head_lt (hy.lt_of_head_lt hlt)) (ih hx.tail hy)
      split
      · rename_i hlt
        exact .cons hw (lt_joinMax (hx.lt_of_head_lt hlt) hy.head_lt) (ihy hy.tail)
      · rename_i hab hba
        have heq : a = b := le_antisymm (not_lt.mp hba) (not_lt.mp hab)
        subst heq
        exact .cons (by omega) (lt_joinMax hx.head_lt hy.head_lt) (ih hx.tail hy.tail)

theorem lookup_joinMax (hx : Sparse xs) (hy : Sparse ys) (h : κ) :
    lookup h (joinMax xs ys) = max (lookup h xs) (lookup h ys) := by
  induction xs generalizing ys with
  | nil => simp [joinMax_nil_left, lookup]
  | cons e xs ih =>
    obtain ⟨a, v⟩ := e
    induction ys with
    | nil => simp [joinMax_nil_right, lookup]
    | cons e ys ihy =>
      obtain ⟨b, w⟩ := e
      rw [joinMax_cons]
      split
      · rename_i hlt
        by_cases hah : a = h
        · subst hah
          rw [lookup_eq_zero (hy.lt_of_head_lt hlt)]
          simp [lookup]
        · rw [lookup, if_neg hah, ih hx.tail hy]
          simp [lookup, hah]
      · split
        · rename_i hlt
          by_cases hbh : b = h
          · subst hbh
            rw [lookup_eq_zero (hx.lt_of_head_lt hlt)]
            simp [lookup]
          · rw [lookup, if_neg hbh, ihy hy.tail]
            simp [lookup, hbh]
        · rename_i hab hba
          have heq : a = b := le_antisymm (not_lt.mp hba) (not_lt.mp hab)
          subst heq
          by_cases hah : a = h
          · simp [lookup, hah]
          · simp [lookup, hah, ih hx.tail hy.tail]

end Sfs.Lib

import Mathlib.Order.Comparable

/-!
# Frontiers of a partial order

A frontier is a list of pairwise incomparable elements. `Covers ys xs` says that everything in
`xs` is below something in `ys`. The rules here say how a frontier may be changed so that it
stays one and covers what it covered: `Antichain.replace` puts a new element in the place of
the first one, `Antichain.concat` adds one at the end.
-/

namespace Sfs.Lib

variable {α : Type} [PartialOrder α]

def Antichain (xs : List α) : Prop := xs.Pairwise (IncompRel (· ≤ ·))

def Covers (ys xs : List α) : Prop := ∀ x ∈ xs, ∃ y ∈ ys, x ≤ y

theorem Covers.refl (xs : List α) : Covers xs xs := fun x hx => ⟨x, hx, le_refl x⟩

theorem Covers.trans {xs ys zs : List α} (h : Covers zs ys) (h' : Covers ys xs) : Covers zs xs := by
  intro x hx
  obtain ⟨y, hy, hxy⟩ := h' x hx
  obtain ⟨z, hz, hyz⟩ := h y hy
  exact ⟨z, hz, hxy.trans hyz⟩

theorem Covers.append {xs xs' ys : List α} (h : Covers ys xs) (h' : Covers ys xs') :
    Covers ys (xs ++ xs') := by
  intro x hx
  rcases List.mem_append.mp hx with hx | hx
  · exact h x hx
  · exact h' x hx

theorem covers_singleton {ys : List α} {x : α} : Covers ys [x] ↔ ∃ y ∈ ys, x ≤ y := by
  simp [Covers]

section

variable {l n : α} {rest kept : List α}

/-- A new first element above the old one, beside those of the rest that are not below it. -/
theorem Antichain.replace (h : Antichain (l :: rest)) (hln : l ≤ n) (hsub : kept.Sublist rest)
    (hk : ∀ s ∈ kept, ¬ s < n) : Antichain (n :: kept) := by
  obtain ⟨hl, hrest⟩ := List.pairwise_cons.mp h
  refine List.pairwise_cons.mpr ⟨fun s hs => ?_, hrest.sublist hsub⟩
  have hls := hl s (hsub.subset hs)
  have hns : ¬ n ≤ s := fun hns => hls.1 (hln.trans hns)
  exact ⟨hns, fun hsn => hk s hs (lt_of_le_not_ge hsn hns)⟩

/-- It covers what was covered if all that was dropped is below it. -/
theorem covers_replace (hln : l ≤ n) (hd : ∀ s ∈ rest, s ∈ kept ∨ s ≤ n) :
    Covers (n :: kept) (l :: rest) := by
  intro x hx
  rcases List.mem_cons.mp hx with rfl | hx
  · exact ⟨n, .head _, hln⟩
  · rcases hd x hx with h | h
    · exact ⟨x, .tail _ h, le_refl x⟩
    · exact ⟨n, .head _, h⟩

theorem Antichain.concat (h : Antichain rest) (hn : ∀ s ∈ rest, IncompRel (· ≤ ·) s n) :
    Antichain (rest ++ [n]) := by
  refine List.pairwise_append.mpr ⟨h, List.pairwise_singleton _ _, ?_⟩
  intro s hs m hm
  cases List.mem_singleton.mp hm
  exact hn s hs

/-- Nothing is incomparable to a least element. -/
theorem Antichain.eq_nil_of_le (h : Antichain (l :: rest)) (hl : ∀ s, l ≤ s) : rest = [] := by
  cases rest with
  | nil => rfl
  | cons s rest => exact absurd (hl s) ((List.pairwise_cons.mp h).1 s (.head _)).1

end

end Sfs.Lib

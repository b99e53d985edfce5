import Mathlib.Data.List.Perm.Basic
import Sfs.Lib.Frontier

/-!
# Keeping the newest values

A list of values under versions of a partial order, of which only the newest are kept:
`addNewest` ignores a value whose version is strictly below one that is there, and drops what the
new version is not below. The versions stay a frontier (`antichain_addNewest`) that covers all
that was ever added (`covers_addNewest`).
-/

namespace Sfs.Lib

open List

variable {α β : Type} [PartialOrder α] [DecidableLE α] [DecidableEq α] {fs gs : List (α × β)}
  {v : α} {b : β}

def addNewest (fs : List (α × β)) (v : α) (b : β) : List (α × β) :=
  if fs.any fun s => v ≤ s.1 ∧ s.1 ≠ v then fs else fs.filter (fun s => ¬ s.1 ≤ v) ++ [(v, b)]

/-- Something strictly newer is there. -/
def Stale (fs : List (α × β)) (v : α) : Prop := ∃ s ∈ fs, v < s.1

theorem any_newer_iff : (fs.any fun s => v ≤ s.1 ∧ s.1 ≠ v) = true ↔ Stale fs v := by
  simp only [any_eq_true, decide_eq_true_eq]
  exact exists_congr fun s => and_congr_right fun _ => by rw [lt_iff_le_and_ne, ne_comm]

instance : Decidable (Stale fs v) := decidable_of_iff _ any_newer_iff

theorem addNewest_of_stale (h : Stale fs v) : addNewest fs v b = fs := if_pos (any_newer_iff.mpr h)

theorem addNewest_of_not_stale (h : ¬ Stale fs v) :
    addNewest fs v b = fs.filter (fun s => ¬ s.1 ≤ v) ++ [(v, b)] :=
  if_neg (mt any_newer_iff.mp h)

theorem mem_addNewest_self (h : ¬ Stale fs v) : (v, b) ∈ addNewest fs v b := by
  rw [addNewest_of_not_stale h]
  exact mem_append_right _ (.head _)

theorem mem_addNewest {s : α × β} (h : s ∈ addNewest fs v b) : s ∈ fs ∨ s = (v, b) := by
  by_cases hst : Stale fs v
  · exact .inl (addNewest_of_stale hst ▸ h)
  · rw [addNewest_of_not_stale hst] at h
    rcases mem_append.mp h with h | h
    · exact .inl (mem_filter.mp h).1
    · exact .inr (mem_singleton.mp h)

/-- What is gone gave way to the new value. -/
theorem mem_addNewest_of_mem {s : α × β} (h : s ∈ fs) :
    s ∈ addNewest fs v b ∨ s.1 ≤ v ∧ (v, b) ∈ addNewest fs v b := by
  by_cases hst : Stale fs v
  · exact .inl ((addNewest_of_stale hst).symm ▸ h)
  · rw [addNewest_of_not_stale hst]
    by_cases hle : s.1 ≤ v
    · exact .inr ⟨hle, mem_append_right _ (.head _)⟩
    · exact .inl (mem_append_left _ (mem_filter.mpr ⟨h, decide_eq_true hle⟩))

theorem covers_addNewest : Covers ((addNewest fs v b).map Prod.fst) (v :: fs.map Prod.fst) := by
  intro x hx
  rcases mem_cons.mp hx with rfl | hx
  · by_cases hst : Stale fs x
    · obtain ⟨s, hs, hlt⟩ := hst
      exact ⟨s.1, mem_map_of_mem ((addNewest_of_stale ⟨s, hs, hlt⟩).symm ▸ hs), hlt.le⟩
    · exact ⟨x, mem_map_of_mem (f := Prod.fst) (mem_addNewest_self hst), le_rfl⟩
  · obtain ⟨s, hs, rfl⟩ := mem_map.mp hx
    rcases mem_addNewest_of_mem (v := v) (b := b) hs with h | ⟨hle, h⟩
    · exact ⟨s.1, mem_map_of_mem h, le_rfl⟩
    · exact ⟨v, mem_map_of_mem (f := Prod.fst) h, hle⟩

theorem antichain_addNewest (h : Antichain (fs.map Prod.fst)) :
    Antichain ((addNewest fs v b).map Prod.fst) := by
  by_cases hst : Stale fs v
  · rwa [addNewest_of_stale hst]
  rw [addNewest_of_not_stale hst, map_append]
  refine Antichain.concat (h.sublist (filter_sublist.map _)) fun x hx => ?_
  obtain ⟨s, hs, rfl⟩ := mem_map.mp hx
  obtain ⟨hs, hle⟩ := mem_filter.mp hs
  have hle : ¬ s.1 ≤ v := of_decide_eq_true hle
  exact ⟨hle, fun hge => hst ⟨s, hs, lt_of_le_of_ne hge fun heq => hle heq.ge⟩⟩

omit [DecidableLE α] [DecidableEq α] in
theorem stale_perm (h : fs.Perm gs) : Stale fs v ↔ Stale gs v :=
  exists_congr fun _ => and_congr_left fun _ => h.mem_iff

theorem addNewest_perm (h : fs.Perm gs) : (addNewest fs v b).Perm (addNewest gs v b) := by
  by_cases hst : Stale fs v
  · rw [addNewest_of_stale hst, addNewest_of_stale ((stale_perm h).mp hst)]
    exact h
  · rw [addNewest_of_not_stale hst, addNewest_of_not_stale (mt (stale_perm h).mpr hst)]
    exact (h.filter _).append_right _

/-- A value that is there is only moved to the end. -/
theorem addNewest_self (h : Antichain (fs.map Prod.fst)) (hmem : (v, b) ∈ fs) :
    (addNewest fs v b).Perm fs := by
  obtain ⟨l, r, rfl⟩ := append_of_mem hmem
  rw [map_append, map_cons] at h
  obtain ⟨-, hr, hlr⟩ := pairwise_append.mp h
  have hl : ∀ s ∈ l, ¬ s.1 ≤ v ∧ ¬ v ≤ s.1 := fun s hs => hlr s.1 (mem_map_of_mem hs) v (.head _)
  have hr : ∀ s ∈ r, ¬ s.1 ≤ v ∧ ¬ v ≤ s.1 :=
    fun s hs => ((pairwise_cons.mp hr).1 s.1 (mem_map_of_mem hs)).symm
  have hst : ¬ Stale (l ++ (v, b) :: r) v := by
    rintro ⟨s, hs, hlt⟩
    rcases mem_append.mp hs with hs | hs
    · exact (hl s hs).2 hlt.le
    · rcases mem_cons.mp hs with rfl | hs
      · exact lt_irrefl _ hlt
      · exact (hr s hs).2 hlt.le
  have hkeep : ∀ t : List (α × β),
      (∀ s ∈ t, ¬ s.1 ≤ v ∧ ¬ v ≤ s.1) → t.filter (fun s => ¬ s.1 ≤ v) = t := fun t ht =>
    filter_eq_self.mpr fun s hs => decide_eq_true (ht s hs).1
  rw [addNewest_of_not_stale hst, filter_append, filter_cons_of_neg (by simp), hkeep l hl,
    hkeep r hr, append_assoc]
  exact (perm_append_singleton (v, b) r).append_left l

end Sfs.Lib

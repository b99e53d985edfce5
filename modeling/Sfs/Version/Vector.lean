import Mathlib.Order.Comparable
import Sfs.Lib.SparseVec

/-!
# Version vectors

Sorted, sparse counters per host alias. A vector is determined by its counters
(`VersionVector.ext_get`), so dominance is the pointwise order and `join` its least upper
bound.
-/

namespace Sfs.Version

open Sfs.Lib

variable {a b : VersionVector}

abbrev HostAlias := Fin 65536

instance neZero_hostAlias : NeZero 65536 := ⟨by decide⟩

structure VersionVector where
  entries : List (HostAlias × Nat)
  sparse : Sparse entries
  deriving DecidableEq

namespace VersionVector

def new : VersionVector := ⟨[], .nil⟩

def get (vv : VersionVector) (h : HostAlias) : Nat := lookup h vv.entries

/-- Increment `h`'s counter; the new value is `vv.get h + 1`. -/
def bump (vv : VersionVector) (h : HostAlias) : VersionVector :=
  ⟨bumpAt h vv.entries, vv.sparse.bumpAt h⟩

def dominates (vv other : VersionVector) : Bool := other.entries.all fun e => !(vv.get e.1 < e.2)

def concurrentWith (vv other : VersionVector) : Bool := !vv.dominates other && !other.dominates vv

def join (vv other : VersionVector) : VersionVector :=
  ⟨joinMax vv.entries other.entries, vv.sparse.joinMax other.sparse⟩

theorem ext_get (h : ∀ k, a.get k = b.get k) : a = b := by
  obtain ⟨xs, hx⟩ := a
  obtain ⟨ys, hy⟩ := b
  have : xs = ys := hx.ext hy h
  subst this
  rfl

@[simp] theorem get_new (h : HostAlias) : new.get h = 0 := rfl

theorem get_bump (vv : VersionVector) (h k : HostAlias) :
    (vv.bump h).get k = if k = h then vv.get h + 1 else vv.get k :=
  lookup_bumpAt vv.sparse h k

@[simp] theorem get_bump_self (vv : VersionVector) (h : HostAlias) :
    (vv.bump h).get h = vv.get h + 1 := by
  rw [get_bump, if_pos rfl]

theorem get_le_get_bump (vv : VersionVector) (h k : HostAlias) : vv.get k ≤ (vv.bump h).get k := by
  rw [get_bump]
  split
  · rename_i hk
    subst hk
    omega
  · exact le_rfl

@[simp] theorem get_join (a b : VersionVector) (h : HostAlias) :
    (a.join b).get h = max (a.get h) (b.get h) :=
  lookup_joinMax a.sparse b.sparse h

theorem join_comm (a b : VersionVector) : a.join b = b.join a :=
  ext_get fun h => by rw [get_join, get_join, max_comm]

/-! ## Dominance -/

theorem dominates_iff : a.dominates b = true ↔ ∀ h, b.get h ≤ a.get h := by
  simp only [dominates, List.all_eq_true, Bool.not_eq_true', decide_eq_false_iff_not, not_lt]
  constructor
  · intro hall h
    by_cases hz : b.get h = 0
    · omega
    · exact hall _ (mem_of_lookup hz)
  · intro hle e he
    have := hle e.1
    rwa [get, lookup_mem b.sparse he] at this

theorem dominates_refl (a : VersionVector) : a.dominates a = true :=
  dominates_iff.mpr fun _ => le_rfl

theorem dominates_trans {c : VersionVector} (hab : a.dominates b = true)
    (hbc : b.dominates c = true) : a.dominates c = true := by
  rw [dominates_iff] at *
  exact fun h => le_trans (hbc h) (hab h)

theorem bump_dominates (a : VersionVector) (h : HostAlias) : (a.bump h).dominates a = true :=
  dominates_iff.mpr fun k => get_le_get_bump a h k

theorem join_dominates_left (a b : VersionVector) : (a.join b).dominates a = true :=
  dominates_iff.mpr fun h => by rw [get_join]; omega

theorem join_dominates_right (a b : VersionVector) : (a.join b).dominates b = true := by
  rw [join_comm]
  exact join_dominates_left b a

theorem concurrentWith_comm (a b : VersionVector) : a.concurrentWith b = b.concurrentWith a :=
  Bool.and_comm _ _

/-! ## The causal order -/

instance : PartialOrder VersionVector where
  le a b := b.dominates a = true
  le_refl := dominates_refl
  le_trans _ _ _ hab hbc := dominates_trans hbc hab
  le_antisymm a b hab hba := ext_get fun k =>
    le_antisymm (dominates_iff.mp hab k) (dominates_iff.mp hba k)

instance : DecidableLE VersionVector := fun a b => inferInstanceAs (Decidable (b.dominates a = true))

theorem le_iff_dominates : a ≤ b ↔ b.dominates a = true := Iff.rfl

theorem le_iff_get : a ≤ b ↔ ∀ k, a.get k ≤ b.get k := dominates_iff

theorem new_le (a : VersionVector) : new ≤ a :=
  le_iff_get.mpr fun k => by rw [get_new]; exact Nat.zero_le _

theorem le_bump (a : VersionVector) (h : HostAlias) : a ≤ a.bump h := bump_dominates a h

theorem bump_le_bump (h : HostAlias) (hab : a ≤ b) : a.bump h ≤ b.bump h := by
  rw [le_iff_get] at *
  intro k
  have h1 := hab k
  have h2 := hab h
  rw [get_bump, get_bump]
  split <;> omega

theorem incompRel_iff : IncompRel (· ≤ ·) a b ↔ a.concurrentWith b = true := by
  simp only [IncompRel, le_iff_dominates, concurrentWith, Bool.and_eq_true, Bool.not_eq_true',
    Bool.not_eq_true]
  exact and_comm

end VersionVector

end Sfs.Version

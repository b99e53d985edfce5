import Sfs.Container.TailStore
import Sfs.Lib.Fallible

/-!
# Placing blocks in a file

Steps on a file and its allocator; an error leaves the store as the steps before it made it.

`Store.Owns` says that the allocator keeps a list of live extents apart, and `Undisturbed` that
their bytes stay. An allocation lends an extent and leaves the extents that are already owned alone.
-/

namespace Sfs.Container

open Sfs.Lib

abbrev StoreM := EStateM Error Store

/-! ## Steps -/

namespace StoreM

def ofPair {α : Type} (f : Store → Store × Result α) : StoreM α := fun s =>
  match f s with
  | (s', .ok a) => .ok a s'
  | (s', .error e) => .error e s'

def allocAligned (len : Nat) (region : Region) : StoreM BlockLoc :=
  ofPair fun s => s.allocAligned len region

end StoreM

/-! ## Owned extents -/

/-- The allocator keeps the extents `held`, none of them in the tail, apart from all else; `parked`
are retired until the next commit. -/
structure Store.Owns (s : Store) (held : List Held) (parked : List BlockLoc) : Prop where
  len : s.disk.len = s.alloc.fileLen
  inv : Inv s.alloc held
  forward : ∀ h ∈ held, ¬ h.isTail
  deferred : s.alloc.deferred = parked

/-- The bytes of the extents `held` are the same. -/
def Undisturbed (held : List Held) (d d' : Disk) : Prop :=
  ∀ h ∈ held, ∀ x ∈ h.extent.bytes, d'.byte x = d.byte x

theorem Undisturbed.refl (held : List Held) (d : Disk) : Undisturbed held d d := fun _ _ _ _ => rfl

theorem Undisturbed.trans {held : List Held} {d d' d'' : Disk} (h : Undisturbed held d d')
    (h' : Undisturbed held d' d'') :
    Undisturbed held d d'' := fun g hg x hx => (h' g hg x hx).trans (h g hg x hx)

theorem Undisturbed.mono {held held' : List Held} {d d' : Disk} (h : Undisturbed held d d')
    (hsub : ∀ g ∈ held', g ∈ held) : Undisturbed held' d d' := fun g hg => h g (hsub g hg)

variable {s s' : Store} {held held' : List Held} {parked : List BlockLoc}

theorem Store.Owns.mono (h : s.Owns held parked) (hsub : held'.Subperm held) : s.Owns held' parked :=
  ⟨h.len, h.inv.mono hsub, fun g hg => h.forward g (hsub.subset hg), h.deferred⟩

/-! ### Lending -/

/-- What an allocation that succeeded leaves. -/
structure Lends (s s' : Store) (held : List Held) (h : Held) : Prop where
  len : s'.disk.len = s'.alloc.fileLen
  inv : Inv s'.alloc (h :: held)
  kept : Undisturbed held s.disk s'.disk
  deferred : s'.alloc.deferred = s.alloc.deferred

/-- The bytes below the tail stay when the file grows. -/
theorem Store.Owns.grown (hs : s.Owns held parked) {a : Allocator} {h : Held}
    (hinv : Inv a (h :: held.map (Held.moved (a.fileLen - s.alloc.fileLen))))
    (hle : s.alloc.fileLen ≤ a.fileLen) (hdef : a.deferred = s.alloc.deferred) :
    Lends s ⟨if s.alloc.fileLen < a.fileLen then relocated s.disk s.alloc
      (a.fileLen - s.alloc.fileLen) else s.disk, a⟩ held h := by
  rw [map_moved_parked (.inr hs.forward)] at hinv
  refine ⟨?_, hinv, fun g hg x hx => ?_, hdef⟩
  · dsimp only
    split
    · rw [len_relocated]
      omega
    · rw [hs.len]
      omega
  · split
    · have hb := hs.inv.toBounds
      have hx' := (hs.inv.placed g hg).mem_bounds (hs.forward g hg) hx
      have := hb.hwm_le
      have := hb.tail_le.trans hb.limit_le
      exact relocated_byte_below hs.len (by omega) (by omega)
    · rfl

theorem StoreM.ofPair_ok {α : Type} {f : Store → Store × Result α} {a : α}
    (h : ofPair f s = .ok a s') : f s = (s', .ok a) := by
  unfold ofPair at h
  split at h
  · rename_i heq
    cases h
    exact heq
  · cases h

theorem allocAligned_le {a a' : Allocator} {len : Nat} {r : Region} {loc : BlockLoc}
    (hinv : Inv a held) (h : a.allocAligned none len r = (a', .ok loc)) :
    a.fileLen ≤ a'.fileLen := by
  have hl := (allocAligned_lent hinv h).fileLen
  omega

theorem Store.Owns.allocAligned (hs : s.Owns held parked) {len : Nat} {r : Region} {loc : BlockLoc}
    (h : StoreM.allocAligned len r s = .ok loc s') : Lends s s' held ⟨loc.addr, len, .aligned r⟩ := by
  have h := StoreM.ofPair_ok h
  unfold Store.allocAligned at h
  rcases hal : s.alloc.allocAligned none len r with ⟨a, res⟩
  rw [hal] at h
  cases h
  have hdef := (s.alloc.allocAligned_frame none len r).1
  rw [hal] at hdef
  exact hs.grown (allocAligned_ok hs.inv hal) (allocAligned_le hs.inv hal) hdef

end Sfs.Container

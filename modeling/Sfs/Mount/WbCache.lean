import Sfs.Lib.Fallible
import Sfs.Lib.KeyMap
import Sfs.Lib.Patch
import Sfs.Lib.Run

/-!
# The write-back cache of an open handle

A handle collects its writes as dirty extents, coalesced so that no two of them overlap or touch
(`Coalesced`). Laid over any file the extents show what the writes made in call order would show
(`patches_write`), a read returns the bytes of that view (`readThrough_spec`), and a truncation
forgets the writes behind the new end and no other byte (`patches_clip`). Over a whole run the
cache shows the file that the calls made, if the file below is cut whenever the cache is.
-/

namespace Sfs.Mount

open Sfs.Lib List

open Patch

structure WbCache where
  len : Nat
  /-- the dirty extents, ascending -/
  ranges : List Patch
  dirty : Bool
  deriving DecidableEq, Repr

namespace WbCache

def new (baseLen : Nat) : WbCache := ⟨baseLen, [], false⟩

/-! ## The operations -/

/-- The map insertion: an extent that starts at the same offset is replaced. -/
def insertRange (w : Patch) (ranges : List Patch) : List Patch :=
  insertEntry w.1 w.2 (ranges.filter fun r => r.1 ≠ w.1)

/-- The bytes of `r` in front of `w` go in front of it. -/
def absorbFront (w r : Patch) : Patch := if r.1 < w.1 then (r.1, r.2.take (w.1 - r.1) ++ w.2) else w

/-- The bytes of `r` behind `w` go behind it. -/
def absorbBack (w r : Patch) : Patch :=
  if w.stop < r.stop then (w.1, w.2 ++ r.2.drop (w.stop - r.1)) else w

/-- One turn of the merge loop: the extent `w` takes in `r`. -/
def absorb (w r : Patch) : Patch := absorbBack (absorbFront w r) r

/-- `r` overlaps `w` or is adjacent to it. -/
def touches (w r : Patch) : Bool := r.1 ≤ w.stop && w.1 ≤ r.stop

/-- The extent that ends where the write starts, when no other one has to be merged. -/
def appendTarget (ranges : List Patch) (w : Patch) : Option Patch :=
  (ranges.filter (·.1 < w.1)).getLast?.filter fun r =>
    r.stop = w.1 && !(ranges.any fun v => w.1 < v.1 && v.1 ≤ w.stop)

def mergeWrite (ranges : List Patch) (w : Patch) : List Patch :=
  let merged := (ranges.filter (touches w)).foldl absorb w
  insertRange (merged.1, overlay merged.2 (w.1 - merged.1) w.2) (ranges.filter (! touches w ·))

def write (c : WbCache) (offset : Nat) (data : Bytes) : WbCache :=
  if data = [] then c
  else
    { len := max c.len (offset + data.length)
      ranges :=
        match appendTarget c.ranges (offset, data) with
        | some r => c.ranges.map fun v => if v.1 = r.1 then (v.1, v.2 ++ data) else v
        | none => mergeWrite c.ranges (offset, data)
      dirty := true }

/-- The extent that `pos` falls into. -/
def coveringRange (ranges : List Patch) (pos : Nat) : Option Patch :=
  (ranges.filter (·.1 ≤ pos)).getLast?.filter fun r => pos < r.stop

section

variable {ε σ : Type} (base : Nat → Nat → EStateM ε σ Bytes)

/-- The read loop from `pos` on; every turn moves `pos`. -/
def readLoop (ranges : List Patch) (stop : Nat) : Nat → Nat → Bytes → EStateM ε σ Bytes
  | 0, _, out => pure out
  | fuel + 1, pos, out =>
    if stop ≤ pos then pure out
    else
      match coveringRange ranges pos with
      | some r =>
        let upTo := min (min r.stop stop - r.1) r.2.length
        readLoop ranges stop fuel (r.1 + upTo) (out ++ (r.2.take upTo).drop (pos - r.1))
      | none => do
        let nextDirtyStart := ((ranges.find? fun r => pos ≤ r.1).map Prod.fst).getD stop
        let gapEnd := min nextDirtyStart stop
        let gapLen := gapEnd - pos
        let baseBytes ← base pos gapLen
        readLoop ranges stop fuel gapEnd (out ++ resize gapLen baseBytes)

def readThrough (c : WbCache) (offset size : Nat) : EStateM ε σ Bytes :=
  if size = 0 ∨ c.len ≤ offset then pure []
  else
    let stop := min (offset + size) c.len
    let total := stop - offset
    if c.ranges = [] then do
      let b ← base offset total
      return resize total b
    else readLoop base c.ranges stop total offset []

end

def truncate (c : WbCache) (newLen : Nat) : WbCache :=
  let kept := c.ranges.filter (·.1 < newLen)
  { len := newLen
    ranges :=
      match kept.getLast? with
      | some w => if newLen < w.stop then kept.dropLast ++ [(w.1, w.2.take (newLen - w.1))] else kept
      | none => kept
    dirty := true }

def takeDirtyRanges (c : WbCache) : Option (List Patch) × WbCache :=
  if c.dirty then (some c.ranges, { c with ranges := [], dirty := false }) else (none, c)

end WbCache

/-! ## Coalesced extents -/

/-- No two extents overlap or touch, and none is empty. -/
structure Coalesced (ws : List Patch) : Prop where
  separate : ws.Pairwise fun a b => a.stop < b.1
  nonempty : ∀ w ∈ ws, w.2 ≠ []

namespace Coalesced

theorem nil : Coalesced [] := ⟨.nil, fun _ h => (nomatch h)⟩

theorem start_lt_stop {ws : List Patch} {w : Patch} (h : Coalesced ws) (hw : w ∈ ws) :
    w.1 < w.stop := by
  have := length_pos_iff.mpr (h.nonempty w hw)
  unfold stop
  omega

theorem apart {ws : List Patch} (h : Coalesced ws) : ws.Pairwise Patch.Apart :=
  h.separate.imp fun hab => .inl (le_of_lt hab)

theorem filter {ws : List Patch} (h : Coalesced ws) (p : Patch → Bool) : Coalesced (ws.filter p) :=
  ⟨h.separate.sublist filter_sublist, fun w hw => h.nonempty w (mem_of_mem_filter hw)⟩

/-- Of two extents one ends before the other starts. -/
theorem lt_or_lt {v : Patch} {ws : List Patch} {w : Patch} (h : Coalesced ws) (hw : w ∈ ws)
    (hv : v ∈ ws) (hne : w ≠ v) : w.stop < v.1 ∨ v.stop < w.1 := by
  have hsymm : Std.Symm fun a b : Patch => a.stop < b.1 ∨ b.stop < a.1 := ⟨fun _ _ hab => hab.symm⟩
  have hp : ws.Pairwise fun a b => a.stop < b.1 ∨ b.stop < a.1 := h.separate.imp fun hab => .inl hab
  exact hp.forall hw hv hne

theorem eq_of_start {v : Patch} {ws : List Patch} {w : Patch} (h : Coalesced ws) (hw : w ∈ ws)
    (hv : v ∈ ws) (heq : w.1 = v.1) : w = v := by
  by_contra hne
  have h1 := h.start_lt_stop hw
  have h2 := h.start_lt_stop hv
  rcases h.lt_or_lt hw hv hne with hlt | hlt <;> omega

/-- An extent shows through the others. -/
theorem patches_of_covers {i : Nat} {ws : List Patch} {w : Patch} (h : Coalesced ws) (hw : w ∈ ws)
    {f : Nat → UInt8} (hc : w.Covers i) : patches ws f i = w.2.getD (i - w.1) 0 := by
  induction ws generalizing f with
  | nil => cases hw
  | cons v ws ih =>
    obtain ⟨hv, hws⟩ := pairwise_cons.mp h.separate
    rcases mem_cons.mp hw with rfl | hw
    · have hn : ¬ Covered ws i := by
        rintro ⟨u, hu, hcu⟩
        exact not_covers_both (.inl (le_of_lt (hv u hu))) hc hcu
      rw [patches_cons, patches_of_not_covered hn, patch_of_covers hc]
    · exact ih ⟨hws, fun u hu => h.nonempty u (.tail _ hu)⟩ hw

end Coalesced

namespace WbCache

/-! ## Merging -/

theorem touches_iff {w r : Patch} : touches w r = true ↔ r.1 ≤ w.stop ∧ w.1 ≤ r.stop := by
  simp [touches]

theorem start_absorb (w r : Patch) : (absorb w r).1 = min w.1 r.1 := by
  unfold absorb absorbBack absorbFront
  split <;> split <;> omega

theorem stop_absorbFront {w r : Patch} (h : w.1 ≤ r.stop) : (absorbFront w r).stop = w.stop := by
  unfold absorbFront stop at *
  split
  · rw [length_append, length_take]
    omega
  · rfl

theorem stop_absorb {w r : Patch} (h : touches w r = true) :
    (absorb w r).stop = max w.stop r.stop := by
  obtain ⟨h1, h2⟩ := touches_iff.mp h
  have hs := stop_absorbFront h2
  rw [absorb, absorbBack, hs]
  split
  · show (absorbFront w r).1 + ((absorbFront w r).2 ++ r.2.drop (w.stop - r.1)).length = _
    rw [length_append, length_drop, ← add_assoc, ← stop, hs]
    unfold stop at *
    omega
  · omega

theorem patch_absorbFront {i : Nat} {w r : Patch} {f : Nat → UInt8} (h : w.1 ≤ r.stop)
    (hi : i < w.stop) : patch (absorbFront w r) f i = patch w (patch r f) i := by
  by_cases hw : w.Covers i
  · rw [patch_of_covers (w := w) hw]
    unfold absorbFront
    split
    · rename_i hlt
      have hlen : r.1 + (r.2.take (w.1 - r.1)).length = w.1 := by
        unfold stop at h
        rw [length_take]
        omega
      rw [patch_append, hlen]
      exact patch_of_covers hw
    · exact patch_of_covers hw
  · rw [patch_of_not_covers hw]
    have hlt : i < w.1 := by
      unfold Patch.Covers at hw
      omega
    unfold absorbFront
    split
    · rename_i hrw
      have hlen : r.1 + (r.2.take (w.1 - r.1)).length = w.1 := by
        unfold stop at h
        rw [length_take]
        omega
      rw [patch_append, hlen, patch_of_not_covers hw, patch_take, if_pos (by omega)]
    · rw [patch_of_not_covers hw, patch_of_not_covers fun hr => by have := hr.1; omega]

/-- The merged extent shows the new bytes, and where there are none the stored ones. -/
theorem patch_absorb {w r : Patch} {f : Nat → UInt8} (h : touches w r = true) :
    patch (absorb w r) f = patch w (patch r f) := by
  obtain ⟨h1, h2⟩ := touches_iff.mp h
  have hs := stop_absorbFront h2
  have hback : ∀ i, patch (absorb w r) f i =
      if w.stop ≤ i then patch r (patch (absorbFront w r) f) i else patch (absorbFront w r) f i := by
    intro i
    rw [absorb, absorbBack, hs]
    split
    · have hat : (absorbFront w r).1 + (absorbFront w r).2.length = r.1 + (w.stop - r.1) := by
        rw [← stop, hs]
        omega
      rw [patch_append, hat, patch_drop, Nat.add_sub_cancel' h1]
    · split
      · rw [patch_of_not_covers (w := r) fun hr => by have := hr.2; omega]
      · rfl
  funext i
  rw [hback]
  split
  · rename_i hle
    have hnot : ∀ {v : Patch}, v.stop = w.stop → ¬ v.Covers i := fun hv hc => by
      have := hc.2
      omega
    rw [patch_of_not_covers (hnot rfl)]
    by_cases hr : r.Covers i
    · rw [patch_of_covers hr, patch_of_covers hr]
    · rw [patch_of_not_covers hr, patch_of_not_covers hr, patch_of_not_covers (hnot hs)]
  · rename_i hlt
    exact patch_absorbFront h2 (not_le.mp hlt)

theorem touches_absorb {v w r : Patch} (h : touches w r = true) (hv : touches w v = true) :
    touches (absorb w r) v = true := by
  rw [touches_iff, start_absorb, stop_absorb h]
  have := touches_iff.mp hv
  omega

/-- The merge loop takes in every extent it is given. -/
theorem stop_foldl_absorb {w : Patch} {ws : List Patch} (h : ∀ r ∈ ws, touches w r = true) :
    (ws.foldl absorb w).stop = reach ws w.stop := by
  induction ws generalizing w with
  | nil => rfl
  | cons r ws ih =>
    have hr := h r (.head _)
    rw [foldl_cons, ih fun v hv => touches_absorb hr (h v (.tail _ hv)), stop_absorb hr, reach_max,
      reach_cons, max_comm]

theorem start_foldl_absorb_le (w : Patch) (ws : List Patch) : (ws.foldl absorb w).1 ≤ w.1 := by
  induction ws generalizing w with
  | nil => exact le_rfl
  | cons r ws ih =>
    refine le_trans (ih (absorb w r)) ?_
    rw [start_absorb]
    exact Nat.min_le_left _ _

theorem lt_start_foldl_absorb {w : Patch} {ws : List Patch} {m : Nat} (hw : m < w.1)
    (h : ∀ r ∈ ws, m < r.1) : m < (ws.foldl absorb w).1 := by
  induction ws generalizing w with
  | nil => exact hw
  | cons r ws ih =>
    refine ih ?_ fun v hv => h v (.tail _ hv)
    rw [start_absorb]
    exact Nat.lt_min.mpr ⟨hw, h r (.head _)⟩

theorem patch_foldl_absorb {w : Patch} {f : Nat → UInt8} {ws : List Patch}
    (hap : ws.Pairwise Patch.Apart) (h : ∀ r ∈ ws, touches w r = true) :
    patch (ws.foldl absorb w) f = patch w (patches ws f) := by
  induction ws generalizing w with
  | nil => rfl
  | cons r ws ih =>
    obtain ⟨hr, hws⟩ := pairwise_cons.mp hap
    have ht := h r (.head _)
    rw [foldl_cons, ih hws fun v hv => touches_absorb ht (h v (.tail _ hv)), patch_absorb ht,
      patches_cons, patches_patch hr]

/-! ## Inserting an extent -/

theorem patches_insertEntry {ws : List Patch} {w : Patch} {f : Nat → UInt8}
    (h : ∀ r ∈ ws, w.Apart r) : patches (insertEntry w.1 w.2 ws) f = patch w (patches ws f) := by
  induction ws generalizing f with
  | nil => rfl
  | cons r ws ih =>
    rw [insertEntry]
    split
    · exact patches_patch h
    · rw [patches_cons, patches_cons, ih fun v hv => h v (.tail _ hv)]

theorem coalesced_insertEntry {ws : List Patch} {w : Patch} (h : Coalesced ws) (hne : w.2 ≠ [])
    (hsep : ∀ r ∈ ws, r.stop < w.1 ∨ w.stop < r.1) : Coalesced (insertEntry w.1 w.2 ws) := by
  have hmem : ∀ v ∈ insertEntry w.1 w.2 ws, v = w ∨ v ∈ ws := fun v hv =>
    mem_cons.mp ((insertEntry_perm w.1 w.2 ws).mem_iff.mp hv)
  refine ⟨?_, fun v hv => (hmem v hv).elim (fun h => h ▸ hne) (h.nonempty v)⟩
  have hw := length_pos_iff.mpr hne
  clear hmem
  induction ws with
  | nil => exact pairwise_singleton _ _
  | cons r ws ih =>
    obtain ⟨hr, hws⟩ := pairwise_cons.mp h.separate
    have hrs := h.start_lt_stop (.head _)
    rw [insertEntry]
    split
    · rename_i hlt
      have hwr : w.stop < r.1 := by
        rcases hsep r (.head _) with hs | hs
        · omega
        · exact hs
      refine pairwise_cons.mpr ⟨fun v hv => ?_, h.separate⟩
      rcases mem_cons.mp hv with rfl | hv
      · exact hwr
      · have := hr v hv
        show w.stop < v.1
        omega
    · rename_i hge
      refine pairwise_cons.mpr ⟨fun v hv => ?_, ih ⟨hws, fun v hv => h.nonempty v (.tail _ hv)⟩
        fun v hv => hsep v (.tail _ hv)⟩
      rcases mem_cons.mp ((insertEntry_perm w.1 w.2 ws).mem_iff.mp hv) with rfl | hv
      · rcases hsep r (.head _) with hs | hs
        · exact hs
        · have : w.1 ≤ w.stop := Nat.le_add_right _ _
          exact absurd (lt_of_le_of_lt this hs) hge
      · exact hr v hv

/-! ## Writing -/

section

variable {ws : List Patch} {w : Patch}

/-- What a write does not merge stays clear of the merged extent. -/
theorem separate_merged {r : Patch} (h : Coalesced ws) (hr : r ∈ ws.filter (! touches w ·)) :
    r.stop < ((ws.filter (touches w)).foldl absorb w).1 ∨
      ((ws.filter (touches w)).foldl absorb w).stop < r.1 := by
  obtain ⟨hr, hnt⟩ := mem_filter.mp hr
  have hrs := h.start_lt_stop hr
  have hnt : ¬ (r.1 ≤ w.stop ∧ w.1 ≤ r.stop) := fun hc => by
    rw [touches_iff.mpr hc] at hnt
    cases hnt
  have hother : ∀ v ∈ ws.filter (touches w),
      (r.stop < v.1 ∨ v.stop < r.1) ∧ v.1 ≤ w.stop ∧ w.1 ≤ v.stop := by
    intro v hv
    obtain ⟨hv, ht⟩ := mem_filter.mp hv
    have ht := touches_iff.mp ht
    exact ⟨h.lt_or_lt hr hv fun heq => hnt (heq ▸ ht), ht⟩
  have hw : w.1 ≤ w.stop := Nat.le_add_right _ _
  by_cases hlt : r.stop < w.1
  · refine .inl (lt_start_foldl_absorb hlt fun v hv => ?_)
    have := hother v hv
    omega
  · refine .inr ?_
    rw [stop_foldl_absorb fun v hv => (mem_filter.mp hv).2, reach_lt_iff]
    refine ⟨by omega, fun v hv => ?_⟩
    have := hother v hv
    omega

/-- The extent that a write leaves where it merged. -/
def mergedRange (ws : List Patch) (w : Patch) : Patch :=
  let merged := (ws.filter (touches w)).foldl absorb w
  (merged.1, overlay merged.2 (w.1 - merged.1) w.2)

theorem stop_mergedRange (ws : List Patch) (w : Patch) :
    (mergedRange ws w).stop = ((ws.filter (touches w)).foldl absorb w).stop := by
  have hstart := start_foldl_absorb_le w (ws.filter (touches w))
  have hstop : w.stop ≤ ((ws.filter (touches w)).foldl absorb w).stop := by
    rw [stop_foldl_absorb fun v hv => (mem_filter.mp hv).2]
    exact le_reach _ _
  unfold mergedRange stop at *
  rw [length_overlay (by omega)]

theorem mergeWrite_eq (h : Coalesced ws) :
    mergeWrite ws w = insertEntry (mergedRange ws w).1 (mergedRange ws w).2
      (ws.filter (! touches w ·)) := by
  show insertEntry _ _ ((ws.filter (! touches w ·)).filter fun r => r.1 ≠ (mergedRange ws w).1) = _
  congr 1
  refine filter_eq_self.mpr fun r hr => ?_
  have hrs := h.start_lt_stop (mem_of_mem_filter hr)
  have hstop : ((ws.filter (touches w)).foldl absorb w).1 ≤
      ((ws.filter (touches w)).foldl absorb w).stop :=
    Nat.le_add_right _ _
  rw [decide_eq_true_eq]
  show r.1 ≠ ((ws.filter (touches w)).foldl absorb w).1
  rcases separate_merged h hr with hs | hs <;> omega

theorem separate_mergedRange {r : Patch} (h : Coalesced ws) (hr : r ∈ ws.filter (! touches w ·)) :
    r.stop < (mergedRange ws w).1 ∨ (mergedRange ws w).stop < r.1 := by
  rw [stop_mergedRange]
  exact separate_merged h hr

theorem coalesced_mergeWrite (h : Coalesced ws) (hw : w.2 ≠ []) : Coalesced (mergeWrite ws w) := by
  rw [mergeWrite_eq h]
  refine coalesced_insertEntry (h.filter _) ?_ fun r hr => separate_mergedRange h hr
  have hpos := length_pos_iff.mpr hw
  have hstart := start_foldl_absorb_le w (ws.filter (touches w))
  have hstop := stop_mergedRange ws w
  rw [stop_foldl_absorb fun v hv => (mem_filter.mp hv).2] at hstop
  have hle := le_reach (ws.filter (touches w)) w.stop
  have hm : (mergedRange ws w).1 = ((ws.filter (touches w)).foldl absorb w).1 := rfl
  refine length_pos_iff.mp ?_
  unfold stop at *
  omega

theorem patches_mergeWrite {f : Nat → UInt8} (h : Coalesced ws) :
    patches (mergeWrite ws w) f = patch w (patches ws f) := by
  have hap : ∀ r ∈ ws.filter (! touches w ·), (mergedRange ws w).Apart r := fun r hr =>
    (separate_mergedRange h hr).elim (fun hs => .inr (le_of_lt hs)) (fun hs => .inl (le_of_lt hs))
  have htouch : ∀ r ∈ ws.filter (touches w), touches w r = true := fun r hr => (mem_filter.mp hr).2
  have hstop : w.stop ≤ ((ws.filter (touches w)).foldl absorb w).stop := by
    rw [stop_foldl_absorb htouch]
    exact le_reach _ _
  rw [mergeWrite_eq h, patches_insertEntry hap, mergedRange,
    patch_overlay (start_foldl_absorb_le _ _) hstop, patch_foldl_absorb (h.filter _).apart htouch,
    patch_patch rfl le_rfl, ← patches_filter _ h.apart]

/-- The extent that a write is appended to, and no other one starts before the end of the write. -/
theorem appendTarget_some {r : Patch} (h : appendTarget ws w = some r) :
    r ∈ ws ∧ r.stop = w.1 ∧ ∀ v ∈ ws, ¬ (w.1 < v.1 ∧ v.1 ≤ w.stop) := by
  obtain ⟨hlast, hp⟩ := Option.filter_eq_some_iff.mp h
  simp only [Bool.and_eq_true, decide_eq_true_eq, Bool.not_eq_true', any_eq_false] at hp
  exact ⟨mem_of_mem_filter (mem_of_getLast? hlast), hp⟩

/-- The extents after `data` was appended to the one that starts where `r` does. -/
def appendWrite (ws : List Patch) (r : Patch) (data : Bytes) : List Patch :=
  ws.map fun v => if v.1 = r.1 then (v.1, v.2 ++ data) else v

theorem mem_appendWrite {v r : Patch} (h : Coalesced ws) {data : Bytes} (hr : r ∈ ws) :
    v ∈ appendWrite ws r data ↔ v = (r.1, r.2 ++ data) ∨ (v ∈ ws ∧ v ≠ r) := by
  constructor
  · intro hv
    obtain ⟨u, hu, rfl⟩ := mem_map.mp hv
    split
    · rename_i heq
      obtain rfl := h.eq_of_start hu hr heq
      exact .inl rfl
    · rename_i hne
      exact .inr ⟨hu, fun heq => hne (heq ▸ rfl)⟩
  · rintro (rfl | ⟨hv, hne⟩)
    · exact mem_map.mpr ⟨r, hr, if_pos rfl⟩
    · exact mem_map.mpr ⟨v, hv, if_neg fun heq => hne (h.eq_of_start hv hr heq)⟩

theorem coalesced_appendWrite {r : Patch} (h : Coalesced ws) (ht : appendTarget ws w = some r) :
    Coalesced (appendWrite ws r w.2) := by
  obtain ⟨hr, hstop, hclear⟩ := appendTarget_some ht
  refine ⟨pairwise_map.mpr (h.separate.imp_of_mem fun {a b} ha hb hab => ?_), fun v hv => ?_⟩
  · have hb1 : (if b.1 = r.1 then ((b.1, b.2 ++ w.2) : Patch) else b).1 = b.1 := by split <;> rfl
    rw [hb1]
    split
    · rename_i heq
      obtain rfl := h.eq_of_start ha hr heq
      have := hclear b hb
      unfold stop at *
      rw [length_append]
      omega
    · exact hab
  · rcases (mem_appendWrite h hr).mp hv with rfl | ⟨hv, -⟩
    · exact fun hnil => h.nonempty r hr (append_eq_nil_iff.mp hnil).1
    · exact h.nonempty v hv

theorem patches_appendWrite {r : Patch} {f : Nat → UInt8} (h : Coalesced ws)
    (ht : appendTarget ws w = some r) :
    patches (appendWrite ws r w.2) f = patch w (patches ws f) := by
  obtain ⟨hr, hstop, hclear⟩ := appendTarget_some ht
  have h' := coalesced_appendWrite h ht
  have hr' : ((r.1, r.2 ++ w.2) : Patch) ∈ appendWrite ws r w.2 :=
    (mem_appendWrite h hr).mpr (.inl rfl)
  have hsplit : patch (r.1, r.2 ++ w.2) f = patch w (patch r f) := by
    rw [patch_append, ← stop, hstop]
  funext i
  by_cases hi : Patch.Covers (r.1, r.2 ++ w.2) i
  · rw [h'.patches_of_covers hr' hi, ← patch_of_covers (f := f) hi, hsplit]
    by_cases hw : w.Covers i
    · rw [patch_of_covers hw, patch_of_covers hw]
    have hri : r.Covers i := by
      unfold Patch.Covers stop at *
      rw [length_append] at hi
      omega
    rw [patch_of_not_covers hw, patch_of_not_covers hw, patch_of_covers hri,
      h.patches_of_covers hr hri]
  · have hwr : ¬ w.Covers i ∧ ¬ r.Covers i := by
      unfold Patch.Covers stop at *
      rw [length_append] at hi
      omega
    rw [patch_of_not_covers hwr.1]
    by_cases hc : Covered ws i
    · obtain ⟨v, hv, hvi⟩ := hc
      have hne : v ≠ r := fun heq => hwr.2 (heq ▸ hvi)
      rw [h.patches_of_covers hv hvi,
        h'.patches_of_covers ((mem_appendWrite h hr).mpr (.inr ⟨hv, hne⟩)) hvi]
    · rw [patches_of_not_covered hc, patches_of_not_covered]
      rintro ⟨v, hv, hvi⟩
      rcases (mem_appendWrite h hr).mp hv with rfl | ⟨hv, -⟩
      · exact hi hvi
      · exact hc ⟨v, hv, hvi⟩

end

theorem coalesced_write {c : WbCache} {offset : Nat} {data : Bytes} (h : Coalesced c.ranges) :
    Coalesced (c.write offset data).ranges := by
  unfold write
  split
  · exact h
  rename_i hd
  split
  · rename_i r ht
    exact coalesced_appendWrite h ht
  · exact coalesced_mergeWrite h hd

/-- A write shows on top of the writes before it. -/
theorem patches_write {c : WbCache} {offset : Nat} {data : Bytes} (h : Coalesced c.ranges)
    (f : Nat → UInt8) :
    patches (c.write offset data).ranges f = patch (offset, data) (patches c.ranges f) := by
  unfold write
  split
  · rename_i hd
    rw [hd, patch_nil]
  split
  · rename_i r ht
    exact patches_appendWrite h ht
  · exact patches_mergeWrite h

/-! ## Reading -/

/-- The bytes of `f` from `off` on. -/
def window (f : Nat → UInt8) (off n : Nat) : Bytes := (range n).map fun j => f (off + j)

section

variable {f g : Nat → UInt8} {ws : List Patch} {pos : Nat}

theorem length_window (f : Nat → UInt8) (off n : Nat) : (window f off n).length = n := by
  rw [window, length_map, length_range]

theorem getElem?_window (f : Nat → UInt8) (off n j : Nat) :
    (window f off n)[j]? = if j < n then some (f (off + j)) else none := by
  rw [window, List.getElem?_map]
  split
  · rename_i hj
    rw [List.getElem?_range hj]
    rfl
  · rw [List.getElem?_eq_none (by rw [length_range]; omega)]
    rfl

theorem window_add (f : Nat → UInt8) (off m n : Nat) :
    window f off (m + n) = window f off m ++ window f (off + m) n := by
  rw [window, range_add, map_append, map_map, window, window]
  congr 2
  funext j
  rw [Function.comp, add_assoc]

theorem resize_eq_window {b : Bytes} {n : Nat} (h : ∀ j, j < n → b.getD j 0 = f (pos + j)) :
    resize n b = window f pos n := by
  refine ext_getD (by rw [length_resize, length_window]) fun j => ?_
  rw [getD_resize, getD_eq_getElem?_getD (l := window f pos n), getElem?_window]
  split
  · rename_i hj
    exact h j hj
  · rfl

/-- An extent other than the last one ends before the last one starts. -/
theorem stop_lt_of_getLast? {v r : Patch} (h : ws.Pairwise fun a b => a.stop < b.1)
    (hr : ws.getLast? = some r) (hv : v ∈ ws) : v = r ∨ v.stop < r.1 := by
  obtain ⟨front, rfl⟩ := getLast?_eq_some_iff.mp hr
  rcases mem_append.mp hv with hv | hv
  · exact .inr ((pairwise_append.mp h).2.2 v hv r (mem_singleton_self r))
  · exact .inl (mem_singleton.mp hv)

theorem coveringRange_some {r : Patch} (h : coveringRange ws pos = some r) :
    r ∈ ws ∧ r.Covers pos := by
  obtain ⟨hlast, hp⟩ := Option.filter_eq_some_iff.mp h
  obtain ⟨hr, hle⟩ := mem_filter.mp (mem_of_getLast? hlast)
  exact ⟨hr, of_decide_eq_true hle, of_decide_eq_true hp⟩

theorem coveringRange_none (hws : Coalesced ws) (h : coveringRange ws pos = none) :
    ¬ Covered ws pos := by
  rintro ⟨v, hv, hc⟩
  have hvf : v ∈ ws.filter (·.1 ≤ pos) := mem_filter.mpr ⟨hv, decide_eq_true hc.1⟩
  obtain ⟨r, hr⟩ : ∃ r, (ws.filter (·.1 ≤ pos)).getLast? = some r :=
    Option.isSome_iff_exists.mp (getLast?_isSome.mpr (ne_nil_of_mem hvf))
  have hrpos : ¬ pos < r.stop := fun hlt => by
    rw [coveringRange, hr, Option.filter_some_pos (by exact decide_eq_true hlt)] at h
    cases h
  have hrle : r.1 ≤ pos := of_decide_eq_true (mem_filter.mp (mem_of_getLast? hr)).2
  have := hc.2
  rcases stop_lt_of_getLast? (hws.filter _).separate hr hvf with rfl | hlt <;> omega

/-- Where the gap at `pos` ends. -/
def gapEnd (ws : List Patch) (stop pos : Nat) : Nat :=
  min (((ws.find? fun r => pos ≤ r.1).map Prod.fst).getD stop) stop

theorem lt_gapEnd {stop : Nat} (hws : Coalesced ws) (hpos : pos < stop) (hn : ¬ Covered ws pos) :
    pos < gapEnd ws stop pos := by
  unfold gapEnd
  cases hf : ws.find? fun r => pos ≤ r.1 with
  | none => simpa using hpos
  | some r =>
    have hle : pos ≤ r.1 := by simpa using find?_some hf
    have hr := mem_of_find?_eq_some hf
    have hlt := hws.start_lt_stop hr
    have hne : r.1 ≠ pos := fun heq => hn ⟨r, hr, le_of_eq heq, heq ▸ hlt⟩
    simp only [Option.map_some, Option.getD_some]
    omega

theorem not_covered_gap {i stop : Nat} (hws : Coalesced ws) (hn : ¬ Covered ws pos) (hi : pos ≤ i)
    (hlt : i < gapEnd ws stop pos) : ¬ Covered ws i := by
  rintro ⟨v, hv, hc⟩
  have hc1 := hc.1
  have hc2 := hc.2
  by_cases hle : pos ≤ v.1
  · obtain ⟨r, hr⟩ : ∃ r, ws.find? (fun r => pos ≤ r.1) = some r :=
      Option.isSome_iff_exists.mp (find?_isSome.mpr ⟨v, hv, decide_eq_true hle⟩)
    rw [gapEnd, hr, Option.map_some, Option.getD_some] at hlt
    obtain ⟨-, front, back, rfl, hfront⟩ := find?_eq_some_iff_append.mp hr
    rcases mem_append.mp hv with hvf | hvb
    · have := hfront v hvf
      simp only [decide_eq_true hle, Bool.not_true, Bool.false_eq_true] at this
    rcases mem_cons.mp hvb with rfl | hvb
    · omega
    · have hsep := (pairwise_cons.mp (pairwise_append.mp hws.separate).2.1).1 v hvb
      have : r.1 ≤ r.stop := Nat.le_add_right _ _
      omega
  · exact hn ⟨v, hv, by omega, by omega⟩

variable {ε σ : Type} {base : Nat → Nat → EStateM ε σ Bytes} {I : σ → Prop}

/-- `base` reads the bytes of `g` and keeps `I`. -/
def Serves (base : Nat → Nat → EStateM ε σ Bytes) (I : σ → Prop) (g : Nat → UInt8) : Prop :=
  ∀ st off n, I st → ∃ b st', base off n st = .ok b st' ∧ I st' ∧ ∀ j, j < n → b.getD j 0 = g (off + j)

theorem readLoop_spec {stop : Nat} (hbase : Serves base I g) (hws : Coalesced ws) {offset : Nat}
    (fuel : Nat) {st : σ} (hst : I st) (hoff : offset ≤ pos) (hfuel : stop ≤ pos + fuel)
    (hpos : pos ≤ stop) :
    ∃ st', readLoop base ws stop fuel pos (window (patches ws g) offset (pos - offset)) st =
      .ok (window (patches ws g) offset (stop - offset)) st' ∧ I st' := by
  induction fuel generalizing pos st with
  | zero =>
    obtain rfl : pos = stop := by omega
    exact ⟨st, rfl, hst⟩
  | succ fuel ih =>
    rw [readLoop]
    by_cases hend : stop ≤ pos
    · obtain rfl : pos = stop := by omega
      rw [if_pos hend]
      exact ⟨st, rfl, hst⟩
    rw [if_neg hend]
    -- a turn appends the bytes up to the new position
    have hstep : ∀ {next : Nat}, pos ≤ next → window (patches ws g) offset (next - offset) =
        window (patches ws g) offset (pos - offset) ++ window (patches ws g) pos (next - pos) := by
      intro next hle
      rw [show next - offset = (pos - offset) + (next - pos) by omega, window_add,
        Nat.add_sub_cancel' hoff]
    cases hcov : coveringRange ws pos with
    | some r =>
      obtain ⟨hr, hc⟩ := coveringRange_some hcov
      have hc1 := hc.1
      have hc2 := hc.2
      have hupto : min (min r.stop stop - r.1) r.2.length = min r.stop stop - r.1 := by
        unfold Patch.stop
        omega
      have hbytes : (r.2.take (min r.stop stop - r.1)).drop (pos - r.1) =
          window (patches ws g) pos (min r.stop stop - pos) := by
        refine ext_getElem? fun j => ?_
        rw [List.getElem?_drop, List.getElem?_take, getElem?_window]
        by_cases hj : j < min r.stop stop - pos
        · have hcj : r.Covers (pos + j) := ⟨by omega, by omega⟩
          have hlt : pos - r.1 + j < r.2.length := by
            unfold Patch.stop at hj
            omega
          rw [if_pos (by omega), if_pos hj, hws.patches_of_covers hr hcj, getD_eq_getElem?_getD,
            show pos + j - r.1 = pos - r.1 + j by omega, List.getElem?_eq_getElem hlt]
          rfl
        · rw [if_neg (by omega), if_neg hj]
      dsimp only
      rw [hupto, hbytes, show r.1 + (min r.stop stop - r.1) = min r.stop stop by omega,
        ← hstep (by omega)]
      exact ih hst (by omega) (by omega) (by omega)
    | none =>
      have hn := coveringRange_none hws hcov
      have hlt := lt_gapEnd hws (not_le.mp hend) hn
      have hle : gapEnd ws stop pos ≤ stop := Nat.min_le_right _ _
      obtain ⟨b, st', hb, hst', hget⟩ := hbase st pos (gapEnd ws stop pos - pos) hst
      have hbytes : resize (gapEnd ws stop pos - pos) b =
          window (patches ws g) pos (gapEnd ws stop pos - pos) := by
        refine resize_eq_window fun j hj => ?_
        have hin : pos + j < gapEnd ws stop pos := by omega
        rw [hget j hj, patches_of_not_covered (not_covered_gap hws hn (Nat.le_add_right _ _) hin)]
      obtain ⟨st₂, hrun, hst₂⟩ := ih hst' (show offset ≤ gapEnd ws stop pos by omega) (by omega) hle
      rw [hstep (le_of_lt hlt), ← hbytes] at hrun
      exact ⟨st₂, (bind_of_ok hb).trans hrun, hst₂⟩

/-- A read returns the bytes of the file under the dirty extents, up to the length that the cache
knows. -/
theorem readThrough_spec {c : WbCache} (hbase : Serves base I g) (hws : Coalesced c.ranges)
    (offset size : Nat) {st : σ} (hst : I st) :
    ∃ st', readThrough base c offset size st =
      .ok (window (patches c.ranges g) offset (min (offset + size) c.len - offset)) st' ∧ I st' := by
  unfold readThrough
  by_cases hnone : size = 0 ∨ c.len ≤ offset
  · rw [if_pos hnone, show min (offset + size) c.len - offset = 0 by omega]
    exact ⟨st, rfl, hst⟩
  rw [if_neg hnone]
  by_cases hr : c.ranges = []
  · rw [if_pos hr, hr, patches_nil]
    obtain ⟨b, st', hb, hst', hget⟩ := hbase st offset (min (offset + size) c.len - offset) hst
    exact ⟨st', by rw [bind_of_ok hb, resize_eq_window hget]; rfl, hst'⟩
  · rw [if_neg hr]
    have hle : offset ≤ min (offset + size) c.len := by omega
    have := readLoop_spec hbase hws (min (offset + size) c.len - offset) hst (Nat.le_refl offset)
      (by omega) hle
    rwa [Nat.sub_self] at this

end

/-! ## Truncating -/

section

variable {c : WbCache} {n : Nat} {w : Patch}

/-- The patches below `n`, cut at `n`. -/
def clip (n : Nat) (ws : List Patch) : List Patch :=
  (ws.filter (·.1 < n)).map fun w => (w.1, w.2.take (n - w.1))

theorem stop_le_of_mem_clip {ws : List Patch} (hw : w ∈ clip n ws) : w.stop ≤ n := by
  obtain ⟨v, hv, rfl⟩ := mem_map.mp hw
  have hlt : v.1 < n := of_decide_eq_true (mem_filter.mp hv).2
  unfold stop
  rw [length_take]
  omega

/-- Clipped patches show what they showed below the cut, and nothing behind it. -/
theorem patches_clip (n : Nat) (ws : List Patch) (f : Nat → UInt8) (i : Nat) :
    patches (clip n ws) f i = if i < n then patches ws f i else f i := by
  induction ws generalizing f with
  | nil => exact (ite_self _).symm
  | cons w ws ih =>
    rw [clip]
    by_cases hlt : w.1 < n
    · rw [filter_cons_of_pos (by simpa using hlt), map_cons, patches_cons, ← clip, ih, patch_take,
        Nat.add_sub_cancel' (le_of_lt hlt)]
      split
      · rename_i hi
        refine patches_congr fun _ => ?_
        rw [patch_take, Nat.add_sub_cancel' (le_of_lt hlt), if_pos hi]
      · rfl
    · rw [filter_cons_of_neg (by simpa using hlt), ← clip, ih]
      split
      · rename_i hi
        exact patches_congr fun _ => (patch_of_not_covers fun hc => by have := hc.1; omega).symm
      · rfl

theorem exists_of_mem_clip {ws : List Patch} (hw : w ∈ clip n ws) : ∃ v ∈ ws, w.stop ≤ v.stop := by
  obtain ⟨v, hv, rfl⟩ := mem_map.mp hw
  refine ⟨v, mem_of_mem_filter hv, ?_⟩
  unfold stop
  rw [length_take]
  omega

theorem nonempty_clip {ws : List Patch} (h : ∀ w ∈ ws, w.2 ≠ []) (hw : w ∈ clip n ws) : w.2 ≠ [] := by
  obtain ⟨v, hv, rfl⟩ := mem_map.mp hw
  have hlt : v.1 < n := of_decide_eq_true (mem_filter.mp hv).2
  have hpos := length_pos_iff.mpr (h v (mem_of_mem_filter hv))
  refine length_pos_iff.mp ?_
  rw [length_take]
  omega

theorem coalesced_clip {ws : List Patch} (h : Coalesced ws) (n : Nat) : Coalesced (clip n ws) := by
  refine ⟨pairwise_map.mpr ((h.filter (·.1 < n)).separate.imp fun {a b} hab => ?_),
    fun v hv => nonempty_clip h.nonempty hv⟩
  unfold stop at *
  rw [length_take]
  omega

/-- Only the last extent can reach behind the new end. -/
theorem ranges_truncate (h : Coalesced c.ranges) (n : Nat) :
    (c.truncate n).ranges = clip n c.ranges := by
  have hwhole : ∀ ws : List Patch,
      (∀ w ∈ ws, w.stop ≤ n) → ws.map (fun w => (w.1, w.2.take (n - w.1))) = ws := by
    intro ws hws
    refine (map_congr_left fun w hw => ?_).trans (map_id ws)
    have := hws w hw
    unfold stop at this
    rw [take_of_length_le (by omega)]
    rfl
  unfold truncate clip
  dsimp only
  cases hlast : (c.ranges.filter (·.1 < n)).getLast? with
  | none =>
    rw [getLast?_eq_none_iff.mp hlast]
    rfl
  | some w =>
    obtain ⟨front, hsplit⟩ := getLast?_eq_some_iff.mp hlast
    have hwn : w.1 < n := of_decide_eq_true (mem_filter.mp (mem_of_getLast? hlast)).2
    have hfront : ∀ v ∈ front, v.stop ≤ n := by
      intro v hv
      have hsep := (h.filter (·.1 < n)).separate
      rw [hsplit] at hsep
      have := (pairwise_append.mp hsep).2.2 v hv w (mem_singleton_self w)
      omega
    rw [hsplit, map_append, hwhole front hfront, dropLast_concat]
    dsimp only
    split
    · rfl
    · rename_i hle
      rw [hwhole [w] fun v hv => (mem_singleton.mp hv) ▸ (not_lt.mp hle)]

end

/-! ## Runs -/

inductive CacheOp where
  | write (offset : Nat) (data : Bytes)
  | truncate (newLen : Nat)
  deriving DecidableEq, Repr

namespace CacheOp

/-- What the call does to a file; an empty write does not make it longer. -/
def file (b : Bytes) : CacheOp → Bytes
  | write offset data => if data = [] then b else splice offset data b
  | truncate newLen => resize newLen b

def cache (c : WbCache) : CacheOp → WbCache
  | write offset data => c.write offset data
  | truncate newLen => c.truncate newLen

/-- The handle's call on its cache and the file below, which the adapter cuts with the cache. -/
def step (p : WbCache × Bytes) : CacheOp → WbCache × Bytes
  | write offset data => (p.1.write offset data, p.2)
  | truncate newLen => (p.1.truncate newLen, resize newLen p.2)

end CacheOp

/-- Over the file below the cache shows `b`. -/
structure Overlays (p : WbCache × Bytes) (b : Bytes) : Prop where
  coalesced : Coalesced p.1.ranges
  clean : p.1.dirty = false → p.1.ranges = []
  len : p.1.len = b.length
  view : spliced p.1.ranges p.2 = b

namespace Overlays

variable {p : WbCache × Bytes} {b : Bytes}

theorem write (h : Overlays p b) (offset : Nat) (data : Bytes) :
    Overlays (CacheOp.step p (.write offset data)) (CacheOp.file b (.write offset data)) := by
  by_cases hd : data = []
  · simpa only [CacheOp.step, CacheOp.file, WbCache.write, if_pos hd] using h
  have hsame : Same (p.1.write offset data).ranges (p.1.ranges ++ [(offset, data)]) := fun f => by
    rw [patches_write h.coalesced, patches_append]
    rfl
  have hne : ∀ w ∈ p.1.ranges ++ [(offset, data)], w.2 ≠ [] := fun w hw =>
    (mem_append.mp hw).elim (h.coalesced.nonempty w) fun hw => mem_singleton.mp hw ▸ hd
  have hc : Coalesced (p.1.write offset data).ranges := coalesced_write h.coalesced
  rw [CacheOp.file, if_neg hd]
  refine ⟨hc, ?_, ?_, ?_⟩
  · simp only [CacheOp.step, WbCache.write, if_neg hd, Bool.true_eq_false, false_implies]
  · simp only [CacheOp.step, WbCache.write, if_neg hd, h.len, length_splice]
  · exact (hsame.spliced_eq hc.nonempty hne p.2).trans ((spliced_concat _ _ _).trans (by rw [h.view]))

/-- The extents in front of the new end, over the file cut there. -/
theorem spliced_clip (n : Nat) (ws : List Patch) (b : Bytes) :
    spliced (clip n ws) (resize n b) = resize n (spliced ws b) := by
  refine ext_getD ?_ fun i => ?_
  · rw [length_spliced, length_resize, length_resize]
    exact le_antisymm (reach_le_iff.mpr ⟨Nat.le_refl n, fun w hw => stop_le_of_mem_clip hw⟩)
      (le_reach _ n)
  · rw [congrFun (getD_spliced _ _) i, patches_clip, getD_resize, getD_resize,
      congrFun (getD_spliced _ _) i]
    split
    · exact patches_congr fun _ => by rw [getD_resize, if_pos ‹i < n›]
    · rfl

theorem truncate (h : Overlays p b) (n : Nat) :
    Overlays (CacheOp.step p (.truncate n)) (CacheOp.file b (.truncate n)) := by
  have hr : (p.1.truncate n).ranges = clip n p.1.ranges := ranges_truncate h.coalesced n
  refine ⟨?_, fun hc => (nomatch hc), (length_resize n b).symm, ?_⟩
  · exact hr ▸ coalesced_clip h.coalesced n
  · show spliced (p.1.truncate n).ranges (resize n p.2) = resize n b
    rw [hr, spliced_clip, h.view]

theorem run (h : Overlays p b) (ops : List CacheOp) :
    Overlays (Lib.run CacheOp.step p ops) (Lib.run CacheOp.file b ops) := by
  induction ops generalizing p b with
  | nil => exact h
  | cons op ops ih =>
    cases op with
    | write offset data => exact ih (h.write offset data)
    | truncate n => exact ih (h.truncate n)

theorem readThrough (h : Overlays p b) {ε σ : Type} {base : Nat → Nat → EStateM ε σ Bytes}
    {I : σ → Prop} (hbase : Serves base I (p.2.getD · 0)) {st : σ} (hst : I st) (offset size : Nat) :
    ∃ st', WbCache.readThrough base p.1 offset size st = .ok (slice offset size b) st' ∧ I st' := by
  obtain ⟨st', hread, hst'⟩ := readThrough_spec hbase h.coalesced offset size hst
  refine ⟨st', hread.trans ?_, hst'⟩
  congr 1
  refine ext_getD ?_ fun j => ?_
  · rw [length_window, slice, length_take, length_drop, h.len]
    omega
  rw [getD_eq_getElem?_getD, getElem?_window, getD_slice, ← getD_spliced, h.view, h.len]
  by_cases hj : j < min (offset + size) b.length - offset
  · rw [if_pos hj, if_pos (by omega), Option.getD_some]
  · rw [if_neg hj]
    split
    · exact (getD_of_length_le (by omega)).symm
    · rfl

theorem takeDirtyRanges (h : Overlays p b) : spliced (p.1.takeDirtyRanges.1.getD []) p.2 = b := by
  rw [WbCache.takeDirtyRanges]
  split
  · exact h.view
  · rename_i hd
    have hv := h.view
    rw [h.clean (by simpa using hd)] at hv
    exact hv

end Overlays

/-- For every run of writes and truncations over any file, the truncations made to the file too,
the extents stay apart, every read returns the bytes of the file that the calls describe, and
writing the extents out makes that file. -/
theorem cache_refines_overlay (base : Bytes) (ops : List CacheOp) :
    let p := Lib.run CacheOp.step (.new base.length, base) ops
    let b := Lib.run CacheOp.file base ops
    p.1 = Lib.run CacheOp.cache (.new base.length) ops ∧ Coalesced p.1.ranges ∧
      (∀ {ε σ : Type} (reader : Nat → Nat → EStateM ε σ Bytes) (I : σ → Prop),
        Serves reader I (p.2.getD · 0) →
        ∀ st, I st → ∀ offset size, ∃ st',
          readThrough reader p.1 offset size st = .ok (slice offset size b) st' ∧ I st') ∧
      spliced (p.1.takeDirtyRanges.1.getD []) p.2 = b := by
  have h : Overlays (.new base.length, base) base := ⟨.nil, fun _ => rfl, rfl, rfl⟩
  refine ⟨?_, (h.run ops).coalesced, fun reader I hbase st hst => (h.run ops).readThrough hbase hst,
    (h.run ops).takeDirtyRanges⟩
  clear h
  generalize WbCache.new base.length = c
  induction ops generalizing c base with
  | nil => rfl
  | cons op ops ih => cases op <;> exact ih _ _

theorem cache_refines_overlay_calls :
    ∃ st', readThrough (fun offset n => pure (slice offset n [7, 7])) (Lib.run CacheOp.cache (.new 2)
      [.write 1 [8], .write 3 [9], .truncate 4, .write 0 [5]]) 0 9 () =
        (.ok [5, 8, 0, 9] st' : EStateM.Result Unit Unit Bytes) := by
  obtain ⟨hc, -, hread, -⟩ :=
    cache_refines_overlay [7, 7] [.write 1 [8], .write 3 [9], .truncate 4, .write 0 [5]]
  obtain ⟨st', h, -⟩ := hread (fun offset n => pure (slice offset n [7, 7])) (fun _ => True)
    (fun st offset n _ => ⟨_, st, rfl, trivial, fun j hj => by
      rw [getD_slice, if_pos hj]
      show _ = (resize 4 [7, 7]).getD (offset + j) 0
      rw [getD_resize]
      split
      · rfl
      · exact getD_of_length_le (by simp; omega)⟩) () trivial 0 9
  exact ⟨st', (hc ▸ h).trans rfl⟩

/-- Over a file that keeps its bytes, a cut is not seen when the extents are written out, and not in
a read once the cache has grown again. -/
theorem cut_over_fixed_base :
    let reader : Nat → Nat → EStateM Unit Unit Bytes := fun offset n => pure (slice offset n [1, 2, 3])
    let cut := Lib.run CacheOp.cache (.new 3) [.truncate 1]
    let grown := Lib.run CacheOp.cache (.new 3) [.truncate 1, .truncate 3]
    readThrough reader cut 0 3 () = .ok [1] () ∧
      spliced (cut.takeDirtyRanges.1.getD []) [1, 2, 3] = [1, 2, 3] ∧
      readThrough reader grown 0 3 () = .ok [1, 2, 3] () ∧
      Lib.run CacheOp.file [1, 2, 3] [.truncate 1, .truncate 3] = [1, 0, 0] :=
  ⟨rfl, by decide, rfl, by decide⟩

end WbCache

end Sfs.Mount

import Mathlib

/-!
# Extents and coalescing free lists

An extent is a run of addresses. A free list keeps extents in the order of their addresses with a
gap between any two (`Spaced`): `insert` merges what it touches, `removeRange` cuts a range out of
the extent that holds it, and `firstFit` finds the lowest extent that is long enough. What counts
is the set of addresses a list covers: `insert` adds a range to it and `removeRange` takes one
away.
-/

namespace Sfs.Lib

open List hiding Disjoint

structure Extent where
  start : Nat
  len : Nat
  deriving DecidableEq, Repr

namespace Extent

def stop (e : Extent) : Nat := e.start + e.len

/-- The addresses of an extent. -/
def bytes (e : Extent) : Set Nat := Set.Ico e.start e.stop

theorem mem_bytes {x : Nat} {e : Extent} : x ∈ e.bytes ↔ e.start ≤ x ∧ x < e.stop := Iff.rfl

/-- The extent moved up by `d`. -/
def shift (d : Nat) (e : Extent) : Extent := ⟨e.start + d, e.len⟩

@[simp] theorem shift_start (d : Nat) (e : Extent) : (e.shift d).start = e.start + d := rfl

@[simp] theorem shift_stop (d : Nat) (e : Extent) : (e.shift d).stop = e.stop + d := by
  simp only [stop, shift]
  omega

end Extent

open Extent

/-- The addresses a list of extents covers. -/
def cover (l : List Extent) : Set Nat := { x | ∃ e ∈ l, x ∈ e.bytes }

theorem mem_cover {x : Nat} {l : List Extent} : x ∈ cover l ↔ ∃ e ∈ l, x ∈ e.bytes := Iff.rfl

theorem bytes_subset_cover {l : List Extent} {e : Extent} (h : e ∈ l) : e.bytes ⊆ cover l :=
  fun _ hx => ⟨e, h, hx⟩

@[simp] theorem cover_nil : cover [] = ∅ := by
  ext x
  simp [mem_cover]

theorem mem_cover_shift {x : Nat} {l : List Extent} {d : Nat} :
    x + d ∈ cover (l.map (shift d)) ↔ x ∈ cover l := by
  simp only [mem_cover, mem_map, exists_exists_and_eq_and, mem_bytes, shift_start, shift_stop]
  simp only [Nat.add_le_add_iff_right, Nat.add_lt_add_iff_right]

theorem le_of_mem_cover_shift {x : Nat} {l : List Extent} {d : Nat}
    (h : x ∈ cover (l.map (shift d))) : d ≤ x := by
  obtain ⟨_, he, hx⟩ := h
  obtain ⟨e, -, rfl⟩ := mem_map.mp he
  exact le_trans (Nat.le_add_left d e.start) hx.1

/-- Ordered, with a gap between any two extents and none of them empty. -/
structure Spaced (l : List Extent) : Prop where
  order : l.Pairwise fun e f => e.stop < f.start
  pos : ∀ e ∈ l, 0 < e.len

namespace Spaced

theorem nil : Spaced [] := ⟨.nil, by simp⟩

theorem start_lt_stop {l : List Extent} {e : Extent} (h : Spaced l) (he : e ∈ l) :
    e.start < e.stop :=
  Nat.lt_add_of_pos_right (h.pos e he)

theorem filter {l : List Extent} (h : Spaced l) (p : Extent → Bool) : Spaced (l.filter p) :=
  ⟨h.order.filter p, fun e he => h.pos e (mem_filter.mp he).1⟩

theorem shift {l : List Extent} (h : Spaced l) (d : Nat) : Spaced (l.map (shift d)) := by
  refine ⟨pairwise_map.mpr (h.order.imp fun hlt => ?_), fun e he => ?_⟩
  · simpa using hlt
  · obtain ⟨f, hf, rfl⟩ := mem_map.mp he
    exact h.pos f hf

/-- Two of its extents are the same or stand apart. -/
theorem apart {l : List Extent} {e f : Extent} (h : Spaced l) (he : e ∈ l) (hf : f ∈ l) :
    e = f ∨ e.stop < f.start ∨ f.stop < e.start := by
  by_cases heq : e = f
  · exact .inl heq
  · have hboth : l.Pairwise fun e f => e.stop < f.start ∨ f.stop < e.start := h.order.imp .inl
    have : Std.Symm fun e f : Extent => e.stop < f.start ∨ f.stop < e.start := ⟨fun _ _ hr => hr.symm⟩
    exact .inr (hboth.forall he hf heq)

theorem eq_of_start_eq {l : List Extent} {e f : Extent} (h : Spaced l) (he : e ∈ l) (hf : f ∈ l)
    (hs : e.start = f.start) : e = f := by
  have := h.start_lt_stop he
  have := h.start_lt_stop hf
  rcases h.apart he hf with heq | hlt | hlt
  · exact heq
  · omega
  · omega

/-- Which of two extents comes first. -/
theorem stop_lt_of_start_lt {l : List Extent} {e f : Extent} (h : Spaced l) (he : e ∈ l)
    (hf : f ∈ l) (hs : e.start < f.start) : e.stop < f.start := by
  have := h.start_lt_stop hf
  rcases h.apart he hf with rfl | hlt | hlt
  · omega
  · exact hlt
  · omega

theorem pairwise_disjoint {l : List Extent} (h : Spaced l) :
    l.Pairwise fun e f => Disjoint e.bytes f.bytes :=
  h.order.imp fun hlt => Set.disjoint_left.mpr fun x hx hx' => by
    simp only [mem_bytes] at hx hx'
    omega

end Spaced

/-! ## The operations -/

/-- The last extent that starts at `a` or below. -/
def lastAtMost (l : List Extent) (a : Nat) : Option Extent := (l.filter fun e => e.start ≤ a).getLast?

/-- Insert `e` at its place; an extent with its start is replaced. -/
def putExtent (e : Extent) (l : List Extent) : List Extent :=
  l.filter (fun f => f.start < e.start) ++ e :: l.filter fun f => e.start < f.start

def removeAt (l : List Extent) (a : Nat) : List Extent := l.filter fun f => f.start ≠ a

/-- Where a range that is inserted starts and ends once the extent before it is merged, and what
is left of the list. -/
def mergeLeft (l : List Extent) (addr len : Nat) : Nat × Nat × List Extent :=
  match lastAtMost l addr with
  | some p => if addr ≤ p.stop then (p.start, max (addr + len) p.stop, removeAt l p.start)
    else (addr, addr + len, l)
  | none => (addr, addr + len, l)

/-- Add `[addr, addr + len)` and merge what it touches. -/
def insertRange (l : List Extent) (addr len : Nat) : List Extent :=
  let (start, stop, l) := mergeLeft l addr len
  let succs := l.filter fun e => start ≤ e.start ∧ e.start ≤ stop
  let stop' := succs.foldl (fun m e => max m e.stop) stop
  putExtent ⟨start, stop' - start⟩ (l.filter fun e => ¬ (start ≤ e.start ∧ e.start ≤ stop))

/-- The lowest extent that has `needed` addresses. -/
def firstFit (l : List Extent) (needed : Nat) : Option Nat :=
  (l.find? fun e => needed ≤ e.len).map start

/-- Cut `[addr, addr + size)` out of the extent that holds it. -/
def removeRange (l : List Extent) (addr size : Nat) : List Extent :=
  match lastAtMost l addr with
  | none => l
  | some e =>
    let l := removeAt l e.start
    let l := if e.start < addr then putExtent ⟨e.start, addr - e.start⟩ l else l
    if addr + size < e.stop then putExtent ⟨addr + size, e.stop - (addr + size)⟩ l else l

section

variable {l : List Extent}

theorem lastAtMost_some {p : Extent} {a : Nat} (h : Spaced l) (hp : lastAtMost l a = some p) :
    p ∈ l ∧ p.start ≤ a ∧ ∀ e ∈ l, e.start ≤ a → e = p ∨ e.stop < p.start := by
  have hmem := mem_of_getLast? hp
  obtain ⟨hpl, hpa⟩ := mem_filter.mp hmem
  refine ⟨hpl, of_decide_eq_true hpa, fun e he hea => ?_⟩
  obtain ⟨init, hinit⟩ := getLast?_eq_some_iff.mp hp
  have hin : e ∈ init ++ [p] := hinit ▸ mem_filter.mpr ⟨he, decide_eq_true hea⟩
  rcases mem_append.mp hin with hi | hi
  · have hord := (h.filter fun e => decide (e.start ≤ a)).order
    rw [hinit] at hord
    exact .inr ((pairwise_append.mp hord).2.2 e hi p (mem_singleton_self p))
  · exact .inl (mem_singleton.mp hi)

theorem lastAtMost_none {e : Extent} {a : Nat} (hp : lastAtMost l a = none) (he : e ∈ l) :
    a < e.start := by
  by_contra hle
  have hnil := getLast?_eq_none_iff.mp hp
  have hin : e ∈ l.filter fun e => decide (e.start ≤ a) :=
    mem_filter.mpr ⟨he, decide_eq_true (not_lt.mp hle)⟩
  rw [hnil] at hin
  cases hin

theorem mem_putExtent {e p : Extent} : p ∈ putExtent e l ↔ p = e ∨ p ∈ l ∧ p.start ≠ e.start := by
  simp only [putExtent, mem_append, mem_filter, mem_cons, decide_eq_true_eq]
  constructor
  · rintro (⟨h, hlt⟩ | rfl | ⟨h, hlt⟩)
    · exact .inr ⟨h, by omega⟩
    · exact .inl rfl
    · exact .inr ⟨h, by omega⟩
  · rintro (rfl | ⟨h, hne⟩)
    · exact .inr (.inl rfl)
    · rcases Nat.lt_or_gt_of_ne hne with hlt | hlt
      · exact .inl ⟨h, hlt⟩
      · exact .inr (.inr ⟨h, hlt⟩)

theorem mem_removeAt {p : Extent} {a : Nat} : p ∈ removeAt l a ↔ p ∈ l ∧ p.start ≠ a := by
  simp [removeAt]

/-- An extent that stands apart from a list can be put into it. -/
theorem Spaced.put {e : Extent} (h : Spaced l) (hlen : 0 < e.len)
    (hapart : ∀ f ∈ l, f.stop < e.start ∨ e.stop < f.start) : Spaced (putExtent e l) := by
  have hbefore : ∀ f ∈ l.filter (fun f => f.start < e.start), f.stop < e.start := by
    intro f hf
    obtain ⟨hfl, hlt⟩ := mem_filter.mp hf
    have hlt := of_decide_eq_true hlt
    rcases hapart f hfl with hs | hs
    · exact hs
    · simp only [stop] at hs
      omega
  have hafter : ∀ f ∈ l.filter (fun f => e.start < f.start), e.stop < f.start := by
    intro f hf
    obtain ⟨hfl, hlt⟩ := mem_filter.mp hf
    have hlt := of_decide_eq_true hlt
    rcases hapart f hfl with hs | hs
    · simp only [stop] at hs
      omega
    · exact hs
  have hstop : e.start < e.stop := Nat.lt_add_of_pos_right hlen
  refine ⟨pairwise_append.mpr ⟨h.order.filter _, pairwise_cons.mpr ⟨hafter, h.order.filter _⟩, ?_⟩, ?_⟩
  · intro f hf g hg
    have hf := hbefore f hf
    rcases mem_cons.mp hg with rfl | hg
    · exact hf
    · have hg := hafter g hg
      omega
  · intro f hf
    rcases mem_putExtent.mp hf with rfl | ⟨hf, -⟩
    · exact hlen
    · exact h.pos f hf

theorem mem_cover_put {e : Extent} {x : Nat} (hapart : ∀ f ∈ l, f.start ≠ e.start) :
    x ∈ cover (putExtent e l) ↔ x ∈ e.bytes ∨ x ∈ cover l := by
  simp only [mem_cover, mem_putExtent]
  constructor
  · rintro ⟨f, rfl | ⟨hf, -⟩, hx⟩
    · exact .inl hx
    · exact .inr ⟨f, hf, hx⟩
  · rintro (hx | ⟨f, hf, hx⟩)
    · exact ⟨e, .inl rfl, hx⟩
    · exact ⟨f, .inr ⟨hf, hapart f hf⟩, hx⟩

/-! ### Inserting -/

/-- What is left after the extent before the range was merged with it. -/
structure MergedLeft (l : List Extent) (addr len start stop : Nat) (l' : List Extent) : Prop where
  start_le : start ≤ addr
  le_stop : addr + len ≤ stop
  spaced : Spaced l'
  before : ∀ f ∈ l', f.start < start → f.stop < start
  ne_start : ∀ f ∈ l', f.start ≠ start
  cover : ∀ x, (start ≤ x ∧ x < stop) ∨ x ∈ cover l' ↔ (addr ≤ x ∧ x < addr + len) ∨ x ∈ Lib.cover l

theorem mergeLeft_cases {l l' : List Extent} {addr len start stop : Nat} (h : Spaced l)
    (heq : mergeLeft l addr len = (start, stop, l')) :
    (start = addr ∧ stop = addr + len ∧ l' = l ∧ ∀ f ∈ l, f.start ≤ addr → f.stop < addr) ∨
      ∃ p ∈ l, p.start ≤ addr ∧ addr ≤ p.stop ∧ start = p.start ∧ stop = max (addr + len) p.stop ∧
        l' = removeAt l p.start := by
  unfold mergeLeft at heq
  cases hp : lastAtMost l addr with
  | none =>
    rw [hp] at heq
    cases heq
    exact .inl ⟨rfl, rfl, rfl, fun f hf hle => absurd (lastAtMost_none hp hf) hle.not_gt⟩
  | some p =>
    obtain ⟨hpl, hpa, hlast⟩ := lastAtMost_some h hp
    simp only [hp] at heq
    split at heq <;> rename_i hle <;> cases heq
    · exact .inr ⟨p, hpl, hpa, hle, rfl, rfl, rfl⟩
    · refine .inl ⟨rfl, rfl, rfl, fun f hf hfa => ?_⟩
      have := h.start_lt_stop hpl
      rcases hlast f hf hfa with rfl | hlt <;> omega

theorem mergedLeft {l l' : List Extent} {addr len start stop : Nat} (h : Spaced l)
    (heq : mergeLeft l addr len = (start, stop, l')) : MergedLeft l addr len start stop l' := by
  rcases mergeLeft_cases h heq with ⟨rfl, rfl, rfl, hbefore⟩ | ⟨p, hpl, hpa, hle, rfl, rfl, rfl⟩
  · refine ⟨le_rfl, le_rfl, h, fun f hf hlt => hbefore f hf hlt.le, fun f hf hs => ?_,
      fun x => Iff.rfl⟩
    have := hbefore f hf hs.le
    have := h.start_lt_stop hf
    omega
  refine ⟨hpa, le_max_left _ _, h.filter _, ?_, fun f hf => (mem_removeAt.mp hf).2, fun x => ?_⟩
  · intro f hf hlt
    exact h.stop_lt_of_start_lt (mem_removeAt.mp hf).1 hpl hlt
  constructor
  · rintro (hx | ⟨f, hf, hx⟩)
    · by_cases hin : x < p.stop
      · exact .inr ⟨p, hpl, hx.1, hin⟩
      · exact .inl (by omega)
    · exact .inr ⟨f, (mem_removeAt.mp hf).1, hx⟩
  · rintro (hx | ⟨f, hf, hx⟩)
    · exact .inl (by omega)
    by_cases hfp : f = p
    · subst hfp
      simp only [mem_bytes] at hx
      exact .inl (by omega)
    · exact .inr ⟨f, mem_removeAt.mpr ⟨hf, fun hs => hfp (h.eq_of_start_eq hf hpl hs)⟩, hx⟩

theorem foldl_max_stop (l : List Extent) (m : Nat) :
    m ≤ l.foldl (fun m e => max m e.stop) m ∧ (∀ e ∈ l, e.stop ≤ l.foldl (fun m e => max m e.stop) m) ∧
      (l.foldl (fun m e => max m e.stop) m = m ∨
        ∃ e ∈ l, l.foldl (fun m e => max m e.stop) m = e.stop) := by
  induction l generalizing m with
  | nil => simp
  | cons e l ih =>
    obtain ⟨hle, hall, heq⟩ := ih (max m e.stop)
    simp only [foldl_cons, forall_mem_cons]
    refine ⟨by omega, ⟨by omega, hall⟩, ?_⟩
    rcases heq with heq | ⟨f, hf, heq⟩
    · rcases le_total m e.stop with hm | hm
      · exact .inr ⟨e, .head _, by omega⟩
      · exact .inl (by omega)
    · exact .inr ⟨f, .tail _ hf, heq⟩

/-- The list stays ordered and spaced, and the range is added to what it covers. -/
theorem insertRange_spec {len : Nat} (h : Spaced l) (addr : Nat) (hlen : 0 < len) :
    Spaced (insertRange l addr len) ∧
      ∀ x, x ∈ cover (insertRange l addr len) ↔ (addr ≤ x ∧ x < addr + len) ∨ x ∈ cover l := by
  unfold insertRange
  rcases hml : mergeLeft l addr len with ⟨start, stop, l'⟩
  have hm := mergedLeft h hml
  have hstart := hm.start_le
  have hstop := hm.le_stop
  dsimp only
  obtain ⟨hle, hall, heq⟩ := foldl_max_stop (l'.filter fun e => start ≤ e.start ∧ e.start ≤ stop) stop
  generalize hs : (l'.filter fun e => start ≤ e.start ∧ e.start ≤ stop).foldl
    (fun m e => max m e.stop) stop = stop'
    at hle hall heq
  have hsucc : stop' = stop ∨ ∃ e ∈ l', e.start ≤ stop ∧ stop' = e.stop := by
    refine heq.imp id ?_
    rintro ⟨e, he, hes⟩
    obtain ⟨hel, hrange⟩ := mem_filter.mp he
    exact ⟨e, hel, (of_decide_eq_true hrange).2, hes⟩
  have hfar : ∀ f ∈ l'.filter (fun e => ¬ (start ≤ e.start ∧ e.start ≤ stop)),
      f ∈ l' ∧ (f.start < start ∨ stop < f.start) := by
    intro f hf
    obtain ⟨hfl, hout⟩ := mem_filter.mp hf
    have := of_decide_eq_true hout
    exact ⟨hfl, by omega⟩
  -- the merged extent stands apart from what is left
  have hapart : ∀ f ∈ l'.filter (fun e => ¬ (start ≤ e.start ∧ e.start ≤ stop)),
      f.stop < start ∨ stop' < f.start := by
    intro f hf
    obtain ⟨hfl, hlt | hlt⟩ := hfar f hf
    · exact .inl (hm.before f hfl hlt)
    · refine .inr ?_
      rcases hsucc with rfl | ⟨e, hel, hes, rfl⟩
      · exact hlt
      · exact hm.spaced.stop_lt_of_start_lt hel hfl (by omega)
  have hext : (⟨start, stop' - start⟩ : Extent).stop = stop' := by
    simp only [Extent.stop]
    omega
  refine ⟨(hm.spaced.filter _).put (by simp only; omega) fun f hf => ?_, fun x => ?_⟩
  · rw [hext]
    exact hapart f hf
  rw [mem_cover_put fun f hf => hm.ne_start f (mem_filter.mp hf).1, ← hm.cover x, Extent.mem_bytes,
    hext]
  dsimp only
  constructor
  · rintro (⟨hx, hx'⟩ | ⟨f, hf, hx⟩)
    · by_cases hin : x < stop
      · exact .inl ⟨hx, hin⟩
      · rcases hsucc with rfl | ⟨e, hel, hes, rfl⟩
        · exact absurd hx' hin
        · exact .inr ⟨e, hel, by simp only [Extent.mem_bytes]; omega⟩
    · exact .inr ⟨f, (mem_filter.mp hf).1, hx⟩
  · rintro (⟨hx, hx'⟩ | ⟨f, hf, hx⟩)
    · exact .inl (by omega)
    by_cases hin : start ≤ f.start ∧ f.start ≤ stop
    · have := hall f (mem_filter.mpr ⟨hf, decide_eq_true hin⟩)
      simp only [Extent.mem_bytes] at hx
      exact .inl (by omega)
    · exact .inr ⟨f, mem_filter.mpr ⟨hf, decide_eq_true hin⟩, hx⟩

/-! ### Taking -/

theorem firstFit_some {a : Nat} {needed : Nat} (ha : firstFit l needed = some a) :
    ∃ e ∈ l, e.start = a ∧ needed ≤ e.len := by
  obtain ⟨e, he, rfl⟩ := Option.map_eq_some_iff.mp ha
  have hfits := find?_some he
  exact ⟨e, mem_of_find?_eq_some he, rfl, of_decide_eq_true hfits⟩

/-- Of an ordered list the lowest extent is found. -/
theorem firstFit_eq_some_iff {a : Nat} (h : Spaced l) {needed : Nat} : firstFit l needed = some a ↔
    ∃ e ∈ l, e.start = a ∧ needed ≤ e.len ∧ ∀ f ∈ l, needed ≤ f.len → a ≤ f.start := by
  constructor
  · intro ha
    obtain ⟨e, he, rfl⟩ := Option.map_eq_some_iff.mp ha
    obtain ⟨hfits, front, back, rfl, hfront⟩ := find?_eq_some_iff_append.mp he
    refine ⟨e, mem_of_find?_eq_some he, rfl, of_decide_eq_true hfits, fun f hf hle => ?_⟩
    rcases mem_append.mp hf with hf | hf
    · exact absurd hle (by simpa using hfront f hf)
    rcases mem_cons.mp hf with rfl | hf
    · exact le_rfl
    · have := rel_of_pairwise_cons (pairwise_append.mp h.order).2.1 hf
      exact (Nat.le_add_right _ _).trans this.le
  · rintro ⟨e, he, rfl, hfits, hmin⟩
    obtain ⟨front, back, rfl⟩ := append_of_mem he
    refine Option.map_eq_some_iff.mpr
      ⟨e, find?_eq_some_iff_append.mpr ⟨decide_eq_true hfits, front, back, rfl, fun f hf => ?_⟩, rfl⟩
    have hlt := (pairwise_append.mp h.order).2.2 f hf e (.head _)
    have hle : f.start ≤ f.stop := Nat.le_add_right _ _
    have := hmin f (mem_append_left _ hf)
    simp only [Bool.not_eq_true', decide_eq_false_iff_not]
    omega

/-- A range of covered addresses lies in one extent, since no two extents touch. -/
theorem Spaced.exists_extent {addr : Nat} (h : Spaced l) {size : Nat} (hsize : 0 < size)
    (hsub : Set.Ico addr (addr + size) ⊆ cover l) :
    ∃ e ∈ l, e.start ≤ addr ∧ addr + size ≤ e.stop := by
  obtain ⟨e, he, hlo, hhi⟩ := hsub ⟨le_rfl, Nat.lt_add_of_pos_right hsize⟩
  refine ⟨e, he, hlo, not_lt.mp fun hlt => ?_⟩
  obtain ⟨f, hf, hx⟩ := hsub (show e.stop ∈ _ from ⟨hhi.le, hlt⟩)
  rw [mem_bytes] at hx
  rcases h.apart he hf with rfl | hgap | hgap <;> omega

/-- `[s, t)`, apart from a list, is put into it unless it is empty. -/
theorem put_piece {l l' : List Extent} {s t : Nat} (h : Spaced l)
    (hapart : ∀ f ∈ l, f.stop < s ∨ t < f.start)
    (hl : l' = if s < t then putExtent ⟨s, t - s⟩ l else l) :
    Spaced l' ∧ (∀ f ∈ l', f ∈ l ∨ f.stop = t) ∧ ∀ x, x ∈ cover l' ↔
      (s ≤ x ∧ x < t) ∨ x ∈ cover l := by
  split at hl
  · rename_i hlt
    have hext : (⟨s, t - s⟩ : Extent).stop = t := Nat.add_sub_of_le hlt.le
    have hne : ∀ f ∈ l, f.start ≠ s := fun f hf => by
      have := h.start_lt_stop hf
      rcases hapart f hf with hs | hs <;> omega
    subst hl
    refine ⟨h.put (Nat.sub_pos_of_lt hlt) (by rwa [hext]), fun f hf => ?_, fun x => ?_⟩
    · rcases mem_putExtent.mp hf with rfl | ⟨hf, -⟩
      · exact .inr hext
      · exact .inl hf
    · rw [mem_cover_put hne, mem_bytes, hext]
  · subst hl
    exact ⟨h, fun f hf => .inl hf, fun x => ⟨.inr, fun hx => hx.resolve_left (by omega)⟩⟩

/-- A range inside an extent is taken away from what the list covers. -/
theorem removeRange_spec {e : Extent} {addr : Nat} (h : Spaced l) {size : Nat} (hsize : 0 < size)
    (he : e ∈ l) (hstart : e.start ≤ addr) (hstop : addr + size ≤ e.stop) :
    Spaced (removeRange l addr size) ∧
      ∀ x, x ∈ cover (removeRange l addr size) ↔ x ∈ cover l ∧ ¬ (addr ≤ x ∧ x < addr + size) := by
  have hlast : lastAtMost l addr = some e := by
    cases hp : lastAtMost l addr with
    | none => exact absurd (lastAtMost_none hp he) (not_lt.mpr hstart)
    | some p =>
      obtain ⟨hpl, hpa, hmax⟩ := lastAtMost_some h hp
      rcases hmax e he hstart with rfl | hlt
      · rfl
      · omega
  have hrest : ∀ f ∈ removeAt l e.start, f.stop < e.start ∨ e.stop < f.start := by
    intro f hf
    obtain ⟨hfl, hne⟩ := mem_removeAt.mp hf
    exact (h.apart hfl he).resolve_left fun hfe => hne (hfe ▸ rfl)
  have hcover : ∀ x, x ∈ cover l ↔ (e.start ≤ x ∧ x < e.stop) ∨ x ∈ cover (removeAt l e.start) := by
    intro x
    constructor
    · rintro ⟨f, hf, hx⟩
      by_cases hfe : f = e
      · exact .inl (hfe ▸ hx)
      · exact .inr ⟨f, mem_removeAt.mpr ⟨hf, fun hs => hfe (h.eq_of_start_eq hf he hs)⟩, hx⟩
    · rintro (hx | ⟨f, hf, hx⟩)
      · exact ⟨e, he, hx⟩
      · exact ⟨f, (mem_removeAt.mp hf).1, hx⟩
  have hout : ∀ x, x ∈ cover (removeAt l e.start) → ¬ (e.start ≤ x ∧ x < e.stop) := by
    rintro x ⟨f, hf, hx⟩ hin
    simp only [mem_bytes] at hx
    rcases hrest f hf with hlt | hlt <;> omega
  -- what stays of the extent: the part in front, and the part behind
  have hsub : Spaced (removeAt l e.start) := h.filter _
  obtain ⟨hsp, hmem, hfront⟩ :=
    put_piece (t := addr) hsub (fun f hf => (hrest f hf).imp_right (by omega)) rfl
  obtain ⟨hsp', -, hback⟩ :=
    put_piece (s := addr + size) (t := e.stop) hsp (fun f hf => (hmem f hf).elim
    (fun hf => (hrest f hf).imp_left (by omega)) fun hf => .inl (by omega)) rfl
  simp only [removeRange, hlast]
  refine ⟨hsp', fun x => ?_⟩
  rw [hback, hfront, hcover]
  by_cases hx : x ∈ cover (removeAt l e.start)
  · have := hout x hx
    simp only [hx, or_true, true_and, true_iff]
    omega
  · simp only [hx, or_false]
    omega

/-! ### Ends

The operations make no new ends but those of the range they are given. -/

/-- Both ends of every extent meet `P`. -/
def EndsIn (P : Nat → Prop) (l : List Extent) : Prop := ∀ e ∈ l, P e.start ∧ P e.stop

section

variable {P : Nat → Prop}

theorem EndsIn.put {e : Extent} (h : EndsIn P l) (he : P e.start ∧ P e.stop) :
    EndsIn P (putExtent e l) := by
  intro f hf
  rcases mem_putExtent.mp hf with rfl | ⟨hf, -⟩
  · exact he
  · exact h f hf

theorem EndsIn.filter (h : EndsIn P l) (p : Extent → Bool) : EndsIn P (l.filter p) :=
  fun e he => h e (mem_filter.mp he).1

theorem EndsIn.mergeLeft {l l' : List Extent} {addr len start stop : Nat} (h : EndsIn P l)
    (hsp : Spaced l) (ha : P addr) (hs : P (addr + len))
    (heq : mergeLeft l addr len = (start, stop, l')) : P start ∧ P stop ∧ EndsIn P l' := by
  rcases mergeLeft_cases hsp heq with ⟨rfl, rfl, rfl, -⟩ | ⟨p, hpl, -, -, rfl, rfl, rfl⟩
  · exact ⟨ha, hs, h⟩
  refine ⟨(h p hpl).1, ?_, h.filter _⟩
  rcases le_total (addr + len) p.stop with hle | hle
  · rw [max_eq_right hle]
    exact (h p hpl).2
  · rwa [max_eq_left hle]

theorem EndsIn.insertRange {addr len : Nat} (h : EndsIn P l) (hsp : Spaced l) (ha : P addr)
    (hs : P (addr + len)) : EndsIn P (insertRange l addr len) := by
  unfold Lib.insertRange
  rcases hml : Lib.mergeLeft l addr len with ⟨start, stop, l'⟩
  obtain ⟨hstart, hstop, hl'⟩ := h.mergeLeft hsp ha hs hml
  have hm := mergedLeft hsp hml
  dsimp only
  refine (hl'.filter _).put ⟨hstart, ?_⟩
  obtain ⟨hle, -, heq⟩ := foldl_max_stop (l'.filter fun e => start ≤ e.start ∧ e.start ≤ stop) stop
  have hext : ∀ m, stop ≤ m → (⟨start, m - start⟩ : Extent).stop = m := fun m hm' =>
    Nat.add_sub_of_le
      (le_trans (le_trans hm.start_le (Nat.le_add_right addr len)) (le_trans hm.le_stop hm'))
  rw [hext _ hle]
  rcases heq with heq | ⟨e, he, heq⟩
  · rwa [heq]
  · rw [heq]
    exact (hl' e (mem_filter.mp he).1).2

theorem EndsIn.piece {s t : Nat} (h : EndsIn P l) (hs : P s) (ht : P t) :
    EndsIn P (if s < t then putExtent ⟨s, t - s⟩ l else l) := by
  split
  · rename_i hlt
    have hext : (⟨s, t - s⟩ : Extent).stop = t := Nat.add_sub_of_le hlt.le
    exact h.put ⟨hs, hext.symm ▸ ht⟩
  · exact h

theorem EndsIn.removeRange {addr : Nat} (h : EndsIn P l) {size : Nat} (ha : P addr)
    (hs : P (addr + size)) : EndsIn P (removeRange l addr size) := by
  unfold Lib.removeRange
  cases hp : lastAtMost l addr with
  | none => exact h
  | some p =>
    obtain ⟨hpl, -⟩ := mem_filter.mp (mem_of_getLast? hp)
    obtain ⟨hps, hpe⟩ := h p hpl
    exact ((h.filter _).piece hps ha).piece hs hpe

end

end

end Sfs.Lib

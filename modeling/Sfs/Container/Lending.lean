import Sfs.Container.Growing

/-!
# What is lent is lent once

`Arena` keeps the extents that the allocator's callers hold beside the allocator: `lent` are in
use, `parked` are retired until the next header commit. Growing moves the tail extents a caller
holds along with the tail. Opening a container again keeps the extents that its header reaches
and builds the allocator from where they lie.

Every call keeps the owners apart if it is `Safe` (`lent_once_run`).
-/

namespace Sfs.Container

open Sfs.Lib Allocator Held KeyMap
open List hiding Disjoint

variable {h : Held} {a' : Allocator} {fileLen : Nat} {s : Arena}

structure Arena where
  alloc : Allocator
  lent : List Held
  parked : List Held

def Arena.held (s : Arena) : List Held := s.lent ++ s.parked

/-! ## Calls -/

/-- The end of what an open counts for an extent; a packed one counts as a whole block. -/
def reachedEnd (h : Held) : Nat := h.addr + footprint h.len

/-- `max_end` of an open that finds the extents `kept`. -/
def maxEnd (kept : List Held) : Nat :=
  ((kept.filter fun h => ¬ h.isTail).map reachedEnd).foldl max (2 * baseBlock)

/-- The allocator that opening builds: the frontier above what is reached, the log reservation,
and the tail blocks that the scan found. -/
def Allocator.reopened (a : Allocator) (kept : List Held) : Allocator :=
  let fresh := (Allocator.new a.fileLen a.noGrow).setForwardFrontier (maxEnd kept)
  let fresh := match a.wal with
    | none => fresh
    | some walStart => fresh.setWalReservation walStart
  (kept.filter fun h => h.isTail).foldl (fun a h => a.registerEvictionTailBlock h.addr) fresh

inductive AllocCall where
  | alloc (fault : Option Allocator.GrowFault) (len : Nat) (region : Region)
  | allocPacked (fault : Option Allocator.GrowFault) (need : Nat)
  | free (h : Held)
  | freeReclaimable (h : Held)
  | beginReclaimScope
  | endReclaimScope
  | retire (h : Held)
  | publishDeferred
  | abortDeferred
  /-- `enable_wal`: the file grows by the log region, which is then reserved -/
  | enableWal (size : Nat)
  | registerLive (h : Held) (region : Region)
  | reopen (kept : List Held)

namespace Arena

/-- The holders after an allocation: the tail moved if the file grew. -/
def lend (s : Arena) (a : Allocator) (h : Held) : Arena :=
  let d := a.fileLen - s.alloc.fileLen
  ⟨a, h :: s.lent.map (moved d), s.parked⟩

def step (s : Arena) : AllocCall → Arena
  | .alloc fault len region =>
    match s.alloc.allocAligned fault len region with
    | (a, .error _) => { s with alloc := a }
    | (a, .ok loc) => s.lend a ⟨loc.addr, len, .aligned region⟩
  | .allocPacked fault need =>
    match s.alloc.allocPacked fault need with
    | (a, .error _) => { s with alloc := a }
    | (a, .ok addr) => s.lend a ⟨addr, need, .packed⟩
  | .free h => { s with alloc := (s.alloc.free h.loc).1, lent := s.lent.erase h }
  | .freeReclaimable h =>
    match s.alloc.freeReclaimable h.loc with
    | (_, false) => s
    | (a, true) => { s with alloc := a, lent := s.lent.erase h }
  | .beginReclaimScope => { s with alloc := s.alloc.beginReclaimScope }
  | .endReclaimScope => { s with alloc := s.alloc.endReclaimScope }
  | .retire h => ⟨s.alloc.retireBlock h.loc, s.lent.erase h, s.parked ++ [h]⟩
  | .publishDeferred => ⟨s.alloc.publishDeferred, s.lent, []⟩
  | .abortDeferred => ⟨s.alloc.abortDeferred, s.lent ++ s.parked, []⟩
  | .enableWal size =>
    if s.alloc.noGrow then s
    else
      { s with
        alloc := { s.alloc with fileLen := s.alloc.fileLen + size }.setWalReservation s.alloc.fileLen }
  | .registerLive h region => { s with alloc := s.alloc.registerLiveBlock h.addr region }
  | .reopen kept => ⟨s.alloc.reopened kept, kept, []⟩

/-- A container of `fileLen` bytes before the first call. -/
def init (fileLen : Nat) (noGrow : Bool) : Arena := ⟨.new fileLen noGrow, [], []⟩

end Arena

/-- The calls a caller can make: it gives back what it holds, packs less than a block, reserves
one log of whole blocks, and an open reaches no more than what was held. -/
def Legal (s : Arena) : AllocCall → Prop
  | .allocPacked _ need => 0 < need ∧ need < baseBlock
  | .free h => h ∈ s.lent
  | .freeReclaimable h => h ∈ s.lent
  | .retire h => h ∈ s.lent
  | .enableWal size => s.alloc.wal = none ∧ baseBlock ∣ size
  | .registerLive h region => h ∈ s.lent ∧ h.kind = .aligned region
  | .reopen kept => kept.Sublist s.held
  | _ => True

instance (s : Arena) : (call : AllocCall) → Decidable (Legal s call)
  | .allocPacked _ need => inferInstanceAs (Decidable (0 < need ∧ need < baseBlock))
  | .free h | .freeReclaimable h | .retire h => inferInstanceAs (Decidable (h ∈ s.lent))
  | .enableWal size => inferInstanceAs (Decidable (s.alloc.wal = none ∧ baseBlock ∣ size))
  | .registerLive h region => inferInstanceAs (Decidable (h ∈ s.lent ∧ h.kind = .aligned region))
  | .reopen kept => inferInstanceAs (Decidable (kept.Sublist s.held))
  | .alloc .. | .beginReclaimScope | .endReclaimScope | .publishDeferred | .abortDeferred =>
    isTrue trivial

section

variable {a : Allocator} {held held' : List Held} {r r' : Region}

/-! ### Opening again -/

theorem le_foldl_max (l : List Nat) (m : Nat) : m ≤ l.foldl max m ∧ ∀ x ∈ l, x ≤ l.foldl max m := by
  induction l generalizing m with
  | nil => simp
  | cons x l ih =>
    obtain ⟨h₁, h₂⟩ := ih (max m x)
    refine ⟨(le_max_left m x).trans h₁, ?_⟩
    rintro y (_ | ⟨_, hy⟩)
    · exact (le_max_right m x).trans h₁
    · exact h₂ y hy

theorem reachedEnd_le_maxEnd {kept : List Held} (hh : h ∈ kept) (ht : ¬ h.isTail) :
    reachedEnd h ≤ maxEnd kept :=
  (le_foldl_max _ _).2 _ (mem_map_of_mem (mem_filter.mpr ⟨hh, by simpa using ht⟩))

/-- An allocator with nothing free and no forward tags, as an open builds it. -/
structure Fresh (a : Allocator) (tails : List Held) : Prop where
  free : ∀ r, a.freelist r = []
  pack : a.openPack = none
  tags : ∀ b r, a.tags.get b = some r → ∃ h ∈ tails, h.isTail ∧ h.addr = b

theorem Fresh.freeBytes {tails : List Held} (hf : Fresh a tails) (x : Nat) : x ∉ a.freeBytes := by
  rintro ⟨r, hx⟩
  rw [hf.free r] at hx
  simp at hx

/-- Registering a tail block that the scan found. -/
theorem Inv.register (hinv : Inv a held) (hfresh : Fresh a held) (ht : h.isTail)
    (hdvd : baseBlock ∣ h.addr) (hlo : a.liveHwm ≤ h.addr)
    (hhi : h.addr + footprint h.len ≤ a.limit)
    (hdis : ∀ g ∈ held, Disjoint h.extent.bytes g.extent.bytes) :
    Inv (a.registerEvictionTailBlock h.addr) (h :: held) ∧
      Fresh (a.registerEvictionTailBlock h.addr) (h :: held) := by
  have hb := hinv.toBounds
  have hsize := baseBlock_le_footprint h.len
  have hpos := baseBlock_pos
  obtain ⟨addr, len, kind⟩ := h
  obtain rfl : kind = .aligned .evictionTail := ht
  dsimp only at hdvd hlo hhi hsize
  have hmin : (if addr < a.tailLow then addr else a.tailLow) = min addr a.tailLow := by
    split <;> omega
  have hwide : Inv { a with tailLow := min addr a.tailLow } held := by
    refine hinv.widen ⟨hb.1, hb.2, hb.3, ?_, hb.5, le_min hlo hb.6, (min_le_right _ _).trans hb.7,
      hb.8⟩ (fun r' => ?_)
      rfl rfl (fun r' => ?_) fun r' => ?_
    · show baseBlock ∣ min addr a.tailLow
      rcases le_total addr a.tailLow with hle | hle
      · rwa [min_eq_left hle]
      · rw [min_eq_right hle]
        exact hb.4
    · cases r' <;> rfl
    · cases r' <;> first | exact le_rfl | exact min_le_right _ _
    · cases r' <;> exact le_rfl
  have heq : a.registerEvictionTailBlock addr =
      { a with tailLow := min addr a.tailLow }.tag addr .evictionTail := by
    unfold registerEvictionTailBlock
    rw [hmin]
    rfl
  rw [heq]
  constructor
  · refine hwide.lend hdvd (min_le_left _ _) hhi (fun x _ _ => hfresh.freeBytes x)
      (fun g hg x hx hin => ?_) ?_
    · exact Set.disjoint_left.mp (hdis g hg) hin hx
    intro b r' hb' hin
    obtain ⟨g, hg, hgt, rfl⟩ := hfresh.tags b r' hb'
    refine Set.disjoint_left.mp (hdis g hg) hin ?_
    have := baseBlock_le_footprint g.len
    unfold isTail at hgt
    simp only [extent, hgt, Extent.mem_bytes, Extent.stop]
    omega
  · refine ⟨fun r' => Eq.trans (by cases r' <;> rfl) (hfresh.free r'), hfresh.pack, fun b r' hb' => ?_⟩
    rcases get_put_eq_some_iff.mp hb' with ⟨rfl, rfl⟩ | ⟨-, hold⟩
    · exact ⟨_, .head _, rfl, rfl⟩
    · obtain ⟨g, hg, hgt⟩ := hfresh.tags b r' hold
      exact ⟨g, .tail _ hg, hgt⟩

theorem Inv.register_all (tails : List Held) :
    ∀ {a : Allocator} {held : List Held}, Inv a held → Fresh a held →
    (∀ h ∈ tails, h.isTail ∧ baseBlock ∣ h.addr ∧ a.liveHwm ≤ h.addr ∧
      h.addr + footprint h.len ≤ a.limit) →
    (tails.reverse ++ held).Pairwise (fun h g => Disjoint h.extent.bytes g.extent.bytes) →
    Inv (tails.foldl (fun a h => a.registerEvictionTailBlock h.addr) a) (tails.reverse ++ held) := by
  induction tails with
  | nil => exact fun hinv _ _ _ => hinv
  | cons h tails ih =>
    intro a held hinv hfresh hall hdis
    rw [reverse_cons, append_assoc] at hdis ⊢
    obtain ⟨ht, hdvd, hlo, hhi⟩ := hall h (.head _)
    have hcons := (pairwise_append.mp hdis).2.1
    obtain ⟨hinv', hfresh'⟩ := hinv.register hfresh ht hdvd hlo hhi (pairwise_cons.mp hcons).1
    exact ih hinv' hfresh' (fun g hg => hall g (.tail _ hg)) hdis

/-- An open builds a sound allocator over what it reaches if the frontier, rounded up to a block,
is not above the tail. -/
theorem Inv.reopened (hinv : Inv a held) {kept : List Held} (hkept : kept.Subperm held)
    (hfront : roundUpToBlock (maxEnd kept) ≤ a.limit)
    (htail : ∀ h ∈ kept, h.isTail → roundUpToBlock (maxEnd kept) ≤ h.addr) :
    Inv (a.reopened kept) kept := by
  have hb := hinv.toBounds
  have hk := hinv.mono hkept
  have hstart : 2 * baseBlock ≤ maxEnd kept := (le_foldl_max _ _).1
  have hle := le_roundUpToBlock (maxEnd kept)
  obtain ⟨fresh, hfresh⟩ : ∃ f : Allocator, f = match a.wal with
      | none => (Allocator.new a.fileLen a.noGrow).setForwardFrontier (maxEnd kept)
      | some w => ((Allocator.new a.fileLen a.noGrow).setForwardFrontier
        (maxEnd kept)).setWalReservation w := ⟨_, rfl⟩
  have hhwm : max (2 * baseBlock) (max (roundUpToBlock (maxEnd kept)) (2 * baseBlock)) =
      roundUpToBlock (maxEnd kept) := by
    omega
  have hshape : fresh.fileLen = a.fileLen ∧ fresh.limit = a.limit ∧ fresh.tailLow = a.limit ∧
      fresh.liveHwm = roundUpToBlock (maxEnd kept) ∧ fresh.tags = .empty ∧ fresh.openPack = none ∧
        ∀ r, fresh.freelist r = [] := by
    have h₈ := hb.8
    unfold limit at *
    cases hw : a.wal with
    | none =>
      rw [hw] at hfresh
      subst hfresh
      exact ⟨rfl, rfl, rfl, hhwm, rfl, rfl, fun r => by cases r <;> rfl⟩
    | some w =>
      rw [hw] at hfresh h₈
      subst hfresh
      have hcap : (if a.fileLen > w then w else a.fileLen) = w := by
        simp only [Option.getD_some] at h₈
        split <;> omega
      exact ⟨rfl, rfl, hcap, hhwm, rfl, rfl, fun r => by cases r <;> rfl⟩
  obtain ⟨hfl, hlim, htl, hlh, htags, hpack, hfree⟩ := hshape
  have hbytes : ∀ x, x ∉ fresh.freeBytes := by
    rintro x ⟨r, hx⟩
    rw [hfree r] at hx
    simp at hx
  have hfwd : Inv fresh (kept.filter fun h => ¬ h.isTail) := by
    have hsub : (kept.filter fun h => ¬ h.isTail).Subperm kept := filter_sublist.subperm
    have hkf := hk.mono hsub
    refine ⟨⟨hfl ▸ hb.1, hlim ▸ hb.2, hlh ▸ dvd_roundUpToBlock _, htl ▸ hb.2, ?_, ?_, ?_, ?_⟩,
      fun r => hfree r ▸ Spaced.nil, fun r => hfree r ▸ fun e he => (nomatch he),
      fun r x hx => ?_, fun r r' x hx => ?_, fun h hh => ?_, hkf.disjoint,
      fun h _ x _ => hbytes x, fun b r hb' => ?_, fun base used hp => ?_⟩
    · rw [hlh]
      omega
    · rw [hlh, htl]
      exact hfront
    · rw [htl, hlim]
    · rw [hlim, hfl]
      exact hb.8
    · exact absurd ⟨r, hx⟩ (hbytes x)
    · exact absurd ⟨r, hx⟩ (hbytes x)
    · obtain ⟨hhk, hnt⟩ := mem_filter.mp hh
      have hnt : ¬ h.isTail := by simpa using hnt
      have hp := hk.placed h hhk
      have hend := reachedEnd_le_maxEnd hhk hnt
      have hfp := le_footprint h.len
      unfold reachedEnd at hend
      unfold Placed at hp ⊢
      unfold isTail at hnt
      cases hkind : h.kind with
      | packed =>
        simp only [hkind] at hp ⊢
        rw [hlh]
        omega
      | aligned r =>
        simp only [hkind] at hp ⊢
        cases r with
        | evictionTail => exact absurd hkind hnt
        | _ =>
          simp only [lo, hi] at hp ⊢
          rw [hlh]
          omega
    · rw [htags, get_empty] at hb'
      cases hb'
    · rw [hpack] at hp
      cases hp
  have hfreshF : Fresh fresh (kept.filter fun h => ¬ h.isTail) := by
    refine ⟨hfree, hpack, fun b r hb' => ?_⟩
    rw [htags, get_empty] at hb'
    cases hb'
  have hperm : ((kept.filter fun h => h.isTail).reverse ++ kept.filter fun h => ¬ h.isTail).Perm
      kept := by
    refine ((reverse_perm _).append_right _).trans ?_
    have := filter_append_perm (fun h : Held => decide h.isTail) kept
    simpa using this
  have hall := Inv.register_all (kept.filter fun h => h.isTail) hfwd hfreshF (fun h hh => ?_)
    ((hperm.pairwise_iff fun hd => hd.symm).mpr hk.disjoint)
  · have heq : a.reopened kept = (kept.filter fun h => h.isTail).foldl
        (fun a h => a.registerEvictionTailBlock h.addr) fresh := by
      rw [hfresh]
      rfl
    rw [heq]
    exact hall.mono hperm.symm.subperm
  · obtain ⟨hhk, ht⟩ := mem_filter.mp hh
    have ht : h.isTail := of_decide_eq_true ht
    have hp := hk.placed h hhk
    have ht' := ht
    unfold isTail at ht'
    simp only [Placed, ht', lo, hi] at hp
    rw [hlh, hlim]
    exact ⟨ht, hp.1, htail h hhk ht, hp.2.2⟩

/-! ## Runs of calls -/

/-- The call has to grow the file. -/
def Allocator.mustGrow (a : Allocator) (len : Nat) (r : Region) : Prop :=
  firstFit (a.freelist r) (footprint len) = none ∧ a.collides (footprint len)

/-- There is room for `need` bytes in the open pack block. -/
def Allocator.packs (a : Allocator) (need : Nat) : Prop :=
  ∃ base used, a.openPack = some (base, used) ∧ used + need ≤ baseBlock

/-- The calls that keep every extent apart:
* no tail extent is retired when the tail moves;
* a packed extent that starts a pack block is freed only when nothing else of the block is held;
* the frontier of an open, rounded up to a block, is not above the tail. -/
def Safe (s : Arena) : AllocCall → Prop
  | .alloc fault len region =>
    s.alloc.noGrow = false → fault = none → s.alloc.mustGrow len region → ∀ h ∈ s.parked, ¬ h.isTail
  | .allocPacked fault need =>
    s.alloc.noGrow = false → fault = none → ¬ s.alloc.packs need →
      s.alloc.mustGrow baseBlock .liveMid →
      ∀ h ∈ s.parked, ¬ h.isTail
  | .free h => h.kind = .packed → (s.alloc.tags.get h.addr).isSome = true →
      ∀ g ∈ s.held.erase h, Disjoint g.extent.bytes (blockAt h.addr).bytes
  | .freeReclaimable h => h.kind = .packed → (s.alloc.tags.get h.addr).isSome = true →
      ∀ g ∈ s.held.erase h, Disjoint g.extent.bytes (blockAt h.addr).bytes
  | .publishDeferred => ∀ h ∈ s.parked, h.kind = .packed → (s.alloc.tags.get h.addr).isSome = true →
      ∀ g ∈ s.lent, Disjoint g.extent.bytes (blockAt h.addr).bytes
  | .reopen kept => roundUpToBlock (maxEnd kept) ≤ s.alloc.limit ∧
      ∀ h ∈ kept, h.isTail → roundUpToBlock (maxEnd kept) ≤ h.addr
  | _ => True

structure ArenaInv (s : Arena) : Prop where
  inv : Inv s.alloc s.held
  deferred : s.alloc.deferred = s.parked.map Held.loc

theorem free_deferred (a : Allocator) (loc : BlockLoc) : (a.free loc).1.deferred = a.deferred := by
  rcases a.free_cases loc with ⟨-, h⟩ | ⟨r, _, h⟩ <;> rw [h]
  exact setFreelist_deferred _ _ _

theorem allocPacked_deferred (a : Allocator) (fault : Option Allocator.GrowFault) (need : Nat) :
    (a.allocPacked fault need).1.deferred = a.deferred := by
  have hnew : (a.allocNewPack fault need).1.deferred = a.deferred := by
    have := (a.allocAligned_frame fault baseBlock .liveMid).1
    unfold allocNewPack
    split <;> rename_i h <;> rw [h] at this <;> exact this
  unfold Allocator.allocPacked
  split
  · exact hnew
  · split
    · rfl
    · exact hnew

/-- Retired extents stay where they are if none of them is in the tail, or the file did not grow. -/
theorem map_moved_parked {l : List Held} {d : Nat} (h : d = 0 ∨ ∀ p ∈ l, ¬ p.isTail) :
    l.map (moved d) = l := by
  rcases h with rfl | h
  · exact map_moved_zero l
  · conv_rhs => rw [← map_id l]
    exact map_congr_left fun p hp => by simp [moved, h p hp]

/-- The file grows only when it must, and only with an empty tail if its copy is to fail. -/
theorem allocAligned_grew (hinv : Inv a held) {fault : Option Allocator.GrowFault} {len : Nat}
    {loc : BlockLoc} (h : a.allocAligned fault len r = (a', .ok loc)) :
    a'.fileLen - a.fileLen = 0 ∨
      (a.noGrow = false ∧ a.mustGrow len r ∧ (fault = none ∨ ∀ g ∈ held, ¬ g.isTail)) := by
  rcases allocAligned_cases h with ⟨_, -, -, rfl⟩ | ⟨hfit, ⟨_, -, hres⟩ | ⟨a₁, hroom, -, rfl⟩⟩
  · left
    show (a.setFreelist _ r).fileLen - a.fileLen = 0
    rw [setFreelist_fileLen, Nat.sub_self]
  · cases hres
  unfold ensureRoom at hroom
  split at hroom
  · rename_i hcol
    right
    unfold growFor at hroom
    dsimp only at hroom
    split at hroom
    · cases hroom
    rename_i hng
    refine ⟨Bool.eq_false_iff.mpr hng, ⟨hfit, hcol⟩, ?_⟩
    split at hroom
    · cases hroom
    rename_i hgrow
    by_cases hcopy : fault = some .copy
    · refine .inr (hinv.empty_tail fun hlow => ?_)
      rw [if_pos hlow, if_pos hcopy] at hroom
      cases hroom
    · rcases fault with _ | (_ | _)
      · exact .inl rfl
      · exact absurd rfl hgrow
      · exact absurd rfl hcopy
  · cases hroom
    left
    show (a.bump len (footprint len) r).1.fileLen - a.fileLen = 0
    rw [bump_fileLen, Nat.sub_self]

theorem Inv.new (hdvd : baseBlock ∣ fileLen) (hlen : 2 * baseBlock ≤ fileLen) (noGrow : Bool) :
    Inv (.new fileLen noGrow) [] := by
  have hfree : ∀ r, (Allocator.new fileLen noGrow).freelist r = [] := fun r => by cases r <;> rfl
  have hnone : ∀ x, x ∉ (Allocator.new fileLen noGrow).freeBytes := by
    rintro x ⟨r, hx⟩
    rw [hfree r] at hx
    simp at hx
  refine ⟨⟨hdvd, hdvd, Dvd.intro_left _ rfl, hdvd, le_rfl, hlen, le_rfl, le_rfl⟩,
    fun r => hfree r ▸ Spaced.nil, fun r => hfree r ▸ fun e he => (nomatch he),
    fun r x hx => absurd ⟨r, hx⟩ (hnone x),
    fun r r' x hx => absurd ⟨r, hx⟩ (hnone x), fun h hh => (nomatch hh), .nil, fun h hh =>
      (nomatch hh), fun b r hb => ?_, fun base used hp => (nomatch hp)⟩
  rw [show (Allocator.new fileLen noGrow).tags = .empty from rfl, get_empty] at hb
  cases hb

/-- The file grows by the log region, which is reserved. -/
theorem Inv.enableWal (hinv : Inv a held) (hwal : a.wal = none) {size : Nat}
    (hdvd : baseBlock ∣ size) :
    Inv ({ a with fileLen := a.fileLen + size }.setWalReservation a.fileLen) held := by
  have hb := hinv.toBounds
  have hlim : a.limit = a.fileLen := by rw [limit, hwal]; rfl
  have htl : (if a.tailLow > a.fileLen then a.fileLen else a.tailLow) = a.tailLow := by
    have := hb.7
    split <;> omega
  refine hinv.widen ⟨Nat.dvd_add hb.1 hdvd, hb.1, hb.3, ?_, hb.5, ?_, ?_, Nat.le_add_right _ _⟩
    (fun r => by cases r <;> rfl) rfl rfl (fun r => ?_) fun r => ?_
  · exact (congrArg (baseBlock ∣ ·) htl).mpr hb.4
  · exact le_of_le_of_eq hb.6 htl.symm
  · exact le_of_eq_of_le htl (le_of_le_of_eq hb.7 hlim)
  · cases r <;> first | exact le_rfl | exact htl.le
  · cases r <;> first | exact le_rfl | exact hlim.le

/-! ### One call -/

/-- Fields the invariant does not read. -/
theorem Inv.congr (hinv : Inv a held) (hfile : a'.fileLen = a.fileLen) (hwal : a'.wal = a.wal)
    (hhwm : a'.liveHwm = a.liveHwm) (htail : a'.tailLow = a.tailLow)
    (hfree : ∀ r, a'.freelist r = a.freelist r) (htags : a'.tags = a.tags)
    (hpack : a'.openPack = a.openPack) : Inv a' held := by
  have hb := hinv.toBounds
  have hlim : a'.limit = a.limit := by rw [limit, limit, hwal, hfile]
  refine hinv.widen ⟨hfile ▸ hb.1, hlim ▸ hb.2, hhwm ▸ hb.3, htail ▸ hb.4, hhwm ▸ hb.5,
    hhwm ▸ htail ▸ hb.6, htail ▸ hlim ▸ hb.7, hlim ▸ hfile ▸ hb.8⟩ hfree htags hpack (fun r => ?_)
      fun r => ?_
  · cases r <;> simp only [lo, htail, le_refl]
  · cases r <;> simp only [hi, hhwm, hlim, le_refl]

theorem free_tags {loc : BlockLoc} {b : Nat} (h : ((a.free loc).1.tags.get b).isSome = true) :
    (a.tags.get b).isSome = true := by
  rcases a.free_cases loc with ⟨-, heq⟩ | ⟨_, _, heq⟩ <;> rw [heq] at h
  · exact h
  · rw [setFreelist_tags] at h
    obtain ⟨r, hr⟩ := Option.isSome_iff_exists.mp h
    exact Option.isSome_iff_exists.mpr ⟨r, (get_erase_eq_some_iff.mp hr).2⟩

/-- The aligned extents of a list. -/
def alignedOf (l : List Held) : List Held := l.filter fun h => h.kind ≠ .packed

theorem Inv.free_all {lent : List Held} (pend : List Held) :
    ∀ {a : Allocator}, Inv a (lent ++ alignedOf pend) →
    (∀ h ∈ pend, h.kind = .packed → h.len < baseBlock) →
    (∀ h ∈ pend, h.kind = .packed → (a.tags.get h.addr).isSome = true →
      ∀ g ∈ lent ++ alignedOf pend, Disjoint g.extent.bytes (blockAt h.addr).bytes) →
    Inv ((pend.map Held.loc).foldl (fun a loc => (a.free loc).1) a) lent := by
  induction pend with
  | nil =>
    intro a hinv _ _
    simpa [alignedOf] using hinv
  | cons h pend ih =>
    intro a hinv hlen hsole
    have hrest : (alignedOf pend).Sublist (alignedOf (h :: pend)) :=
      (sublist_cons_self h pend).filter _
    have hsub : (lent ++ alignedOf pend).Sublist (lent ++ alignedOf (h :: pend)) :=
      hrest.append_left lent
    refine ih ?_ (fun g hg => hlen g (.tail _ hg)) fun g hg hk htag g' hg' => ?_
    · cases hk : h.kind with
      | packed =>
        refine (hinv.mono hsub.subperm).free_block (hlen h (.head _) hk) fun htag g hg => ?_
        exact hsole h (.head _) hk htag g (hsub.subset hg)
      | aligned r =>
        have hcons : alignedOf (h :: pend) = h :: alignedOf pend := filter_cons_of_pos (by simp [hk])
        rw [hcons] at hinv
        exact (hinv.mono (perm_middle.symm.subperm)).free_aligned hk
    · exact hsole g (.tail _ hg) hk (free_tags htag) g' (hsub.subset hg')

theorem alignedOf_sublist (l : List Held) : (alignedOf l).Sublist l := filter_sublist

theorem Inv.registerLive (hinv : Inv a held) (hh : h ∈ held) (hk : h.kind = .aligned r) :
    Inv (a.tag h.addr r) held := by
  have hp := hinv.placed h hh
  simp only [Placed, hk] at hp
  have hsize := baseBlock_le_footprint h.len
  have hpos := baseBlock_pos
  have hext : h.extent = ⟨h.addr, footprint h.len⟩ := by rw [extent, hk]
  have hstart : h.addr ∈ h.extent.bytes := by
    rw [hext]
    exact ⟨le_rfl, by show h.addr < h.addr + footprint h.len; omega⟩
  have hb := hinv.toBounds
  refine ⟨⟨hb.1, hb.2, hb.3, hb.4, hb.5, hb.6, hb.7, hb.8⟩, hinv.spaced, hinv.ends,
    hinv.free_within, hinv.free_once, hinv.placed, hinv.disjoint, hinv.not_free,
    fun b r' hb' => ?_, fun base used hpk => ?_⟩
  · rcases get_put_eq_some_iff.mp hb' with ⟨rfl, rfl⟩ | ⟨-, hold⟩
    · refine ⟨hp.1, hp.2.1, ?_, fun x hx => hinv.not_free h hh x ?_, fun g hg r₂ hgk hin => ?_⟩
      · show h.addr + baseBlock ≤ a.hi r'
        omega
      · simp only [blockAt, Extent.mem_bytes, Extent.stop] at hx
        rw [hext]
        exact ⟨hx.1, by show x < h.addr + footprint h.len; omega⟩
      by_cases hgh : g = h
      · subst hgh
        rw [hk] at hgk
        cases hgk
        exact ⟨rfl, rfl⟩
      · exact absurd hstart (Set.disjoint_left.mp (disjoint_of_ne hinv.disjoint hg hh hgh) hin)
    · have ht := hinv.tagged b r' hold
      exact ⟨ht.dvd, ht.lo_le, ht.le_hi, ht.not_free, ht.owner⟩
  · have ho := hinv.pack base used hpk
    refine ⟨?_, ho.used_le, ho.room⟩
    by_cases hba : base = h.addr
    · have hown := (hinv.tagged base _ ho.tag).owner h hh r hk (hba ▸ hstart)
      exact get_put_eq_some_iff.mpr (.inl ⟨hba, hown.2.symm⟩)
    · exact get_put_eq_some_iff.mpr (.inr ⟨hba, ho.tag⟩)

theorem reopened_deferred (a : Allocator) (kept : List Held) : (a.reopened kept).deferred = [] := by
  have hfold : ∀ (tails : List Held) (b : Allocator), b.deferred = [] →
      (tails.foldl (fun a h => a.registerEvictionTailBlock h.addr) b).deferred = [] := by
    intro tails
    induction tails with
    | nil => exact fun b hb => hb
    | cons h tails ih => exact fun b hb => ih _ hb
  unfold reopened
  apply hfold
  split <;> rfl

theorem ArenaInv.free (hs : ArenaInv s) (hh : h ∈ s.lent)
    (hsafe : h.kind = .packed → (s.alloc.tags.get h.addr).isSome = true →
      ∀ g ∈ s.held.erase h, Disjoint g.extent.bytes (blockAt h.addr).bytes) :
    ArenaInv { s with alloc := (s.alloc.free h.loc).1, lent := s.lent.erase h } := by
  have hheld : s.held.erase h = s.lent.erase h ++ s.parked := erase_append_left _ hh
  have hperm : (h :: s.held.erase h).Perm s.held := (perm_cons_erase (mem_append_left _ hh)).symm
  have hinv := hs.inv.mono hperm.subperm
  refine ⟨?_, (free_deferred s.alloc h.loc).trans hs.deferred⟩
  show Inv _ (s.lent.erase h ++ s.parked)
  rw [← hheld]
  cases hk : h.kind with
  | aligned r => exact hinv.free_aligned hk
  | packed =>
    have hp := hinv.placed h (.head _)
    simp only [Placed, hk] at hp
    exact (hinv.mono (sublist_cons_self _ _).subperm).free_block hp.2.1 (hsafe hk)

theorem ArenaInv.lend (hs : ArenaInv s)
    (hinv : Inv a' (h :: s.held.map (moved (a'.fileLen - s.alloc.fileLen))))
    (hdef : a'.deferred = s.alloc.deferred)
    (hparked : a'.fileLen - s.alloc.fileLen = 0 ∨ ∀ p ∈ s.parked, ¬ p.isTail) :
    ArenaInv (s.lend a' h) := by
  refine ⟨?_, hdef.trans hs.deferred⟩
  rwa [Arena.held, map_append, map_moved_parked hparked] at hinv

theorem ArenaInv.allocPacked (hs : ArenaInv s) {fault : Option Allocator.GrowFault} {need : Nat}
    (hlegal : Legal s (.allocPacked fault need)) (hsafe : Safe s (.allocPacked fault need)) :
    ArenaInv (s.step (.allocPacked fault need)) := by
  obtain ⟨hpos, hlt⟩ := hlegal
  have hdef := allocPacked_deferred s.alloc fault need
  simp only [Arena.step]
  split
  · rename_i a' e h
    rw [h] at hdef
    exact ⟨allocPacked_error hs.inv h, hdef.trans hs.deferred⟩
  rename_i a' addr h
  rw [h] at hdef
  refine hs.lend (allocPacked_ok hs.inv hpos hlt h) hdef ?_
  have hnew : ¬ s.alloc.packs need → s.alloc.allocNewPack fault need = (a', .ok addr) →
      a'.fileLen - s.alloc.fileLen = 0 ∨ ∀ p ∈ s.parked, ¬ p.isTail := by
    intro hpk hn
    unfold allocNewPack at hn
    split at hn
    · cases hn
    rename_i a₁ blk hal
    cases hn
    rcases allocAligned_grew hs.inv hal with h0 | ⟨hng, hmust, hfault | hnone⟩
    · exact .inl h0
    · exact .inr (hsafe hng hfault hpk hmust)
    · exact .inr fun p hp => hnone p (mem_append_right _ hp)
  unfold Allocator.allocPacked at h
  split at h
  · rename_i hnone
    refine hnew (fun hpk => ?_) h
    obtain ⟨_, _, ho, -⟩ := hpk
    rw [hnone] at ho
    cases ho
  rename_i base used ho
  split at h
  · cases h
    exact .inl (Nat.sub_self _)
  rename_i hfits
  refine hnew (fun hpk => ?_) h
  obtain ⟨_, _, ho', hfits'⟩ := hpk
  rw [ho] at ho'
  cases ho'
  exact hfits hfits'

theorem ArenaInv.publishDeferred (hs : ArenaInv s) (hsafe : Safe s .publishDeferred) :
    ArenaInv (s.step .publishDeferred) := by
  have hstart : Inv { s.alloc with deferred := [] } s.held :=
    hs.inv.congr rfl rfl rfl rfl (fun r => by cases r <;> rfl) rfl rfl
  have hfold : ∀ (locs : List BlockLoc) (b : Allocator), b.deferred = [] →
      (locs.foldl (fun a loc => (a.free loc).1) b).deferred = [] := by
    intro locs
    induction locs with
    | nil => exact fun b hb => hb
    | cons loc locs ih => exact fun b hb => ih _ ((free_deferred b loc).trans hb)
  refine ⟨?_, hfold _ _ rfl⟩
  show Inv s.alloc.publishDeferred (s.lent ++ [])
  rw [append_nil, Allocator.publishDeferred, hs.deferred]
  refine Inv.free_all s.parked
    (hstart.mono ((alignedOf_sublist s.parked).append_left s.lent).subperm) (fun h hh hk => ?_) ?_
  · have hp := hs.inv.placed h (mem_append_right _ hh)
    simp only [Placed, hk] at hp
    exact hp.2.1
  intro h hh hk htag g hg
  rcases mem_append.mp hg with hg | hg
  · exact hsafe h hh hk htag g hg
  -- no aligned extent holds the block of a tag that it does not start
  obtain ⟨hgp, hgk⟩ := mem_filter.mp hg
  obtain ⟨r, hr⟩ := Option.isSome_iff_exists.mp htag
  have ht := hs.inv.tagged h.addr r hr
  have hgh := mem_append_right s.lent hgp
  cases hgkind : g.kind with
  | packed => simp [hgkind] at hgk
  | aligned r' =>
    have hgpl := hs.inv.placed g hgh
    simp only [Placed, hgkind] at hgpl
    have hgext : g.extent = ⟨g.addr, footprint g.len⟩ := by rw [extent, hgkind]
    refine Set.disjoint_left.mpr fun x hx hx' => ?_
    rw [hgext] at hx
    have hin := blockAt_mem ht.dvd hgpl.1 (Nat.dvd_add hgpl.1 (dvd_footprint g.len)) hx' hx
    have hmem : h.addr ∈ g.extent.bytes := by
      rw [hgext]
      exact hin
    have hne : g ≠ h := fun he => by rw [he, hk] at hgkind; cases hgkind
    have hp := hs.inv.placed h (mem_append_right _ hh)
    simp only [Placed, hk] at hp
    refine Set.disjoint_left.mp (disjoint_of_ne hs.inv.disjoint hgh (mem_append_right _ hh) hne)
      hmem ?_
    rw [extent, hk]
    exact ⟨le_rfl, by show h.addr < h.addr + h.len; omega⟩

theorem Arena.step_freeReclaimable (s : Arena) (h : Held) :
    s.step (.freeReclaimable h) = s ∨ s.step (.freeReclaimable h) = s.step (.free h) := by
  simp only [Arena.step]
  split
  · exact .inl rfl
  rename_i a' hf
  unfold Allocator.freeReclaimable at hf
  split at hf
  · split at hf
    · rw [hf]
      exact .inr rfl
    · cases hf
  · cases hf

theorem ArenaInv.step (hs : ArenaInv s) {call : AllocCall} (hlegal : Legal s call)
    (hsafe : Safe s call) : ArenaInv (s.step call) := by
  cases call with
  | alloc fault len region =>
    have hdef := (s.alloc.allocAligned_frame fault len region).1
    simp only [Arena.step]
    split
    · rename_i a' e h
      rw [h] at hdef
      exact ⟨allocAligned_error hs.inv h, hdef.trans hs.deferred⟩
    rename_i a' loc h
    rw [h] at hdef
    refine hs.lend (allocAligned_ok hs.inv h) hdef ?_
    rcases allocAligned_grew hs.inv h with h0 | ⟨hng, hmust, hfault | hnone⟩
    · exact .inl h0
    · exact .inr (hsafe hng hfault hmust)
    · exact .inr fun p hp => hnone p (mem_append_right _ hp)
  | allocPacked fault need => exact hs.allocPacked hlegal hsafe
  | free h => exact hs.free hlegal hsafe
  | freeReclaimable h =>
    rcases s.step_freeReclaimable h with heq | heq <;> rw [heq]
    · exact hs
    · exact hs.free hlegal hsafe
  | beginReclaimScope =>
    exact ⟨hs.inv.congr rfl rfl rfl rfl (fun r => by cases r <;> rfl) rfl rfl, hs.deferred⟩
  | endReclaimScope =>
    exact ⟨hs.inv.congr rfl rfl rfl rfl (fun r => by cases r <;> rfl) rfl rfl, hs.deferred⟩
  | retire h =>
    have hlent : h ∈ s.lent := hlegal
    have hperm : (s.lent.erase h ++ (s.parked ++ [h])).Perm s.held := by
      rw [← append_assoc]
      refine (perm_append_singleton h _).trans ?_
      rw [← cons_append]
      exact (perm_cons_erase hlent).symm.append_right _
    refine ⟨(hs.inv.mono hperm.subperm).congr rfl rfl rfl rfl
      (fun r => by cases r <;> rfl) rfl rfl, ?_⟩
    show s.alloc.deferred ++ [h.loc] = (s.parked ++ [h]).map Held.loc
    rw [map_append, hs.deferred]
    rfl
  | publishDeferred => exact hs.publishDeferred hsafe
  | abortDeferred =>
    refine ⟨?_, rfl⟩
    show Inv _ (s.held ++ [])
    rw [append_nil]
    exact hs.inv.congr rfl rfl rfl rfl (fun r => by cases r <;> rfl) rfl rfl
  | enableWal size =>
    simp only [Arena.step]
    split
    · exact hs
    · exact ⟨hs.inv.enableWal hlegal.1 hlegal.2, hs.deferred⟩
  | registerLive h region =>
    exact ⟨hs.inv.registerLive (mem_append_left _ hlegal.1) hlegal.2, hs.deferred⟩
  | reopen kept =>
    refine ⟨?_, reopened_deferred _ _⟩
    show Inv _ (kept ++ [])
    rw [append_nil]
    exact hs.inv.reopened (List.Sublist.subperm hlegal) hsafe.1 hsafe.2

/-! ### Whole runs -/

/-- The log reservation, up to the end of the file. -/
def Allocator.walExtents (a : Allocator) : List Extent := a.wal.toList.map fun w => ⟨w, a.fileLen - w⟩

/-- Everything that has an owner. -/
def Arena.extents (s : Arena) : List Extent :=
  s.held.map extent ++ (s.alloc.freeHead ++ s.alloc.freeLive ++ s.alloc.freeTail) ++ s.alloc.walExtents

structure Sound (s : Arena) : Prop where
  apart : s.extents.Pairwise fun e f => Disjoint e.bytes f.bytes
  deferred : s.alloc.deferred = s.parked.map Held.loc
  aligned : ∀ h ∈ s.lent, ∀ r, h.kind = .aligned r →
    baseBlock ∣ h.addr ∧ h.addr + footprint h.len ≤ s.alloc.fileLen
  frontiers : s.alloc.liveHwm ≤ s.alloc.tailLow

theorem Inv.freelists_apart (hinv : Inv a held) :
    (a.freeHead ++ a.freeLive ++ a.freeTail).Pairwise fun e f => Disjoint e.bytes f.bytes := by
  have hself : ∀ r, (a.freelist r).Pairwise fun e f =>
    Disjoint e.bytes f.bytes := fun r => (hinv.spaced r).pairwise_disjoint
  have hcross : ∀ r r', r ≠ r' →
      ∀ e ∈ a.freelist r, ∀ f ∈ a.freelist r', Disjoint e.bytes f.bytes := by
    intro r r' hne e he f hf
    refine Set.disjoint_left.mpr fun x hx hx' => hne ?_
    exact hinv.free_once r r' x (bytes_subset_cover he hx) (bytes_subset_cover hf hx')
  refine pairwise_append.mpr ⟨pairwise_append.mpr ⟨hself .catalogHead, hself .liveMid, ?_⟩,
    hself .evictionTail, ?_⟩
  · exact hcross .catalogHead .liveMid (by decide)
  · intro e he f hf
    rcases mem_append.mp he with he | he
    · exact hcross .catalogHead .evictionTail (by decide) e he f hf
    · exact hcross .liveMid .evictionTail (by decide) e he f hf

theorem mem_freelists {e : Extent} (he : e ∈ a.freeHead ++ a.freeLive ++ a.freeTail) :
    ∃ r, e ∈ a.freelist r := by
  simp only [mem_append] at he
  rcases he with (he | he) | he
  · exact ⟨.catalogHead, he⟩
  · exact ⟨.liveMid, he⟩
  · exact ⟨.evictionTail, he⟩

theorem Bounds.hi_le (hb : Bounds a) (r : Region) : a.hi r ≤ a.limit := by
  cases r <;> first | exact le_rfl | exact hb.hwm_le.trans hb.tail_le

theorem Placed.lt_limit (hb : Bounds a) (hp : Placed a h) {x : Nat} (hx : x ∈ h.extent.bytes) :
    x < a.limit := by
  by_cases ht : h.isTail
  · exact (hp.mem_tail_bounds ht hx).2
  · exact lt_of_lt_of_le (hp.mem_bounds ht hx).2 (hb.hwm_le.trans hb.tail_le)

theorem ArenaInv.sound (hs : ArenaInv s) : Sound s := by
  have hinv := hs.inv
  refine ⟨pairwise_append.mpr ⟨pairwise_append.mpr ⟨?_, hinv.freelists_apart, ?_⟩, ?_, ?_⟩,
    hs.deferred, ?_, hinv.hwm_le⟩
  · exact pairwise_map.mpr hinv.disjoint
  · intro e he f hf
    obtain ⟨h, hh, rfl⟩ := mem_map.mp he
    obtain ⟨r, hr⟩ := mem_freelists hf
    exact Set.disjoint_left.mpr fun x hx hx' => hinv.not_free h hh x hx ⟨r, bytes_subset_cover hr hx'⟩
  · unfold walExtents
    cases s.alloc.wal <;> simp
  · intro e he f hf
    refine Set.disjoint_left.mpr fun x hx hx' => ?_
    have hlt : x < s.alloc.limit := by
      rcases mem_append.mp he with he | he
      · obtain ⟨h, hh, rfl⟩ := mem_map.mp he
        exact (hinv.placed h hh).lt_limit hinv.toBounds hx
      · obtain ⟨r, hr⟩ := mem_freelists he
        exact lt_of_lt_of_le (hinv.free_within r x (bytes_subset_cover hr hx)).2 (hinv.hi_le r)
    unfold walExtents at hf
    unfold limit at hlt
    cases hw : s.alloc.wal with
    | none => simp [hw] at hf
    | some w =>
      simp only [hw, Option.toList_some, map_cons, map_nil, mem_singleton, Option.getD_some] at hf hlt
      subst hf
      exact absurd hx'.1 (not_le.mpr hlt)
  · intro h hh r hk
    have hp := hinv.placed h (mem_append_left _ hh)
    simp only [Placed, hk] at hp
    exact ⟨hp.1, hp.2.2.trans ((hinv.hi_le r).trans hinv.limit_le)⟩

theorem ArenaInv.init (hdvd : baseBlock ∣ fileLen) (hlen : 2 * baseBlock ≤ fileLen) (noGrow : Bool) :
    ArenaInv (Arena.init fileLen noGrow) :=
  ⟨Inv.new hdvd hlen noGrow, rfl⟩

theorem ArenaInv.run_from (hs : ArenaInv s) {calls : List AllocCall}
    (h : Along Arena.step (fun s call => Legal s call ∧ Safe s call) s calls) :
    ArenaInv (Lib.run Arena.step s calls) :=
  run_inv (fun _ _ hs hc => hs.step hc.1 hc.2) hs h

theorem ArenaInv.run (hdvd : baseBlock ∣ fileLen) (hlen : 2 * baseBlock ≤ fileLen) (noGrow : Bool)
    {calls : List AllocCall}
    (h : Along Arena.step (fun s call => Legal s call ∧ Safe s call)
      (Arena.init fileLen noGrow) calls) :
    ArenaInv (Lib.run Arena.step (Arena.init fileLen noGrow) calls) :=
  (ArenaInv.init hdvd hlen noGrow).run_from h

/-- No address has two owners after any run of calls that are `Safe`. -/
theorem lent_once_run {fileLen : Nat} (hdvd : baseBlock ∣ fileLen) (hlen : 2 * baseBlock ≤ fileLen)
    (noGrow : Bool) (calls : List AllocCall)
    (h : Along Arena.step (fun s call => Legal s call ∧ Safe s call)
      (Arena.init fileLen noGrow) calls) :
    Sound (run Arena.step (Arena.init fileLen noGrow) calls) :=
  (ArenaInv.run hdvd hlen noGrow h).sound

end

/-- A packed extent, a tail extent, a file that grows, and the container opened again. -/
def lendingCalls : List AllocCall :=
  [.allocPacked none 100, .alloc none 4096 .evictionTail, .alloc none 9000 .liveMid,
    .reopen [⟨12288, 9000, .aligned .liveMid⟩, ⟨77824, 4096, .aligned .evictionTail⟩]]

theorem lent_once_reopened : Sound (run Arena.step (Arena.init 16384 false) lendingCalls) := by
  refine lent_once_run (by decide) (by decide) false lendingCalls
    (.and (by decide) ⟨?_, ?_, ?_, ?_, trivial⟩)
  · exact fun _ _ _ _ h hh => absurd hh not_mem_nil
  · exact fun _ _ _ h hh => absurd hh not_mem_nil
  · exact fun _ _ _ h hh => absurd hh not_mem_nil
  · exact ⟨by decide, by decide⟩

/-- Two packed extents in the last block below the tail: opening counts the second as a block of
its own, and the next extent is lent over the tail. -/
def reopenCalls : List AllocCall :=
  [.allocPacked none 100, .allocPacked none 100, .alloc none 4096 .evictionTail,
    .reopen [⟨12288, 4096, .aligned .evictionTail⟩, ⟨8292, 100, .packed⟩, ⟨8192, 100, .packed⟩],
    .alloc none 65536 .liveMid]

/-- Two packed extents in one block: freeing the first frees the block. -/
def packCalls : List AllocCall :=
  [.allocPacked none 100, .allocPacked none 100, .free ⟨8192, 100, .packed⟩, .alloc none 4096 .liveMid]

/-- A tail extent retired before the file grows: what is deferred is its old address. -/
def retireCalls : List AllocCall :=
  [.alloc none 4096 .evictionTail, .retire ⟨12288, 4096, .aligned .evictionTail⟩,
    .alloc none 9000 .liveMid]

theorem not_sound_of_overlap {e f : Extent} {l : List Extent} {x : Nat}
    (hext : s.extents = e :: f :: l) (he : x ∈ e.bytes) (hf : x ∈ f.bytes) : ¬ Sound s :=
  fun hs => by
  have hpair := hs.apart
  rw [hext] at hpair
  exact Set.disjoint_left.mp ((pairwise_cons.mp hpair).1 f (.head _)) he hf

/-- In turn: the last pack block of an opened container, a freed pack block, a retired tail extent,
and a device whose length is no multiple of a block. -/
theorem lent_twice :
    (Along Arena.step Legal (Arena.init 16384 false) reopenCalls ∧
      (run Arena.step (Arena.init 16384 false) reopenCalls).lent =
        [⟨16384, 65536, .aligned .liveMid⟩, ⟨77824, 4096, .aligned .evictionTail⟩,
          ⟨8292, 100, .packed⟩,
          ⟨8192, 100, .packed⟩] ∧
      ¬ Sound (run Arena.step (Arena.init 16384 false) reopenCalls)) ∧
    (Along Arena.step Legal (Arena.init 16384 false) packCalls ∧
      (run Arena.step (Arena.init 16384 false) packCalls).lent =
        [⟨8192, 4096, .aligned .liveMid⟩, ⟨8292, 100, .packed⟩] ∧
      ¬ Sound (run Arena.step (Arena.init 16384 false) packCalls)) ∧
    (Along Arena.step Legal (Arena.init 16384 false) retireCalls ∧
      (run Arena.step (Arena.init 16384 false) retireCalls).lent = [⟨8192, 9000, .aligned .liveMid⟩] ∧
      (run Arena.step (Arena.init 16384 false) retireCalls).alloc.deferred = [⟨12288, 4096⟩] ∧
      ¬ Sound (run Arena.step (Arena.init 16384 false) retireCalls)) ∧
    ¬ Sound ((Arena.init 16896 true).step (.alloc none 4096 .evictionTail)) := by
  refine ⟨⟨by decide, by decide, ?_⟩, ⟨by decide, by decide, ?_⟩,
    ⟨by decide, by decide, by decide, ?_⟩, fun hs => ?_⟩
  · refine not_sound_of_overlap (e := ⟨16384, 65536⟩) (f := ⟨77824, 4096⟩) (x := 77824) rfl ?_ ?_ <;>
      exact ⟨by decide, by decide⟩
  · refine not_sound_of_overlap (e := ⟨8192, 4096⟩) (f := ⟨8292, 100⟩) (x := 8292) rfl ?_ ?_ <;>
      exact ⟨by decide, by decide⟩
  · refine not_sound_of_overlap (e := ⟨8192, 12288⟩) (f := ⟨12288, 4096⟩) (x := 12288) rfl ?_ ?_ <;>
      exact ⟨by decide, by decide⟩
  · exact absurd (hs.aligned ⟨12800, 4096, .aligned .evictionTail⟩ (.head _) .evictionTail rfl).1
      (by decide)

end Sfs.Container

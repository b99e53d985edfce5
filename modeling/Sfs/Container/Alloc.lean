import Sfs.Container.Header
import Sfs.Lib.FreeList
import Sfs.Lib.KeyMap
import Sfs.Lib.Run
import Sfs.Unit

/-!
# The block allocator

Catalog nodes and live data grow up from the start of the data region and share one frontier,
`liveHwm`; the eviction tail grows down from the end of the file, or from the log reservation,
to `tailLow`. Each region has a free list. When the two frontiers meet the file grows, and the
tail moves up with its bookkeeping so that it stays at the end. Small payloads are packed into
an open block, one after the other.

The allocator is kept with the length of its file. Bytes are not modelled: growing copies the
tail's bytes to where its bookkeeping moves.
-/

namespace Sfs.Container

open Sfs.Lib

/-- At least this much is added to the file at once. -/
def growChunk : Nat := 16 * baseBlock

def roundUpToBlock (n : Nat) : Nat := if n = 0 then 0 else (n + baseBlock - 1) / baseBlock * baseBlock

/-- The space an extent of `len` bytes takes. -/
def footprint (len : Nat) : Nat := max (roundUpToBlock len) baseBlock

inductive Region where
  | catalogHead
  | liveMid
  | evictionTail
  deriving DecidableEq, Repr

structure Allocator where
  /-- `Backend::len` -/
  fileLen : Nat
  /-- a device that cannot grow -/
  noGrow : Bool
  dataStart : Nat
  headHwm : Nat
  /-- the first address used for live data -/
  liveBase : Option Nat
  liveHwm : Nat
  tailLow : Nat
  /-- `wal_reservation_start` -/
  wal : Option Nat
  /-- `region_tags` -/
  tags : KeyMap Nat Region
  freeHead : List Extent
  freeLive : List Extent
  freeTail : List Extent
  reclaimFloor : Option Nat
  /-- `deferred_free` -/
  deferred : List BlockLoc
  /-- the open pack block and the bytes used of it -/
  openPack : Option (Nat × Nat)

namespace Allocator

def new (fileLen : Nat) (noGrow : Bool) : Allocator where
  fileLen := fileLen
  noGrow := noGrow
  dataStart := 2 * baseBlock
  headHwm := 2 * baseBlock
  liveBase := none
  liveHwm := 2 * baseBlock
  tailLow := fileLen
  wal := none
  tags := .empty
  freeHead := []
  freeLive := []
  freeTail := []
  reclaimFloor := none
  deferred := []
  openPack := none

def freelist (a : Allocator) : Region → List Extent
  | .catalogHead => a.freeHead
  | .liveMid => a.freeLive
  | .evictionTail => a.freeTail

def setFreelist (a : Allocator) (l : List Extent) : Region → Allocator
  | .catalogHead => { a with freeHead := l }
  | .liveMid => { a with freeLive := l }
  | .evictionTail => { a with freeTail := l }

section

variable (a : Allocator) (l : List Extent) (r : Region)

theorem freelist_setFreelist (r' : Region) :
    (a.setFreelist l r).freelist r' = if r' = r then l else a.freelist r' := by
  cases r <;> cases r' <;> rfl

@[simp] theorem setFreelist_tags : (a.setFreelist l r).tags = a.tags := by cases r <;> rfl
@[simp] theorem setFreelist_openPack : (a.setFreelist l r).openPack = a.openPack := by cases r <;> rfl
@[simp] theorem setFreelist_fileLen : (a.setFreelist l r).fileLen = a.fileLen := by cases r <;> rfl
@[simp] theorem setFreelist_wal : (a.setFreelist l r).wal = a.wal := by cases r <;> rfl
@[simp] theorem setFreelist_liveHwm : (a.setFreelist l r).liveHwm = a.liveHwm := by cases r <;> rfl
@[simp] theorem setFreelist_tailLow : (a.setFreelist l r).tailLow = a.tailLow := by cases r <;> rfl
@[simp] theorem setFreelist_deferred : (a.setFreelist l r).deferred = a.deferred := by cases r <;> rfl

end

/-! ## Growing -/

/-- What fails while the file grows: growing it, or moving the tail's bytes. -/
inductive GrowFault where
  | grow
  | copy
  deriving DecidableEq, Repr

/-- How much the file grows to make room for `needed` bytes: at least by the size of what has to
move, so that moving is rare. -/
def growBy (a : Allocator) (needed : Nat) : Nat :=
  let currentSlack := a.tailLow - a.liveHwm
  let extra := needed - currentSlack
  let tailSize := a.fileLen - a.tailLow
  roundUpToBlock (max (max extra growChunk) tailSize)

/-- Move the tag of one tail block. -/
def shiftTag (delta : Nat) (tags : KeyMap Nat Region) (addr : Nat) : KeyMap Nat Region :=
  (tags.erase addr).put (addr + delta) .evictionTail

def shiftEvictionTailBookkeeping (a : Allocator) (delta : Nat) : Allocator :=
  let tailAddrs := (a.tags.entries.filter fun e => a.tailLow ≤ e.1 ∧ e.2 = .evictionTail).map Prod.fst
  { a with
    tags := tailAddrs.foldl (shiftTag delta) a.tags
    freeTail := a.freeTail.map (Extent.shift delta) }

/-- `grow_for`: with and without a log the tail is shifted; a log reservation moves along. -/
def growFor (a : Allocator) (fault : Option GrowFault) (needed : Nat) : Allocator × Result Unit :=
  let by' := a.growBy needed
  if a.noGrow then
    (a, .error (.io
      ("container is on a fixed " ++ toString a.fileLen ++ "-byte device and cannot grow to " ++
      toString (a.fileLen + by') ++ " bytes (free space by evicting history or trimming)")))
  else if fault = some .grow then (a, .error (.io "set_len"))
  else
    let grown := { a with fileLen := a.fileLen + by' }
    if a.tailLow < a.fileLen then
      if fault = some .copy then (grown, .error (.io "relocate tail"))
      else
        let moved := grown.shiftEvictionTailBookkeeping by'
        ({ moved with tailLow := a.tailLow + by', wal := a.wal.map (· + by') }, .ok ())
    else ({ grown with tailLow := a.tailLow + by', wal := a.wal.map (· + by') }, .ok ())

/-- Reserve the end of the file for the log. -/
def setWalReservation (a : Allocator) (walStart : Nat) : Allocator :=
  { a with wal := some walStart, tailLow := if a.tailLow > walStart then walStart else a.tailLow }

/-! ## Lending -/

/-- There is no room between the frontiers. -/
def collides (a : Allocator) (needed : Nat) : Prop := a.tailLow < a.liveHwm + needed

instance (a : Allocator) (needed : Nat) : Decidable (a.collides needed) :=
  inferInstanceAs (Decidable (_ < _))

/-- Move the frontier of the region over `needed` bytes. -/
def bump (a : Allocator) (len needed : Nat) (region : Region) : Allocator × BlockLoc :=
  match region with
  | .evictionTail => ({ a with tailLow := a.tailLow - needed }, ⟨a.tailLow - needed, len⟩)
  | region =>
    ({ a with
      liveBase := if region = .liveMid ∧ a.liveBase = none then some a.liveHwm else a.liveBase
      liveHwm := a.liveHwm + needed
      headHwm := max a.headHwm (a.liveHwm + needed) }, ⟨a.liveHwm, len⟩)

/-- Make room between the frontiers, if there is none. -/
def ensureRoom (a : Allocator) (fault : Option GrowFault) (needed : Nat) : Allocator × Result Unit :=
  if a.collides needed then a.growFor fault needed else (a, .ok ())

def tag (a : Allocator) (addr : Nat) (region : Region) : Allocator :=
  { a with tags := a.tags.put addr region }

/-- The first fit of the region's free list, or else new space at its frontier. -/
def allocAligned (a : Allocator) (fault : Option GrowFault) (len : Nat) (region : Region) :
    Allocator × Result BlockLoc :=
  let needed := footprint len
  match firstFit (a.freelist region) needed with
  | some addr => ((a.setFreelist (removeRange (a.freelist region) addr needed) region).tag addr
    region, .ok ⟨addr, len⟩)
  | none =>
    match a.ensureRoom fault needed with
    | (a, .error e) => (a, .error e)
    | (a, .ok ()) =>
      let (a, loc) := a.bump len needed region
      (a.tag loc.addr region, .ok loc)

/-- Close the open pack block if a freed extent overlaps it. -/
def packCloseIfFreed (a : Allocator) (addr len : Nat) : Allocator :=
  match a.openPack with
  | none => a
  | some (base, _) =>
    if addr < base + baseBlock ∧ base < addr + len then { a with openPack := none } else a

/-- Give `loc` back to the free list its tag names; an address without a tag is ignored. -/
def free (a : Allocator) (loc : BlockLoc) : Allocator × Bool :=
  let size := footprint loc.len
  match a.tags.get loc.addr with
  | none => (a, false)
  | some region =>
    let a := { a with tags := a.tags.erase loc.addr }
    let a := a.packCloseIfFreed loc.addr size
    (a.setFreelist (insertRange (a.freelist region) loc.addr size) region, true)

/-- `need` bytes at the start of a new pack block. -/
def allocNewPack (a : Allocator) (fault : Option GrowFault) (need : Nat) : Allocator × Result Nat :=
  match a.allocAligned fault baseBlock .liveMid with
  | (a, .error e) => (a, .error e)
  | (a, .ok blk) => ({ a with openPack := some (blk.addr, need) }, .ok blk.addr)

/-- `need` bytes in the open pack block, or in a new one. -/
def allocPacked (a : Allocator) (fault : Option GrowFault) (need : Nat) : Allocator × Result Nat :=
  match a.openPack with
  | none => a.allocNewPack fault need
  | some (base, used) =>
    if used + need ≤ baseBlock then ({ a with openPack := some (base, used + need) },
      .ok (base + used))
    else a.allocNewPack fault need

/-! ## What the calls change -/

section

variable {a a' : Allocator} {fault : Option GrowFault} {len : Nat} {r : Region}

/-- A free drops a tag, may close the pack block, and adds to one free list. -/
theorem free_cases (a : Allocator) (loc : BlockLoc) :
    (a.tags.get loc.addr = none ∧ a.free loc = (a, false)) ∨ ∃ r p, a.free loc =
      ({ a with tags := a.tags.erase loc.addr, openPack := p }.setFreelist
        (insertRange (a.freelist r) loc.addr (footprint loc.len)) r, true) := by
  unfold free packCloseIfFreed
  split
  · rename_i hnone
    exact .inl ⟨hnone, rfl⟩
  rename_i r _
  refine .inr ⟨r, ?_⟩
  dsimp only
  split
  · exact ⟨a.openPack, by cases r <;> rfl⟩
  · split
    · exact ⟨none, by cases r <;> rfl⟩
    · exact ⟨a.openPack, by cases r <;> rfl⟩

/-- Making room moves the tail and changes nothing else. -/
theorem ensureRoom_frame (a : Allocator) (fault : Option GrowFault) (needed : Nat) :
    ∃ fileLen tailLow wal tags freeTail,
    (a.ensureRoom fault needed).1 = { a with fileLen, tailLow, wal, tags, freeTail } := by
  unfold ensureRoom growFor
  repeat' split
  all_goals exact ⟨_, _, _, _, _, rfl⟩

/-- Without a fault only a device that cannot grow makes no room. -/
theorem ensureRoom_refused {needed : Nat} {e : Error} (h : a.ensureRoom none needed = (a', .error e)) :
    a.noGrow = true ∧ (a.growFor none needed).2 = .error e ∧ a' = a := by
  unfold ensureRoom at h
  split at h
  · refine and_left_comm.mp ⟨congrArg Prod.snd h, ?_⟩
    unfold growFor at h
    split at h
    · rename_i hfixed
      cases h
      exact ⟨hfixed, rfl⟩
    · rw [if_neg (by decide)] at h
      split at h
      · cases h
      · cases h
  · cases h

/-- The first free range that fits is lent, or there is no room, or a frontier moves. -/
theorem allocAligned_cases {res : Result BlockLoc} (h : a.allocAligned fault len r = (a', res)) :
    (∃ addr, firstFit (a.freelist r) (footprint len) = some addr ∧ res = .ok ⟨addr, len⟩ ∧
      a' = (a.setFreelist (removeRange (a.freelist r) addr (footprint len)) r).tag addr r) ∨
    (firstFit (a.freelist r) (footprint len) = none ∧
      ((∃ e, a.ensureRoom fault (footprint len) = (a', .error e) ∧ res = .error e) ∨
        ∃ a₁, a.ensureRoom fault (footprint len) = (a₁, .ok ()) ∧
          res = .ok (a₁.bump len (footprint len) r).2 ∧
          a' = (a₁.bump len (footprint len) r).1.tag (a₁.bump len (footprint len) r).2.addr r)) := by
  unfold allocAligned at h
  dsimp only at h
  split at h
  · rename_i addr hfit
    cases h
    exact .inl ⟨addr, hfit, rfl, rfl⟩
  · rename_i hfit
    refine .inr ⟨hfit, ?_⟩
    split at h <;> rename_i hroom <;> cases h
    · exact .inl ⟨_, hroom, rfl⟩
    · exact .inr ⟨_, hroom, rfl, rfl⟩

/-- Neither scopes nor deferred frees are touched by an allocation, and the device is the same. -/
theorem allocAligned_frame (a : Allocator) (fault : Option GrowFault) (len : Nat) (r : Region) :
    (a.allocAligned fault len r).1.deferred = a.deferred ∧
      (a.allocAligned fault len r).1.reclaimFloor = a.reclaimFloor ∧
        (a.allocAligned fault len r).1.noGrow = a.noGrow := by
  obtain ⟨_, _, _, _, _, hframe⟩ := a.ensureRoom_frame fault (footprint len)
  rcases allocAligned_cases (Prod.mk.eta (p := a.allocAligned fault len r)).symm with
    ⟨addr, -, -, h⟩ | ⟨-, ⟨e, hroom, -⟩ | ⟨a₁, hroom, -, h⟩⟩
  · rw [h]
    cases r <;> exact ⟨rfl, rfl, rfl⟩
  · rw [hroom] at hframe
    rw [hframe]
    exact ⟨rfl, rfl, rfl⟩
  · rw [hroom] at hframe
    dsimp only at hframe
    rw [h, hframe]
    cases r <;> exact ⟨rfl, rfl, rfl⟩

end

/-! ## Scopes and deferred frees -/

def beginReclaimScope (a : Allocator) : Allocator :=
  { a with reclaimFloor := some (match a.reclaimFloor with
    | some existing => min existing a.liveHwm
    | none => a.liveHwm) }

def endReclaimScope (a : Allocator) : Allocator := { a with reclaimFloor := none }

/-- Free a block of the running scope; any other is left alone. -/
def freeReclaimable (a : Allocator) (loc : BlockLoc) : Allocator × Bool :=
  match a.reclaimFloor with
  | some floor => if floor ≤ loc.addr then a.free loc else (a, false)
  | none => (a, false)

def retireBlock (a : Allocator) (loc : BlockLoc) : Allocator :=
  { a with deferred := a.deferred ++ [loc] }

def publishDeferred (a : Allocator) : Allocator :=
  a.deferred.foldl (fun a loc => (a.free loc).1) { a with deferred := [] }

def abortDeferred (a : Allocator) : Allocator := { a with deferred := [] }

/-! ## Opening a container -/

def registerEvictionTailBlock (a : Allocator) (addr : Nat) : Allocator :=
  { a.tag addr .evictionTail with tailLow := if addr < a.tailLow then addr else a.tailLow }

def registerLiveBlock (a : Allocator) (addr : Nat) (region : Region) : Allocator := a.tag addr region

/-- Nothing below `stop` is lent from now on. -/
def setForwardFrontier (a : Allocator) (stop : Nat) : Allocator :=
  let aligned := max (roundUpToBlock stop) a.dataStart
  { a with headHwm := max a.headHwm aligned, liveHwm := max a.liveHwm aligned }

end Allocator

/-! ## Runs of a free list

A free list stands for the set of its free bytes. -/

inductive FreelistOp where
  | insert (addr len : Nat)
  | removeRange (addr size : Nat)
  deriving DecidableEq, Repr

namespace FreelistOp

/-- The list after a call. `remove_range` panics if no extent starts at its address or below; that
the range lies in the extent it finds is checked in debug builds only. -/
def apply : Option (List Extent) → FreelistOp → Option (List Extent)
  | none, _ => none
  | some l, insert addr len => some (insertRange l addr len)
  | some l, removeRange addr size =>
    if (lastAtMost l addr).isSome then some (Lib.removeRange l addr size) else none

/-- The free bytes after a call. -/
def replay (free : Set Nat) : FreelistOp → Set Nat
  | insert addr len => free ∪ Set.Ico addr (addr + len)
  | removeRange addr size => free \ Set.Ico addr (addr + size)

/-- Ranges are not empty, and only free bytes are removed. -/
def Legal (free : Set Nat) : FreelistOp → Prop
  | insert _ len => 0 < len
  | removeRange addr size => 0 < size ∧ Set.Ico addr (addr + size) ⊆ free

theorem apply_spec {l : List Extent} {op : FreelistOp} (h : Spaced l) (hop : op.Legal (cover l)) :
    ∃ l', apply (some l) op = some l' ∧ Spaced l' ∧ cover l' = replay (cover l) op := by
  cases op with
  | insert addr len =>
    obtain ⟨hsp, hcover⟩ := insertRange_spec h addr hop
    exact ⟨_, rfl, hsp, Set.ext fun x => (hcover x).trans or_comm⟩
  | removeRange addr size =>
    obtain ⟨e, he, hlo, hhi⟩ := h.exists_extent hop.1 hop.2
    obtain ⟨hsp, hcover⟩ := removeRange_spec h hop.1 he hlo hhi
    refine ⟨_, if_pos (Option.isSome_iff_ne_none.mpr fun hnone => ?_), hsp, Set.ext hcover⟩
    exact absurd (lastAtMost_none hnone he) (not_lt.mpr hlo)

/-- Calls on non-empty ranges that remove only free bytes do not panic; they keep the list
ordered with gaps between its extents, it covers the free bytes, and `first_fit` finds the
lowest extent that is large enough. -/
theorem freelist_run_spec (ops : List FreelistOp) (h : Along replay Legal ∅ ops) :
    ∃ l, run apply (some []) ops = some l ∧ Spaced l ∧ cover l = run replay ∅ ops ∧
      ∀ needed a, firstFit l needed = some a ↔
        ∃ e ∈ l, e.start = a ∧ needed ≤ e.len ∧ ∀ f ∈ l, needed ≤ f.len → a ≤ f.start := by
  have hrun : ∀ (ops : List FreelistOp) (l : List Extent),
    Spaced l → Along replay Legal (cover l) ops →
      ∃ l', run apply (some l) ops = some l' ∧ Spaced l' ∧ cover l' = run replay (cover l) ops := by
    intro ops
    induction ops with
    | nil => exact fun l hl _ => ⟨l, rfl, hl, rfl⟩
    | cons op ops ih =>
      intro l hl h
      obtain ⟨l', happly, hl', hcover⟩ := apply_spec hl h.1
      rw [run_cons, run_cons, happly, ← hcover]
      exact ih l' hl' (hcover ▸ h.2)
  obtain ⟨l, hl, hsp, hcover⟩ := hrun ops [] .nil (by rwa [cover_nil])
  exact ⟨l, hl, hsp, by rwa [cover_nil] at hcover, fun _ _ => firstFit_eq_some_iff hsp⟩

theorem freelist_run_cut :
    ∃ l, run apply (some []) [insert 0 8192, removeRange 0 4096] = some l ∧ Spaced l ∧
    4096 ∈ cover l := by
  obtain ⟨l, hl, hsp, hcover, -⟩ := freelist_run_spec [insert 0 8192, removeRange 0 4096]
    ⟨Nat.succ_pos _, ⟨by decide, fun x hx => .inr ⟨hx.1, hx.2.trans (by decide)⟩⟩, trivial⟩
  exact ⟨l, hl, hsp, hcover ▸ by simp [replay]⟩

/-- Removing a range behind the last extent makes bytes free that were not. -/
theorem removeRange_invents :
    run apply (some []) [insert 0 4096, removeRange 8192 4096] = some [⟨0, 8192⟩] ∧
    4096 ∈ cover [⟨0, 8192⟩] ∧ 4096 ∉ run replay ∅ [insert 0 4096, removeRange 8192 4096] := by
  refine ⟨by decide, ⟨_, List.mem_singleton_self _, by decide, by decide⟩, ?_⟩
  simp [replay]

end FreelistOp

end Sfs.Container

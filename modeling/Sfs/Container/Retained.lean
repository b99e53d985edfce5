import Sfs.Container.TailStore

/-!
# Retention and the blocks still needed

A tail block is still needed while a commit pins it, or while it is the undo image of an
overwrite that no commit has published: recovery writes such an image back. A retention run
(`Mount.evict`) chooses among the blocks that the scan finds, by their age and their commits, and
then publishes, unless a batch is open.

A run keeps every block still needed iff, inside a batch, its strategy has use for the unpinned
undo images of that batch (`evict_keeps_needed_iff`).
-/

namespace Sfs.Container

open Sfs.Lib ScannedEvictedBlock List Tail

variable {im : Nat × EvictedBlock} {payload : Bytes} {s : Mount}

/-! ## Which blocks are dropped -/

section

variable {crc : Bytes → UInt32} {s : Tail} {strategy : EvictionStrategy} {nowUtc : Int}
  {x : ScannedEvictedBlock}

/-- `Outlived` for a scanned block: the scan comes in the order of the addresses. -/
def ScannedEvictedBlock.Outlived (blocks : List ScannedEvictedBlock) (strategy : EvictionStrategy)
    (nowUtc : Int) (b : ScannedEvictedBlock) : Prop :=
  match strategy with
  | .keepAll => False
  | .horizon keep => keep ≤ saturatingSub nowUtc b.timestamp
  | .timeMachine sched => ∃ b' ∈ blocks,
    b'.commits = [] ∧ sched.bucketOf nowUtc b'.view = sched.bucketOf nowUtc b.view ∧
      (b.timestamp < b'.timestamp ∨ b.timestamp = b'.timestamp ∧ b'.locAddr < b.locAddr)

theorem outlived_view_iff {blocks : List ScannedEvictedBlock}
    (hsort : (blocks.map locAddr).Pairwise (· < ·)) {i : Nat} (hx : blocks[i]? = some x) :
    Sfs.Outlived (blocks.map view) strategy nowUtc x.view i ↔ x.Outlived blocks strategy nowUtc := by
  -- an earlier index is a lower address
  have hlt : ∀ {j y}, blocks[j]? = some y → (j < i ↔ y.locAddr < x.locAddr) := by
    intro j y hy
    obtain ⟨hi, rfl⟩ := List.getElem?_eq_some_iff.mp hx
    obtain ⟨hj, rfl⟩ := List.getElem?_eq_some_iff.mp hy
    have hmono : ∀ {a b : Nat} (ha : a < blocks.length) (hb : b < blocks.length),
        a < b → blocks[a].locAddr < blocks[b].locAddr := by
      intro a b ha hb hab
      have := List.pairwise_iff_getElem.mp hsort a b (by simpa using ha) (by simpa using hb) hab
      simpa using this
    constructor
    · exact hmono hj hi
    intro h
    by_contra hle
    rcases Nat.lt_or_eq_of_le (Nat.le_of_not_lt hle) with hij | rfl
    · exact Nat.lt_asymm h (hmono hi hj hij)
    · exact lt_irrefl _ h
  cases strategy with
  | keepAll => rfl
  | horizon keep => rfl
  | timeMachine sched =>
    constructor
    · rintro ⟨j, b', hb', hp, hk, hnew⟩
      rw [List.getElem?_map, Option.map_eq_some_iff] at hb'
      obtain ⟨y, hy, rfl⟩ := hb'
      exact ⟨y, List.mem_of_getElem? hy, hp, hk, hnew.imp id fun h => ⟨h.1, (hlt hy).mp h.2⟩⟩
    · rintro ⟨y, hy, hp, hk, hnew⟩
      obtain ⟨j, hj⟩ := List.mem_iff_getElem?.mp hy
      refine ⟨j, y.view, ?_, hp, hk, hnew.imp id fun h => ⟨h.1, (hlt hj).mpr h.2⟩⟩
      rw [List.getElem?_map, hj]
      rfl

theorem Tail.scan_timestamp (hx : x ∈ s.scan crc) : i64Min ≤ x.timestamp := by
  obtain ⟨addr, -, hscan⟩ := mem_filterMap.mp hx
  obtain ⟨b, hb, rfl⟩ := encodedAt_of_scanAt hscan
  exact hb.fits.time.1

/-- A retention run drops the unpinned blocks its strategy has no use for. -/
theorem Tail.mem_dropped :
    x ∈ s.dropped crc strategy nowUtc ↔
      x ∈ s.scan crc ∧ x.commits = [] ∧ x.Outlived (s.scan crc) strategy nowUtc := by
  have hmin : ∀ b ∈ (s.scan crc).map view, i64Min ≤ b.timestamp := by
    intro b hb
    obtain ⟨y, hy, rfl⟩ := mem_map.mp hb
    exact scan_timestamp hy
  have hiff : ∀ {i}, (s.scan crc)[i]? = some x →
      (i ∈ applyStrategy ((s.scan crc).map view) strategy nowUtc ↔
        x.commits = [] ∧ x.Outlived (s.scan crc) strategy nowUtc) := by
    intro i hi
    have hview : ((s.scan crc).map view)[i]? = some x.view := by
      rw [getElem?_map, hi]
      rfl
    have hsort : ((s.scan crc).map locAddr).Pairwise (· < ·) := pairwise_locAddr_scan _
    rw [mem_applyStrategy hmin hview, outlived_view_iff hsort hi]
    rfl
  unfold dropped
  rw [mem_filterMap]
  constructor
  · rintro ⟨i, hi, hx⟩
    exact ⟨mem_of_getElem? hx, (hiff hx).mp hi⟩
  · rintro ⟨hx, hdrop⟩
    obtain ⟨i, hi⟩ := mem_iff_getElem?.mp hx
    exact ⟨i, (hiff hi).mpr hdrop, hi⟩

/-- A step puts no block into the tail but the one it evicts. -/
theorem Tail.images_step {op : TailOp} (him : im ∈ (s.step crc op).images) :
    (∃ b, op = .evictBlock b ∧ im.2 = b) ∨ ∃ im' ∈ s.images, im'.2 = im.2 := by
  have hmoved : ∀ {store : Store} {im : Nat × EvictedBlock},
      im ∈ (s.moved store).images → ∃ im' ∈ s.images, im'.2 = im.2 := by
    intro store im him
    obtain ⟨im', him', rfl⟩ := mem_map.mp him
    exact ⟨im', him', rfl⟩
  cases op with
  | evictBlock b =>
    unfold Tail.step Tail.evictBlock at him
    dsimp only at him
    split at him
    · exact .inr ⟨im, him, rfl⟩
    · rcases mem_cons.mp him with rfl | him
      · exact .inl ⟨b, rfl, rfl⟩
      · exact .inr (hmoved him)
  | evictWithStrategy strategy nowUtc => exact .inr ⟨im, ((mem_images_foldl_drop _ _).mp him).1, rfl⟩
  | place len r bs =>
    unfold Tail.step Tail.place at him
    dsimp only at him
    split at him
    · exact .inr ⟨im, him, rfl⟩
    · exact .inr (hmoved him)
  | overwrite addr bs => exact .inr ⟨im, him, rfl⟩
  | enableWal size =>
    unfold Tail.step Tail.enableWal at him
    dsimp only at him
    split at him <;> exact .inr ⟨im, him, rfl⟩

theorem Tail.Inv.mem_images_evict (h : Tail.Inv crc s) (him : im ∈ s.images) :
    im ∈ (s.evictWithStrategy crc strategy nowUtc).images ↔
      ¬ (im.2.commits = [] ∧ (Tail.reportOf crc im).Outlived (s.scan crc) strategy nowUtc) := by
  have hself : reportOf crc im ∈ s.scan crc := h.mem_scan him
  rw [Tail.evictWithStrategy, mem_images_foldl_drop, and_iff_right him]
  refine not_congr ⟨fun hmem => ?_, fun hdrop => ?_⟩
  · obtain ⟨x, hx, haddr⟩ := mem_map.mp hmem
    obtain ⟨hscan, hdrop⟩ := mem_dropped.mp hx
    obtain ⟨addr, -, hat⟩ := mem_filterMap.mp hscan
    have hloc : x.locAddr = addr := by
      obtain ⟨b, -, rfl⟩ := encodedAt_of_scanAt hat
      rfl
    cases h.eq_reportOf hat him (haddr.symm.trans hloc)
    exact hdrop
  · exact mem_map.mpr ⟨_, mem_dropped.mpr ⟨hself, hdrop⟩, rfl⟩

end

/-! ## Batches -/

namespace EvictedBlock

/-- The undo image of an overwrite that no commit has published. -/
def Pending (commitSeq : Nat) (b : EvictedBlock) : Prop :=
  b.inplaceAddr ≠ 0 ∧ commitSeq < b.targetCommitSeq

/-- The block is read again by the checkout of a commit, or by recovery. -/
def Needed (commitSeq : Nat) (b : EvictedBlock) : Prop := b.commits ≠ [] ∨ b.Pending commitSeq

end EvictedBlock

/-- An open container: its tail, the number of the header's last commit, and whether a batch keeps
`publish` from committing. -/
structure Mount extends Tail where
  commitSeq : Nat
  batch : Bool

inductive MountOp where
  /-- a step of the tail that is no retention run -/
  | tail (op : TailOp)
  | beginBatch
  | commitBatch
  | publish
  /-- a change of the Writer-Set: it commits the header whether or not a batch is open -/
  | headerCommit
  | evict (strategy : EvictionStrategy) (nowUtc : Int)

namespace Mount

def init (d : Disk) (noGrow : Bool) : Mount := ⟨.init d noGrow, 0, false⟩

def headerCommit (s : Mount) : Mount := { s with commitSeq := s.commitSeq + 1 }

def publish (s : Mount) : Mount := if s.batch then s else s.headerCommit

section

variable (crc : Bytes → UInt32)

/-- `evict`: free what the strategy drops, then publish. -/
def evict (s : Mount) (strategy : EvictionStrategy) (nowUtc : Int) : Mount :=
  { s with toTail := s.toTail.evictWithStrategy crc strategy nowUtc }.publish

def step (s : Mount) : MountOp → Mount
  | .tail op => { s with toTail := s.toTail.step crc op }
  | .beginBatch => { s with batch := true }
  | .commitBatch => if s.batch then { s with batch := false }.publish else s
  | .publish => s.publish
  | .headerCommit => s.headerCommit
  | .evict strategy nowUtc => s.evict crc strategy nowUtc

/-- An undo image names the next commit. -/
def Legal (s : Mount) : MountOp → Prop
  | .tail op => s.toTail.Legal crc op ∧
    match op with
    | .evictBlock b => b.inplaceAddr ≠ 0 → b.targetCommitSeq = s.commitSeq + 1
    | .evictWithStrategy _ _ => False
    | _ => True
  | _ => True

/-- The undo images name no commit after the next one. -/
structure Inv (s : Mount) : Prop where
  tail : s.toTail.Inv crc
  target : ∀ im ∈ s.images, im.2.inplaceAddr ≠ 0 → im.2.targetCommitSeq ≤ s.commitSeq + 1

end

variable {crc : Bytes → UInt32} {s : Mount}

theorem publish_toTail (s : Mount) : s.publish.toTail = s.toTail := by
  unfold publish
  split <;> rfl

theorem le_publish_commitSeq (s : Mount) : s.commitSeq ≤ s.publish.commitSeq := by
  unfold publish
  split
  · exact le_rfl
  · exact Nat.le_succ _

theorem Inv.init {d : Disk} (hdvd : baseBlock ∣ d.len) (hlen : 2 * baseBlock ≤ d.len) (noGrow : Bool) :
    Inv crc (.init d noGrow) := ⟨.init hdvd hlen noGrow, nofun⟩

theorem Inv.later (h : Inv crc s) {s' : Mount} (htail : s'.toTail = s.toTail)
    (hseq : s.commitSeq ≤ s'.commitSeq) : Inv crc s' := by
  refine ⟨htail ▸ h.tail, fun im him hin => ?_⟩
  rw [htail] at him
  exact (h.target im him hin).trans (Nat.succ_le_succ hseq)

theorem Inv.publish (h : Inv crc s) : Inv crc s.publish :=
  h.later s.publish_toTail s.le_publish_commitSeq

theorem Inv.evictWithStrategy (h : Inv crc s) (strategy : EvictionStrategy) (nowUtc : Int) :
    Inv crc { s with toTail := s.toTail.evictWithStrategy crc strategy nowUtc } :=
  ⟨h.tail.evictWithStrategy strategy nowUtc,
    fun im him => h.target im ((mem_images_foldl_drop _ _).mp him).1⟩

theorem Inv.step (h : Inv crc s) {op : MountOp} (hl : s.Legal crc op) : Inv crc (s.step crc op) := by
  cases op with
  | tail op =>
    refine ⟨h.tail.step hl.1, fun im him hin => ?_⟩
    rcases images_step him with ⟨b, rfl, rfl⟩ | ⟨im', him', heq⟩
    · exact (hl.2 hin).le
    · rw [← heq] at hin ⊢
      exact h.target im' him' hin
  | beginBatch => exact h.later rfl le_rfl
  | commitBatch =>
    unfold Mount.step
    dsimp only
    split
    · have hlater : Inv crc { s with batch := false } := h.later rfl le_rfl
      exact hlater.publish
    · exact h
  | publish => exact h.publish
  | headerCommit => exact h.later rfl (Nat.le_succ _)
  | evict strategy nowUtc => exact (h.evictWithStrategy strategy nowUtc).publish

theorem evict_toTail (s : Mount) (strategy : EvictionStrategy) (nowUtc : Int) :
    (s.evict crc strategy nowUtc).toTail = s.toTail.evictWithStrategy crc strategy nowUtc :=
      publish_toTail _

theorem evict_commitSeq (s : Mount) (strategy : EvictionStrategy) (nowUtc : Int) :
    (s.evict crc strategy nowUtc).commitSeq = if s.batch then s.commitSeq else s.commitSeq + 1 := by
  unfold evict Mount.publish
  split <;> rfl

/-- Once a call outside a batch has published, no undo image is pending. -/
theorem Inv.not_pending_evict (h : Inv crc s) (hbatch : s.batch = false) (him : im ∈ s.images)
    (strategy : EvictionStrategy) (nowUtc : Int) :
    ¬ im.2.Pending (s.evict crc strategy nowUtc).commitSeq := by
  rintro ⟨hin, hlt⟩
  rw [evict_commitSeq, hbatch] at hlt
  exact absurd hlt (not_lt.mpr (h.target im him hin))

/-- The unpinned undo images of an open batch are of use to the strategy. -/
def Spares (crc : Bytes → UInt32) (s : Mount) (strategy : EvictionStrategy) (nowUtc : Int) : Prop :=
  s.batch = true → ∀ im ∈ s.images, im.2.Pending s.commitSeq → im.2.commits = [] →
    ¬ (Tail.reportOf crc im).Outlived (s.scan crc) strategy nowUtc

/-- Every block still needed after the call is still in the tail, where the scan finds it. -/
def Keeps (crc : Bytes → UInt32) (s : Mount) (strategy : EvictionStrategy) (nowUtc : Int) : Prop :=
  ∀ im ∈ s.images, im.2.Needed (s.evict crc strategy nowUtc).commitSeq →
    im ∈ (s.evict crc strategy nowUtc).images ∧
      Tail.reportOf crc im ∈ (s.evict crc strategy nowUtc).scan crc

theorem Inv.keeps_iff (h : Inv crc s) {strategy : EvictionStrategy} {nowUtc : Int} :
    s.Keeps crc strategy nowUtc ↔ s.Spares crc strategy nowUtc := by
  have hlegal : s.Legal crc (.evict strategy nowUtc) := trivial
  have hinv : Inv crc (s.evict crc strategy nowUtc) := h.step hlegal
  have hkept : ∀ im ∈ s.images, (im ∈ (s.evict crc strategy nowUtc).images ↔
      ¬ (im.2.commits = [] ∧ (Tail.reportOf crc im).Outlived (s.scan crc) strategy nowUtc)) := by
    intro im him
    rw [evict_toTail]
    exact h.tail.mem_images_evict him
  constructor
  · intro hkeeps hbatch im him hpend hcommits hout
    have hseq : (s.evict crc strategy nowUtc).commitSeq = s.commitSeq := by
      rw [evict_commitSeq, if_pos hbatch]
    exact (hkept im him).mp (hkeeps im him (.inr (hseq.symm ▸ hpend))).1 ⟨hcommits, hout⟩
  intro hspares im him hneed
  suffices hin : im ∈ (s.evict crc strategy nowUtc).images from ⟨hin, hinv.tail.mem_scan hin⟩
  refine (hkept im him).mpr ?_
  rintro ⟨hcommits, hout⟩
  -- unpinned, so it is needed as an undo image, and outside a batch none is
  have hpend := hneed.resolve_left fun hne => hne hcommits
  cases hbatch : s.batch with
  | false => exact h.not_pending_evict hbatch him strategy nowUtc hpend
  | true =>
    rw [evict_commitSeq, if_pos hbatch] at hpend
    exact hspares hbatch im him hpend hcommits hout

end Mount

/-- The undo image of an overwrite of the first live slot, staged after one commit. -/
def undoImage (payload : Bytes) : EvictedBlock :=
  { plainBlock payload with inplaceAddr := 2 * baseBlock, targetCommitSeq := 2 }

theorem fits_undoImage (h : payload.length < 2 ^ 32) : (undoImage payload).Fits :=
  have hp := fits_plainBlock h
  have haddr : 2 * baseBlock < 2 ^ 64 := by decide
  have hseq : 2 < 2 ^ 64 := by decide
  ⟨hp.frag, hp.length, hp.version, hp.commits, hp.time, haddr, hseq, hp.bytes⟩

theorem length_undoImage (crc : Bytes → UInt32) (h : payload.length < 2 ^ 32) :
    ((undoImage payload).encode crc).length = 72 + payload.length := by
  rw [EvictedBlock.length_encode crc (fits_undoImage h),
    show (undoImage payload).length = payload.length from rfl,
      show (undoImage payload).commits = [] from rfl, evictHeaderSize, length_nil]
  omega

/-- One live slot is committed; a batch overwrites it in place. -/
def stagedOps (old new : Bytes) : List MountOp :=
  [.tail (.place baseBlock .liveMid old), .publish, .beginBatch, .tail (.evictBlock (undoImage old)),
    .tail (.overwrite (2 * baseBlock) new)]

/-- The allocator once the live slot is lent. -/
def slotAlloc : Allocator :=
  ((Allocator.new (5 * baseBlock) false).allocAligned none baseBlock .liveMid).1

/-- The allocator once the undo image is in the tail. -/
def stagedAlloc : Allocator := (slotAlloc.allocAligned none (72 + baseBlock) .evictionTail).1

/-- The allocator once the undo image is dropped: its space is the next one lent. -/
def droppedAlloc : Allocator := (stagedAlloc.free ⟨3 * baseBlock, 72 + baseBlock⟩).1

theorem slotAlloc_spec : (Allocator.new (5 * baseBlock) false).allocAligned none baseBlock .liveMid =
    (slotAlloc, .ok ⟨2 * baseBlock, baseBlock⟩) ∧ slotAlloc.fileLen = 5 * baseBlock := ⟨rfl, rfl⟩

theorem stagedAlloc_spec : slotAlloc.allocAligned none (72 + baseBlock) .evictionTail =
    (stagedAlloc, .ok ⟨3 * baseBlock, 72 + baseBlock⟩) ∧ stagedAlloc.fileLen = slotAlloc.fileLen ∧
      stagedAlloc.liveHwm = 3 * baseBlock := ⟨rfl, rfl, rfl⟩

theorem droppedAlloc_spec : ∃ a, droppedAlloc.allocAligned none (72 + baseBlock) .evictionTail =
    (a, .ok ⟨3 * baseBlock, 72 + baseBlock⟩) ∧ a.fileLen = droppedAlloc.fileLen := ⟨_, rfl, rfl⟩

section

variable {crc : Bytes → UInt32} {old new : Bytes}

/-- The state once the batch has overwritten the slot. -/
structure Staged (old : Bytes) (s : Mount) : Prop where
  images : s.images = [(3 * baseBlock, undoImage old)]
  alloc : s.alloc = stagedAlloc
  batch : s.batch = true
  commitSeq : s.commitSeq = 1

theorem staged_run (himages : s.images = []) (halloc : s.alloc = .new (5 * baseBlock) false)
    (hbatch : s.batch = false) (hseq : s.commitSeq = 0) (hold : old.length = baseBlock) :
    Staged old (run (Mount.step crc) s (stagedOps old new)) := by
  obtain ⟨hslot, hslotLen⟩ := slotAlloc_spec
  obtain ⟨hstaged, hstagedLen, -⟩ := stagedAlloc_spec
  obtain ⟨himages₁, halloc₁⟩ :=
    @place_of_room _ _ old s.toTail _ _ (halloc ▸ hslot) (by rw [hslotLen, halloc]; rfl)
  have hnext : (s.place baseBlock .liveMid old).alloc.allocAligned none
    ((undoImage old).encode crc).length .evictionTail =
      (stagedAlloc, .ok ⟨3 * baseBlock, 72 + baseBlock⟩) := by
    rw [halloc₁, length_undoImage crc (hold ▸ by decide), hold, hstaged]
  obtain ⟨himages₂, halloc₂⟩ := evictBlock_of_room hnext (by rw [hstagedLen, halloc₁])
  have hrun : run (Mount.step crc) s (stagedOps old new) =
      { toTail := { (s.place baseBlock .liveMid old).evictBlock crc (undoImage old) with
          disk := ((s.place baseBlock .liveMid old).evictBlock crc (undoImage old)).disk.poke
            (2 * baseBlock) new }
        commitSeq := s.commitSeq + 1
        batch := true } := by
    simp only [stagedOps, run_cons, run_nil, Mount.step, Tail.step, Mount.publish, hbatch,
      Bool.false_eq_true, if_false, Mount.headerCommit]
  rw [hrun]
  exact ⟨himages₂.trans (by rw [himages₁, himages]), halloc₂, rfl, by rw [hseq]⟩

theorem legal_stagedOps (himages : s.images = []) (halloc : s.alloc = .new (5 * baseBlock) false)
    (hbatch : s.batch = false) (hseq : s.commitSeq = 0) (hold : old.length = baseBlock)
    (hnew : new.length = baseBlock) :
    Along (Mount.step crc) (Mount.Legal crc) s (stagedOps old new) := by
  have hsmall : old.length < 2 ^ 32 := hold ▸ by decide
  have hrun : Staged old (run (Mount.step crc) s (stagedOps old new)) :=
    staged_run himages halloc hbatch hseq hold
  have halloc' := hrun.alloc
  refine ⟨⟨⟨by decide, ?_⟩, trivial⟩, trivial, trivial, ⟨⟨fits_undoImage hsmall, ?_⟩, fun _ => ?_⟩,
    ⟨?_, trivial⟩, trivial⟩
  · rw [hold]
    decide
  · rw [length_undoImage crc hsmall, hold]
    decide
  · simp [Mount.step, Mount.publish, Mount.headerCommit, hbatch, hseq, undoImage]
  · show 2 * baseBlock + new.length ≤ (run (Mount.step crc) s (stagedOps old new)).alloc.liveHwm
    rw [halloc', hnew]
    decide

theorem Staged.mem (h : Staged old s) : (3 * baseBlock, undoImage old) ∈ s.images := h.images ▸ .head _

theorem Staged.not_keeps (h : Staged old s) (hinv : s.Inv crc) : ¬ s.Keeps crc (.horizon 0) 0 := by
  intro hkeeps
  refine hinv.keeps_iff.mp hkeeps h.batch _ h.mem ⟨Nat.succ_ne_zero _, ?_⟩ rfl ?_
  · rw [h.commitSeq]
    exact Nat.lt_succ_self 1
  · show (0 : Int) ≤ saturatingSub 0 0
    decide

theorem scanAt_of_byte {d : Disk} {stop : Nat} (addr : Nat) (h : d.byte addr ≠ 0x73) :
    scanAt crc d stop addr = none := by
  refine Option.eq_none_iff_forall_ne_some.mpr fun x hx => ?_
  obtain ⟨b, hb, -⟩ := encodedAt_of_scanAt hx
  have hlen := EvictedBlock.length_encode crc hb.fits
  have hpos : 0 < (b.encode crc).length := by
    omega
  have hbyte : (d.peek addr (b.encode crc).length).getD 0 0 = d.byte addr := Disk.getD_peek hpos
  rw [hb.bytes] at hbyte
  exact h hbyte.symm

/-- The image takes two base blocks; the second one starts inside the old contents. -/
theorem Staged.scan (h : Staged old s) (hinv : s.Inv crc) (hold : old.length = baseBlock)
    (hbyte : old.getD (baseBlock - evictHeaderSize) 0 ≠ 0x73) :
    s.scan crc = [Tail.reportOf crc (3 * baseBlock, undoImage old)] := by
  have hlow : s.alloc.tailLow = 3 * baseBlock := h.alloc ▸ rfl
  have hlim : s.alloc.limit = 5 * baseBlock := h.alloc ▸ rfl
  have hlen := length_undoImage crc (hold ▸ by decide : old.length < 2 ^ 32)
  have hslots : tailSlots (3 * baseBlock) (5 * baseBlock) = [3 * baseBlock, 4 * baseBlock] := by decide
  have hsecond : s.disk.byte (3 * baseBlock + baseBlock) =
      old.getD (baseBlock - evictHeaderSize) 0 := by
    have hget : (s.disk.peek (3 * baseBlock) ((undoImage old).encode crc).length).getD baseBlock 0 =
        s.disk.byte (3 * baseBlock + baseBlock) := Disk.getD_peek (by rw [hlen]; omega)
    rw [← hget, hinv.tail.stands _ h.mem]
    show ((undoImage old).body ++ _).getD baseBlock 0 = _
    have hbody : (undoImage old).body = (undoImage old).header ++ old := rfl
    have hhead := (undoImage old).length_header
    rw [hbody, append_assoc, getD_append_right _ _ _ _ (by rw [hhead]; decide), hhead,
      getD_append _ _ _ _ (by rw [hold]; decide)]
  rw [Tail.scan, hlow, hlim, scanEvictionTail, hslots, ← hlim, filterMap_cons,
    scanAt_of_encodedAt hinv.tail.limit_le (hinv.tail.encodedAt h.mem), filterMap_cons,
    scanAt_of_byte (4 * baseBlock) (hsecond ▸ hbyte)]
  rfl

/-- The space of the dropped image is lent to the next one. -/
theorem Staged.not_mem_scan (h : Staged old s) (hinv : s.Inv crc) (hold : old.length = baseBlock)
    (hbyte : old.getD (baseBlock - evictHeaderSize) 0 ≠ 0x73)
    (hpayload : payload.length = baseBlock) :
    Tail.reportOf crc (3 * baseBlock, undoImage old) ∉
      (run (Mount.step crc) s [.evict (.horizon 0) 0,
        .tail (.evictBlock (plainBlock payload))]).scan crc := by
  have hsmall : payload.length < 2 ^ 32 := hpayload ▸ by decide
  have hdrop : s.toTail.evictWithStrategy crc (.horizon 0) 0 =
      s.drop (Tail.reportOf crc (3 * baseBlock, undoImage old)) :=
    evictWithStrategy_single (h.scan hinv hold hbyte) rfl
  have hloc : (Tail.reportOf crc (3 * baseBlock, undoImage old)).loc =
      ⟨3 * baseBlock, 72 + baseBlock⟩ := by
    show (⟨3 * baseBlock, ((undoImage old).encode crc).length % 2 ^ 32⟩ : BlockLoc) = _
    rw [length_undoImage crc (hold ▸ by decide), hold]
    rfl
  have halloc : (s.evict crc (.horizon 0) 0).alloc = droppedAlloc := by
    rw [Mount.evict_toTail, hdrop]
    show (s.alloc.free _).1 = _
    rw [hloc, h.alloc]
    rfl
  obtain ⟨a, hal, hfile⟩ := droppedAlloc_spec
  have hnext : (s.evict crc (.horizon 0) 0).alloc.allocAligned none
    ((plainBlock payload).encode crc).length .evictionTail =
      (a, .ok ⟨3 * baseBlock, 72 + baseBlock⟩) := by
    rw [halloc, length_plainBlock crc payload hsmall, hpayload, hal]
  obtain ⟨himages, -⟩ := evictBlock_of_room hnext (by rw [hfile, halloc])
  have hlegal : (s.evict crc (.horizon 0) 0).Legal crc (.tail (.evictBlock (plainBlock payload))) :=
    ⟨legal_plainBlock crc (hpayload ▸ by decide) _, fun hne => absurd rfl hne⟩
  have hlegal₀ : s.Legal crc (.evict (.horizon 0) 0) := trivial
  have hinv' := (hinv.step hlegal₀).step hlegal
  have him : (3 * baseBlock, plainBlock payload) ∈
      ((s.evict crc (.horizon 0) 0).evictBlock crc (plainBlock payload)).images :=
    himages ▸ .head _
  rw [run_cons, run_cons, run_nil]
  intro hmem
  obtain ⟨addr, -, hat⟩ := mem_filterMap.mp hmem
  have haddr : addr = 3 * baseBlock := by
    obtain ⟨b, -, hrep⟩ := encodedAt_of_scanAt hat
    exact (congrArg locAddr hrep).symm
  have heq := hinv'.tail.eq_reportOf hat him haddr.symm
  have hin : 2 * baseBlock = 0 := congrArg ScannedEvictedBlock.inplaceAddr heq
  exact absurd hin (by decide)

end

def oldContents : Bytes := replicate baseBlock 7

def newContents : Bytes := replicate baseBlock 9

theorem length_oldContents : oldContents.length = baseBlock := length_replicate

theorem legal_staged_emptyDisk :
    Along (Mount.step crc32) (Mount.Legal crc32) (.init emptyDisk false)
      (stagedOps oldContents newContents) :=
  legal_stagedOps rfl rfl rfl rfl length_oldContents length_replicate

theorem staged_emptyDisk :
    Staged oldContents
      (run (Mount.step crc32) (.init emptyDisk false) (stagedOps oldContents newContents)) :=
  staged_run rfl rfl rfl rfl length_oldContents

end Sfs.Container

import Sfs.Container.TailStore
import Sfs.Wal

/-!
# Growing and crashes

With a log the top of the file is the eviction tail and the log region behind it. When an
allocation makes the file grow, both are copied up and the place they leave can be lent, while the
header on disk still names the old place until the next commit. `Session` is a container between
header commits: what the program sees, what it has written and not flushed, and what the last
committed header refers to.

A crash finds the tail blocks and the acknowledged log records of that header if nothing is lent
over them before the next commit, and no record is acknowledged between growing and that commit
(`growth_crash_safe`). Neither holds by itself: `growth_crash_loses`. A run ends with the crash; what
an open makes of the allocator is `Arena.step` on `reopen`.
-/

namespace Sfs.Container

open Sfs.Lib Disk List

open Sfs.Wal (WalRecord encodeWalRecord encodeAll scanWalRegion walRegionSize)

/-- What an open goes by, with the tail blocks of the moment of the commit. `maxEnd` is the end of
what the header reaches. -/
structure Anchor where
  tailLow : Nat
  wal : Nat
  applied : Nat
  maxEnd : Nat
  images : List (Nat × EvictedBlock)

/-- Where `rebuild_allocator` starts to scan the tail of a container with a log. -/
def Anchor.scanStart (h : Anchor) (d : Disk) : Nat :=
  let frontierAligned := roundUpToBlock h.maxEnd
  if h.tailLow < frontierAligned ∨ h.wal < h.tailLow then h.maxEnd
  else if frontierAligned < h.tailLow then
    -- a block below the tail that is not zero is taken for one that was never committed
    if (d.peek (h.tailLow - baseBlock) baseBlock).any (· ≠ 0) then h.maxEnd else h.tailLow
  else h.tailLow

structure Session extends Tail where
  /-- written since the last flush -/
  dirty : List Extent
  header : Anchor
  /-- `write_cursor` of the log -/
  cursor : Nat
  /-- acknowledged and not applied -/
  acked : List WalRecord

inductive SessionOp where
  | evictBlock (b : EvictedBlock)
  | place (len : Nat) (region : Region) (bs : Bytes)
  /-- a write to space that is lent -/
  | overwrite (addr : Nat) (bs : Bytes)
  | flush
  | writeAsync (r : WalRecord)
  | publish (maxEnd : Nat)
  | checkpoint (maxEnd : Nat)
  | evictWithStrategy (strategy : EvictionStrategy) (nowUtc : Int) (maxEnd : Nat)

namespace Session

/-- A container right after `enable_wal`. -/
def init (d : Disk) : Session :=
  ⟨(Tail.init d false).enableWal walRegionSize, [], ⟨d.len, d.len, 0, 2 * baseBlock, []⟩, 0, []⟩

/-- The space that an allocation lends. -/
def lends (s : Session) (len : Nat) (region : Region) : Option Extent :=
  match s.alloc.allocAligned none len region with
  | (_, .error _) => none
  | (_, .ok loc) => some ⟨loc.addr, footprint len⟩

/-- What an allocation and the write to its space touch: also the new place of tail and log. -/
def touches (s : Session) (len : Nat) (region : Region) : List Extent :=
  match s.alloc.allocAligned none len region with
  | (_, .error _) => []
  | (a, .ok loc) =>
    ⟨loc.addr, footprint len⟩ ::
      (if s.alloc.fileLen < a.fileLen then
        [⟨s.alloc.tailLow + (a.fileLen - s.alloc.fileLen), s.alloc.fileLen - s.alloc.tailLow⟩]
      else [])

/-- A flush and a header commit. -/
def commit (s : Session) (maxEnd applied : Nat) : Session :=
  { s with dirty := [], header :=
    ⟨s.alloc.tailLow, s.alloc.wal.getD s.header.wal, applied, maxEnd, s.images⟩ }

section

variable (crc : Bytes → UInt32)

/-- An append to the log where the allocator has it, and a flush. -/
def writeAsync (s : Session) (r : WalRecord) : Session :=
  let encoded := encodeWalRecord crc r
  { s with
    disk := s.disk.poke (s.alloc.limit + s.cursor) encoded
    dirty := []
    cursor := s.cursor + encoded.length
    acked := s.acked ++ [r] }

def step (s : Session) : SessionOp → Session
  | .evictBlock b =>
    { s with
      toTail := s.toTail.evictBlock crc b
      dirty := s.touches (b.encode crc).length .evictionTail ++ s.dirty }
  | .place len region bs =>
    { s with toTail := s.toTail.place len region bs, dirty := s.touches len region ++ s.dirty }
  | .overwrite addr bs =>
    { s with disk := s.disk.poke addr bs, dirty := ⟨addr, bs.length⟩ :: s.dirty }
  | .flush => { s with dirty := [] }
  | .writeAsync r => s.writeAsync crc r
  | .publish maxEnd => s.commit maxEnd s.header.applied
  | .checkpoint maxEnd =>
    { s with cursor := 0, acked := [] }.commit maxEnd
      (s.acked.foldl (fun (m : Nat) (r : WalRecord) => max m r.seq) s.header.applied)
  | .evictWithStrategy strategy nowUtc maxEnd =>
    { s with toTail := s.toTail.evictWithStrategy crc strategy nowUtc }.commit maxEnd s.header.applied

/-- The calls that can be made: as for the tail; writes go to lent space; a full log is
checkpointed before the next record; a commit reaches nothing above the frontier, but counts a
packed fragment as a whole block. -/
def Legal (s : Session) : SessionOp → Prop
  | .evictBlock b => s.toTail.Legal crc (.evictBlock b)
  | .place len region bs => s.toTail.Legal crc (.place len region bs)
  | .overwrite addr bs => ∃ h ∈ s.forward, h.addr ≤ addr ∧ addr + bs.length ≤ h.extent.stop
  | .flush => True
  | .writeAsync r =>
    r.Fits ∧ s.header.applied < r.seq ∧ s.cursor + (encodeWalRecord crc r).length ≤ walRegionSize
  | .publish maxEnd | .checkpoint maxEnd | .evictWithStrategy _ _ maxEnd =>
    maxEnd < s.alloc.liveHwm + baseBlock

/-- The tail blocks and log records that the committed header refers to. -/
def guarded (s : Session) : Set Nat :=
  { x | (∃ im ∈ s.header.images, im.1 ≤ x ∧ x < im.1 + (im.2.encode crc).length) ∨
    s.header.wal ≤ x ∧ x < s.header.wal + s.cursor }

/-- Nothing is lent over what the committed header refers to, and the log is where the header says
when a record is acknowledged. -/
def Safe (s : Session) : SessionOp → Prop
  | .evictBlock b => ∀ e ∈ s.lends (b.encode crc).length .evictionTail,
    ∀ x ∈ e.bytes, x ∉ s.guarded crc
  | .place len region _ => ∀ e ∈ s.lends len region, ∀ x ∈ e.bytes, x ∉ s.guarded crc
  | .writeAsync _ => s.alloc.wal = some s.header.wal
  | _ => True

/-- What a crash can leave: any bytes where a write was not flushed. -/
def Crashed (s : Session) (d : Disk) : Prop :=
  s.header.wal + walRegionSize ≤ d.len ∧ ∀ x, x ∉ cover s.dirty → d.byte x = s.disk.byte x

/-- Opening after a crash finds every acknowledged record, and every tail block of the header if
the scan starts at a block boundary. -/
def CrashSafe (s : Session) : Prop :=
  ∀ d, s.Crashed d →
    (∀ r ∈ s.acked, r ∈ scanWalRegion crc (d.peek s.header.wal walRegionSize) s.header.applied) ∧
    (baseBlock ∣ s.header.scanStart d →
      ∀ im ∈ s.header.images, Tail.reportOf crc im ∈
        scanEvictionTail crc d (s.header.scanStart d) s.header.wal)

end

/-! ## Invariant -/

structure Inv (crc : Bytes → UInt32) (s : Session) : Prop where
  tail : Tail.Inv crc s.toTail
  /-- the log where the allocator has it -/
  current : ∃ w, s.alloc.wal = some w ∧ w + walRegionSize = s.alloc.fileLen ∧
    s.disk.peek w s.cursor = encodeAll crc s.acked
  cursor : s.cursor ≤ walRegionSize
  acked : ∀ r ∈ s.acked, r.Fits ∧ s.header.applied < r.seq
  inFile : s.header.wal + walRegionSize ≤ s.alloc.fileLen
  tailLow : baseBlock ∣ s.header.tailLow ∧ s.header.tailLow ≤ s.header.wal ∧ baseBlock ∣ s.header.wal
  maxEnd : s.header.maxEnd < s.header.tailLow + baseBlock
  images : ∀ im ∈ s.header.images, im.2.Fits ∧ baseBlock ∣ im.1 ∧ s.header.tailLow ≤ im.1 ∧
    im.1 + footprint (im.2.encode crc).length ≤ s.header.wal
  /-- the tail blocks and the log where the header has them -/
  stands : ∀ im ∈ s.header.images, s.disk.peek im.1 (im.2.encode crc).length = im.2.encode crc
  log : s.disk.peek s.header.wal s.cursor = encodeAll crc s.acked
  clean : ∀ x ∈ s.guarded crc, x ∉ cover s.dirty
  forward : ∀ h ∈ s.forward, ∀ x ∈ h.extent.bytes, x ∉ s.guarded crc

variable {crc : Bytes → UInt32} {s : Session}

theorem Inv.guarded_lt (h : Inv crc s) {x : Nat} (hx : x ∈ s.guarded crc) : x < s.alloc.fileLen := by
  have hfile := h.inFile
  have hcur := h.cursor
  rcases hx with ⟨im, him, -, hx⟩ | ⟨-, hx⟩
  · have hle := le_footprint (im.2.encode crc).length
    have hhi := (h.images im him).2.2.2
    omega
  · omega

/-- What the header refers to stands as long as its bytes are kept. -/
theorem Inv.kept {d : Disk} (h : Inv crc s) (hd : ∀ x ∈ s.guarded crc, d.byte x = s.disk.byte x) :
    (∀ im ∈ s.header.images, d.peek im.1 (im.2.encode crc).length = im.2.encode crc) ∧
      d.peek s.header.wal s.cursor = encodeAll crc s.acked := by
  refine ⟨fun im him => ?_, ?_⟩
  · refine (peek_congr fun i hi => hd _ (.inl ⟨im, him, ?_⟩)).trans (h.stands im him)
    omega
  · refine (peek_congr fun i hi => hd _ (.inr ?_)).trans h.log
    omega

/-! ### Opening -/

theorem Anchor.scanStart_eq (h : Anchor) (d : Disk) :
    h.scanStart d = h.maxEnd ∨ h.scanStart d = h.tailLow := by
  unfold Anchor.scanStart
  dsimp only
  split
  · exact .inl rfl
  split
  · split
    · exact .inl rfl
    · exact .inr rfl
  · exact .inr rfl

theorem Inv.crashSafe (h : Inv crc s) : s.CrashSafe crc := by
  rintro d ⟨hlen, hd⟩
  obtain ⟨hstands, hlog⟩ := h.kept fun x hx => hd x (h.clean x hx)
  refine ⟨fun r hr => ?_, fun hdvd im him => ?_⟩
  · obtain ⟨k, hk⟩ := Nat.exists_eq_add_of_le h.cursor
    rw [hk, peek_add, hlog, Wal.scanWalRegion_encodeAll fun r hr => (h.acked r hr).1]
    exact mem_append_left _ (mem_filter.mpr ⟨hr, decide_eq_true (h.acked r hr).2⟩)
  obtain ⟨hlow, hle, hwal⟩ := h.tailLow
  obtain ⟨hfits, hal, hlo, hhi⟩ := h.images im him
  have hstart : s.header.scanStart d ≤ s.header.tailLow := by
    rcases Anchor.scanStart_eq s.header d with heq | heq
    · have := h.maxEnd
      rw [heq] at hdvd ⊢
      obtain ⟨i, hi⟩ := hdvd
      obtain ⟨j, hj⟩ := hlow
      rw [hi, hj] at this ⊢
      have hij : i < j + 1 :=
        Nat.lt_of_mul_lt_mul_left (a := baseBlock) (by rw [Nat.mul_succ]; exact this)
      exact Nat.mul_le_mul_left _ (Nat.lt_succ_iff.mp hij)
    · exact heq.le
  have hfoot := le_footprint (im.2.encode crc).length
  have hbase := baseBlock_le_footprint (im.2.encode crc).length
  have hpos := baseBlock_pos
  refine (mem_scanEvictionTail (by omega) (Nat.dvd_sub hwal hdvd) (by omega)).mpr
    ⟨im.1, im.2, ⟨by omega, by omega, Nat.dvd_sub hal hdvd⟩, ⟨hfits, by omega, hstands im him⟩, rfl⟩

/-! ### Lending -/

/-- The disk that an allocation leaves. -/
def grownDisk (s : Session) (a : Allocator) : Disk :=
  if s.alloc.fileLen < a.fileLen then relocated s.disk s.alloc (a.fileLen - s.alloc.fileLen)
    else s.disk

section

variable {a : Allocator} {r : Region} {len : Nat}

theorem Inv.grownDisk_byte {loc : BlockLoc} (h : Inv crc s)
    (hal : s.alloc.allocAligned none len r = (a, .ok loc)) {x : Nat} (hx : x < s.alloc.fileLen) :
    (s.grownDisk a).byte x = s.disk.byte x := by
  have hl := allocAligned_lent h.tail.alloc hal
  obtain ⟨w, hw, -⟩ := h.current
  unfold grownDisk
  split
  · exact relocated_byte_of_wal h.tail.len (by rw [hw]; exact Option.some_ne_none w)
      (hl.span.resolve_left (by omega)) hx
  · rfl

theorem Inv.grownDisk_log {w : Nat} {loc : BlockLoc} (h : Inv crc s)
    (hal : s.alloc.allocAligned none len r = (a, .ok loc)) {i : Nat} (hw : s.alloc.wal = some w)
    (hi : w + i < s.alloc.fileLen) :
    (s.grownDisk a).byte (w + (a.fileLen - s.alloc.fileLen) + i) = s.disk.byte (w + i) := by
  have hl := allocAligned_lent h.tail.alloc hal
  have hlow : s.alloc.tailLow ≤ w := by
    have := h.tail.alloc.tail_le
    rwa [Allocator.limit, hw] at this
  unfold grownDisk
  split
  · rw [Nat.add_right_comm]
    exact relocated_byte_tail (hl.span.resolve_left (by omega)) (by omega) hi
  · rename_i hsame
    rw [Nat.sub_eq_zero_of_le (not_lt.mp hsame), add_zero]

theorem store_of_ok {loc : BlockLoc} (hal : s.alloc.allocAligned none len r = (a, .ok loc)) :
    s.toStore.allocAligned len r = (⟨s.grownDisk a, a⟩, .ok loc) := by
  unfold Store.allocAligned
  rw [hal]
  rfl

theorem store_of_error {e : Error} (hal : s.alloc.allocAligned none len r = (a, .error e)) :
    s.toStore.allocAligned len r = (s.toStore, .error e) := by
  cases allocAligned_refused hal
  exact Store.allocAligned_of_fileLen_eq hal rfl

theorem touches_eq {loc : BlockLoc} (hal : s.alloc.allocAligned none len r = (a, .ok loc)) :
    s.touches len r = ⟨loc.addr, footprint len⟩ ::
      (if s.alloc.fileLen < a.fileLen then
        [⟨s.alloc.tailLow + (a.fileLen - s.alloc.fileLen), s.alloc.fileLen - s.alloc.tailLow⟩]
      else []) := by
  unfold touches
  rw [hal]

theorem lends_eq {loc : BlockLoc} (hal : s.alloc.allocAligned none len r = (a, .ok loc)) :
    s.lends len r = some ⟨loc.addr, footprint len⟩ := by
  unfold lends
  rw [hal]

theorem Inv.lent_le {loc : BlockLoc} (h : Inv crc s)
    (hal : s.alloc.allocAligned none len r = (a, .ok loc)) :
    loc.addr + footprint len ≤ a.limit := by
  have hinv := allocAligned_ok h.tail.alloc hal
  have hp : baseBlock ∣ loc.addr ∧ a.lo r ≤ loc.addr ∧ loc.addr + footprint len ≤ a.hi r :=
    hinv.placed _ (.head _)
  exact hp.2.2.trans (hinv.toBounds.hi_le r)

/-- Space that is lent beside what the header refers to, and written, does no harm. -/
theorem Inv.lend {bs : Bytes} {loc : BlockLoc} (h : Inv crc s)
    (hal : s.alloc.allocAligned none len r = (a, .ok loc)) {t : Tail} (ht : Tail.Inv crc t)
    (halloc : t.alloc = a) (hdisk : t.disk = (s.grownDisk a).poke loc.addr bs)
    (hbs : bs.length ≤ footprint len)
    (hfwd : ∀ g ∈ t.forward, g ∈ s.forward ∨ g.extent = ⟨loc.addr, footprint len⟩)
    (hsafe : ∀ e ∈ s.lends len r, ∀ x ∈ e.bytes, x ∉ s.guarded crc) :
    Inv crc { s with toTail := t, dirty := s.touches len r ++ s.dirty } := by
  have hl := allocAligned_lent h.tail.alloc hal
  have hoff : ∀ x ∈ s.guarded crc, ¬ (loc.addr ≤ x ∧ x < loc.addr + footprint len) := fun x hx hin =>
    hsafe _ (lends_eq hal) x hin hx
  have hkept : ∀ x ∈ s.guarded crc, t.disk.byte x = s.disk.byte x := by
    intro x hx
    have := hoff x hx
    rw [hdisk]
    exact (tear_byte_outside (by omega)).trans (h.grownDisk_byte hal (h.guarded_lt hx))
  obtain ⟨hstands, hlog⟩ := h.kept hkept
  obtain ⟨w, hw, hsize, hcurrent⟩ := h.current
  have hwal : a.wal = some (w + (a.fileLen - s.alloc.fileLen)) := by rw [hl.wal, hw]; rfl
  have hfile := hl.fileLen
  have hcur := h.cursor
  refine ⟨ht, ⟨w + (a.fileLen - s.alloc.fileLen), (congrArg Allocator.wal halloc).trans hwal, ?_,
    ?_⟩, hcur, h.acked, ?_, h.tailLow, h.maxEnd, h.images, hstands, hlog, ?_, ?_⟩
  · show _ = t.alloc.fileLen
    rw [halloc]
    omega
  · show t.disk.peek (w + (a.fileLen - s.alloc.fileLen)) s.cursor = _
    refine Eq.trans (peek_congr fun i hi => ?_) hcurrent
    have hle := h.lent_le hal
    rw [Allocator.limit, hwal, Option.getD_some] at hle
    rw [hdisk]
    refine (tear_byte_outside (.inr ?_)).trans (h.grownDisk_log hal hw ?_)
    · omega
    · omega
  · show s.header.wal + walRegionSize ≤ t.alloc.fileLen
    have := h.inFile
    rw [halloc]
    omega
  · intro x hx hdirty
    obtain ⟨e, he, hxe⟩ := hdirty
    rw [touches_eq hal] at he
    rcases mem_append.mp he with he | he
    · rcases mem_cons.mp he with rfl | he
      · exact hoff x hx hxe
      -- the copies go above the old end of the file
      split at he
      · cases mem_singleton.mp he
        have hlt := h.guarded_lt hx
        have hspan := hl.span
        have hlo : s.alloc.tailLow + (a.fileLen - s.alloc.fileLen) ≤ x := hxe.1
        omega
      · cases he
    · exact h.clean x hx ⟨e, he, hxe⟩
  · intro g hg x hx hguard
    rcases hfwd g hg with hold | hnew
    · exact h.forward g hold x hx hguard
    · rw [hnew] at hx
      exact hoff x hguard hx

theorem Inv.refused (h : Inv crc s) {e : Error}
    (hal : s.alloc.allocAligned none len r = (a, .error e)) :
    Inv crc { s with dirty := s.touches len r ++ s.dirty } := by
  have hnone : s.touches len r = [] := by
    unfold touches
    rw [hal]
  rw [hnone]
  exact h

end

theorem Inv.evictBlock (h : Inv crc s) {b : EvictedBlock} (hl : s.Legal crc (.evictBlock b))
    (hs : s.Safe crc (.evictBlock b)) : Inv crc (s.step crc (.evictBlock b)) := by
  have ht : Tail.Inv crc (s.toTail.evictBlock crc b) := h.tail.evictBlock hl.1 hl.2
  rcases hal : s.alloc.allocAligned none (b.encode crc).length .evictionTail with ⟨a, res⟩
  cases res with
  | error e =>
    have hsame : s.toTail.evictBlock crc b = s.toTail := by
      unfold Tail.evictBlock
      dsimp only
      rw [store_of_error hal]
    show Inv crc { s with toTail := s.toTail.evictBlock crc b, dirty := _ }
    rw [hsame]
    exact h.refused hal
  | ok loc =>
    have hround : (resize (roundUpToBlock (b.encode crc).length) (b.encode crc)).length ≤
        footprint (b.encode crc).length := by
      rw [length_resize]
      exact le_max_left _ _
    have heq := Tail.evictBlock_of_ok (store_of_ok hal)
    exact h.lend hal ht (by rw [heq]) (by rw [heq]) hround
      (fun g hg => .inl (by rw [heq] at hg; exact hg)) hs

theorem Inv.place {bs : Bytes} (h : Inv crc s) {len : Nat} {r : Region}
    (hl : s.Legal crc (.place len r bs)) (hs : s.Safe crc (.place len r bs)) :
    Inv crc (s.step crc (.place len r bs)) := by
  have ht : Tail.Inv crc (s.toTail.place len r bs) := h.tail.place hl.1 hl.2
  rcases hal : s.alloc.allocAligned none len r with ⟨a, res⟩
  cases res with
  | error e =>
    have hsame : s.toTail.place len r bs = s.toTail := by
      unfold Tail.place
      rw [store_of_error hal]
    show Inv crc { s with toTail := s.toTail.place len r bs, dirty := _ }
    rw [hsame]
    exact h.refused hal
  | ok loc =>
    have heq : s.toTail.place len r bs = _ := Tail.place_of_ok (store_of_ok hal)
    refine h.lend hal ht (by rw [heq]) (by rw [heq]) hl.2 (fun g hg => ?_) hs
    rw [heq] at hg
    rcases mem_cons.mp hg with rfl | hg
    · exact .inr rfl
    · exact .inl hg

/-! ### Other steps -/

theorem Inv.overwrite {bs : Bytes} (h : Inv crc s) {addr : Nat}
    (hl : s.Legal crc (.overwrite addr bs)) : Inv crc (s.step crc (.overwrite addr bs)) := by
  obtain ⟨g, hg, hlo, hhi⟩ := hl
  have hoff : ∀ x ∈ s.guarded crc, ¬ (addr ≤ x ∧ x < addr + bs.length) := fun x hx hin =>
    h.forward g hg x ⟨by rw [extent_start]; omega, by omega⟩ hx
  have hbelow : addr + bs.length ≤ s.alloc.liveHwm :=
    hhi.trans ((h.tail.alloc.placed g (mem_append_right _ hg)).stop_le (h.tail.forward g hg))
  have hkept : ∀ x ∈ s.guarded crc, (s.disk.poke addr bs).byte x = s.disk.byte x := fun x hx =>
    tear_byte_outside (by have := hoff x hx; omega)
  obtain ⟨hstands, hlog⟩ := h.kept hkept
  obtain ⟨w, hw, hsize, hcurrent⟩ := h.current
  refine ⟨h.tail.overwrite hbelow, ⟨w, hw, hsize, ?_⟩, h.cursor, h.acked, h.inFile, h.tailLow,
    h.maxEnd, h.images, hstands, hlog, ?_, h.forward⟩
  · have hlow := h.tail.alloc.hwm_le.trans h.tail.alloc.tail_le
    rw [Allocator.limit, hw, Option.getD_some] at hlow
    show (s.disk.poke addr bs).peek w s.cursor = _
    exact (peek_tear_outside (.inr (hbelow.trans hlow))).trans hcurrent
  · rintro x hx ⟨e, he, hxe⟩
    rcases mem_cons.mp he with rfl | he
    · exact hoff x hx hxe
    · exact h.clean x hx ⟨e, he, hxe⟩

theorem Inv.flush (h : Inv crc s) : Inv crc { s with dirty := [] } :=
  ⟨h.tail, h.current, h.cursor, h.acked, h.inFile, h.tailLow, h.maxEnd, h.images, h.stands, h.log,
    fun _ _ hc => by simp at hc, h.forward⟩

theorem Inv.writeAsync (h : Inv crc s) {r : WalRecord} (hl : s.Legal crc (.writeAsync r))
    (hs : s.Safe crc (.writeAsync r)) : Inv crc (s.writeAsync crc r) := by
  obtain ⟨hfits, hseq, hroom⟩ := hl
  obtain ⟨w, hw, hsize, hcurrent⟩ := h.current
  have hheader : s.header.wal = w := Option.some.inj ((Eq.symm hs).trans hw)
  have hlim : s.alloc.limit = w := by rw [Allocator.limit, hw]; rfl
  -- the record is appended to what the log holds
  have hlog : (s.disk.poke (w + s.cursor) (encodeWalRecord crc r)).peek w
    (s.cursor + (encodeWalRecord crc r).length) =
      encodeAll crc (s.acked ++ [r]) := by
    have hback : (s.disk.poke (w + s.cursor) (encodeWalRecord crc r)).peek w s.cursor =
        s.disk.peek w s.cursor :=
      peek_tear_outside (.inl le_rfl)
    rw [peek_add, peek_poke, hback, hcurrent, Wal.encodeAll_append]
    simp [encodeAll]
  have hstands : ∀ im ∈ s.header.images,
      (s.disk.poke (w + s.cursor) (encodeWalRecord crc r)).peek im.1 (im.2.encode crc).length =
        im.2.encode crc := by
    intro im him
    have hle := le_footprint (im.2.encode crc).length
    have hhi := (h.images im him).2.2.2
    exact (peek_tear_outside (.inl (by omega))).trans (h.stands im him)
  have htail : Tail.Inv crc { s.toTail
      with disk := s.disk.poke (w + s.cursor) (encodeWalRecord crc r) } := by
    refine ⟨h.tail.len, h.tail.alloc, h.tail.fits, fun im him => ?_, h.tail.tags, h.tail.forward⟩
    have hle := le_footprint (im.2.encode crc).length
    have hhi := (h.tail.placed him).2.2
    show (s.disk.poke (w + s.cursor) (encodeWalRecord crc r)).peek im.1 _ = _
    exact (peek_tear_outside (.inl (by omega))).trans (h.tail.stands im him)
  unfold Session.writeAsync
  dsimp only
  rw [hlim]
  refine ⟨htail, ⟨w, hw, hsize, hlog⟩, hroom, fun r' hr' => ?_, h.inFile, h.tailLow, h.maxEnd,
    h.images, hstands, hheader.symm ▸ hlog, fun _ _ hc => by simp at hc, fun g hg x hx hguard => ?_⟩
  · rcases mem_append.mp hr' with hr' | hr'
    · exact h.acked r' hr'
    · cases mem_singleton.mp hr'
      exact ⟨hfits, hseq⟩
  · rcases hguard with himage | ⟨hlo, -⟩
    · exact h.forward g hg x hx (.inl himage)
    -- live data lies below the log
    have hbound :=
      ((h.tail.alloc.placed g (mem_append_right _ hg)).mem_bounds (h.tail.forward g hg) hx).2
    have hlow := h.tail.alloc.hwm_le.trans h.tail.alloc.tail_le
    have hwal : s.header.wal ≤ x := hlo
    omega

/-- A commit refers to what is there. -/
theorem Inv.commit (h : Inv crc s) {maxEnd applied : Nat} (hend : maxEnd < s.alloc.liveHwm + baseBlock)
    (hacked : ∀ r ∈ s.acked, r.Fits ∧ applied < r.seq) : Inv crc (s.commit maxEnd applied) := by
  obtain ⟨w, hw, hsize, hcurrent⟩ := h.current
  have hb := h.tail.alloc.toBounds
  have hlim : s.alloc.limit = w := by rw [Allocator.limit, hw]; rfl
  have hwal : s.alloc.wal.getD s.header.wal = w := by rw [hw]; rfl
  have hcur := h.cursor
  unfold Session.commit
  rw [hwal]
  refine ⟨h.tail, ⟨w, hw, hsize, hcurrent⟩, hcur, hacked, hsize.le,
    ⟨hb.tail_dvd, hlim ▸ hb.tail_le, hlim ▸ hb.limit_dvd⟩, lt_of_lt_of_le hend
      (Nat.add_le_add_right hb.hwm_le _), fun im him => ?_, h.tail.stands, hcurrent,
    fun _ _ hc => by simp at hc, fun g hg x hx hguard => ?_⟩
  · have hp := h.tail.placed him
    exact ⟨(h.tail.fits im him).1, hp.1, hp.2.1, hlim ▸ hp.2.2⟩
  have hbound :=
    ((h.tail.alloc.placed g (mem_append_right _ hg)).mem_bounds (h.tail.forward g hg) hx).2
  have hlow := hb.hwm_le
  have hle := hb.tail_le
  rcases hguard with ⟨im, him, hlo, -⟩ | ⟨hlo, -⟩
  · have hp := (h.tail.placed him).2.1
    omega
  · have hwx : w ≤ x := hlo
    omega

theorem Inv.checkpointed (h : Inv crc s) : Inv crc { s with cursor := 0, acked := [] } := by
  obtain ⟨w, hw, hsize, -⟩ := h.current
  have hsub : ∀ x ∈ ({ s with cursor := 0, acked := [] } : Session).guarded crc,
      x ∈ s.guarded crc := by
    rintro x (himage | ⟨hlo, hhi⟩)
    · exact .inl himage
    · exact absurd (lt_of_lt_of_le hhi (le_of_eq (add_zero _))) (not_lt.mpr hlo)
  exact ⟨h.tail, ⟨w, hw, hsize, rfl⟩, Nat.zero_le _, fun r hr => (nomatch hr), h.inFile, h.tailLow,
    h.maxEnd, h.images, h.stands, rfl, fun x hx => h.clean x (hsub x hx), fun g hg x hx hguard =>
      h.forward g hg x hx (hsub x hguard)⟩

/-- A retention run leaves the bytes and the log. -/
theorem Inv.dropped (h : Inv crc s) (strategy : EvictionStrategy) (nowUtc : Int) :
    Inv crc { s with toTail := s.toTail.evictWithStrategy crc strategy nowUtc } := by
  obtain ⟨hdisk, hfwd, hfile, -, hwal, -⟩ := Tail.evictWithStrategy_frame crc s.toTail strategy nowUtc
  obtain ⟨w, hw, hsize, hcurrent⟩ := h.current
  refine ⟨h.tail.evictWithStrategy strategy nowUtc, ⟨w, hwal.trans hw, hsize.trans hfile.symm, ?_⟩,
    h.cursor, h.acked, h.inFile.trans hfile.ge, h.tailLow, h.maxEnd, h.images,
    fun im him => ?_, ?_, h.clean, fun g hg => h.forward g (hfwd ▸ hg)⟩
  · exact (congrArg (peek · w s.cursor) hdisk).trans hcurrent
  · exact (congrArg (peek · im.1 _) hdisk).trans (h.stands im him)
  · exact (congrArg (peek · s.header.wal s.cursor) hdisk).trans h.log

theorem Inv.step (h : Inv crc s) {op : SessionOp} (hl : s.Legal crc op) (hs : s.Safe crc op) :
    Inv crc (s.step crc op) := by
  cases op with
  | evictBlock b => exact h.evictBlock hl hs
  | place len r bs => exact h.place hl hs
  | overwrite addr bs => exact h.overwrite hl
  | flush => exact h.flush
  | writeAsync r => exact h.writeAsync hl hs
  | publish maxEnd => exact h.commit hl h.acked
  | checkpoint maxEnd => exact h.checkpointed.commit hl fun r hr => (nomatch hr)
  | evictWithStrategy strategy nowUtc maxEnd =>
    obtain ⟨-, -, -, -, -, hhwm⟩ := Tail.evictWithStrategy_frame crc s.toTail strategy nowUtc
    exact (h.dropped strategy nowUtc).commit
      (lt_of_lt_of_eq hl (congrArg (· + baseBlock) hhwm.symm)) h.acked

theorem Inv.init {d : Disk} (hdvd : baseBlock ∣ d.len) (hlen : 2 * baseBlock ≤ d.len) :
    Inv crc (Session.init d) := by
  have ht : Tail.Inv crc ((Tail.init d false).enableWal walRegionSize) :=
    (Tail.Inv.init hdvd hlen false).enableWal rfl (by decide)
  have hpos := baseBlock_pos
  refine ⟨ht, ⟨d.len, rfl, rfl, rfl⟩, Nat.zero_le _, fun r hr => (nomatch hr), le_rfl,
    ⟨hdvd, le_rfl, hdvd⟩, ?_, fun im him => (nomatch him), fun im him =>
      (nomatch him), rfl, fun _ _ hc => ?_, fun g hg => (nomatch hg)⟩
  · show 2 * baseBlock < d.len + baseBlock
    omega
  · simp [Session.init] at hc

end Session

/-- In every run in which nothing is lent over what the committed header refers to, and no record is
acknowledged while the log is not where the header says, a crash at any point is safe. -/
theorem growth_crash_safe (crc : Bytes → UInt32) {d : Disk} (hdvd : baseBlock ∣ d.len)
    (hlen : 2 * baseBlock ≤ d.len) (ops : List SessionOp)
    (hops : Along (Session.step crc) (fun s op => s.Legal crc op ∧ s.Safe crc op) (.init d) ops) :
    (run (Session.step crc) (.init d) ops).CrashSafe crc :=
  (run_inv (I := Session.Inv crc) (fun _ _ hs hop => hs.step hop.1 hop.2)
    (Session.Inv.init hdvd hlen) hops).crashSafe

/-! ### Runs on an empty container -/

def firstRecord : WalRecord := ⟨1, Vector.replicate 16 0, 0, 1, [7]⟩

theorem fits_firstRecord : firstRecord.Fits := ⟨by decide, by decide, by decide, by decide⟩

theorem length_firstRecord (crc : Bytes → UInt32) : (encodeWalRecord crc firstRecord).length = 53 :=
  Wal.length_encodeWalRecord crc firstRecord

theorem legal_firstRecord {s : Session} (crc : Bytes → UInt32) (happlied : s.header.applied = 0)
    (hcursor : s.cursor = 0) : s.Legal crc (.writeAsync firstRecord) := by
  refine ⟨fits_firstRecord, happlied ▸ Nat.zero_lt_one, ?_⟩
  rw [hcursor, length_firstRecord]
  decide

/-- The file grows for live data, the new place is committed, and a record is acknowledged there. -/
def grownOps : List SessionOp :=
  [.place (4 * baseBlock) .liveMid [1], .publish (6 * baseBlock), .writeAsync firstRecord]

theorem growth_crash_safe_committed :
    Along (Session.step crc32) (fun s op => s.Legal crc32 op ∧ s.Safe crc32 op)
      (.init emptyDisk) grownOps ∧
      (run (Session.step crc32) (.init emptyDisk) grownOps).CrashSafe crc32 := by
  have hops : Along (Session.step crc32) (fun s op => s.Legal crc32 op ∧ s.Safe crc32 op)
      (.init emptyDisk) grownOps := by
    refine ⟨⟨⟨by decide, by decide⟩, fun e he x hx hguard => ?_⟩, ⟨?_, trivial⟩,
      ⟨legal_firstRecord crc32 rfl rfl, rfl⟩, trivial⟩
    · -- the header refers to no tail block and to no record yet
      rcases hguard with ⟨im, him, -⟩ | ⟨hlo, hhi⟩
      · cases him
      · exact absurd hlo (not_le.mpr hhi)
    · show 6 * baseBlock < 6 * baseBlock + baseBlock
      decide
  exact ⟨hops, growth_crash_safe crc32 (by decide) (by decide) _ hops⟩

/-- Nothing is found where the first bytes are not those of a record. -/
theorem scan_of_not_magic {d : Disk} {w : Nat} {crc : Bytes → UInt32} {minSeq : Nat}
    (h : d.peek w 8 ≠ Wal.walMagic) : scanWalRegion crc (d.peek w walRegionSize) minSeq = [] := by
  refine Wal.scanWalRegion_of_not_decode fun p hp => ?_
  unfold Wal.decodeWalRecord at hp
  have hmagic : (((d.peek w walRegionSize).take Wal.walRecordHeaderSize).take 8) = d.peek w 8 := by
    rw [take_take, take_peek (by decide)]
    rfl
  rw [if_neg (by rw [length_peek]; decide), if_pos (by rw [hmagic]; exact h)] at hp
  cases hp

theorem not_crashSafe {s : Session} {crc : Bytes → UInt32}
    (hlen : s.header.wal + walRegionSize ≤ s.disk.len) (hacked : s.acked ≠ [])
    (hmagic : s.disk.peek s.header.wal 8 ≠ Wal.walMagic) : ¬ s.CrashSafe crc := by
  intro hsafe
  obtain ⟨r, hr⟩ := exists_mem_of_ne_nil _ hacked
  have hfound := (hsafe s.disk ⟨hlen, fun _ _ => rfl⟩).1 r hr
  rw [scan_of_not_magic hmagic] at hfound
  cases hfound

/-- The allocator after live data was placed on the container right after `enable_wal`: the log has
moved, and the data reaches over the place it left. -/
theorem allocAligned_init :
    ∃ a, (Session.init emptyDisk).alloc.allocAligned none (4 * baseBlock) .liveMid =
    (a, .ok ⟨2 * baseBlock, 4 * baseBlock⟩) ∧ a.fileLen = 5 * baseBlock + 2 * walRegionSize ∧
      a.limit = 5 * baseBlock + walRegionSize :=
  ⟨((Session.init emptyDisk).alloc.allocAligned none (4 * baseBlock) .liveMid).1, rfl, rfl, rfl⟩

theorem ne_walMagic_of_byte {d : Disk} {w : Nat} (h : d.byte w ≠ 0x73) :
    d.peek w 8 ≠ Wal.walMagic := by
  intro heq
  have hbyte : (d.peek w 8).getD 0 0 = d.byte w := getD_peek (by decide)
  rw [heq] at hbyte
  exact h hbyte.symm

theorem len_grownDisk {s : Session} {a : Allocator} (hlen : s.disk.len = s.alloc.fileLen)
    (hle : s.alloc.fileLen ≤ a.fileLen) : (s.grownDisk a).len = a.fileLen := by
  unfold Session.grownDisk
  split
  · rw [len_relocated]
    omega
  · omega

/-- Live data over the log. -/
theorem loses_overwritten {bs : Bytes} {s : Session} {crc : Bytes → UInt32} {len : Nat}
    {a : Allocator} {loc : BlockLoc} (hlen : s.disk.len = s.alloc.fileLen)
    (hal : s.alloc.allocAligned none len .liveMid = (a, .ok loc))
    (hle : s.alloc.fileLen ≤ a.fileLen) (hfile : s.header.wal + walRegionSize ≤ a.fileLen)
    (hacked : s.acked ≠ []) (hlo : loc.addr ≤ s.header.wal)
    (hhi : s.header.wal < loc.addr + bs.length) (hbyte : bs.getD (s.header.wal - loc.addr) 0 ≠ 0x73) :
    ¬ (s.step crc (.place len .liveMid bs)).CrashSafe crc := by
  have hdisk : (s.step crc (.place len .liveMid bs)).disk = (s.grownDisk a).poke loc.addr bs :=
    congrArg (fun t : Tail => t.disk) (Tail.place_of_ok (Session.store_of_ok hal))
  refine not_crashSafe (hfile.trans ?_) hacked (ne_walMagic_of_byte ?_)
  · rw [hdisk, poke_len, len_grownDisk hlen hle]
  · rw [hdisk]
    exact fun heq => hbyte ((poke_byte_within hlo hhi).symm.trans heq)

/-- A record in a log that the header does not name. -/
theorem loses_unnamed {s : Session} {crc : Bytes → UInt32} {r : WalRecord}
    (hfile : s.header.wal + walRegionSize ≤ s.disk.len) (hlim : s.header.wal < s.alloc.limit)
    (hbyte : s.disk.byte s.header.wal ≠ 0x73) : ¬ (s.writeAsync crc r).CrashSafe crc := by
  refine not_crashSafe hfile (concat_ne_nil _ _) (ne_walMagic_of_byte ?_)
  have hkept : (s.disk.poke (s.alloc.limit + s.cursor) (encodeWalRecord crc r)).byte s.header.wal =
      s.disk.byte s.header.wal :=
    tear_byte_outside (.inl (by omega))
  exact fun heq => hbyte (hkept.symm.trans heq)

/-- Growing for live data lends the place of the log, which is then overwritten; and a record that
is acknowledged after growing is written to a place the header does not name. -/
theorem growth_crash_loses :
    let Loses := fun ops : List SessionOp =>
      Along (Session.step crc32) (Session.Legal crc32) (.init emptyDisk) ops ∧
      ¬ (run (Session.step crc32) (.init emptyDisk) ops).CrashSafe crc32
    Loses [.writeAsync firstRecord, .place (4 * baseBlock) .liveMid (replicate (4 * baseBlock) 1)] ∧
      Loses [.place (4 * baseBlock) .liveMid [1], .writeAsync firstRecord] := by
  obtain ⟨a, hal, hfile, hlim⟩ := allocAligned_init
  have hinit : Session.Inv crc32 (.init emptyDisk) := Session.Inv.init (by decide) (by decide)
  have hinitLen : (Session.init emptyDisk).alloc.fileLen = 5 * baseBlock + walRegionSize := rfl
  have hwal : (Session.init emptyDisk).header.wal = 5 * baseBlock := rfl
  refine ⟨⟨⟨legal_firstRecord crc32 rfl rfl, ⟨by decide, ?_⟩, trivial⟩, ?_⟩,
    ⟨⟨by decide, by decide⟩, legal_firstRecord crc32 rfl rfl, trivial⟩, ?_⟩
  · rw [length_replicate]
    decide
  · refine loses_overwritten hinit.tail.len hal ?_ ?_ (concat_ne_nil _ _) ?_ ?_ ?_
    · show (Session.init emptyDisk).alloc.fileLen ≤ a.fileLen
      rw [hinitLen, hfile]
      omega
    · show (Session.init emptyDisk).header.wal + walRegionSize ≤ a.fileLen
      rw [hwal, hfile]
      omega
    · show 2 * baseBlock ≤ 5 * baseBlock
      decide
    · rw [length_replicate]
      show 5 * baseBlock < 2 * baseBlock + 4 * baseBlock
      decide
    · rw [getD_replicate]
      · decide
      · show 5 * baseBlock - 2 * baseBlock < 4 * baseBlock
        decide
  · have heq : (Session.init emptyDisk).toTail.place (4 * baseBlock) .liveMid [1] = _ :=
      Tail.place_of_ok (Session.store_of_ok hal)
    have hdisk : ((Session.init emptyDisk).step crc32 (.place (4 * baseBlock) .liveMid [1])).disk =
        ((Session.init emptyDisk).grownDisk a).poke (2 * baseBlock) [1] :=
          congrArg (fun t : Tail => t.disk) heq
    have halloc :
        ((Session.init emptyDisk).step crc32 (.place (4 * baseBlock) .liveMid [1])).alloc = a :=
      congrArg (fun t : Tail => t.alloc) heq
    refine loses_unnamed ?_ ?_ ?_
    · rw [hdisk, poke_len, len_grownDisk hinit.tail.len (by rw [hinitLen, hfile]; omega), hfile]
      show 5 * baseBlock + walRegionSize ≤ _
      omega
    · rw [halloc, hlim]
      show 5 * baseBlock < _
      decide
    have hzero : (Session.init emptyDisk).disk.byte (5 * baseBlock) = 0 := by
      show (if 5 * baseBlock < 5 * baseBlock then emptyDisk.byte (5 * baseBlock) else 0) = 0
      rw [if_neg (lt_irrefl _)]
    rw [hdisk]
    show (((Session.init emptyDisk).grownDisk a).poke (2 * baseBlock) [1]).byte (5 * baseBlock) ≠ 0x73
    have hout : (((Session.init emptyDisk).grownDisk a).poke (2 * baseBlock) [1]).byte
      (5 * baseBlock) =
        ((Session.init emptyDisk).grownDisk a).byte (5 * baseBlock) :=
          tear_byte_outside (.inr (by decide))
    rw [hout, hinit.grownDisk_byte hal (by rw [hinitLen]; decide), hzero]
    decide

end Sfs.Container

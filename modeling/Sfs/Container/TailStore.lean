import Sfs.Container.EvictedBlock
import Sfs.Container.Lending

/-!
# The eviction tail on disk

The allocator with the bytes of its file. Superseded fragments are put into the tail
(`evictBlock`), a retention run frees some of the blocks that the scan finds
(`evictWithStrategy`), and the growth that an allocation causes copies the tail up. Freeing a
block leaves its bytes.

Two things are found beside the blocks that are in the tail: the bytes of a dropped block, until
the space is used again, and an encoding inside the payload of a block that takes more than one
base block. `scan_exact_iff` says that without the second the first is all.
-/

namespace Sfs.Container

open Sfs.Lib List Allocator Disk

variable {x : ScannedEvictedBlock} {im : Nat × EvictedBlock} {len addr n : Nat} {r : Region}
  {store : Store} {bs : Bytes}
  {b : EvictedBlock} {s : Tail} {strategy : EvictionStrategy} {nowUtc : Int} {a : Allocator}
    {crc : Bytes → UInt32}

/-! ## Growing with bytes -/

/-- The writes of `grow_for` once the file has grown by `k`: the tail, with the log behind it, is
copied up, and without a log the place it leaves is zeroed. -/
def relocation (d : Disk) (a : Allocator) (k : Nat) : List (Nat × Bytes) :=
  if a.tailLow < a.fileLen then
    (a.tailLow + k, d.peek a.tailLow (a.fileLen - a.tailLow)) ::
      (if a.wal = none then [(a.tailLow, replicate (min a.fileLen (a.tailLow + k) - a.tailLow) 0)]
        else [])
  else []

def relocated (d : Disk) (a : Allocator) (k : Nat) : Disk :=
  (d.grow (a.fileLen + k)).pokes (relocation d a k)

/-- The file and its allocator. -/
structure Store where
  disk : Disk
  alloc : Allocator

/-- An allocation; the bytes move if the file grew. -/
def Store.allocAligned (s : Store) (len : Nat) (region : Region) : Store × Result BlockLoc :=
  let (a, res) := s.alloc.allocAligned none len region
  (⟨if s.alloc.fileLen < a.fileLen then relocated s.disk s.alloc (a.fileLen - s.alloc.fileLen)
    else s.disk, a⟩, res)

/-! ## The tail -/

/-- A container with what was put into its tail and not dropped since, by address, and the extents
lent to catalog and live data. -/
structure Tail extends Store where
  images : List (Nat × EvictedBlock)
  forward : List Held

open Tail

inductive TailOp where
  /-- a superseded fragment goes to the tail -/
  | evictBlock (b : EvictedBlock)
  /-- a retention run -/
  | evictWithStrategy (strategy : EvictionStrategy) (nowUtc : Int)
  /-- new catalog or live data -/
  | place (len : Nat) (region : Region) (bs : Bytes)
  /-- a write to space that is lent -/
  | overwrite (addr : Nat) (bs : Bytes)
  | enableWal (size : Nat)

/-- What a retention strategy reads of a block. -/
def ScannedEvictedBlock.view (b : ScannedEvictedBlock) : Evicted :=
  ⟨b.uuid, b.frag, b.oldVersion, b.commits, b.timestamp, []⟩

def ScannedEvictedBlock.loc (b : ScannedEvictedBlock) : BlockLoc := ⟨b.locAddr, b.encodedLen⟩

namespace Tail

/-- A container before the first call. -/
def init (d : Disk) (noGrow : Bool) : Tail := ⟨⟨d, .new d.len noGrow⟩, [], []⟩

/-- The holders after an allocation: the tail moved if the file grew. -/
def moved (s : Tail) (store : Store) : Tail :=
  let k := store.alloc.fileLen - s.alloc.fileLen
  ⟨store, s.images.map fun im => (im.1 + k, im.2), s.forward⟩

/-- A scanned block is dropped: its space is free if it has a tag. -/
def drop (s : Tail) (b : ScannedEvictedBlock) : Tail :=
  { s with alloc := (s.alloc.free b.loc).1, images := s.images.filter fun im => im.1 ≠ b.locAddr }

section

variable (crc : Bytes → UInt32)

def scan (s : Tail) : List ScannedEvictedBlock :=
  scanEvictionTail crc s.disk s.alloc.tailLow s.alloc.limit

def evictBlock (s : Tail) (b : EvictedBlock) : Tail :=
  let encoded := b.encode crc
  match s.toStore.allocAligned encoded.length .evictionTail with
  | (store, .error _) => { s with toStore := store }
  | (store, .ok loc) =>
    let t := s.moved store
    { t with
      disk := t.disk.poke loc.addr (resize (roundUpToBlock encoded.length) encoded)
      images := (loc.addr, b) :: t.images }

/-- The blocks that a retention run drops. -/
def dropped (s : Tail) (strategy : EvictionStrategy) (nowUtc : Int) : List ScannedEvictedBlock :=
  let scanned := s.scan crc
  (applyStrategy (scanned.map ScannedEvictedBlock.view) strategy nowUtc).filterMap fun i => scanned[i]?

def evictWithStrategy (s : Tail) (strategy : EvictionStrategy) (nowUtc : Int) : Tail :=
  (s.dropped crc strategy nowUtc).foldl drop s

def place (s : Tail) (len : Nat) (region : Region) (bs : Bytes) : Tail :=
  match s.toStore.allocAligned len region with
  | (store, .error _) => { s with toStore := store }
  | (store, .ok loc) =>
    let t := s.moved store
    { t with
      disk := t.disk.poke loc.addr bs
      forward := ⟨loc.addr, len, .aligned region⟩ :: t.forward }

def enableWal (s : Tail) (size : Nat) : Tail :=
  if s.alloc.noGrow then s
  else
    let grown := { s.alloc with fileLen := s.alloc.fileLen + size }
    { s with
      disk := s.disk.grow (s.alloc.fileLen + size)
      alloc := grown.setWalReservation s.alloc.fileLen }

def step (s : Tail) : TailOp → Tail
  | .evictBlock b => s.evictBlock crc b
  | .evictWithStrategy strategy nowUtc => s.evictWithStrategy crc strategy nowUtc
  | .place len region bs => s.place len region bs
  | .overwrite addr bs => { s with disk := s.disk.poke addr bs }
  | .enableWal size => s.enableWal size

/-- The calls that can be made: fields and lengths of the source's types, data of whole blocks
below the tail, one log of whole blocks. -/
def Legal (s : Tail) : TailOp → Prop
  | .evictBlock b => b.Fits ∧ (b.encode crc).length < 2 ^ 32
  | .evictWithStrategy _ _ => True
  | .place len region bs => region ≠ .evictionTail ∧ bs.length ≤ footprint len
  | .overwrite addr bs => addr + bs.length ≤ s.alloc.liveHwm
  | .enableWal size => s.alloc.wal = none ∧ baseBlock ∣ size

/-- What the scan should return for a block of the tail. -/
def reportOf (im : Nat × EvictedBlock) : ScannedEvictedBlock :=
  im.2.report im.1 (im.2.encode crc).length

/-- No base block of the tail starts with an encoding, but for the blocks in the tail. -/
def Unambiguous (s : Tail) : Prop :=
  ∀ addr b, s.alloc.tailLow ≤ addr → addr < s.alloc.limit → baseBlock ∣ addr →
    EncodedAt crc s.disk s.alloc.limit addr b → addr ∈ s.images.map Prod.fst

/-- The extent of a tail block. -/
def heldOf (im : Nat × EvictedBlock) : Held := ⟨im.1, (im.2.encode crc).length, .aligned .evictionTail⟩

end

end Tail

/-! ## Bytes that move -/

section

variable {d : Disk} {a : Allocator} {k : Nat}

theorem len_relocated : (relocated d a k).len = a.fileLen + k := by
  unfold relocated relocation
  split
  · split <;> rfl
  · rfl

theorem relocated_byte_below (hlen : d.len = a.fileLen) {x : Nat} (hx : x < a.tailLow)
    (hin : x < a.fileLen) : (relocated d a k).byte x = d.byte x := by
  have hgrow : (d.grow (a.fileLen + k)).byte x = d.byte x := if_pos (by omega)
  unfold relocated relocation
  split
  · split
    · show (((d.grow _).poke _ _).poke _ _).byte x = _
      exact (tear_byte_outside (.inl hx)).trans ((tear_byte_outside (.inl (by omega))).trans hgrow)
    · show ((d.grow _).poke _ _).byte x = _
      exact (tear_byte_outside (.inl (by omega))).trans hgrow
  · exact hgrow

/-- The bytes of the tail, and of the log, are found `k` higher. -/
theorem relocated_byte_tail (hspan : a.fileLen ≤ a.tailLow + k) {x : Nat} (hlo : a.tailLow ≤ x)
    (hhi : x < a.fileLen) : (relocated d a k).byte (x + k) = d.byte x := by
  have hpeek : ((d.grow (a.fileLen + k)).poke (a.tailLow + k)
    (d.peek a.tailLow (a.fileLen - a.tailLow))).byte (x + k) =
      d.byte x := by
    rw [poke_byte_within (by omega) (by rw [length_peek]; omega), getD_peek (by omega)]
    congr 1
    omega
  unfold relocated relocation
  rw [if_pos (lt_of_le_of_lt hlo hhi)]
  split
  · show (((d.grow _).poke _ _).poke _ _).byte (x + k) = _
    refine (tear_byte_outside (.inr ?_)).trans hpeek
    rw [length_replicate]
    omega
  · exact hpeek

/-- With a log nothing of the old file changes. -/
theorem relocated_byte_of_wal (hlen : d.len = a.fileLen) (hwal : a.wal ≠ none)
    (hspan : a.fileLen ≤ a.tailLow + k) {x : Nat} (hx : x < a.fileLen) :
    (relocated d a k).byte x = d.byte x := by
  have hgrow : (d.grow (a.fileLen + k)).byte x = d.byte x := if_pos (by omega)
  unfold relocated relocation
  split
  · show ((d.grow _).poke _ _).byte x = _
    exact (tear_byte_outside (.inl (by omega))).trans hgrow
  · exact hgrow

end

/-! ## Invariant -/

section

variable {a a' : Allocator} {held : List Held} {r : Region} {len : Nat} {loc : BlockLoc}

/-- What an allocation does to the file and to the tags of the tail. -/
structure Lent (a a' : Allocator) (len : Nat) (r : Region) (loc : BlockLoc) (k : Nat) : Prop where
  fileLen : a'.fileLen = a.fileLen + k
  span : k = 0 ∨ a.fileLen ≤ a.tailLow + k
  wal : a'.wal = a.wal.map (· + k)
  low : a'.tailLow = a.tailLow + k ∨
    r = .evictionTail ∧ a'.tailLow = loc.addr ∧ loc.addr + footprint len = a.tailLow + k
  tags : ∀ b, a'.tags.get b = some .evictionTail →
    (r = .evictionTail ∧ b = loc.addr) ∨ ∃ x, b = x + k ∧ a.tags.get x = some .evictionTail

theorem map_add_zero (o : Option Nat) : o.map (· + 0) = o := by cases o <;> rfl

theorem allocAligned_lent (hinv : Inv a held) (h : a.allocAligned none len r = (a', .ok loc)) :
    Lent a a' len r loc (a'.fileLen - a.fileLen) := by
  have htag : ∀ (a₁ : Allocator) (b : Nat), (a₁.tag loc.addr r).tags.get b = some .evictionTail →
      (r = .evictionTail ∧ b = loc.addr) ∨ a₁.tags.get b = some .evictionTail := by
    intro a₁ b hb
    rcases KeyMap.get_put_eq_some_iff.mp hb with ⟨hb, hr⟩ | ⟨-, hb⟩
    · exact .inl ⟨hr.symm, hb⟩
    · exact .inr hb
  rcases allocAligned_cases h with ⟨addr, -, hres, rfl⟩ |
    ⟨-, ⟨_, -, hres⟩ | ⟨a₁, hroom, hres, rfl⟩⟩ <;> cases hres
  · have hlen : ((a.setFreelist (removeRange (a.freelist r) addr (footprint len)) r).tag addr
        r).fileLen = a.fileLen :=
      a.setFreelist_fileLen _ _
    rw [hlen, Nat.sub_self]
    refine ⟨hlen, .inl rfl, ?_, .inl (a.setFreelist_tailLow _ _), fun b hb => ?_⟩
    · show (a.setFreelist _ r).wal = _
      rw [setFreelist_wal, map_add_zero]
    · rcases htag _ b hb with hnew | hold
      · exact .inl hnew
      · rw [setFreelist_tags] at hold
        exact .inr ⟨b, rfl, hold⟩
  · have hlen : ((a₁.bump len (footprint len) r).1.tag
        (a₁.bump len (footprint len) r).2.addr r).fileLen = a₁.fileLen :=
      bump_fileLen _ _
    have hwal : ((a₁.bump len (footprint len) r).1.tag
        (a₁.bump len (footprint len) r).2.addr r).wal = a₁.wal := by
      cases r <;> rfl
    have htags : (a₁.bump len (footprint len) r).1.tags = a₁.tags := by cases r <;> rfl
    have hlow : ((a₁.bump len (footprint len) r).1.tag
      (a₁.bump len (footprint len) r).2.addr r).tailLow =
        a₁.tailLow ∨ r = .evictionTail ∧
          (a₁.bump len (footprint len) r).2.addr + footprint len = a₁.tailLow ∧
          ((a₁.bump len (footprint len) r).1.tag (a₁.bump len (footprint len) r).2.addr r).tailLow =
            (a₁.bump len (footprint len) r).2.addr := by
      have hfits := not_lt.mp (ensureRoom_ok hinv hroom).1
      cases r with
      | evictionTail => exact .inr ⟨rfl, Nat.sub_add_cancel (by omega), rfl⟩
      | _ => exact .inl rfl
    unfold ensureRoom at hroom
    split at hroom
    · obtain ⟨-, -, hspan⟩ := growBy_spec a (footprint len)
      cases growFor_ok hinv.registered hroom
      have hk : (a.lifted (a.growBy (footprint len))).fileLen =
        a.fileLen + a.growBy (footprint len) := rfl
      rw [hlen, hk, Nat.add_sub_cancel_left]
      refine ⟨hlen.trans hk, .inr hspan, hwal, ?_, fun b hb => ?_⟩
      · exact hlow.imp_right fun ⟨hr, haddr, hlow⟩ => ⟨hr, hlow, haddr⟩
      rcases htag _ b hb with hnew | hold
      · exact .inl hnew
      · rw [htags] at hold
        rcases (tags_lifted hinv.registered hinv.hwm_le hspan b _).mp hold with ⟨-, x, hx⟩ | ⟨hr, -⟩
        · exact .inr ⟨x, hx⟩
        · exact absurd rfl hr
    · cases hroom
      rw [hlen, Nat.sub_self]
      refine ⟨hlen, .inl rfl, hwal.trans (map_add_zero _).symm, ?_, fun b hb => ?_⟩
      · exact hlow.imp_right fun ⟨hr, haddr, hlow⟩ => ⟨hr, hlow, haddr⟩
      rcases htag _ b hb with hnew | hold
      · exact .inl hnew
      · rw [htags] at hold
        exact .inr ⟨b, rfl, hold⟩

/-- The frontiers are the same. -/
structure SameFrontiers (a a' : Allocator) : Prop where
  fileLen : a'.fileLen = a.fileLen
  tailLow : a'.tailLow = a.tailLow
  wal : a'.wal = a.wal
  liveHwm : a'.liveHwm = a.liveHwm

theorem SameFrontiers.limit (h : SameFrontiers a a') : a'.limit = a.limit := by
  rw [Allocator.limit, Allocator.limit, h.wal, h.fileLen]

theorem free_frame (a : Allocator) (loc : BlockLoc) : SameFrontiers a (a.free loc).1 := by
  rcases a.free_cases loc with ⟨-, h⟩ | ⟨r, _, h⟩ <;> rw [h]
  · exact ⟨rfl, rfl, rfl, rfl⟩
  · cases r <;> exact ⟨rfl, rfl, rfl, rfl⟩

theorem free_tags_get {b : Nat} (h : (a.free loc).1.tags.get b = some r) :
    b ≠ loc.addr ∧ a.tags.get b = some r := by
  rcases a.free_cases loc with ⟨hnone, heq⟩ | ⟨_, _, heq⟩ <;> rw [heq] at h
  · refine ⟨?_, h⟩
    rintro rfl
    rw [hnone] at h
    cases h
  · rw [setFreelist_tags] at h
    exact KeyMap.get_erase_eq_some_iff.mp h

theorem allocAligned_refused {e : Error} (h : a.allocAligned none len r = (a', .error e)) :
    a' = a := by
  rcases allocAligned_cases h with ⟨_, -, hres, -⟩ | ⟨-, ⟨_, hroom, -⟩ | ⟨_, -, hres, -⟩⟩
  · cases hres
  · exact (ensureRoom_refused hroom).2.2
  · cases hres

end

namespace Tail

variable {crc : Bytes → UInt32} {s : Tail}

structure Inv (crc : Bytes → UInt32) (s : Tail) : Prop where
  len : s.disk.len = s.alloc.fileLen
  alloc : Container.Inv s.alloc (s.images.map (heldOf crc) ++ s.forward)
  fits : ∀ im ∈ s.images, im.2.Fits ∧ (im.2.encode crc).length < 2 ^ 32
  stands : ∀ im ∈ s.images, s.disk.peek im.1 (im.2.encode crc).length = im.2.encode crc
  tags : ∀ b, s.alloc.tags.get b = some .evictionTail → b ∈ s.images.map Prod.fst
  forward : ∀ h ∈ s.forward, ¬ h.isTail

theorem Inv.placed (h : Inv crc s) (him : im ∈ s.images) :
    baseBlock ∣ im.1 ∧ s.alloc.tailLow ≤ im.1 ∧
      im.1 + footprint (im.2.encode crc).length ≤ s.alloc.limit :=
  h.alloc.placed _ (mem_append_left _ (mem_map_of_mem him))

theorem Inv.encodedAt (h : Inv crc s) (him : im ∈ s.images) :
    EncodedAt crc s.disk s.alloc.limit im.1 im.2 := by
  have hle := le_footprint (im.2.encode crc).length
  have hhi := (h.placed him).2.2
  exact ⟨(h.fits im him).1, by omega, h.stands im him⟩

theorem Inv.limit_le (h : Inv crc s) : s.alloc.limit ≤ s.disk.len := h.len ▸ h.alloc.limit_le

theorem Inv.init {d : Disk} (hdvd : baseBlock ∣ d.len) (hlen : 2 * baseBlock ≤ d.len) (noGrow : Bool) :
    Inv crc (Tail.init d noGrow) := by
  refine ⟨rfl, Container.Inv.new hdvd hlen noGrow, fun im him => (nomatch him),
    fun im him => (nomatch him), fun b hb => ?_, fun h hh => (nomatch hh)⟩
  cases hb

/-! ### Allocation -/

theorem map_heldOf_moved (ims : List (Nat × EvictedBlock)) (k : Nat) :
    (ims.map (heldOf crc)).map (Held.moved k) =
      (ims.map fun im => (im.1 + k, im.2)).map (heldOf crc) := by
  rw [map_map, map_map]
  refine map_congr_left fun im _ => ?_
  show (heldOf crc im).moved k = _
  exact if_pos rfl

/-- After an allocation the images stand where they were moved to. -/
structure Ready (crc : Bytes → UInt32) (s t : Tail) (h : Held) : Prop where
  len : t.disk.len = t.alloc.fileLen
  alloc : Container.Inv t.alloc (h :: (t.images.map (heldOf crc) ++ t.forward))
  fits : ∀ im ∈ t.images, im.2.Fits ∧ (im.2.encode crc).length < 2 ^ 32
  stands : ∀ im ∈ t.images, t.disk.peek im.1 (im.2.encode crc).length = im.2.encode crc
  tags : ∀ b, t.alloc.tags.get b = some .evictionTail → (h.isTail ∧ b = h.addr) ∨
    b ∈ t.images.map Prod.fst
  forward : t.forward = s.forward

/-- The bytes of the tail, and of the log, are found where an allocation moved them to. -/
theorem Inv.byte_moved (h : Inv crc s) {loc : BlockLoc}
    (ha : s.toStore.allocAligned len r = (store, .ok loc)) {x : Nat} (hlo : s.alloc.tailLow ≤ x)
    (hhi : x < s.alloc.fileLen) :
    (s.moved store).disk.byte (x + (store.alloc.fileLen - s.alloc.fileLen)) = s.disk.byte x := by
  unfold Store.allocAligned at ha
  rcases hal : s.alloc.allocAligned none len r with ⟨a', res⟩
  rw [hal] at ha
  cases ha
  have hl := allocAligned_lent h.alloc hal
  have hfile := hl.fileLen
  show (if _ then _ else _ : Disk).byte (x + (a'.fileLen - s.alloc.fileLen)) = _
  split
  · rename_i hgrew
    have hgrew' : s.alloc.fileLen < a'.fileLen := hgrew
    exact relocated_byte_tail (hl.span.resolve_left (by omega)) hlo hhi
  · rename_i hsame
    have hsame' : ¬ s.alloc.fileLen < a'.fileLen := hsame
    rw [Nat.sub_eq_zero_of_le (not_lt.mp hsame'), add_zero]

theorem Inv.ready (h : Inv crc s) {loc : BlockLoc}
    (ha : s.toStore.allocAligned len r = (store, .ok loc)) :
    Ready crc s (s.moved store) ⟨loc.addr, len, .aligned r⟩ := by
  have hbyte := fun x => h.byte_moved ha (x := x)
  unfold Store.allocAligned at ha
  rcases hal : s.alloc.allocAligned none len r with ⟨a', res⟩
  rw [hal] at ha
  cases ha
  have hinv := allocAligned_ok h.alloc hal
  have hl := allocAligned_lent h.alloc hal
  have hfwd : s.forward.map (Held.moved (a'.fileLen - s.alloc.fileLen)) = s.forward :=
    map_moved_parked (.inr h.forward)
  rw [map_append, map_heldOf_moved, hfwd] at hinv
  have hle : s.alloc.tailLow ≤ s.alloc.fileLen := h.alloc.tail_le.trans h.alloc.limit_le
  refine ⟨?_, hinv, ?_, ?_, ?_, rfl⟩
  · show (if _ then _ else _ : Disk).len = a'.fileLen
    split
    · exact len_relocated.trans hl.fileLen.symm
    · have := hl.fileLen
      exact h.len.trans (by omega)
  · intro im him
    obtain ⟨im', him', rfl⟩ := mem_map.mp him
    exact h.fits im' him'
  · intro im him
    obtain ⟨im', him', rfl⟩ := mem_map.mp him
    refine Eq.trans ?_ (h.stands im' him')
    refine peek_congr fun i hi => ?_
    replace hi : i < (im'.2.encode crc).length := hi
    obtain ⟨-, hlo, hhi⟩ := h.placed him'
    have hfoot := le_footprint (im'.2.encode crc).length
    have hlim := h.alloc.limit_le
    show (Tail.moved _ _).disk.byte (im'.1 + (a'.fileLen - s.alloc.fileLen) + i) = _
    rw [Nat.add_right_comm]
    exact hbyte (im'.1 + i) (by omega) (by omega)
  · intro b hb
    rcases hl.tags b hb with ⟨rfl, rfl⟩ | ⟨x, rfl, hx⟩
    · exact .inl ⟨rfl, rfl⟩
    · obtain ⟨im, him, rfl⟩ := mem_map.mp (h.tags x hx)
      exact .inr (mem_map.mpr ⟨(im.1 + _, im.2), mem_map_of_mem him, rfl⟩)

theorem allocAligned_error_store {e : Error}
    (ha : s.toStore.allocAligned len r = (store, .error e)) : store = s.toStore := by
  unfold Store.allocAligned at ha
  rcases hal : s.alloc.allocAligned none len r with ⟨a', res⟩
  rw [hal] at ha
  cases ha
  cases allocAligned_refused hal
  rw [if_neg (lt_irrefl _)]

/-- A write to a lent extent leaves the tail blocks beside it alone. -/
theorem Ready.peek_poke {t : Tail} {h : Held} (hr : Ready crc s t h) {region : Region}
    (hk : h.kind = .aligned region) (hbs : bs.length ≤ footprint h.len) (him : im ∈ t.images) :
    (t.disk.poke h.addr bs).peek im.1 (im.2.encode crc).length = im.2.encode crc := by
  have hdis := (pairwise_cons.mp hr.alloc.disjoint).1 (heldOf crc im)
    (mem_append_left _ (mem_map_of_mem him))
  have hfoot := le_footprint (im.2.encode crc).length
  have hpos := baseBlock_le_footprint h.len
  have hpos' := baseBlock_le_footprint (im.2.encode crc).length
  have hbase := baseBlock_pos
  rw [Held.extent, hk] at hdis
  have hord : min (h.addr + footprint h.len) (im.1 + footprint (im.2.encode crc).length) ≤
      max h.addr im.1 :=
    Set.Ico_disjoint_Ico.mp hdis
  refine (peek_tear_outside ?_).trans (hr.stands im him)
  omega

theorem Inv.evictBlock (h : Inv crc s) (hb : b.Fits) (hlen : (b.encode crc).length < 2 ^ 32) :
    Inv crc (s.evictBlock crc b) := by
  unfold Tail.evictBlock
  dsimp only
  split
  · rename_i store e ha
    rw [allocAligned_error_store ha]
    exact h
  rename_i store loc ha
  have hr := h.ready ha
  have hround : (resize (roundUpToBlock (b.encode crc).length) (b.encode crc)).length ≤
      footprint (b.encode crc).length := by
    rw [length_resize]
    exact le_max_left _ _
  refine ⟨hr.len, hr.alloc, ?_, ?_, ?_, fun g hg => h.forward g (hr.forward ▸ hg)⟩
  · rintro im (_ | ⟨_, him⟩)
    · exact ⟨hb, hlen⟩
    · exact hr.fits im him
  · rintro im (_ | ⟨_, him⟩)
    · have hle := le_roundUpToBlock (b.encode crc).length
      have hback : ((s.moved store).disk.poke loc.addr
        (resize (roundUpToBlock (b.encode crc).length) (b.encode crc))).peek
          loc.addr (resize (roundUpToBlock (b.encode crc).length) (b.encode crc)).length =
            resize (roundUpToBlock (b.encode crc).length) (b.encode crc) := peek_poke
      rw [length_resize] at hback
      show peek _ loc.addr (b.encode crc).length = b.encode crc
      rw [← take_peek hle, hback, resize, take_of_length_le hle, take_left]
    · exact hr.peek_poke rfl hround him
  · intro x hx
    rcases hr.tags x hx with ⟨-, rfl⟩ | hold
    · exact .head _
    · exact .tail _ hold

theorem Inv.place (h : Inv crc s) (hr : r ≠ .evictionTail) (hbs : bs.length ≤ footprint len) :
    Inv crc (s.place len r bs) := by
  unfold Tail.place
  split
  · rename_i store e ha
    rw [allocAligned_error_store ha]
    exact h
  rename_i store loc ha
  have hready := h.ready ha
  have hnot : ¬ (⟨loc.addr, len, .aligned r⟩ : Held).isTail := fun ht => hr (by cases ht; rfl)
  refine ⟨hready.len, ?_, hready.fits, fun im him => hready.peek_poke rfl hbs him, fun x hx => ?_, ?_⟩
  · exact hready.alloc.mono perm_middle.subperm
  · exact (hready.tags x hx).resolve_left fun ht => hnot ht.1
  · rintro g (_ | ⟨_, hg⟩)
    · exact hnot
    · exact h.forward g (hready.forward ▸ hg)

theorem Inv.overwrite (h : Inv crc s) (hle : addr + bs.length ≤ s.alloc.liveHwm) :
    Inv crc { s with disk := s.disk.poke addr bs } := by
  refine ⟨h.len, h.alloc, h.fits, fun im him => ?_, h.tags, h.forward⟩
  show (s.disk.poke addr bs).peek im.1 _ = _
  refine (peek_tear_outside (.inr ?_)).trans (h.stands im him)
  exact hle.trans (h.alloc.hwm_le.trans (h.placed him).2.1)

theorem Inv.enableWal (h : Inv crc s) {size : Nat} (hwal : s.alloc.wal = none)
    (hdvd : baseBlock ∣ size) : Inv crc (s.enableWal size) := by
  unfold Tail.enableWal
  split
  · exact h
  refine ⟨rfl, h.alloc.enableWal hwal hdvd, h.fits, fun im him => ?_, h.tags, h.forward⟩
  refine Eq.trans (peek_congr fun i hi => ?_) (h.stands im him)
  have hw := (h.encodedAt him).within
  have hlim := h.limit_le
  exact if_pos (by omega)

/-! ### Dropping -/

/-- What is scanned at a tail block is that block. -/
theorem Inv.eq_reportOf (h : Inv crc s) (hx : scanAt crc s.disk s.alloc.limit addr = some x)
    (him : im ∈ s.images) (haddr : im.1 = addr) : x = reportOf crc im := by
  cases haddr
  rw [scanAt_of_encodedAt h.limit_le (h.encodedAt him)] at hx
  exact (Option.some.inj hx).symm

/-- An address of the tail that is no tail block's has no tag. -/
theorem Inv.untagged (h : Inv crc s) (hlo : s.alloc.tailLow ≤ addr)
    (hx : addr ∉ s.images.map Prod.fst) : s.alloc.tags.get addr = none := by
  cases htag : s.alloc.tags.get addr with
  | none => rfl
  | some r =>
    have ht := (h.alloc.tagged _ _ htag).le_hi
    have hhwm := h.alloc.hwm_le
    have hpos := baseBlock_pos
    cases r with
    | evictionTail => exact absurd (h.tags _ htag) hx
    | _ =>
      simp only [Allocator.hi] at ht
      omega

theorem Inv.drop (h : Inv crc s) (hlo : s.alloc.tailLow ≤ x.locAddr)
    (hx : ∀ im ∈ s.images, im.1 = x.locAddr → x.encodedLen = (im.2.encode crc).length) :
    Inv crc (s.drop x) := by
  have hmem : ∀ im ∈ (s.drop x).images, im ∈ s.images ∧ im.1 ≠ x.locAddr := by
    intro im him
    obtain ⟨him, hne⟩ := mem_filter.mp him
    exact ⟨him, of_decide_eq_true hne⟩
  have hfile := (free_frame s.alloc x.loc).fileLen
  refine ⟨h.len.trans hfile.symm, ?_, fun im him => h.fits im (hmem im him).1,
    fun im him => h.stands im (hmem im him).1, ?_, h.forward⟩
  · by_cases himg : x.locAddr ∈ s.images.map Prod.fst
    · obtain ⟨im, him, haddr⟩ := mem_map.mp himg
      have hloc : x.loc = (heldOf crc im).loc := by
        simp only [ScannedEvictedBlock.loc, Held.loc, heldOf, haddr, hx im him haddr]
      have hnot : im ∉ (s.drop x).images := fun hin => (hmem im hin).2 haddr
      have hsub : (im :: (s.drop x).images).Subperm s.images :=
        cons_subperm_of_not_mem_of_mem hnot him (filter_sublist).subperm
      obtain ⟨l, hperm, hl⟩ := hsub
      have hinv : Container.Inv s.alloc
          (heldOf crc im :: ((s.drop x).images.map (heldOf crc) ++ s.forward)) :=
        h.alloc.mono ⟨l.map (heldOf crc) ++ s.forward, (hperm.map _).append_right _,
          (hl.map _).append_right _⟩
      show Container.Inv (s.alloc.free x.loc).1 _
      rw [hloc]
      exact hinv.free_aligned rfl
    · have hfree : (s.alloc.free x.loc).1 = s.alloc := by
        unfold free
        rw [show x.loc.addr = x.locAddr from rfl, h.untagged hlo himg]
      show Container.Inv (s.alloc.free x.loc).1 _
      rw [hfree]
      exact h.alloc.mono (((filter_sublist).map _).append_right _).subperm
  · intro b hb
    obtain ⟨hne, hold⟩ := free_tags_get hb
    obtain ⟨im, him, rfl⟩ := mem_map.mp (h.tags b hold)
    exact mem_map_of_mem (mem_filter.mpr ⟨him, decide_eq_true hne⟩)

/-- The blocks of a retention run are dropped one after the other. -/
theorem Inv.dropAll (xs : List ScannedEvictedBlock) (h : Inv crc s)
    (hxs : ∀ x ∈ xs, s.alloc.tailLow ≤ x.locAddr ∧
      ∀ im ∈ s.images, im.1 = x.locAddr → x.encodedLen = (im.2.encode crc).length) :
    Inv crc (xs.foldl Tail.drop s) := by
  induction xs generalizing s with
  | nil => exact h
  | cons x xs ih =>
    obtain ⟨hlo, hx⟩ := hxs x (.head _)
    refine ih (h.drop hlo hx) fun y hy => ?_
    obtain ⟨hlo', hy'⟩ := hxs y (.tail _ hy)
    refine ⟨(free_frame s.alloc x.loc).tailLow ▸ hlo', fun im him => hy' im (mem_of_mem_filter him)⟩

theorem mem_images_foldl_drop (xs : List ScannedEvictedBlock) (s : Tail) :
    im ∈ (xs.foldl drop s).images ↔ im ∈ s.images ∧ im.1 ∉ xs.map ScannedEvictedBlock.locAddr := by
  induction xs generalizing s with
  | nil => simp
  | cons x xs ih =>
    have hdrop : im ∈ (s.drop x).images ↔ im ∈ s.images ∧ im.1 ≠ x.locAddr := by
      simp [drop]
    rw [foldl_cons, ih, hdrop, map_cons, mem_cons, not_or, and_assoc]

/-- A retention run changes nothing but tags, free lists and what counts as in the tail. -/
theorem evictWithStrategy_frame (crc : Bytes → UInt32) (s : Tail) (strategy : EvictionStrategy)
    (nowUtc : Int) :
    (s.evictWithStrategy crc strategy nowUtc).disk = s.disk ∧
      (s.evictWithStrategy crc strategy nowUtc).forward = s.forward ∧
      SameFrontiers s.alloc (s.evictWithStrategy crc strategy nowUtc).alloc := by
  unfold evictWithStrategy
  generalize s.dropped crc strategy nowUtc = xs
  induction xs generalizing s with
  | nil => exact ⟨rfl, rfl, rfl, rfl, rfl, rfl⟩
  | cons x xs ih =>
    obtain ⟨hdisk, hfwd, hs⟩ := ih (s.drop x)
    have hf := free_frame s.alloc x.loc
    exact ⟨hdisk, hfwd, hs.fileLen.trans hf.fileLen, hs.tailLow.trans hf.tailLow,
      hs.wal.trans hf.wal, hs.liveHwm.trans hf.liveHwm⟩

theorem mem_scan_of_mem_dropped (hx : x ∈ s.dropped crc strategy nowUtc) : x ∈ s.scan crc := by
  obtain ⟨i, -, hi⟩ := mem_filterMap.mp hx
  exact mem_of_getElem? hi

/-- Where a scanned block stands. -/
theorem Inv.slot_of_scan (h : Inv crc s) (hx : x ∈ s.scan crc) :
    scanAt crc s.disk s.alloc.limit x.locAddr = some x ∧ s.alloc.tailLow ≤ x.locAddr ∧
      x.locAddr < s.alloc.limit ∧ baseBlock ∣ x.locAddr := by
  have hb := h.alloc.toBounds
  obtain ⟨addr, b, ⟨hlo, hhi, hdvd⟩, henc, rfl⟩ := (mem_scanEvictionTail h.limit_le
    (Nat.dvd_sub hb.limit_dvd hb.tail_dvd) hb.tail_le).mp hx
  exact ⟨scanAt_of_encodedAt h.limit_le henc, hlo, hhi, (Nat.dvd_sub_iff_left hlo hb.tail_dvd).mp hdvd⟩

theorem Inv.evictWithStrategy (h : Inv crc s) (strategy : EvictionStrategy) (nowUtc : Int) :
    Inv crc (s.evictWithStrategy crc strategy nowUtc) := by
  refine h.dropAll _ fun x hx => ?_
  obtain ⟨hscan, hlo, -⟩ := h.slot_of_scan (mem_scan_of_mem_dropped hx)
  refine ⟨hlo, fun im him hi => ?_⟩
  rw [h.eq_reportOf hscan him hi]
  exact Nat.mod_eq_of_lt (h.fits im him).2

/-! ### The scan -/

theorem Inv.nodup (h : Inv crc s) : (s.images.map Prod.fst).Nodup := by
  rw [nodup_iff_pairwise_ne, pairwise_map]
  have hdis := (pairwise_append.mp h.alloc.disjoint).1
  rw [pairwise_map] at hdis
  refine hdis.imp fun {im im'} hd he => ?_
  have hin : im.1 ∈ (heldOf crc im).extent.bytes := addr_mem_extent rfl
  have hin' : im'.1 ∈ (heldOf crc im').extent.bytes := addr_mem_extent rfl
  exact Set.disjoint_left.mp hd hin (he ▸ hin')

theorem Inv.mem_scan (h : Inv crc s) (him : im ∈ s.images) : reportOf crc im ∈ s.scan crc := by
  have hb := h.alloc.toBounds
  have hdvd : baseBlock ∣ s.alloc.limit - s.alloc.tailLow := Nat.dvd_sub hb.limit_dvd hb.tail_dvd
  obtain ⟨hal, hlo, hhi⟩ := h.placed him
  have hpos := baseBlock_le_footprint (im.2.encode crc).length
  have hbase := baseBlock_pos
  exact (mem_scanEvictionTail h.limit_le hdvd hb.tail_le).mpr
    ⟨im.1, im.2, ⟨hlo, by omega, Nat.dvd_sub hal hb.tail_dvd⟩, h.encodedAt him, rfl⟩

/-- The scan is exact iff no other base block starts with an encoding. -/
theorem Inv.scan_perm_iff (h : Inv crc s) :
    (s.scan crc).Perm (s.images.map (reportOf crc)) ↔ s.Unambiguous crc := by
  have hb := h.alloc.toBounds
  have hle := hb.tail_le
  have hdvd : baseBlock ∣ s.alloc.limit - s.alloc.tailLow := Nat.dvd_sub hb.limit_dvd hb.tail_dvd
  have hslot : ∀ addr, s.alloc.tailLow ≤ addr →
      (baseBlock ∣ addr - s.alloc.tailLow ↔ baseBlock ∣ addr) := fun addr hlo =>
    (Nat.dvd_sub_iff_left hlo hb.tail_dvd)
  constructor
  · intro hperm addr b hlo hhi hal henc
    have hmem : b.report addr (b.encode crc).length ∈ s.scan crc :=
      (mem_scanEvictionTail h.limit_le hdvd hle).mpr
        ⟨addr, b, ⟨hlo, hhi, (hslot addr hlo).mpr hal⟩, henc, rfl⟩
    obtain ⟨im, him, heq⟩ := mem_map.mp (hperm.mem_iff.mp hmem)
    exact mem_map.mpr ⟨im, him, congrArg ScannedEvictedBlock.locAddr heq⟩
  intro hun
  have hnodup : (s.scan crc).Nodup := (nodup_locAddr_scan _).of_map _
  have hnodup' : (s.images.map (reportOf crc)).Nodup := by
    refine List.Nodup.of_map ScannedEvictedBlock.locAddr ?_
    rw [map_map]
    exact h.nodup
  rw [perm_ext_iff_of_nodup hnodup hnodup']
  intro x
  rw [scan, mem_scanEvictionTail h.limit_le hdvd hle]
  constructor
  · rintro ⟨addr, b, ⟨hlo, hhi, hal⟩, henc, rfl⟩
    obtain ⟨im, him, rfl⟩ := mem_map.mp (hun addr b hlo hhi ((hslot _ hlo).mp hal) henc)
    exact mem_map.mpr ⟨im, him, (h.eq_reportOf (scanAt_of_encodedAt h.limit_le henc) him rfl).symm⟩
  · intro hx
    obtain ⟨im, him, rfl⟩ := mem_map.mp hx
    exact (mem_scanEvictionTail h.limit_le hdvd hle).mp (h.mem_scan him)

theorem Inv.step (h : Inv crc s) {op : TailOp} (hl : s.Legal crc op) : Inv crc (s.step crc op) := by
  cases op with
  | evictBlock b => exact h.evictBlock hl.1 hl.2
  | evictWithStrategy strategy nowUtc => exact h.evictWithStrategy strategy nowUtc
  | place len r bs => exact h.place hl.1 hl.2
  | overwrite addr bs => exact h.overwrite hl
  | enableWal size => exact h.enableWal hl.1 hl.2

end Tail

/-! ## What else is found -/

/-- The whole base blocks that `evict_block` writes. -/
def storedBytes (crc : Bytes → UInt32) (b : EvictedBlock) : Bytes :=
  resize (roundUpToBlock (b.encode crc).length) (b.encode crc)

/-- Of the base blocks of `b` only the first starts with the magic. -/
def Plain (crc : Bytes → UInt32) (b : EvictedBlock) : Prop :=
  ∀ i, 0 < i → slice (i * baseBlock) 8 (storedBytes crc b) ≠ evictMagic

/-- A complete encoding starts at a later base block of `b`. -/
def Nests (crc : Bytes → UInt32) (b : EvictedBlock) : Prop :=
  ∃ (i : Nat) (inner : EvictedBlock),
    0 < i ∧ inner.Fits ∧ i * baseBlock + (inner.encode crc).length ≤ (b.encode crc).length ∧
    slice (i * baseBlock) (inner.encode crc).length (b.encode crc) = inner.encode crc

/-- A tail with the places at which retention runs dropped a block. -/
structure Traced extends Tail where
  gone : List Nat

namespace Traced

def init (d : Disk) (noGrow : Bool) : Traced := ⟨.init d noGrow, []⟩

/-- The places of this step: a retention run adds some. -/
def gone' (crc : Bytes → UInt32) (t : Traced) : TailOp → List Nat
  | .evictWithStrategy strategy nowUtc =>
    (t.dropped crc strategy nowUtc).map ScannedEvictedBlock.locAddr ++ t.gone
  | _ => t.gone

/-- A step of the tail; the places move with it. -/
def step (crc : Bytes → UInt32) (t : Traced) (op : TailOp) : Traced :=
  let s := t.toTail.step crc op
  ⟨s, (t.gone' crc op).map (· + (s.alloc.limit - t.alloc.limit))⟩

/-- A base block of the tail starts with the magic only where a block is or was. -/
structure Inv (crc : Bytes → UInt32) (t : Traced) : Prop where
  tail : Tail.Inv crc t.toTail
  gone : ∀ a ∈ t.gone, t.alloc.tailLow ≤ a ∧ a < t.alloc.limit ∧ baseBlock ∣ a
  clean : ∀ a, t.alloc.tailLow ≤ a → a < t.alloc.limit → baseBlock ∣ a →
    t.disk.peek a 8 = evictMagic → a ∈ t.images.map Prod.fst ∨ a ∈ t.gone

end Traced

/-- From `s` to `s'` the tail moved up by `k`; where a base block starts with the magic, a block was
put or the base block is an old one. -/
structure Shifted (s s' : Tail) (k : Nat) : Prop where
  limit : s'.alloc.limit = s.alloc.limit + k
  low : s'.alloc.tailLow ≤ s.alloc.tailLow + k
  dvd : baseBlock ∣ k
  slots : ∀ a, s'.alloc.tailLow ≤ a → a < s'.alloc.limit → baseBlock ∣ a →
    s'.disk.peek a 8 = evictMagic → a ∈ s'.images.map Prod.fst ∨
      ∃ x, a = x + k ∧ s.alloc.tailLow ≤ x ∧ s.disk.peek x 8 = evictMagic
  images : ∀ x ∈ s.images.map Prod.fst, x + k ∈ s'.images.map Prod.fst

/-- A step that moves the tail and drops nothing keeps the trace. -/
theorem Traced.Inv.shifted {t : Traced} {op : TailOp} {k : Nat} (h : t.Inv crc)
    (hinv : Tail.Inv crc (t.toTail.step crc op)) (hgone : t.gone' crc op = t.gone)
    (hs : Shifted t.toTail (t.toTail.step crc op) k) : (t.step crc op).Inv crc := by
  have hk : (t.toTail.step crc op).alloc.limit - t.alloc.limit = k := by rw [hs.limit]; omega
  have hlow := hs.low
  have hlim := hs.limit
  have hstep : t.step crc op = ⟨t.toTail.step crc op, t.gone.map (· + k)⟩ := by
    rw [Traced.step, hgone, hk]
  rw [hstep]
  refine ⟨hinv, fun a ha => ?_, fun a hlo hhi hdvd hmagic => ?_⟩
  · obtain ⟨x, hx, rfl⟩ := mem_map.mp ha
    obtain ⟨hxlo, hxhi, hxdvd⟩ := h.gone x hx
    dsimp only
    exact ⟨by omega, by omega, Nat.dvd_add hxdvd hs.dvd⟩
  · dsimp only at hlo hhi hmagic ⊢
    rcases hs.slots a hlo hhi hdvd hmagic with him | ⟨x, rfl, hxlo, hold⟩
    · exact .inl him
    · rcases h.clean x hxlo (by omega) ((Nat.dvd_add_iff_left hs.dvd).mpr hdvd) hold with him | hg
      · exact .inl (hs.images x him)
      · exact .inr (mem_map_of_mem hg)

theorem Shifted.of_peek {s s' : Tail} (halloc : s'.alloc.limit = s.alloc.limit)
    (hlow : s'.alloc.tailLow = s.alloc.tailLow) (himages : s'.images = s.images)
    (hpeek : ∀ a, s.alloc.tailLow ≤ a → a < s.alloc.limit → baseBlock ∣ a →
      s'.disk.peek a 8 = s.disk.peek a 8) : Shifted s s' 0 where
  limit := halloc
  low := hlow.le
  dvd := Nat.dvd_zero _
  slots a hlo hhi hdvd hmagic := by
    rw [hlow] at hlo
    rw [halloc] at hhi
    exact .inr ⟨a, rfl, hlo, hpeek a hlo hhi hdvd ▸ hmagic⟩
  images x hx := himages ▸ hx

theorem add_baseBlock_le {a b : Nat} (ha : baseBlock ∣ a) (hb : baseBlock ∣ b) (h : a < b) :
    a + baseBlock ≤ b := by
  obtain ⟨i, rfl⟩ := ha
  obtain ⟨j, rfl⟩ := hb
  rw [← Nat.mul_succ]
  exact Nat.mul_le_mul_left _ (Nat.lt_of_mul_lt_mul_left h)

/-- An allocation moves the tail; a block that is put into it takes new base blocks, or free
ones. -/
theorem Tail.Inv.shifted_alloc {loc : BlockLoc} {images : List (Nat × EvictedBlock)}
    {forward : List Held} (h : Tail.Inv crc s)
    (ha : s.toStore.allocAligned len r = (store, .ok loc)) (hbs : bs.length ≤ footprint len)
    (himages : ∀ x ∈ (s.moved store).images, x ∈ images)
    (hnew : r = .evictionTail → ∀ a, loc.addr ≤ a → a < loc.addr + footprint len → baseBlock ∣ a →
      ((s.moved store).disk.poke loc.addr bs).peek a 8 = evictMagic → a ∈ images.map Prod.fst) :
    Shifted s ⟨⟨(s.moved store).disk.poke loc.addr bs, store.alloc⟩, images, forward⟩
      (store.alloc.fileLen - s.alloc.fileLen) := by
  have hr := h.ready ha
  have hbyte := fun x => h.byte_moved ha (x := x)
  obtain ⟨hal, hl⟩ : baseBlock ∣ loc.addr ∧
      Lent s.alloc store.alloc len r loc (store.alloc.fileLen - s.alloc.fileLen) := by
    refine ⟨(hr.alloc.placed _ (.head _)).1, ?_⟩
    unfold Store.allocAligned at ha
    rcases hal : s.alloc.allocAligned none len r with ⟨a', res⟩
    rw [hal] at ha
    cases ha
    exact allocAligned_lent h.alloc hal
  have hdvd : baseBlock ∣ store.alloc.fileLen - s.alloc.fileLen :=
    Nat.dvd_sub hr.alloc.toBounds.1 h.alloc.toBounds.1
  generalize hk : store.alloc.fileLen - s.alloc.fileLen = k at *
  have hlim : store.alloc.limit = s.alloc.limit + k := by
    rw [Allocator.limit, Allocator.limit, hl.wal, hl.fileLen]
    cases s.alloc.wal <;> rfl
  have hle := h.alloc.limit_le
  refine ⟨hlim, ?_, hdvd, fun a hlo hhi hadvd hmagic => ?_, fun x hx => ?_⟩
  · show store.alloc.tailLow ≤ _
    rcases hl.low with hlow | ⟨-, hlow, haddr⟩ <;> omega
  · replace hlo : store.alloc.tailLow ≤ a := hlo
    replace hhi : a < store.alloc.limit := hhi
    by_cases hin : loc.addr ≤ a ∧ a < loc.addr + footprint len
    · by_cases htail : r = .evictionTail
      · exact .inl (hnew htail a hin.1 hin.2 hadvd hmagic)
      · have hhi' := (hr.alloc.placed _ (.head _)).2.2
        have hhwm := hr.alloc.hwm_le
        have hend : loc.addr + footprint len ≤ store.alloc.liveHwm := by
          cases r with
          | evictionTail => exact absurd rfl htail
          | _ => exact hhi'
        replace hhwm : store.alloc.liveHwm ≤ store.alloc.tailLow := hhwm
        omega
    · have hout : a + baseBlock ≤ loc.addr ∨ loc.addr + footprint len ≤ a := by
        rcases lt_or_ge a loc.addr with hlt | hge
        · exact .inl (add_baseBlock_le hadvd hal hlt)
        · exact .inr (not_lt.mp fun hlt => hin ⟨hge, hlt⟩)
      have hxlo : s.alloc.tailLow + k ≤ a := by
        rcases hl.low with hlow | ⟨-, hlow, haddr⟩ <;> omega
      obtain ⟨x, rfl⟩ := Nat.exists_eq_add_of_le' (by omega : k ≤ a)
      have h8 : 8 ≤ baseBlock := by decide
      have hfar : x + k + 8 ≤ loc.addr ∨ loc.addr + bs.length ≤ x + k := by omega
      have hwithin := add_baseBlock_le hadvd hr.alloc.toBounds.limit_dvd hhi
      replace hwithin : x + k + baseBlock ≤ store.alloc.limit := hwithin
      replace hmagic : ((s.moved store).disk.poke loc.addr bs).peek (x + k) 8 = evictMagic := hmagic
      rw [poke, peek_tear_outside hfar] at hmagic
      refine .inr ⟨x, rfl, by omega, Eq.trans ?_ hmagic⟩
      refine (peek_congr fun i hi => ?_).symm
      rw [Nat.add_right_comm]
      exact hbyte (x + i) (by omega) (by omega)
  · obtain ⟨im, him, rfl⟩ := mem_map.mp hx
    exact mem_map.mpr ⟨(im.1 + k, im.2), himages _ (mem_map.mpr ⟨im, him, by rw [hk]⟩), rfl⟩

theorem length_storedBytes (crc : Bytes → UInt32) (b : EvictedBlock) :
    (storedBytes crc b).length = roundUpToBlock (b.encode crc).length := length_resize ..

/-- A plain block brings the magic in its first base block only. -/
theorem Plain.addr_of_peek {d : Disk} (hb : Plain crc b) (hdvd : baseBlock ∣ addr) {a : Nat}
    (hlo : addr ≤ a) (hhi : a < addr + roundUpToBlock (b.encode crc).length) (ha : baseBlock ∣ a)
    (hmagic : (d.poke addr (storedBytes crc b)).peek a 8 = evictMagic) : a = addr := by
  obtain ⟨i, hi⟩ := (Nat.dvd_sub_iff_left hlo hdvd).mpr ha
  have hend := add_baseBlock_le ha (Nat.dvd_add hdvd (dvd_roundUpToBlock _)) hhi
  have h8 : 8 ≤ baseBlock := by decide
  obtain rfl : a = addr + i * baseBlock := by rw [mul_comm]; omega
  by_contra hne
  refine hb i (Nat.pos_of_ne_zero fun h0 => hne (by rw [h0, zero_mul, add_zero])) ?_
  rw [← hmagic, ← slice_peek (n := (storedBytes crc b).length) (by rw [length_storedBytes]; omega),
    peek_poke]

theorem Tail.Inv.shifted_evictBlock (h : Tail.Inv crc s) (hb : b.Fits) (hplain : Plain crc b) :
    ∃ k, Shifted s (s.evictBlock crc b) k := by
  unfold Tail.evictBlock
  dsimp only
  split
  · rename_i store e ha
    rw [allocAligned_error_store ha]
    exact ⟨0, .of_peek rfl rfl rfl fun _ _ _ _ => rfl⟩
  rename_i store loc ha
  have hal := ((h.ready ha).alloc.placed _ (.head _)).1
  have hfoot : footprint (b.encode crc).length = roundUpToBlock (b.encode crc).length := by
    refine max_eq_left (Nat.le_of_dvd ?_ (dvd_roundUpToBlock _))
    have := le_roundUpToBlock (b.encode crc).length
    have := EvictedBlock.length_encode crc hb
    omega
  have hbs : (storedBytes crc b).length ≤ footprint (b.encode crc).length := by
    rw [length_storedBytes, hfoot]
  refine ⟨_, h.shifted_alloc ha hbs (fun x hx => .tail _ hx) fun _ a hlo hhi ha hmagic => ?_⟩
  rw [hplain.addr_of_peek hal hlo (hfoot ▸ hhi) ha hmagic]
  exact .head _

theorem Tail.Inv.shifted_place (h : Tail.Inv crc s) (hr : r ≠ .evictionTail)
    (hbs : bs.length ≤ footprint len) : ∃ k, Shifted s (s.place len r bs) k := by
  unfold Tail.place
  split
  · rename_i store e ha
    rw [allocAligned_error_store ha]
    exact ⟨0, .of_peek rfl rfl rfl fun _ _ _ _ => rfl⟩
  · rename_i store loc ha
    exact ⟨_, h.shifted_alloc ha hbs (fun _ hx => hx) fun htail => absurd htail hr⟩

/-- The places of a retention run are those of scanned blocks. -/
theorem Traced.Inv.evictWithStrategy {t : Traced} (h : t.Inv crc) (strategy : EvictionStrategy)
    (nowUtc : Int) : (t.step crc (.evictWithStrategy strategy nowUtc)).Inv crc := by
  obtain ⟨hdisk, -, hsame⟩ := Tail.evictWithStrategy_frame crc t.toTail strategy nowUtc
  have hlow := hsame.tailLow
  have hlim := hsame.limit
  have hstep : t.step crc (.evictWithStrategy strategy nowUtc) =
      ⟨t.toTail.evictWithStrategy crc strategy nowUtc,
        (t.dropped crc strategy nowUtc).map ScannedEvictedBlock.locAddr ++ t.gone⟩ := by
    simp [Traced.step, Traced.gone', Tail.step, hlim]
  rw [hstep]
  refine ⟨h.tail.evictWithStrategy strategy nowUtc, fun a ha => ?_, fun a hlo hhi hdvd hmagic => ?_⟩
  · rw [hlow, hlim]
    rcases mem_append.mp ha with hnew | hold
    · obtain ⟨x, hx, rfl⟩ := mem_map.mp hnew
      exact (h.tail.slot_of_scan (Tail.mem_scan_of_mem_dropped hx)).2
    · exact h.gone a hold
  · dsimp only at hlo hhi hmagic
    rw [hlow] at hlo
    rw [hlim] at hhi
    rw [hdisk] at hmagic
    rcases h.clean a hlo hhi hdvd hmagic with him | hg
    · by_cases hdrop : a ∈ (t.dropped crc strategy nowUtc).map ScannedEvictedBlock.locAddr
      · exact .inr (mem_append_left _ hdrop)
      · obtain ⟨im, hmem, rfl⟩ := mem_map.mp him
        exact .inl (mem_map_of_mem ((Tail.mem_images_foldl_drop _ _).mpr ⟨hmem, hdrop⟩))
    · exact .inr (mem_append_right _ hg)

theorem Traced.Inv.step {t : Traced} {op : TailOp} (h : t.Inv crc) (hl : t.toTail.Legal crc op)
    (hplain : ∀ b, op = .evictBlock b → Plain crc b) : (t.step crc op).Inv crc := by
  have hinv := h.tail.step hl
  cases op with
  | evictBlock b =>
    obtain ⟨k, hs⟩ := h.tail.shifted_evictBlock hl.1 (hplain b rfl)
    exact h.shifted hinv rfl hs
  | evictWithStrategy strategy nowUtc => exact h.evictWithStrategy strategy nowUtc
  | place len r bs =>
    obtain ⟨k, hs⟩ := h.tail.shifted_place hl.1 hl.2
    exact h.shifted hinv rfl hs
  | overwrite addr bs =>
    refine h.shifted hinv rfl (.of_peek rfl rfl rfl fun a hlo _ _ => ?_)
    have hend : addr + bs.length ≤ a :=
      (show addr + bs.length ≤ t.alloc.liveHwm from hl).trans (h.tail.alloc.hwm_le.trans hlo)
    show (t.disk.poke addr bs).peek a 8 = _
    exact peek_tear_outside (.inr hend)
  | enableWal size =>
    have hs : Shifted t.toTail (t.toTail.enableWal size) 0 := by
      unfold Tail.enableWal
      split
      · exact .of_peek rfl rfl rfl fun _ _ _ _ => rfl
      refine .of_peek ?_ (if_neg (not_lt.mpr (h.tail.alloc.tail_le.trans h.tail.alloc.limit_le))) rfl
        fun a _ hhi ha => peek_eq_of_byte fun x _ hx => ?_
      · show t.alloc.fileLen = t.alloc.limit
        rw [Allocator.limit, hl.1]
        rfl
      · have hend := add_baseBlock_le ha h.tail.alloc.toBounds.limit_dvd hhi
        have hle := h.tail.limit_le
        have h8 : 8 ≤ baseBlock := by decide
        exact if_pos (by omega)
    exact h.shifted hinv rfl hs

theorem Traced.toTail_run (t : Traced) (ops : List TailOp) :
    (run (Traced.step crc) t ops).toTail = run (Tail.step crc) t.toTail ops := by
  induction ops generalizing t with
  | nil => rfl
  | cons op ops ih => exact ih _

theorem Traced.Inv.init {d : Disk} (hdvd : baseBlock ∣ d.len) (hlen : 2 * baseBlock ≤ d.len)
    (noGrow : Bool) : (Traced.init d noGrow).Inv crc := by
  refine ⟨Tail.Inv.init hdvd hlen noGrow, fun a ha => (nomatch ha), fun a hlo hhi => ?_⟩
  exact absurd (show a < d.len from hhi) (not_lt.mpr hlo)

/-- Only where a block was dropped and none is now can the scan find too much. -/
theorem Traced.Inv.scan_perm_iff {t : Traced} (h : t.Inv crc) :
    (t.scan crc).Perm (t.images.map (reportOf crc)) ↔
      ∀ a ∈ t.gone, a ∉ t.images.map Prod.fst → scanAt crc t.disk t.alloc.limit a = none := by
  rw [h.tail.scan_perm_iff]
  constructor
  · intro hun a ha hnot
    obtain ⟨hlo, hhi, hdvd⟩ := h.gone a ha
    refine Option.eq_none_iff_forall_ne_some.mpr fun x hx => hnot ?_
    obtain ⟨b, henc, -⟩ := encodedAt_of_scanAt hx
    exact hun a b hlo hhi hdvd henc
  · intro hgone a b hlo hhi hdvd henc
    rcases h.clean a hlo hhi hdvd henc.header.1 with him | hg
    · exact him
    · by_contra hnot
      have := hgone a hg hnot
      rw [scanAt_of_encodedAt h.tail.limit_le henc] at this
      cases this

/-- A block inside the payload of another one is found beside it. -/
theorem Tail.Inv.ambiguous_of_nested (h : Tail.Inv crc s) (him : im ∈ s.images)
    (hnests : Nests crc im.2) : ¬ s.Unambiguous crc := by
  obtain ⟨i, inner, hi, hfits, hle, hslice⟩ := hnests
  obtain ⟨hdvd, hlo, hhi⟩ := h.placed him
  have henc := h.encodedAt him
  have hfoot := le_footprint (im.2.encode crc).length
  have hlen := EvictedBlock.length_encode crc hfits
  have hpos : baseBlock ≤ i * baseBlock := Nat.le_mul_of_pos_left _ hi
  have hbase := baseBlock_pos
  have hinner : EncodedAt crc s.disk s.alloc.limit (im.1 + i * baseBlock) inner := by
    refine ⟨hfits, by have := henc.within; omega, ?_⟩
    rw [← slice_peek hle, henc.bytes, hslice]
  intro hun
  obtain ⟨im', him', haddr⟩ := mem_map.mp (hun _ inner (by omega)
    (by have := hinner.within; omega) (Nat.dvd_add hdvd (Nat.dvd_mul_left _ _)) hinner)
  -- it would be a block of its own inside the extent of the other one
  have hdis := (pairwise_append.mp h.alloc.disjoint).1
  rw [pairwise_map] at hdis
  have hne : im ≠ im' := fun heq => by rw [← heq] at haddr; omega
  have : Std.Symm fun a b => Disjoint (heldOf crc a).extent.bytes (heldOf crc b).extent.bytes :=
    ⟨fun _ _ hd => hd.symm⟩
  have hd := hdis.forall him him' hne
  have hin : im'.1 ∈ (heldOf crc im).extent.bytes := by
    rw [haddr]
    have hlt : im.1 + i * baseBlock < im.1 + footprint (im.2.encode crc).length := by omega
    exact ⟨Nat.le_add_right _ _, hlt⟩
  exact Set.disjoint_left.mp hd hin (addr_mem_extent rfl)

/-- A block without pins and undo address. -/
def plainBlock (payload : Bytes) : EvictedBlock := ⟨0, 0, payload.length, 1, [], payload, 0, 0, 0⟩

theorem fits_plainBlock {payload : Bytes} (h : payload.length < 2 ^ 32) : (plainBlock payload).Fits :=
  have h32 : 0 < 2 ^ 32 := by decide
  have h64 : 1 < 2 ^ 64 := by decide
  have htime : -2 ^ 63 ≤ (0 : Int) ∧ (0 : Int) < 2 ^ 63 := by decide
  ⟨h32, h, h64, h32, htime, Nat.lt_of_succ_lt h64, Nat.lt_of_succ_lt h64, rfl⟩

theorem length_plainBlock (crc : Bytes → UInt32) (payload : Bytes) (h : payload.length < 2 ^ 32) :
    ((plainBlock payload).encode crc).length = 72 + payload.length := by
  rw [EvictedBlock.length_encode crc (fits_plainBlock h),
    show (plainBlock payload).length = payload.length from rfl,
      show (plainBlock payload).commits = [] from rfl, evictHeaderSize, length_nil]
  omega

def emptyDisk : Disk := ⟨5 * baseBlock, fun _ => 0⟩

theorem allocAligned_new {fileLen : Nat} (hn : footprint len = n)
    (hroom : 2 * baseBlock + n ≤ fileLen) :
    (Allocator.new fileLen false).allocAligned none len .evictionTail =
      ({ Allocator.new fileLen false with
          tailLow := fileLen - n
          tags := KeyMap.empty.put (fileLen - n) .evictionTail }, .ok ⟨fileLen - n, len⟩) := by
  have hcol : ¬ (Allocator.new fileLen false).collides n := by
    show ¬ fileLen < 2 * baseBlock + n
    omega
  have hfit : firstFit ((Allocator.new fileLen false).freelist .evictionTail) n = none := rfl
  unfold allocAligned ensureRoom
  dsimp only
  rw [hn, hfit, if_neg hcol]
  rfl

theorem Store.allocAligned_of_fileLen_eq {s : Store} {res : Result BlockLoc}
    (h : s.alloc.allocAligned none len r = (a, res)) (hlen : a.fileLen = s.alloc.fileLen) :
    s.allocAligned len r = (⟨s.disk, a⟩, res) := by
  unfold Store.allocAligned
  rw [h]
  dsimp only
  rw [if_neg (by omega)]

theorem Tail.evictBlock_of_ok {loc : BlockLoc}
    (h : s.toStore.allocAligned (b.encode crc).length .evictionTail = (store, .ok loc)) :
    s.evictBlock crc b =
      { disk := store.disk.poke loc.addr (resize (roundUpToBlock (b.encode crc).length) (b.encode crc))
        alloc := store.alloc
        images := (loc.addr, b) :: (s.moved store).images
        forward := s.forward } := by
  unfold evictBlock
  dsimp only
  rw [h]
  rfl

theorem Tail.place_of_ok {loc : BlockLoc}
    (h : s.toStore.allocAligned len r = (store, .ok loc)) :
    s.place len r bs =
      { disk := store.disk.poke loc.addr bs
        alloc := store.alloc
        images := (s.moved store).images
        forward := ⟨loc.addr, len, .aligned r⟩ :: s.forward } := by
  unfold place
  rw [h]
  rfl

theorem Tail.images_moved_of_fileLen_eq (h : store.alloc.fileLen = s.alloc.fileLen) :
    (s.moved store).images = s.images := by
  simp [moved, h]

/-- A block goes into the tail without growing the file. -/
theorem Tail.evictBlock_of_room {loc : BlockLoc}
    (h : s.alloc.allocAligned none (b.encode crc).length .evictionTail = (a, .ok loc))
    (hlen : a.fileLen = s.alloc.fileLen) :
    (s.evictBlock crc b).images = (loc.addr, b) :: s.images ∧ (s.evictBlock crc b).alloc = a := by
  have hstore := Store.allocAligned_of_fileLen_eq (s := s.toStore) h hlen
  rw [evictBlock_of_ok hstore]
  exact ⟨congrArg (_ :: ·) (images_moved_of_fileLen_eq hlen), rfl⟩

theorem Tail.place_of_room {loc : BlockLoc} (h : s.alloc.allocAligned none len r = (a, .ok loc))
    (hlen : a.fileLen = s.alloc.fileLen) :
    (s.place len r bs).images = s.images ∧ (s.place len r bs).alloc = a := by
  have hstore := Store.allocAligned_of_fileLen_eq (s := s.toStore) h hlen
  rw [place_of_ok hstore]
  exact ⟨images_moved_of_fileLen_eq hlen, rfl⟩

/-- The first block goes to the end of the file. -/
theorem init_evictBlock {d : Disk} (hn : footprint (b.encode crc).length = n)
    (hroom : 2 * baseBlock + n ≤ d.len) :
    ((Tail.init d false).evictBlock crc b).images = [(d.len - n, b)] ∧
      ((Tail.init d false).evictBlock crc b).alloc.tailLow = d.len - n ∧
      ((Tail.init d false).evictBlock crc b).alloc.limit = d.len := by
  obtain ⟨himages, halloc⟩ :=
    evictBlock_of_room (s := Tail.init d false) (allocAligned_new hn hroom) rfl
  rw [himages, halloc]
  exact ⟨rfl, rfl, rfl⟩

theorem footprint_plainBlock (crc : Bytes → UInt32) (payload : Bytes) (h : payload.length < 2 ^ 32)
    (hn : footprint (72 + payload.length) = n) :
    footprint ((plainBlock payload).encode crc).length = n := by
  rw [length_plainBlock crc payload h, hn]

theorem legal_plainBlock (crc : Bytes → UInt32) {payload : Bytes} (h : payload.length < 2 ^ 31)
    (s : Tail) : s.Legal crc (.evictBlock (plainBlock payload)) :=
  ⟨fits_plainBlock (by omega), by rw [length_plainBlock crc payload (by omega)]; omega⟩

/-- A tail of one base block is scanned at its start. -/
theorem scan_of_single (h : Tail.Inv crc s) (him : im ∈ s.images) (hlow : s.alloc.tailLow = im.1)
    (hlim : s.alloc.limit = im.1 + baseBlock) : s.scan crc = [reportOf crc im] := by
  have hslots : tailSlots s.alloc.tailLow s.alloc.limit = [im.1] := by
    rw [hlow, hlim, tailSlots, Nat.add_sub_cancel_left, Nat.div_self baseBlock_pos]
    simp
  rw [scan, scanEvictionTail, hslots, filterMap_cons, scanAt_of_encodedAt h.limit_le (h.encodedAt him)]
  rfl

/-- The scan finds one block, and the retention run drops it. -/
theorem dropped_single (hscan : s.scan crc = [x])
    (hdrop : applyStrategy [x.view] strategy nowUtc = [0]) : s.dropped crc strategy nowUtc = [x] := by
  unfold dropped
  rw [hscan]
  dsimp only
  rw [map_singleton, hdrop]
  rfl

theorem evictWithStrategy_single (hscan : s.scan crc = [x])
    (hdrop : applyStrategy [x.view] strategy nowUtc = [0]) :
    s.evictWithStrategy crc strategy nowUtc = s.drop x := by
  rw [evictWithStrategy, dropped_single hscan hdrop]
  rfl

theorem plain_of_le (h : (b.encode crc).length ≤ baseBlock) : Plain crc b := by
  intro i hi hmagic
  have hround : roundUpToBlock (b.encode crc).length ≤ i * baseBlock := by
    have : baseBlock ≤ i * baseBlock := Nat.le_mul_of_pos_left _ hi
    unfold roundUpToBlock
    simp only [baseBlock] at *
    split <;> omega
  have hnil : slice (i * baseBlock) 8 (storedBytes crc b) = [] := by
    rw [slice, drop_of_length_le (by rwa [length_storedBytes]), take_nil]
  rw [hnil] at hmagic
  cases hmagic

/-- A block of two base blocks. -/
def wideBlock : EvictedBlock := plainBlock (replicate 4100 0)

theorem length_wideBlock (crc : Bytes → UInt32) : (wideBlock.encode crc).length = 4172 := by
  rw [wideBlock, length_plainBlock crc _ (by rw [length_replicate]; decide), length_replicate]

theorem plain_wideBlock (crc : Bytes → UInt32) : Plain crc wideBlock := by
  intro i hi hmagic
  have hlen := length_wideBlock crc
  rcases Nat.lt_or_ge i 2 with h2 | h2
  · obtain rfl : i = 1 := by omega
    have hzero : slice (1 * baseBlock) 8 (storedBytes crc wideBlock) = replicate 8 0 := by
      have hbody : wideBlock.body = wideBlock.header ++ replicate 4100 0 := rfl
      have hsplit : 1 * baseBlock = evictHeaderSize + 4028 := rfl
      rw [storedBytes, resize, take_of_length_le (le_roundUpToBlock _), EvictedBlock.encode, hbody,
        append_assoc, append_assoc, hsplit, slice_skip wideBlock.length_header,
        slice_append_left (by rw [length_replicate]; decide)]
      rw [slice, drop_replicate, take_replicate]
      rfl
    rw [hzero] at hmagic
    exact absurd hmagic (by decide)
  · have hnil : slice (i * baseBlock) 8 (storedBytes crc wideBlock) = [] := by
      have : 2 * baseBlock ≤ i * baseBlock := Nat.mul_le_mul_right _ h2
      rw [slice, drop_of_length_le, take_nil]
      rw [length_storedBytes, hlen]
      exact this
    rw [hnil] at hmagic
    cases hmagic

/-- Two blocks after one was dropped: the first takes its place. -/
def reuseOps : List TailOp :=
  [.evictBlock (plainBlock [7]), .evictWithStrategy (.horizon 0) 0, .evictBlock (plainBlock [8]),
    .evictBlock wideBlock]

def reuseAlloc : Allocator :=
  { Allocator.new (5 * baseBlock) false with
    tailLow := 4 * baseBlock
    tags := KeyMap.empty.put (4 * baseBlock) .evictionTail }

theorem reuseAlloc_spec :
    ∃ a a', (reuseAlloc.free ⟨4 * baseBlock, 73⟩).1.allocAligned none 73 .evictionTail =
        (a, .ok ⟨4 * baseBlock, 73⟩) ∧
      a.allocAligned none 4172 .evictionTail = (a', .ok ⟨2 * baseBlock, 4172⟩) ∧
      (a.fileLen = 5 * baseBlock ∧ a.limit = 5 * baseBlock) ∧
      (a'.fileLen = 5 * baseBlock ∧ a'.limit = 5 * baseBlock) :=
  ⟨_, _, rfl, rfl, ⟨rfl, rfl⟩, rfl, rfl⟩

theorem Traced.evictBlock_of_room (crc : Bytes → UInt32) {t : Traced} {loc : BlockLoc}
    (h : t.alloc.allocAligned none (b.encode crc).length .evictionTail = (a, .ok loc))
    (hlen : a.fileLen = t.alloc.fileLen) (hlim : a.limit = t.alloc.limit) :
    (t.step crc (.evictBlock b)).images = (loc.addr, b) :: t.images ∧
      (t.step crc (.evictBlock b)).alloc = a ∧ (t.step crc (.evictBlock b)).gone = t.gone := by
  obtain ⟨himages, halloc⟩ := Tail.evictBlock_of_room h hlen
  refine ⟨himages, halloc, ?_⟩
  show t.gone.map (· + ((t.toTail.evictBlock crc b).alloc.limit - t.alloc.limit)) = _
  rw [halloc, hlim]
  simp

theorem Traced.drop_of_scan {t : Traced} (hscan : t.scan crc = [x])
    (hdrop : applyStrategy [x.view] strategy nowUtc = [0]) :
    t.step crc (.evictWithStrategy strategy nowUtc) = ⟨t.drop x, x.locAddr :: t.gone⟩ := by
  have hlim := (Tail.evictWithStrategy_frame crc t.toTail strategy nowUtc).2.2.limit
  rw [evictWithStrategy_single hscan hdrop] at hlim
  simp only [Traced.step, Traced.gone', Tail.step, dropped_single hscan hdrop,
    evictWithStrategy_single hscan hdrop, hlim]
  simp

theorem length_oneByte (crc : Bytes → UInt32) (x : UInt8) :
    ((plainBlock [x]).encode crc).length = 73 :=
  length_plainBlock crc [x] (by rw [length_singleton]; decide)

/-- A block is dropped and the next one takes its place. -/
theorem reuse_run (crc : Bytes → UInt32) :
    (run (Traced.step crc) (.init emptyDisk false) reuseOps).images =
        [(2 * baseBlock, wideBlock), (4 * baseBlock, plainBlock [8])] ∧
      (run (Traced.step crc) (.init emptyDisk false) reuseOps).gone = [4 * baseBlock] := by
  obtain ⟨a, a', hal, hal', ⟨hfile, hlim⟩, hfile', hlim'⟩ := reuseAlloc_spec
  have hinv : Tail.Inv crc
      ((Traced.init emptyDisk false).step crc (.evictBlock (plainBlock [7]))).toTail :=
    (Tail.Inv.init (by decide) (by decide) false).step (legal_plainBlock crc (by decide) _)
  simp only [reuseOps, run_cons, run_nil]
  have hfirst : (Traced.init emptyDisk false).alloc.allocAligned none
      ((plainBlock [7]).encode crc).length .evictionTail = (reuseAlloc, .ok ⟨4 * baseBlock, 73⟩) := by
    rw [length_oneByte]
    rfl
  obtain ⟨himages₁, halloc₁, hgone₁⟩ := Traced.evictBlock_of_room crc hfirst rfl rfl
  generalize (Traced.init emptyDisk false).step crc (.evictBlock (plainBlock [7])) = t₁ at *
  have him : (4 * baseBlock, plainBlock [7]) ∈ t₁.images := himages₁ ▸ .head _
  rw [Traced.drop_of_scan (scan_of_single hinv him (by rw [halloc₁]; rfl) (by rw [halloc₁]; rfl)) rfl]
  have hloc : (reportOf crc (4 * baseBlock, plainBlock [7])).loc = ⟨4 * baseBlock, 73⟩ := by
    show (⟨4 * baseBlock, ((plainBlock [7]).encode crc).length % 2 ^ 32⟩ : BlockLoc) = _
    rw [length_oneByte]
    rfl
  have halloc₂ : (t₁.drop (reportOf crc (4 * baseBlock, plainBlock [7]))).alloc =
      (reuseAlloc.free ⟨4 * baseBlock, 73⟩).1 := by
    rw [Tail.drop, hloc, halloc₁]
  have himages₂ : (t₁.drop (reportOf crc (4 * baseBlock, plainBlock [7]))).images = [] := by
    simp [Tail.drop, himages₁, reportOf, EvictedBlock.report, Traced.init, Tail.init]
  obtain ⟨himages₃, halloc₃, hgone₃⟩ := Traced.evictBlock_of_room crc
    (t := ⟨t₁.drop (reportOf crc (4 * baseBlock, plainBlock [7])), _⟩) (b := plainBlock [8])
    (by rw [halloc₂, length_oneByte]; exact hal) (by rw [halloc₂, hfile]; rfl)
    (by rw [halloc₂, hlim]; rfl)
  obtain ⟨himages₄, -, hgone₄⟩ := Traced.evictBlock_of_room crc (b := wideBlock)
    (by rw [halloc₃, length_wideBlock]; exact hal') (by rw [halloc₃, hfile', hfile])
    (by rw [halloc₃, hlim', hlim])
  rw [himages₄, hgone₄, himages₃, hgone₃]
  exact ⟨by rw [himages₂], by rw [hgone₁]; rfl⟩

/-- A block that a retention run dropped is still found. -/
theorem ambiguous_of_drop (h : Tail.Inv crc s) (himages : s.images = [im])
    (hlow : s.alloc.tailLow = im.1) (hlim : s.alloc.limit = im.1 + baseBlock)
    (hdrop : applyStrategy [(Tail.reportOf crc im).view] strategy nowUtc = [0]) :
    ¬ (s.evictWithStrategy crc strategy nowUtc).Unambiguous crc := by
  have him : im ∈ s.images := himages ▸ .head _
  rw [evictWithStrategy_single (scan_of_single h him hlow hlim) hdrop]
  intro hun
  have hlow' := (free_frame s.alloc (Tail.reportOf crc im).loc).tailLow
  have hlim' := (free_frame s.alloc (Tail.reportOf crc im).loc).limit
  have hempty : (s.drop (Tail.reportOf crc im)).images = [] := by
    simp [Tail.drop, himages, Tail.reportOf, EvictedBlock.report]
  have hmem := hun im.1 im.2 (hlow'.trans hlow).le
    (lt_of_lt_of_eq (Nat.lt_add_of_pos_right baseBlock_pos) (hlim'.trans hlim).symm) (h.placed him).1
    (hlim'.symm ▸ h.encodedAt him)
  rw [hempty] at hmem
  cases hmem

/-- The encoding of a block at the second base block of another one's encoding. -/
def nestedPayload (crc : Bytes → UInt32) : Bytes :=
  replicate (baseBlock - evictHeaderSize) 0 ++ (plainBlock [7]).encode crc

theorem length_nestedPayload (crc : Bytes → UInt32) : (nestedPayload crc).length = 4101 := by
  rw [nestedPayload, length_append, length_replicate, length_plainBlock crc [7] (by decide)]
  rfl

theorem slice_nested (crc : Bytes → UInt32) :
    slice baseBlock ((plainBlock [7]).encode crc).length
      ((plainBlock (nestedPayload crc)).encode crc) = (plainBlock [7]).encode crc := by
  have hsplit : (plainBlock (nestedPayload crc)).encode crc =
      ((plainBlock (nestedPayload crc)).header ++ replicate (baseBlock - evictHeaderSize) 0) ++
        ((plainBlock [7]).encode crc ++ leU32 (crc (plainBlock (nestedPayload crc)).body)) := by
    have hbody : (plainBlock (nestedPayload crc)).body =
      (plainBlock (nestedPayload crc)).header ++ nestedPayload crc := rfl
    rw [EvictedBlock.encode, hbody, nestedPayload]
    simp only [append_assoc]
  rw [hsplit]
  refine slice_middle ?_ rfl
  rw [length_append, EvictedBlock.length_header, length_replicate]
  decide

theorem nests_nestedPayload (crc : Bytes → UInt32) : Nests crc (plainBlock (nestedPayload crc)) := by
  have hsmall := length_plainBlock crc [7] (by decide)
  have hlen := length_plainBlock crc (nestedPayload crc) (by rw [length_nestedPayload]; decide)
  rw [length_nestedPayload] at hlen
  refine ⟨1, plainBlock [7], Nat.one_pos, fits_plainBlock (by decide), ?_, ?_⟩
  · rw [hlen, hsmall]
    decide
  · rw [one_mul]
    exact slice_nested crc

end Sfs.Container

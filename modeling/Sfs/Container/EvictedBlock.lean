import Sfs.Container.Alloc
import Sfs.Retention

/-!
# Blocks of the eviction tail

A superseded fragment is copied to the tail under a header that says what it was: the unit, the
fragment, the version, the commits that pin it and, for an overwrite in place, the slot it came
from and the commit that takes the overwrite for good. The tail has no index. `scanEvictionTail`
looks at the start of every base block of the tail and takes what decodes there.

`decode` accepts exactly the encodings (`decode_encode`, `encode_of_decode`), so the scan finds a
block at an address iff the bytes there are an encoding that ends in the tail
(`scanAt_eq_some_iff`). The CRC is a parameter that stands for `crc32fast`.
-/

namespace Sfs.Container

open Sfs.Lib List Disk

/-- `b"sfse\x00b2\x00"`. -/
def evictMagic : Bytes := [0x73, 0x66, 0x73, 0x65, 0x00, 0x62, 0x32, 0x00]

def evictHeaderSize : Nat := 68

structure EvictedBlock where
  uuid : Uuid
  frag : Nat
  length : Nat
  oldVersion : BlockVersion
  commits : List Uuid
  bytes : Bytes
  timestamp : Int
  /-- the live slot that was overwritten in place, or 0 -/
  inplaceAddr : Nat
  /-- the commit that publishes the overwrite, or 0 -/
  targetCommitSeq : Nat
  deriving DecidableEq, Repr

def i64Bytes (t : Int) : Bytes := leBytes 8 (BitVec.ofInt 64 t).toNat

def ofI64Bytes (bs : Bytes) : Int := (BitVec.ofNat 64 (leNat bs)).toInt

/-- The commits of a block, one after the other. -/
def uuidsOf : Nat → Bytes → List Uuid
  | 0, _ => []
  | n + 1, bs => uuidOf bs :: uuidsOf n (bs.drop 16)

namespace EvictedBlock

/-- Every field has room in its encoding, and the payload is as long as the header says. -/
structure Fits (b : EvictedBlock) : Prop where
  frag : b.frag < 2 ^ 32
  length : b.length < 2 ^ 32
  version : b.oldVersion < 2 ^ 64
  commits : b.commits.length < 2 ^ 32
  time : -2 ^ 63 ≤ b.timestamp ∧ b.timestamp < 2 ^ 63
  addr : b.inplaceAddr < 2 ^ 64
  seq : b.targetCommitSeq < 2 ^ 64
  bytes : b.bytes.length = b.length

def header (b : EvictedBlock) : Bytes :=
  evictMagic ++
    (uuidBytes b.uuid ++ (leBytes 4 b.frag ++ (leBytes 4 b.length ++ (leBytes 8 b.oldVersion ++
    (leBytes 4 b.commits.length ++
      (i64Bytes b.timestamp ++ (leBytes 8 b.inplaceAddr ++ leBytes 8 b.targetCommitSeq)))))))

/-- What the CRC covers. -/
def body (b : EvictedBlock) : Bytes := b.header ++ (b.commits.flatMap uuidBytes ++ b.bytes)

section

variable (crc : Bytes → UInt32)

def encode (b : EvictedBlock) : Bytes := b.body ++ leU32 (crc b.body)

/-- Sizes do not overflow: the two lengths in the header have 32 bits. -/
def decode (buf : Bytes) (byteLen : Nat) : Result EvictedBlock :=
  let minTotal := evictHeaderSize + byteLen + 4
  if buf.length < minTotal then
    .error (.integrity ("evicted block buffer too short: have " ++ toString buf.length ++
      ", need ≥" ++ toString minTotal))
  else if buf.take 8 ≠ evictMagic then .error (.integrity "evicted block: bad magic")
  else
    let length := leNat (slice 28 4 buf)
    let commitsCount := leNat (slice 40 4 buf)
    if length ≠ byteLen then
      .error (.integrity
        ("evicted block: stored length " ++ toString length ++ " != expected " ++ toString byteLen))
    else
      let total := evictHeaderSize + commitsCount * 16 + byteLen + 4
      if buf.length < total then
        .error (.integrity ("evicted block buffer too short for commits: have " ++
          toString buf.length ++ ", need " ++
          toString total))
      else if ofLeU32 (slice (total - 4) 4 buf) ≠ crc (buf.take (total - 4)) then
        .error (.integrity "evicted block: CRC mismatch")
      else
        .ok {
          uuid := uuidOf (slice 8 16 buf)
          frag := leNat (slice 24 4 buf)
          length := length
          oldVersion := leNat (slice 32 8 buf)
          commits := uuidsOf commitsCount (buf.drop evictHeaderSize)
          bytes := slice (evictHeaderSize + commitsCount * 16) byteLen buf
          timestamp := ofI64Bytes (slice 44 8 buf)
          inplaceAddr := leNat (slice 52 8 buf)
          targetCommitSeq := leNat (slice 60 8 buf) }

end

end EvictedBlock

/-! ## The scan -/

/-- A tail block as the scan reports it. -/
structure ScannedEvictedBlock where
  uuid : Uuid
  frag : Nat
  length : Nat
  oldVersion : BlockVersion
  commits : List Uuid
  locAddr : Nat
  /-- a `u32` -/
  encodedLen : Nat
  timestamp : Int
  inplaceAddr : Nat
  targetCommitSeq : Nat
  deriving DecidableEq, Repr

/-- The report on a block of `total` bytes at `addr`. -/
def EvictedBlock.report (b : EvictedBlock) (addr total : Nat) : ScannedEvictedBlock where
  uuid := b.uuid
  frag := b.frag
  length := b.length
  oldVersion := b.oldVersion
  commits := b.commits
  locAddr := addr
  encodedLen := total % 2 ^ 32
  timestamp := b.timestamp
  inplaceAddr := b.inplaceAddr
  targetCommitSeq := b.targetCommitSeq

section

variable (crc : Bytes → UInt32)

/-- One turn of the loop of `scan_eviction_tail`. -/
def scanAt (d : Disk) (containerLen addr : Nat) : Option ScannedEvictedBlock :=
  match d.readAt addr 8 with
  | none => none
  | some magic =>
    if magic ≠ evictMagic then none
    else
      match d.readAt addr evictHeaderSize with
      | none => none
      | some fixedHdr =>
        let length := leNat (slice 28 4 fixedHdr)
        let commitsCount := leNat (slice 40 4 fixedHdr)
        let total := evictHeaderSize + commitsCount * 16 + length + 4
        if containerLen < addr + total then none
        else
          match d.readAt addr total with
          | none => none
          | some buf =>
            match EvictedBlock.decode crc buf length with
            | .ok block => some (block.report addr total)
            | .error _ => none

/-- The base blocks of `[tail_low, container_len)`. -/
def tailSlots (tailLow containerLen : Nat) : List Nat :=
  (range ((containerLen - tailLow) / baseBlock)).map fun i => tailLow + i * baseBlock

def scanEvictionTail (d : Disk) (tailLow containerLen : Nat) : List ScannedEvictedBlock :=
  (tailSlots tailLow containerLen).filterMap (scanAt crc d containerLen)

end

/-! ## Decoding what was encoded -/

@[simp] theorem length_evictMagic : evictMagic.length = 8 := by rfl

@[simp] theorem length_i64Bytes (t : Int) : (i64Bytes t).length = 8 := length_leBytes ..

theorem ofI64Bytes_i64Bytes {t : Int} (h : -2 ^ 63 ≤ t ∧ t < 2 ^ 63) :
    ofI64Bytes (i64Bytes t) = t := by
  have hlt := (BitVec.ofInt 64 t).isLt
  rw [ofI64Bytes, i64Bytes, leNat_leBytes_of_lt hlt, BitVec.ofNat_toNat, BitVec.setWidth_eq,
    BitVec.toInt_ofInt]
  exact Int.bmod_eq_of_le (by omega) (by omega)

theorem i64Bytes_ofI64Bytes {bs : Bytes} (h : bs.length = 8) : i64Bytes (ofI64Bytes bs) = bs := by
  have hlt : leNat bs < 2 ^ 64 := (leNat_lt bs).trans_eq (by rw [h]; rfl)
  have hb := leBytes_leNat_of_length h
  rw [i64Bytes, ofI64Bytes, BitVec.ofInt_toInt, BitVec.toNat_ofNat, Nat.mod_eq_of_lt hlt, hb]

theorem ofI64Bytes_bounds (bs : Bytes) : -2 ^ 63 ≤ ofI64Bytes bs ∧ ofI64Bytes bs < 2 ^ 63 :=
  ⟨BitVec.le_toInt _, BitVec.toInt_lt⟩

theorem length_flatMap_uuidBytes (us : List Uuid) :
    (us.flatMap uuidBytes).length = us.length * 16 := by
  simp

theorem uuidsOf_flatMap (us : List Uuid) (rest : Bytes) :
    uuidsOf us.length (us.flatMap uuidBytes ++ rest) = us := by
  induction us with
  | nil => rfl
  | cons u us ih =>
    rw [length_cons, uuidsOf, flatMap_cons, append_assoc, uuidOf_uuidBytes,
      drop_left' (length_uuidBytes u), ih]

theorem length_uuidsOf (n : Nat) (bs : Bytes) : (uuidsOf n bs).length = n := by
  induction n generalizing bs with
  | zero => rfl
  | succ n ih => rw [uuidsOf, length_cons, ih]

theorem flatMap_uuidsOf {n : Nat} {bs : Bytes} (h : n * 16 ≤ bs.length) :
    (uuidsOf n bs).flatMap uuidBytes = bs.take (n * 16) := by
  induction n generalizing bs with
  | zero => rw [Nat.zero_mul, take_zero]; rfl
  | succ n ih =>
    have hdrop : n * 16 ≤ (bs.drop 16).length := by rw [length_drop]; omega
    rw [uuidsOf, flatMap_cons, uuidBytes_uuidOf (by omega), ih hdrop, ← take_add, add_comm 16,
      Nat.succ_mul]

namespace EvictedBlock

variable {crc : Bytes → UInt32} {b : EvictedBlock}

@[simp] theorem length_header (b : EvictedBlock) : b.header.length = evictHeaderSize := by
  simp [header, evictHeaderSize]

theorem length_body (h : b.Fits) :
    b.body.length = evictHeaderSize + b.commits.length * 16 + b.length := by
  rw [body, length_append, length_append, length_header, length_flatMap_uuidBytes, h.bytes, add_assoc]

variable (crc) in
theorem length_encode (h : b.Fits) :
    (b.encode crc).length = evictHeaderSize + b.commits.length * 16 + b.length + 4 := by
  rw [encode, length_append, length_body h, length_leU32]

/-- The fields stand where `decode` looks for them. -/
theorem fields_header (b : EvictedBlock) (rest : Bytes) :
    (b.header ++ rest).take 8 = evictMagic ∧ slice 8 16 (b.header ++ rest) = uuidBytes b.uuid ∧
      slice 24 4 (b.header ++ rest) = leBytes 4 b.frag ∧
        slice 28 4 (b.header ++ rest) = leBytes 4 b.length ∧
      slice 32 8 (b.header ++ rest) = leBytes 8 b.oldVersion ∧
        slice 40 4 (b.header ++ rest) = leBytes 4 b.commits.length ∧
      slice 44 8 (b.header ++ rest) = i64Bytes b.timestamp ∧
        slice 52 8 (b.header ++ rest) = leBytes 8 b.inplaceAddr ∧
      slice 60 8 (b.header ++ rest) = leBytes 8 b.targetCommitSeq := by
  refine ⟨by simp [header, evictMagic], ?_, ?_, ?_, ?_, ?_, ?_, ?_, ?_⟩ <;>
    simp [header, slice_past, slice_zero_append]

theorem decode_encode (h : b.Fits) : decode crc (b.encode crc) b.length = .ok b := by
  have hlen := length_encode crc h
  have hbody := length_body h
  have hsplit : b.encode crc = b.header ++
      (b.commits.flatMap uuidBytes ++ (b.bytes ++ leU32 (crc b.body))) := by
    rw [encode, body, append_assoc, append_assoc]
  obtain ⟨hmagic, huuid, hfrag, hlength, hver, hcount, htime, haddr, hseq⟩ :=
    fields_header b (b.commits.flatMap uuidBytes ++ (b.bytes ++ leU32 (crc b.body)))
  rw [← hsplit] at hmagic huuid hfrag hlength hver hcount htime haddr hseq
  have hl : leNat (slice 28 4 (b.encode crc)) = b.length := by
    rw [hlength, leNat_leBytes_of_lt (by have := h.length; omega)]
  have hn : leNat (slice 40 4 (b.encode crc)) = b.commits.length := by
    rw [hcount, leNat_leBytes_of_lt (by have := h.commits; omega)]
  let fields := [b.header, b.commits.flatMap uuidBytes, b.bytes, leU32 (crc b.body)]
  have hblob : b.encode crc = fields.flatten := by simp [encode, body, fields]
  have hfield := fun i => slice_flatten fields [] (i := i)
  have hcommits := drop_flatten fields [] 1
  rw [append_nil, ← hblob] at hfield hcommits
  have hbytes := hfield 2 (by simp [fields])
  have hcrc := hfield 3 (by simp [fields])
  have htake : (b.encode crc).take (evictHeaderSize + b.commits.length * 16 + b.length) = b.body := by
    rw [← hbody, encode, take_left]
  simp [fields, h.bytes, ← add_assoc] at hcommits hbytes hcrc
  unfold decode
  dsimp only
  rw [hl, hn, Nat.add_sub_cancel, hcrc, htake, hcommits, uuidsOf_flatMap, hbytes, huuid, hfrag,
    hver, htime, haddr, hseq]
  have hu : uuidOf (uuidBytes b.uuid) = b.uuid := by
    have := uuidOf_uuidBytes b.uuid []
    rwa [append_nil] at this
  rw [if_neg (by rw [hlen]; omega), if_neg (by simp [hmagic]), if_neg (by simp),
    if_neg (by rw [hlen]; omega), if_neg (by simp), hu, leNat_leBytes_of_lt
      (by have := h.frag; omega), leNat_leBytes_of_lt (by have := h.version; omega),
    ofI64Bytes_i64Bytes h.time, leNat_leBytes_of_lt (by have := h.addr; omega),
    leNat_leBytes_of_lt (by have := h.seq; omega)]

/-- What `decode` made sure of and read. -/
structure Parsed (crc : Bytes → UInt32) (buf : Bytes) (b : EvictedBlock) : Prop where
  size : evictHeaderSize + leNat (slice 40 4 buf) * 16 + b.length + 4 ≤ buf.length
  magic : buf.take 8 = evictMagic
  uuid : b.uuid = uuidOf (slice 8 16 buf)
  frag : b.frag = leNat (slice 24 4 buf)
  length : b.length = leNat (slice 28 4 buf)
  version : b.oldVersion = leNat (slice 32 8 buf)
  commits : b.commits = uuidsOf (leNat (slice 40 4 buf)) (buf.drop evictHeaderSize)
  bytes : b.bytes = slice (evictHeaderSize + leNat (slice 40 4 buf) * 16) b.length buf
  time : b.timestamp = ofI64Bytes (slice 44 8 buf)
  addr : b.inplaceAddr = leNat (slice 52 8 buf)
  seq : b.targetCommitSeq = leNat (slice 60 8 buf)
  crc : ofLeU32 (slice (evictHeaderSize + leNat (slice 40 4 buf) * 16 + b.length) 4 buf) =
    crc (buf.take (evictHeaderSize + leNat (slice 40 4 buf) * 16 + b.length))

theorem parsed_of_decode {buf : Bytes} {byteLen : Nat} (h : decode crc buf byteLen = .ok b) :
    Parsed crc buf b ∧ b.length = byteLen := by
  unfold decode at h
  dsimp only at h
  split_ifs at h with _ hmagic hlength hsize hcrc
  cases h
  rw [ne_eq, not_not] at hmagic hlength hcrc
  subst hlength
  exact ⟨⟨not_lt.mp hsize, hmagic, rfl, rfl, rfl, rfl, rfl, rfl, rfl, rfl, rfl, hcrc⟩, rfl⟩

namespace Parsed

variable {buf : Bytes}

theorem fits (h : Parsed crc buf b) : b.Fits := by
  have hsize := h.size
  rw [show evictHeaderSize = 68 from rfl] at hsize
  have hfield : ∀ off n, off + n ≤ 68 → leNat (slice off n buf) < 256 ^ n :=
    fun off n hle => leNat_slice_lt (by omega)
  refine ⟨h.frag ▸ hfield 24 4 (by omega), h.length ▸ hfield 28 4 (by omega),
    h.version ▸ hfield 32 8 (by omega), ?_, h.time ▸ ofI64Bytes_bounds _,
    h.addr ▸ hfield 52 8 (by omega), h.seq ▸ hfield 60 8 (by omega), ?_⟩
  · rw [h.commits, length_uuidsOf]
    exact hfield 40 4 (by omega)
  · rw [h.bytes]
    exact length_slice (by have := h.size; omega)

/-- The header that is read off a buffer is the buffer's. -/
theorem header_eq (h : Parsed crc buf b) : b.header = slice 0 evictHeaderSize buf := by
  have hsize := h.size
  rw [show evictHeaderSize = 68 from rfl] at *
  have hlen : (slice 8 16 buf).length = 16 := length_slice (by omega)
  have huuid : uuidBytes b.uuid = slice 8 16 buf := by
    rw [h.uuid, uuidBytes_uuidOf hlen.ge, take_of_length_le hlen.le]
  have htime : i64Bytes b.timestamp = slice 44 8 buf := by
    rw [h.time, i64Bytes_ofI64Bytes (length_slice (by omega))]
  have hcount : b.commits.length = leNat (slice 40 4 buf) := by rw [h.commits, length_uuidsOf]
  have hmagic : evictMagic = slice 0 8 buf := h.magic.symm
  rw [header, hmagic, huuid, htime, h.frag, h.length, h.version, hcount, h.addr, h.seq,
    leBytes_slice (by omega), leBytes_slice (by omega), leBytes_slice (by omega),
    leBytes_slice (by omega), leBytes_slice (by omega),
    leBytes_slice (by omega), show 68 = 8 + (16 + (4 + (4 + (8 + (4 + (8 + (8 + 8))))))) from rfl]
  simp only [slice_add]

theorem body_eq (h : Parsed crc buf b) :
    b.body = slice 0 (evictHeaderSize + (leNat (slice 40 4 buf) * 16 + b.length)) buf := by
  have hsize := h.size
  have hcommits : b.commits.flatMap uuidBytes =
      slice evictHeaderSize (leNat (slice 40 4 buf) * 16) buf := by
    rw [h.commits]
    exact flatMap_uuidsOf (by rw [length_drop]; omega)
  rw [body, h.header_eq, hcommits, h.bytes, slice_add, slice_add, zero_add]

end Parsed

/-- What decodes is an encoding, if the buffer ends where the block does. -/
theorem encode_of_decode {buf : Bytes} {byteLen : Nat}
    (htotal : buf.length = evictHeaderSize + leNat (slice 40 4 buf) * 16 + byteLen + 4)
    (h : decode crc buf byteLen = .ok b) : b.Fits ∧ b.encode crc = buf := by
  obtain ⟨hparsed, rfl⟩ := parsed_of_decode h
  refine ⟨hparsed.fits, ?_⟩
  have hbody := hparsed.body_eq
  have hcrc := hparsed.crc
  rw [← add_assoc] at hbody
  generalize evictHeaderSize + leNat (slice 40 4 buf) * 16 + b.length = n at *
  have hlast : (slice n 4 buf).length = 4 := length_slice (by omega)
  have hwhole := slice_add 0 n 4 buf
  rw [zero_add, ← htotal, slice_zero_self rfl] at hwhole
  rw [encode, hbody, show slice 0 n buf = buf.take n from rfl, ← hcrc, leU32_ofLeU32 hlast]
  exact hwhole.symm

end EvictedBlock

/-! ## What the scan finds -/

/-- The encoding of `b` stands at `addr` and ends before `stop`. -/
structure EncodedAt (crc : Bytes → UInt32) (d : Disk) (stop addr : Nat) (b : EvictedBlock) : Prop where
  fits : b.Fits
  within : addr + (b.encode crc).length ≤ stop
  bytes : d.peek addr (b.encode crc).length = b.encode crc

section

variable {crc : Bytes → UInt32} {d : Disk} {stop addr : Nat} {b : EvictedBlock}

/-- The header at an address gives the length of the block that stands there. -/
theorem EncodedAt.header (h : EncodedAt crc d stop addr b) :
    d.peek addr 8 = evictMagic ∧ leNat (slice 28 4 (d.peek addr evictHeaderSize)) = b.length ∧
      leNat (slice 40 4 (d.peek addr evictHeaderSize)) = b.commits.length := by
  have hlen := EvictedBlock.length_encode crc h.fits
  have hpeek : d.peek addr evictHeaderSize = b.header ++ [] := by
    rw [← take_peek (n := (b.encode crc).length) (by omega), h.bytes, EvictedBlock.encode,
      EvictedBlock.body, append_assoc, take_left' b.length_header, append_nil]
  obtain ⟨hmagic, -, -, hl, -, hc, -⟩ := b.fields_header []
  rw [← hpeek] at hmagic hl hc
  rw [hl, hc, leNat_leBytes_of_lt h.fits.length, leNat_leBytes_of_lt h.fits.commits]
  exact ⟨hmagic, rfl, rfl⟩

theorem scanAt_of_encodedAt (hstop : stop ≤ d.len) (h : EncodedAt crc d stop addr b) :
    scanAt crc d stop addr = some (b.report addr (b.encode crc).length) := by
  have hlen := EvictedBlock.length_encode crc h.fits
  have hwithin := h.within
  obtain ⟨hmagic, hl, hc⟩ := h.header
  have hsize : evictHeaderSize = 68 := rfl
  unfold scanAt
  rw [readAt_of_le (by omega), readAt_of_le (by omega)]
  dsimp only
  rw [if_neg (by simp [hmagic]), hl, hc, ← hlen, if_neg (by omega), readAt_of_le (by omega), h.bytes]
  dsimp only
  rw [EvictedBlock.decode_encode h.fits]

theorem encodedAt_of_scanAt {x : ScannedEvictedBlock} (h : scanAt crc d stop addr = some x) :
    ∃ b, EncodedAt crc d stop addr b ∧ x = b.report addr (b.encode crc).length := by
  unfold scanAt at h
  split at h
  · cases h
  split at h
  · cases h
  split at h
  · cases h
  rename_i fixedHdr hread
  dsimp only at h
  split at h
  · cases h
  rename_i hstop
  split at h
  · cases h
  rename_i buf hbuf
  split at h
  · rename_i b hb
    cases eq_peek_of_readAt hread
    cases eq_peek_of_readAt hbuf
    have hsize : evictHeaderSize = 68 := rfl
    -- the count is the same in the header and in the whole block
    rw [slice_peek (by omega), slice_peek (by omega)] at hb h hstop
    have hcount : slice 40 4 (d.peek addr (evictHeaderSize + leNat (d.peek (addr + 40) 4) * 16 +
        leNat (d.peek (addr + 28) 4) + 4)) = d.peek (addr + 40) 4 := slice_peek (by omega)
    obtain ⟨hfits, henc⟩ := EvictedBlock.encode_of_decode (by rw [hcount, length_peek]) hb
    have hlen : (b.encode crc).length = evictHeaderSize + leNat (d.peek (addr + 40) 4) * 16 +
        leNat (d.peek (addr + 28) 4) + 4 := by rw [henc, length_peek]
    refine ⟨b, ⟨hfits, by omega, by rw [hlen, henc]⟩, ?_⟩
    rw [hlen]
    exact (Option.some.inj h).symm
  · cases h

/-- The scan finds a block at an address iff the encoding of one stands there. -/
theorem scanAt_eq_some_iff (hstop : stop ≤ d.len) {x : ScannedEvictedBlock} :
    scanAt crc d stop addr = some x ↔
      ∃ b, EncodedAt crc d stop addr b ∧ x = b.report addr (b.encode crc).length := by
  constructor
  · exact encodedAt_of_scanAt
  · rintro ⟨b, hb, rfl⟩
    exact scanAt_of_encodedAt hstop hb

theorem mem_tailSlots {tailLow : Nat} (hdvd : baseBlock ∣ stop - tailLow) (hle : tailLow ≤ stop) :
    addr ∈ tailSlots tailLow stop ↔ tailLow ≤ addr ∧ addr < stop ∧ baseBlock ∣ addr - tailLow := by
  obtain ⟨k, hk⟩ := hdvd
  have hpos : 0 < baseBlock := by decide
  rw [tailSlots, hk, Nat.mul_div_cancel_left k hpos]
  simp only [mem_map, mem_range]
  constructor
  · rintro ⟨i, hi, rfl⟩
    have : i * baseBlock < baseBlock * k := by rw [mul_comm]; exact Nat.mul_lt_mul_of_pos_left hi hpos
    exact ⟨Nat.le_add_right _ _, by omega, ⟨i, by rw [Nat.add_sub_cancel_left, mul_comm]⟩⟩
  · rintro ⟨hlo, hhi, i, hi⟩
    refine ⟨i, ?_, by rw [mul_comm]; omega⟩
    exact Nat.lt_of_mul_lt_mul_left (a := baseBlock) (by omega)

theorem mem_scanEvictionTail {tailLow : Nat} (hlen : stop ≤ d.len)
    (hdvd : baseBlock ∣ stop - tailLow) (hle : tailLow ≤ stop) {x : ScannedEvictedBlock} :
    x ∈ scanEvictionTail crc d tailLow stop ↔
      ∃ addr b, (tailLow ≤ addr ∧ addr < stop ∧ baseBlock ∣ addr - tailLow) ∧
        EncodedAt crc d stop addr b ∧
        x = b.report addr (b.encode crc).length := by
  rw [scanEvictionTail, mem_filterMap]
  simp only [mem_tailSlots hdvd hle, scanAt_eq_some_iff hlen]
  constructor
  · rintro ⟨addr, hslot, b, hb⟩
    exact ⟨addr, b, hslot, hb⟩
  · rintro ⟨addr, b, hslot, hb⟩
    exact ⟨addr, hslot, b, hb⟩

/-- The reports come in the order of their addresses. -/
theorem pairwise_locAddr_scan (tailLow : Nat) :
    ((scanEvictionTail crc d tailLow stop).map ScannedEvictedBlock.locAddr).Pairwise (· < ·) := by
  have hslots : (tailSlots tailLow stop).Pairwise (· < ·) := by
    rw [tailSlots, pairwise_map]
    refine (pairwise_lt_range).imp fun {i j} hij => ?_
    exact Nat.add_lt_add_left (Nat.mul_lt_mul_of_pos_right hij (by decide)) _
  have hsub : ((scanEvictionTail crc d tailLow stop).map ScannedEvictedBlock.locAddr).Sublist
      (tailSlots tailLow stop) := by
    rw [scanEvictionTail]
    induction tailSlots tailLow stop with
    | nil => exact .slnil
    | cons addr slots ih =>
      rw [filterMap_cons]
      cases hs : scanAt crc d stop addr with
      | none => exact ih.cons addr
      | some x =>
        obtain ⟨b, -, rfl⟩ := encodedAt_of_scanAt hs
        exact ih.cons_cons addr
  exact hslots.sublist hsub

theorem nodup_locAddr_scan (tailLow : Nat) :
    ((scanEvictionTail crc d tailLow stop).map ScannedEvictedBlock.locAddr).Nodup :=
  (pairwise_locAddr_scan tailLow).imp fun h => ne_of_lt h

end

end Sfs.Container

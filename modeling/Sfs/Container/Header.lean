import Sfs.Basic

/-!
# The container header

Two header slots, at offsets `0` and `baseBlock`. Each holds a serialized
`ContainerHeader`: body (183 bytes), CRC over the body (4 bytes) and, for a keyed
container, a MAC over the body (32 bytes). The CRC and the MAC are parameters: the first
stands for `crc32fast::hash`, the second for HMAC-SHA256 under the key derived from the
root key.
-/

namespace Sfs.Container

open Sfs.Lib

def baseBlock : Nat := 4096

inductive SignMode where
  | unsigned
  | signed
  | writerSet
  deriving DecidableEq, Repr

/-- `b"sfs\x00v1\x00\x00"`. -/
def magic : Vector UInt8 8 := #v[0x73, 0x66, 0x73, 0x00, 0x76, 0x31, 0x00, 0x00]

def formatVersion : UInt16 := 12

structure ContainerParams where
  maxFragsizeExp : UInt8
  evictionCode : UInt8
  baseBlock : UInt32
  deriving DecidableEq, Repr

structure CatalogRoots where
  keyRoot : UInt64
  idRoot : UInt64
  deriving DecidableEq, Repr

structure ContainerHeader where
  magic : Vector UInt8 8
  formatVersion : UInt16
  cipher : UInt16
  contentCipher : UInt16
  params : ContainerParams
  roots : CatalogRoots
  writerSet : Option (Vector UInt8 16)
  commitSeq : UInt64
  walAppliedSeq : UInt64
  walRegionOffset : UInt64
  signMode : SignMode
  writerPubkey : Vector UInt8 32
  ownerPubkey : Vector UInt8 32
  writerSetEpoch : UInt64
  keyEpoch : UInt64
  tailLow : UInt64
  salt : Vector UInt8 16
  padBlocks : Bool
  deriving DecidableEq, Repr

/-- A header as the engine builds them: its magic and version are the crate's own. -/
structure Header where
  val : ContainerHeader
  magic_eq : val.magic = magic
  version_eq : val.formatVersion = formatVersion

/-! ## Wire format -/

def bodySize : Nat := 183
def headerMacSize : Nat := 32
def wireSize : Nat := bodySize + 4 + headerMacSize
def wireSizeNomac : Nat := bodySize + 4

def SignMode.toByte : SignMode → UInt8
  | .unsigned => 0
  | .signed => 1
  | .writerSet => 2

def SignMode.ofByte (b : UInt8) : Result SignMode :=
  if b = 0 then .ok .unsigned
  else if b = 1 then .ok .signed
  else if b = 2 then .ok .writerSet
  else .error (.integrity s!"unknown sign_mode byte {b} in v10 header")

/-- Presence byte and data of the writer set. -/
def writerSetBytes : Option (Vector UInt8 16) → Bytes
  | none => 0 :: List.replicate 16 0
  | some ws => 1 :: ws.toList

def parseWriterSet (present : UInt8) (data : Bytes) : Option (Vector UInt8 16) :=
  if present ≠ 0 then some (arr 16 data) else none

def serializeBody (h : ContainerHeader) : Bytes :=
  h.magic.toList ++ leU16 h.formatVersion ++ leU16 h.cipher ++ [h.params.maxFragsizeExp] ++
  [h.params.evictionCode] ++ leU32 h.params.baseBlock ++ leU64 h.roots.keyRoot ++
  leU64 h.roots.idRoot ++ writerSetBytes h.writerSet ++ leU64 h.commitSeq ++
  leU64 h.walAppliedSeq ++ leU64 h.walRegionOffset ++ [if h.padBlocks then 1 else 0] ++
  leU16 h.contentCipher ++ [h.signMode.toByte] ++ h.writerPubkey.toList ++
  h.ownerPubkey.toList ++ leU64 h.writerSetEpoch ++ leU64 h.keyEpoch ++ leU64 h.tailLow ++
  h.salt.toList

/-- The fields after the checks, read with a moving cursor. -/
def parseBody (raw : Bytes) : Result ContainerHeader := do
  let (m, r) := cut 8 raw
  if arr 8 m ≠ magic then
    throw (.integrity "header magic mismatch")
  let (version, r) := cut 2 r
  let (cipher, r) := cut 2 r
  let (exp, r) := cut 1 r
  let (evict, r) := cut 1 r
  let (base, r) := cut 4 r
  let (keyRoot, r) := cut 8 r
  let (idRoot, r) := cut 8 r
  let (wsPresent, r) := cut 1 r
  let (wsData, r) := cut 16 r
  let (seq, r) := cut 8 r
  let (walApplied, r) := cut 8 r
  let (walRegion, r) := cut 8 r
  let (pad, r) := cut 1 r
  let (content, r) := cut 2 r
  let (mode, r) := cut 1 r
  let signMode ← SignMode.ofByte (mode.headD 0)
  let (writer, r) := cut 32 r
  let (owner, r) := cut 32 r
  let (wsEpoch, r) := cut 8 r
  let (keyEpoch, r) := cut 8 r
  let (tailLow, r) := cut 8 r
  let (salt, _) := cut 16 r
  return {
    magic := arr 8 m
    formatVersion := ofLeU16 version
    cipher := ofLeU16 cipher
    contentCipher := ofLeU16 content
    params := {
      maxFragsizeExp := exp.headD 0
      evictionCode := evict.headD 0
      baseBlock := ofLeU32 base }
    roots := { keyRoot := ofLeU64 keyRoot, idRoot := ofLeU64 idRoot }
    writerSet := parseWriterSet (wsPresent.headD 0) wsData
    commitSeq := ofLeU64 seq
    walAppliedSeq := ofLeU64 walApplied
    walRegionOffset := ofLeU64 walRegion
    signMode
    writerPubkey := arr 32 writer
    ownerPubkey := arr 32 owner
    writerSetEpoch := ofLeU64 wsEpoch
    keyEpoch := ofLeU64 keyEpoch
    tailLow := ofLeU64 tailLow
    salt := arr 16 salt
    padBlocks := pad.headD 0 != 0 }

@[simp] theorem length_writerSetBytes (ws : Option (Vector UInt8 16)) :
    (writerSetBytes ws).length = 17 := by
  cases ws <;> simp [writerSetBytes]

@[simp] theorem length_serializeBody (h : ContainerHeader) : (serializeBody h).length = bodySize := by
  unfold serializeBody
  simp only [List.length_append, Vector.length_toList, length_leU16, length_leU32, length_leU64,
    length_writerSetBytes, List.length_cons, List.length_nil, bodySize]

theorem SignMode.ofByte_toByte (m : SignMode) : SignMode.ofByte m.toByte = .ok m := by
  cases m <;> rfl

theorem writerSetBytes_parse (o : Option (Vector UInt8 16)) :
    ∃ p ws, writerSetBytes o = [p] ++ ws ∧ ws.length = 16 ∧
      parseWriterSet p ws = o := by
  cases o with
  | none => exact ⟨0, List.replicate 16 0, rfl, rfl, rfl⟩
  | some ws => exact ⟨1, ws.toList, rfl, by simp, by simp [parseWriterSet]⟩

/-- A body decodes to the header it was written from, whatever follows it. -/
theorem parseBody_serializeBody (h : Header) (rest : Bytes) :
    parseBody (serializeBody h.val ++ rest) = .ok h.val := by
  obtain ⟨h, hm, -⟩ := h
  obtain ⟨p, ws, hpd, hlen, hws⟩ := writerSetBytes_parse h.writerSet
  have hpad : ((if h.padBlocks then (1 : UInt8) else 0) != 0) = h.padBlocks := by
    cases h.padBlocks <;> rfl
  unfold serializeBody parseBody
  rw [hpd]
  simp only [List.append_assoc]
  simp (disch := simp [hlen]) only [cut_append, arr_toList, hm]
  simp only [ne_eq, not_true_eq_false, if_false, List.headD_cons, SignMode.ofByte_toByte, ← hm,
    ofLeU16_leU16, ofLeU32_leU32, ofLeU64_leU64, hws, hpad, bind, Except.bind, pure, Except.pure]

/-! ## Slots -/

section

variable (crc : Bytes → UInt32) (headerMac : RootKey → Bytes → Vector UInt8 32)

def toWire (h : ContainerHeader) (macKey : Option RootKey) : Bytes :=
  let body := serializeBody h
  let crcBytes := leU32 (crc body)
  match macKey with
  | some rootKey =>
    if formatVersion ≤ h.formatVersion then body ++ crcBytes ++ (headerMac rootKey body).toList
    else body ++ crcBytes
  | none => body ++ crcBytes

def fromWire (raw : Bytes) (macKey : Option RootKey) : Result ContainerHeader :=
  if raw.length < wireSize then .error (.integrity "header buffer too short for v12")
  else
    let version := ofLeU16 (slice 8 2 raw)
    if version ≠ formatVersion then .error (.unsupportedVersion version.toNat)
    else if ofLeU32 (slice bodySize 4 raw) ≠ crc (raw.take bodySize) then
      .error (.integrity "header CRC mismatch — slot is invalid or torn")
    else
      match macKey with
      | some rootKey =>
        if slice (bodySize + 4) headerMacSize raw ≠ (headerMac rootKey (raw.take bodySize)).toList then
          .error (.integrity
            "header MAC mismatch — slot is forged, downgraded, or keyed with the wrong root_key")
        else parseBody (raw.take bodySize)
      | none => parseBody (raw.take bodySize)

def slot0Offset : Nat := 0
def slot1Offset : Nat := baseBlock

def readSlot (b : Disk) (slotOffset : Nat) (macKey : Option RootKey) : Result ContainerHeader :=
  match b.readAt slotOffset wireSize with
  | some raw => fromWire crc headerMac raw macKey
  | none => .error (.io "read past end of container")

/-- The slot that `load` and `commit` take for the active one: the CRC-valid slot of highest
`commit_seq`, with its sequence number. -/
def activeSlot (b : Disk) : Option (Nat × UInt64) :=
  match readSlot crc headerMac b slot0Offset none, readSlot crc headerMac b slot1Offset none with
  | .ok h0, .ok h1 =>
    if h1.commitSeq > h0.commitSeq then some (slot1Offset, h1.commitSeq)
    else some (slot0Offset, h0.commitSeq)
  | .ok h0, .error _ => some (slot0Offset, h0.commitSeq)
  | .error _, .ok h1 => some (slot1Offset, h1.commitSeq)
  | .error _, .error _ => none

def load (b : Disk) (macKey : Option RootKey) : Result ContainerHeader :=
  match activeSlot crc headerMac b with
  | some (winner, _) => readSlot crc headerMac b winner macKey
  | none =>
    .error (.integrity "both header slots are invalid — container is corrupt or uninitialized")

def otherSlot (off : Nat) : Nat := if off = slot0Offset then slot1Offset else slot0Offset

/-- What `commit` is about to write and where, before the write is issued. -/
def stageCommit (b : Disk) (next : ContainerHeader) (macKey : Option RootKey) :
    Result (Nat × Bytes) :=
  match activeSlot crc headerMac b with
  | none => .error (.integrity "cannot commit: both header slots are invalid")
  | some (active, activeSeq) =>
    if next.commitSeq.toNat ≠ activeSeq.toNat + 1 then
      .error (.integrity ("commit_seq must be active_seq+1 (" ++ toString activeSeq ++ " + 1 = " ++
        toString (activeSeq.toNat + 1) ++ "), got " ++ toString next.commitSeq))
    else .ok (otherSlot active, toWire crc headerMac next macKey)

def commit (b : Disk) (next : ContainerHeader) (macKey : Option RootKey) : Result Disk := do
  let (off, wire) ← stageCommit crc headerMac b next macKey
  match b.writeAt off wire with
  | some b' => return b'
  | none => throw (.io "write past end of container")

end

end Sfs.Container

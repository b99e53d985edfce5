import Sfs.Container.Header
import Sfs.Lib.Radix

/-!
# Catalog nodes on disk

A node takes two blocks, a primary and a backup behind it, each with the whole node: in the clear
with a checksum, or sealed with the address and the kind as associated data. `read` falls back to
the backup if the primary is damaged.

The checksum is a parameter that stands for `crc32fast`, the cipher one that stands for AES-GCM
under the metadata key.
-/

namespace Sfs.Catalog

open Sfs.Lib Sfs.Container List

variable {node : Node} {nonce payload : Bytes} {d : Disk} {addr : Nat}

inductive Node where
  | internal (term : Option Bytes) (slots : UInt8 → Nat)
  | leaf (key val : Bytes)

open Node

def NODE_MAGIC : Bytes := [0x53, 0x46, 0x54, 0x72]

def OFF_PAYLOAD : Nat := 12

def OFF_PAYLOAD_GCM : Nat := 20

def MAX_VAL_LEN : Nat := 16

def LEAF_HEADER_SIZE : Nat := 3

def PAYLOAD_CAP : Nat := baseBlock - OFF_PAYLOAD

def PAYLOAD_CAP_GCM : Nat := PAYLOAD_CAP - 28

def MAX_KEY_LEN : Nat := PAYLOAD_CAP_GCM - LEAF_HEADER_SIZE - MAX_VAL_LEN

def INTERNAL_TERM_SIZE : Nat := 2 + MAX_VAL_LEN

def NODE_ALLOC_SIZE : Nat := 2 * baseBlock

/-- The cipher of a container: none, or AES-GCM under the metadata key. -/
structure NodeCrypto where
  gcm : Bool
  /-- `seal_with_nonce`: nonce, associated data, plaintext -/
  sealWithNonce : Bytes → Bytes → Bytes → Bytes
  openWithNonce : Bytes → Bytes → Bytes → Option Bytes

structure NodeCrypto.Lawful (crypto : NodeCrypto) : Prop where
  length_seal : ∀ nonce aad plain, (crypto.sealWithNonce nonce aad plain).length = plain.length + 16
  open_seal : ∀ nonce aad plain,
    crypto.openWithNonce nonce aad (crypto.sealWithNonce nonce aad plain) = some plain

/-! ## Layout -/

def Node.kind : Node → UInt8
  | .internal _ _ => 0
  | .leaf _ _ => 1

def encodeTerm : Option Bytes → Bytes
  | none => replicate INTERNAL_TERM_SIZE 0
  | some v => [1, UInt8.ofNat v.length] ++ resize MAX_VAL_LEN v

def Node.encode : Node → Bytes
  | .internal term slots => encodeTerm term ++ allBytes.flatMap fun b => leBytes 8 (slots b)
  | .leaf key val => leBytes 2 key.length ++ ([UInt8.ofNat val.length] ++ (key ++ val))

def decodeInternal (p : Bytes) : Node :=
  .internal (if p.getD 0 0 ≠ 0 then some (slice 2 (p.getD 1 0).toNat p) else none)
    fun b => leNat (slice (INTERNAL_TERM_SIZE + b.toNat * 8) 8 p)

def decodeLeaf (p : Bytes) : Result Node :=
  let klen := leNat (slice 0 2 p)
  let vlen := (p.getD 2 0).toNat
  if MAX_KEY_LEN < klen then
    .error (.integrity
      ("leaf node klen=" ++ toString klen ++ " exceeds MAX_KEY_LEN=" ++ toString MAX_KEY_LEN))
  else if MAX_VAL_LEN < vlen then
    .error (.integrity
      ("leaf node vlen=" ++ toString vlen ++ " exceeds MAX_VAL_LEN=" ++ toString MAX_VAL_LEN))
  else if p.length < LEAF_HEADER_SIZE + klen + vlen then
    .error (.integrity
      ("leaf node klen=" ++ toString klen ++ " vlen=" ++ toString vlen ++ " exceeds payload (" ++
      toString p.length ++ " bytes available)"))
  else .ok (.leaf (slice LEAF_HEADER_SIZE klen p) (slice (LEAF_HEADER_SIZE + klen) vlen p))

def decodeNode (kind : UInt8) (p : Bytes) : Result Node :=
  if kind = 1 then decodeLeaf p else .ok (decodeInternal p)

section

variable (crc : Bytes → UInt32) (crypto : NodeCrypto)

def nodeAad (addr : Nat) (kind : UInt8) : Bytes := leBytes 8 addr ++ [kind]

/-- The start of a block in the clear. -/
def clearHead (kind : UInt8) : Bytes := NODE_MAGIC ++ [kind, 0, 0, 0]

def clearBlock (kind : UInt8) (payload : Bytes) : Bytes :=
  clearHead kind ++
    (leU32 (crc (clearHead kind ++ resize PAYLOAD_CAP payload)) ++ resize PAYLOAD_CAP payload)

def sealedBlock (nonce : Bytes) (addr : Nat) (kind : UInt8) (payload : Bytes) : Bytes :=
  let ct := crypto.sealWithNonce nonce (nodeAad addr kind) payload
  NODE_MAGIC ++
    ([kind] ++ (leBytes 2 ct.length ++ ([0] ++ (nonce ++ resize (baseBlock - OFF_PAYLOAD_GCM) ct))))

def nodeBlock (nonce : Bytes) (addr : Nat) (kind : UInt8) (payload : Bytes) : Bytes :=
  if crypto.gcm then sealedBlock crypto nonce addr kind payload else clearBlock crc kind payload

/-! ## Reading -/

/-- The name of an address in an error. -/
def hexAddr (addr : Nat) : String := "0x" ++ String.ofList (Nat.toDigits 16 addr)

def readBase (d : Disk) (addr : Nat) : Result Bytes :=
  match d.readAt addr baseBlock with
  | some block => .ok block
  | none => .error (.io "read past end of container")

def validateNodeBlock (block : Bytes) : Except String Unit :=
  if block.take 4 ≠ NODE_MAGIC then .error "bad magic"
  else if ofLeU32 (slice 8 4 block) ≠ crc (block.take 8 ++ block.drop 12) then .error "CRC mismatch"
  else .ok ()

/-- The kind and the payload of a block in the clear. -/
def clearContent (block : Bytes) : UInt8 × Bytes := (block.getD 4 0, block.drop OFF_PAYLOAD)

def readClear (d : Disk) (addr : Nat) : Result (UInt8 × Bytes) := do
  let block ← readBase d addr
  ((validateNodeBlock crc block).map fun _ => clearContent block).mapError .integrity

/-- The content of a sealed block that was read at `addr`. -/
def openSealed (addr : Nat) (raw : Bytes) : Result (UInt8 × Bytes) :=
  let kind := raw.getD 4 0
  let ctLen := leNat (slice 5 2 raw)
  if raw.take 4 ≠ NODE_MAGIC then .error (.integrity "bad magic")
  else if ctLen < 16 ∨ baseBlock < OFF_PAYLOAD_GCM + ctLen then .error
    (.integrity "GCM node: ct_len out of range")
  else
    match crypto.openWithNonce (slice 8 12 raw) (nodeAad addr kind)
      (slice OFF_PAYLOAD_GCM ctLen raw) with
    | some plain => .ok (kind, resize PAYLOAD_CAP plain)
    | none => .error (.crypto "open")

/-- `try_read_gcm_block` -/
def readSealed (d : Disk) (addr : Nat) : Result (UInt8 × Bytes) :=
  do openSealed crypto addr (← readBase d addr)

def readBlock (d : Disk) (addr : Nat) : Result (UInt8 × Bytes) :=
  if crypto.gcm then readSealed crypto d addr else readClear crc d addr

/-- The error when the backup is damaged too; one in the clear that cannot be read fails as such. -/
def bothCorrupt (addr : Nat) : Error → Error
  | .integrity e =>
    .integrity ("node at " ++ hexAddr addr ++
      if crypto.gcm then ": both primary and backup GCM authentication failed"
      else ": both primary and backup corrupt (" ++ e ++ ")")
  | e => if crypto.gcm then
      .integrity ("node at " ++ hexAddr addr ++
        ": both primary and backup GCM authentication failed") else e

def readNodeWithBackup (d : Disk) (addr : Nat) : Result (UInt8 × Bytes) :=
  match readBlock crc crypto d addr with
  | .ok content => .ok content
  | .error _ => (readBlock crc crypto d (addr + baseBlock)).mapError (bothCorrupt crypto addr)

def Node.read (d : Disk) (addr : Nat) : Result Node := do
  let (kind, p) ← readNodeWithBackup crc crypto d addr
  decodeNode kind p

/-! ## Reading back -/

/-- The fields fit the layout. -/
def Node.Fits : Node → Prop
  | .internal term slots => (∀ v ∈ term, v.length ≤ MAX_VAL_LEN) ∧ ∀ b, slots b < 2 ^ 64
  | .leaf key val => key.length ≤ MAX_KEY_LEN ∧ val.length ≤ MAX_VAL_LEN

theorem length_encodeTerm (term : Option Bytes) : (encodeTerm term).length = INTERNAL_TERM_SIZE := by
  cases term with
  | none => exact length_replicate
  | some v =>
    rw [encodeTerm, length_append, length_resize]
    rfl

theorem length_slots (slots : UInt8 → Nat) :
    (allBytes.flatMap fun b => leBytes 8 (slots b)).length = 2048 := by
  rw [length_flatMap]
  simp only [length_leBytes]
  rw [map_const', sum_replicate, allBytes, length_map, length_range]
  rfl

theorem Node.length_encode (h : node.Fits) : node.encode.length ≤ PAYLOAD_CAP_GCM := by
  cases node with
  | internal term slots =>
    rw [Node.encode, length_append, length_encodeTerm, length_slots]
    decide
  | leaf key val =>
    have h1 : key.length ≤ 4037 := h.1
    have h2 : val.length ≤ 16 := h.2
    rw [Node.encode, length_append, length_leBytes, length_append, length_append, length_singleton]
    show 2 + (1 + (key.length + val.length)) ≤ 4056
    omega

theorem decodeLeaf_encode {key val : Bytes} (hkey : key.length ≤ MAX_KEY_LEN)
    (hval : val.length ≤ MAX_VAL_LEN) (pad : Bytes) :
    decodeLeaf ((leaf key val).encode ++ pad) = .ok (.leaf key val) := by
  have hk : key.length ≤ 4037 := hkey
  have hv : val.length ≤ 16 := hval
  have hbytes : (leaf key val).encode ++ pad =
      leBytes 2 key.length ++ ([UInt8.ofNat val.length] ++ (key ++ (val ++ pad))) := by
    simp only [Node.encode, append_assoc]
  have hklen : leNat (slice 0 2 ((leaf key val).encode ++ pad)) = key.length := by
    rw [hbytes, slice_zero_append (length_leBytes _ _), leNat_leBytes_of_lt (by omega)]
  have hvlen : (((leaf key val).encode ++ pad).getD 2 0).toNat = val.length := by
    rw [hbytes, getD_append_right _ _ _ _ (le_of_eq (length_leBytes _ _)), length_leBytes]
    show (UInt8.ofNat val.length).toNat = _
    rw [UInt8.toNat_ofNat']
    omega
  have hkeyAt : slice LEAF_HEADER_SIZE key.length ((leaf key val).encode ++ pad) = key := by
    rw [hbytes, ← append_assoc]
    exact slice_middle (by rw [length_append, length_leBytes]; rfl) rfl
  have hvalAt : slice (LEAF_HEADER_SIZE + key.length) val.length ((leaf key val).encode ++ pad) =
      val := by
    rw [hbytes, ← append_assoc, ← append_assoc]
    exact slice_middle (by rw [length_append, length_append, length_leBytes]; rfl) rfl
  have hlen : LEAF_HEADER_SIZE + key.length + val.length ≤ ((leaf key val).encode ++ pad).length := by
    rw [hbytes]
    simp only [length_append, length_leBytes, length_singleton]
    show 3 + key.length + val.length ≤ _
    omega
  unfold decodeLeaf
  dsimp only
  rw [hklen, hvlen, if_neg (by omega), if_neg (by omega), if_neg (by omega), hkeyAt, hvalAt]

theorem decodeInternal_encode {term : Option Bytes} {slots : UInt8 → Nat}
    (h : (internal term slots).Fits) (pad : Bytes) :
    decodeInternal ((internal term slots).encode ++ pad) = .internal term slots := by
  have hbytes : (internal term slots).encode ++ pad =
      encodeTerm term ++ ((allBytes.flatMap fun b => leBytes 8 (slots b)) ++ pad) := by
    rw [Node.encode, append_assoc]
  have hterm : (if ((internal term slots).encode ++ pad).getD 0 0 ≠ 0 then
      some (slice 2 (((internal term slots).encode ++ pad).getD 1 0).toNat
        ((internal term slots).encode ++ pad))
      else none) = term := by
    rw [hbytes]
    cases term with
    | none => rfl
    | some v =>
      have hv : v.length ≤ MAX_VAL_LEN := h.1 v rfl
      have hlt : v.length ≤ 16 := hv
      have hvlen : (UInt8.ofNat v.length).toNat = v.length := by
        rw [UInt8.toNat_ofNat']
        omega
      have hval : slice 2 v.length ([1, UInt8.ofNat v.length] ++ (v ++
          (replicate (MAX_VAL_LEN - v.length) 0 ++
            ((allBytes.flatMap fun b => leBytes 8 (slots b)) ++ pad)))) = v :=
        slice_middle rfl rfl
      show some (slice 2 (UInt8.ofNat v.length).toNat
        ([1, UInt8.ofNat v.length] ++ resize MAX_VAL_LEN v ++ _)) = some v
      rw [hvlen, append_assoc, resize, take_of_length_le hv, append_assoc, hval]
  have hslots : ∀ b : UInt8,
      leNat (slice (INTERNAL_TERM_SIZE + b.toNat * 8) 8 ((internal term slots).encode ++ pad)) =
        slots b := by
    intro b
    have hb : b.toNat < allBytes.length := by
      rw [allBytes, length_map, length_range]
      exact b.toNat_lt
    have hat : allBytes[b.toNat] = b := by
      simp only [allBytes, getElem_map, getElem_range]
      exact UInt8.ofNat_toNat
    have hfit := b.toNat_lt
    rw [hbytes, slice_skip (length_encodeTerm term), slice_append_left (by rw [length_slots]; omega),
      slice_flatMap (fun c _ => length_leBytes 8 (slots c)) hb, hat, leNat_leBytes_of_lt (h.2 b)]
  unfold decodeInternal
  rw [hterm]
  exact congrArg _ (funext hslots)

theorem decodeNode_encode (h : node.Fits) :
    decodeNode node.kind (resize PAYLOAD_CAP node.encode) = .ok node := by
  have hlen : node.encode.length ≤ PAYLOAD_CAP := (length_encode h).trans (by decide)
  rw [resize, take_of_length_le hlen]
  cases node with
  | internal term slots => exact congrArg Except.ok (decodeInternal_encode h _)
  | leaf key val => exact decodeLeaf_encode h.1 h.2 _

theorem length_clearBlock (kind : UInt8) (payload : Bytes) :
    (clearBlock crc kind payload).length = baseBlock := by
  rw [clearBlock, length_append, length_append, length_leU32, length_resize, PAYLOAD_CAP, clearHead,
    length_append]
  show 4 + 4 + (4 + (4096 - 12)) = 4096
  decide

theorem length_sealedBlock (hn : nonce.length = 12) (addr : Nat) (kind : UInt8) (payload : Bytes) :
    (sealedBlock crypto nonce addr kind payload).length = baseBlock := by
  unfold sealedBlock
  simp only [length_append, length_leBytes, length_resize, hn, length_singleton]
  decide

theorem length_nodeBlock (hn : nonce.length = 12) (addr : Nat) (kind : UInt8) (payload : Bytes) :
    (nodeBlock crc crypto nonce addr kind payload).length = baseBlock := by
  unfold nodeBlock
  split
  · exact length_sealedBlock crypto hn addr kind payload
  · exact length_clearBlock crc kind payload

/-! The fields of a block. -/

theorem drop_clearBlock (kind : UInt8) (payload : Bytes) :
    (clearBlock crc kind payload).drop OFF_PAYLOAD = resize PAYLOAD_CAP payload := by
  rw [clearBlock, ← append_assoc]
  exact drop_left' (by rw [length_append, length_leU32]; rfl)

theorem crc_clearBlock (kind : UInt8) (payload : Bytes) :
    ofLeU32 (slice 8 4 (clearBlock crc kind payload)) = crc
      ((clearBlock crc kind payload).take 8 ++ (clearBlock crc kind payload).drop OFF_PAYLOAD) := by
  have hfield : slice 8 4 (clearBlock crc kind payload) =
      leU32 (crc (clearHead kind ++ resize PAYLOAD_CAP payload)) :=
    slice_middle rfl (length_leU32 _)
  rw [hfield, ofLeU32_leU32, drop_clearBlock]
  rfl

theorem length_cipher_le (hlaw : crypto.Lawful) (hlen : payload.length ≤ PAYLOAD_CAP_GCM)
    (nonce : Bytes) (addr : Nat) (kind : UInt8) :
    16 ≤ (crypto.sealWithNonce nonce (nodeAad addr kind) payload).length ∧
      OFF_PAYLOAD_GCM + (crypto.sealWithNonce nonce (nodeAad addr kind) payload).length ≤
        baseBlock := by
  have hp : payload.length ≤ 4056 := hlen
  rw [hlaw.length_seal]
  show 16 ≤ _ ∧ 20 + _ ≤ 4096
  omega

theorem ctLen_sealedBlock (hlaw : crypto.Lawful) (hlen : payload.length ≤ PAYLOAD_CAP_GCM)
    (nonce : Bytes) (addr : Nat) (kind : UInt8) :
    leNat (slice 5 2 (sealedBlock crypto nonce addr kind payload)) =
      (crypto.sealWithNonce nonce (nodeAad addr kind) payload).length := by
  have hct : 20 + (crypto.sealWithNonce nonce (nodeAad addr kind) payload).length ≤ 4096 :=
    (length_cipher_le crypto hlaw hlen nonce addr kind).2
  have hlenAt : ∀ rest : Bytes, slice 5 2 (NODE_MAGIC ++ [kind] ++ (leBytes 2
      (crypto.sealWithNonce nonce (nodeAad addr kind) payload).length ++ rest)) =
        leBytes 2 _ := fun _ =>
    slice_middle rfl (length_leBytes _ _)
  unfold sealedBlock
  dsimp only
  rw [← append_assoc, hlenAt, leNat_leBytes_of_lt (by omega)]

theorem nonce_sealedBlock (hn : nonce.length = 12) (addr : Nat) (kind : UInt8) (payload : Bytes) :
    slice 8 12 (sealedBlock crypto nonce addr kind payload) = nonce := by
  unfold sealedBlock
  rw [← append_assoc, ← append_assoc, ← append_assoc]
  exact slice_middle (by simp only [length_append, length_leBytes]; rfl) hn

theorem cipher_sealedBlock (hlaw : crypto.Lawful) (hn : nonce.length = 12)
    (hlen : payload.length ≤ PAYLOAD_CAP_GCM) (addr : Nat) (kind : UInt8) :
    slice OFF_PAYLOAD_GCM (crypto.sealWithNonce nonce (nodeAad addr kind) payload).length
      (sealedBlock crypto nonce addr kind payload) =
      crypto.sealWithNonce nonce (nodeAad addr kind) payload := by
  unfold sealedBlock
  dsimp only
  rw [← append_assoc, ← append_assoc, ← append_assoc, ← append_assoc, resize,
    take_of_length_le (Nat.le_sub_of_add_le' (length_cipher_le crypto hlaw hlen nonce addr kind).2)]
  exact slice_middle (by simp only [length_append, length_leBytes, hn]; rfl) rfl

theorem readClear_block {kind : UInt8}
    (hd : readBase d addr = .ok (clearBlock crc kind payload)) :
    readClear crc d addr = .ok (kind, resize PAYLOAD_CAP payload) := by
  have hvalid : validateNodeBlock crc (clearBlock crc kind payload) = .ok () := by
    unfold validateNodeBlock
    rw [if_neg (by exact not_not.mpr rfl)]
    exact if_neg (not_not.mpr (crc_clearBlock crc kind payload))
  have hcontent : clearContent (clearBlock crc kind payload) = (kind, resize PAYLOAD_CAP payload) :=
    Prod.ext rfl (drop_clearBlock crc kind payload)
  unfold readClear
  rw [hd]
  show ((validateNodeBlock crc (clearBlock crc kind payload)).map fun _ =>
    clearContent (clearBlock crc kind payload)).mapError
    Error.integrity = _
  rw [hvalid, hcontent]
  rfl

theorem readSealed_block (hlaw : crypto.Lawful) (hn : nonce.length = 12) {kind : UInt8}
    (hlen : payload.length ≤ PAYLOAD_CAP_GCM)
    (hd : readBase d addr = .ok (sealedBlock crypto nonce addr kind payload)) :
    readSealed crypto d addr = .ok (kind, resize PAYLOAD_CAP payload) := by
  have hkind : (sealedBlock crypto nonce addr kind payload).getD 4 0 = kind := rfl
  obtain ⟨hlo, hhi⟩ := length_cipher_le crypto hlaw hlen nonce addr kind
  unfold readSealed
  rw [hd]
  show openSealed crypto addr (sealedBlock crypto nonce addr kind payload) = _
  unfold openSealed
  dsimp only
  rw [ctLen_sealedBlock crypto hlaw hlen, nonce_sealedBlock crypto hn,
    cipher_sealedBlock crypto hlaw hn hlen, hkind, if_neg (by exact not_not.mpr rfl),
    if_neg (not_or.mpr ⟨not_lt.mpr hlo, not_lt.mpr hhi⟩), hlaw.open_seal]

/-- The primary at `addr` is `node` as it is written. -/
def NodeAt (d : Disk) (addr : Nat) (node : Node) : Prop :=
  node.Fits ∧ addr + NODE_ALLOC_SIZE ≤ d.len ∧ ∃ nonce : Bytes, nonce.length = 12 ∧
    d.peek addr baseBlock = nodeBlock crc crypto nonce addr node.kind node.encode

variable {crc crypto}

theorem NodeAt.readBase (h : NodeAt crc crypto d addr node) :
    readBase d addr = .ok (d.peek addr baseBlock) := by
  have hlen : addr + baseBlock ≤ d.len := le_trans (Nat.add_le_add_left (by decide) addr) h.2.1
  unfold Catalog.readBase
  rw [Disk.readAt_of_le hlen]

theorem NodeAt.read (hlaw : crypto.Lawful) (h : NodeAt crc crypto d addr node) :
    Node.read crc crypto d addr = .ok node := by
  have hbase := h.readBase
  obtain ⟨hfits, hlen, nonce, hn, hblock⟩ := h
  rw [hblock] at hbase
  have hread : readBlock crc crypto d addr = .ok (node.kind, resize PAYLOAD_CAP node.encode) := by
    unfold readBlock
    unfold nodeBlock at hbase
    split
    · rename_i hgcm
      rw [if_pos hgcm] at hbase
      exact readSealed_block crypto hlaw hn (length_encode hfits) hbase
    · rename_i hgcm
      rw [if_neg hgcm] at hbase
      exact readClear_block crc hbase
  unfold Node.read readNodeWithBackup
  rw [hread]
  exact decodeNode_encode hfits

theorem NodeAt.congr {d' : Disk} (h : NodeAt crc crypto d addr node) (hlen : d.len ≤ d'.len)
    (hbytes : ∀ x, addr ≤ x → x < addr + NODE_ALLOC_SIZE → d'.byte x = d.byte x) :
    NodeAt crc crypto d' addr node := by
  obtain ⟨hfits, hle, nonce, hn, hblock⟩ := h
  refine ⟨hfits, hle.trans hlen, nonce, hn, ?_⟩
  rw [← hblock]
  refine Disk.peek_eq_of_byte fun x hlo hhi => hbytes x hlo (lt_of_lt_of_le hhi ?_)
  exact Nat.add_le_add_left (by decide) addr

end

end Sfs.Catalog

import Sfs.Basic

/-!
# Log records

A record of the write-ahead log names the unit and the offset of an asynchronous write and holds
its sealed payload, under a CRC. The scan of the log region decodes records one after the other
and stops at the first position without one. It starts at the beginning of the region and does not
know where the current records end.

The CRC is a parameter that stands for `crc32fast`.
-/

namespace Sfs.Wal

open Sfs.Lib
open List hiding Vector

/-- `b"sfsw\x00r1\x00"`. -/
def walMagic : Bytes := [0x73, 0x66, 0x73, 0x77, 0x00, 0x72, 0x31, 0x00]

def walRegionSize : Nat := 8 * 1024 * 1024

def walRecordHeaderSize : Nat := 48
def walRecordPrefixSize : Nat := 52

structure WalRecord where
  seq : Nat
  uuid : Vector UInt8 16
  logicalOffset : Nat
  plaintextLen : Nat
  ciphertext : Bytes
  deriving DecidableEq, Repr

/-- Every field of the record has room in its encoding. -/
structure WalRecord.Fits (r : WalRecord) : Prop where
  seq : r.seq < 2 ^ 64
  offset : r.logicalOffset < 2 ^ 64
  plain : r.plaintextLen < 2 ^ 32
  cipher : r.ciphertext.length < 2 ^ 32

def WalRecord.header (r : WalRecord) : Bytes :=
  walMagic ++ (leBytes 8 r.seq ++ (r.uuid.toList ++ (leBytes 8 r.logicalOffset ++
    (leBytes 4 r.plaintextLen ++ leBytes 4 r.ciphertext.length))))

section

variable (crc : Bytes → UInt32)

def encodeWalRecord (r : WalRecord) : Bytes :=
  r.header ++ (leU32 (crc (r.header ++ r.ciphertext)) ++ r.ciphertext)

/-- The record at the start of `rest`, which is the buffer from the offset on, and its length. -/
def decodeWalRecord (rest : Bytes) : Result (Option (WalRecord × Nat)) :=
  if rest.length < walRecordHeaderSize then .ok none
  else
    let h := rest.take walRecordHeaderSize
    if h.take 8 ≠ walMagic then .ok none
    else
      let ciphertextLen := leNat (slice 44 4 h)
      let cipherEnd := walRecordPrefixSize + ciphertextLen
      if rest.length < cipherEnd then .error (.integrity "WAL record: truncated (torn write at tail)")
      else
        let storedCrc := ofLeU32 (slice walRecordHeaderSize 4 rest)
        let ciphertext := slice walRecordPrefixSize ciphertextLen rest
        if storedCrc ≠ crc (h ++ ciphertext) then
          .error (.integrity "WAL record: CRC mismatch (torn or corrupt record)")
        else
          .ok (some (⟨leNat (slice 8 8 h), arr 16 (slice 16 16 h), leNat (slice 32 8 h),
            leNat (slice 40 4 h), ciphertext⟩, cipherEnd))

/-- The loop of `scan_wal_region`; a record is never empty, so its length bounds the turns. -/
def scanFrom (minSeq : Nat) : Nat → Bytes → List WalRecord
  | 0, _ => []
  | fuel + 1, rest =>
    match decodeWalRecord crc rest with
    | .ok (some (r, n)) =>
      let found := if rest.length ≤ n then [] else scanFrom minSeq fuel (rest.drop n)
      if minSeq < r.seq then r :: found else found
    | .ok none => []
    | .error _ => []

def scanWalRegion (buf : Bytes) (minSeq : Nat) : List WalRecord := scanFrom crc minSeq buf.length buf

end

/-! ## Decoding what was encoded -/

@[simp] theorem length_walMagic : walMagic.length = 8 := by rfl

theorem length_header (r : WalRecord) : r.header.length = walRecordHeaderSize := by
  simp [WalRecord.header, walRecordHeaderSize]

theorem fields_header (r : WalRecord) :
    r.header.take 8 = walMagic ∧ slice 8 8 r.header = leBytes 8 r.seq ∧
      slice 16 16 r.header = r.uuid.toList ∧
      slice 32 8 r.header = leBytes 8 r.logicalOffset ∧
        slice 40 4 r.header = leBytes 4 r.plaintextLen ∧
      slice 44 4 r.header = leBytes 4 r.ciphertext.length := by
  refine ⟨by simp [WalRecord.header, walMagic], ?_, ?_, ?_, ?_, ?_⟩ <;>
    simp [WalRecord.header, slice_past, slice_zero_append, slice_zero_self]

variable {crc : Bytes → UInt32}

variable (crc) in
theorem length_encodeWalRecord (r : WalRecord) :
    (encodeWalRecord crc r).length = walRecordPrefixSize + r.ciphertext.length := by
  simp [encodeWalRecord, length_header, walRecordHeaderSize, walRecordPrefixSize]
  omega

theorem decode_encode {r : WalRecord} (h : r.Fits) (rest : Bytes) :
    decodeWalRecord crc (encodeWalRecord crc r ++ rest) =
      .ok (some (r, (encodeWalRecord crc r).length)) := by
  obtain ⟨hmagic, hseq, huuid, hoff, hplain, hcipher⟩ := fields_header r
  have hlen := length_encodeWalRecord crc r
  have hhead : (encodeWalRecord crc r ++ rest).take walRecordHeaderSize = r.header := by
    rw [encodeWalRecord, append_assoc, take_append_of_le_length (length_header r).ge]
    exact take_of_length_le (length_header r).le
  have hcl : leNat (slice 44 4 r.header) = r.ciphertext.length := by
    rw [hcipher, leNat_leBytes_of_lt (by have := h.cipher; omega)]
  have hcrc : slice walRecordHeaderSize 4 (encodeWalRecord crc r ++ rest) =
      leU32 (crc (r.header ++ r.ciphertext)) := by
    rw [encodeWalRecord, append_assoc, append_assoc]
    show slice (walRecordHeaderSize + 0) 4 _ = _
    rw [slice_skip (length_header r)]
    exact slice_zero_append (length_leU32 _)
  have hct : slice walRecordPrefixSize r.ciphertext.length (encodeWalRecord crc r ++ rest) =
      r.ciphertext := by
    rw [encodeWalRecord, append_assoc, append_assoc]
    show slice (walRecordHeaderSize + (4 + 0)) _ _ = _
    rw [slice_skip (length_header r), slice_skip (length_leU32 _)]
    exact slice_zero_append rfl
  unfold decodeWalRecord
  rw [if_neg (by rw [length_append, hlen]; simp [walRecordHeaderSize, walRecordPrefixSize]; omega)]
  rw [hhead, if_neg (by simp [hmagic]), hcl, if_neg (by rw [length_append, hlen]; omega), hcrc, hct,
    if_neg (by simp), hlen, hseq, huuid, hoff, hplain, arr_toList,
    leNat_leBytes_of_lt (by have := h.seq; omega),
    leNat_leBytes_of_lt (by have := h.offset; omega), leNat_leBytes_of_lt (by have := h.plain; omega)]

/-! ## Records one after the other -/

section

variable (crc)

def encodeAll (rs : List WalRecord) : Bytes := rs.flatMap (encodeWalRecord crc)

end

@[simp] theorem encodeAll_nil : encodeAll crc [] = [] := rfl

theorem encodeAll_cons (r : WalRecord) (rs : List WalRecord) :
    encodeAll crc (r :: rs) = encodeWalRecord crc r ++ encodeAll crc rs := rfl

theorem encodeAll_append (rs ss : List WalRecord) :
    encodeAll crc (rs ++ ss) = encodeAll crc rs ++ encodeAll crc ss :=
  flatMap_append

theorem decode_bounds {rest : Bytes} {r : WalRecord} {n : Nat}
    (h : decodeWalRecord crc rest = .ok (some (r, n))) :
    walRecordPrefixSize ≤ n ∧ n ≤ rest.length := by
  unfold decodeWalRecord at h
  split at h
  · cases h
  dsimp only at h
  split at h
  · cases h
  split at h
  · cases h
  split at h
  · cases h
  · cases h
    exact ⟨Nat.le_add_right _ _, by omega⟩

/-- A scan does not depend on the fuel it has left over. -/
theorem scanFrom_fuel {minSeq fuel fuel' : Nat} {rest : Bytes} (h : rest.length ≤ fuel)
    (h' : rest.length ≤ fuel') :
    scanFrom crc minSeq fuel rest = scanFrom crc minSeq fuel' rest := by
  have hnil : ∀ fuel, scanFrom crc minSeq fuel [] = [] := by
    intro fuel
    cases fuel <;> rfl
  induction fuel generalizing fuel' rest with
  | zero => rw [length_eq_zero_iff.mp (Nat.le_zero.mp h), hnil, hnil]
  | succ fuel ih =>
    cases fuel' with
    | zero => rw [length_eq_zero_iff.mp (Nat.le_zero.mp h'), hnil, hnil]
    | succ fuel' =>
      simp only [scanFrom]
      split
      · rename_i r n hd
        obtain ⟨hn, hle⟩ := decode_bounds hd
        have hpos : 0 < n := lt_of_lt_of_le (by decide) hn
        have hlen : (rest.drop n).length + n = rest.length := by rw [length_drop]; omega
        have hrest : scanFrom crc minSeq fuel (rest.drop n) =
            scanFrom crc minSeq fuel' (rest.drop n) :=
          ih (by omega) (by omega)
        rw [hrest]
      · rfl
      · rfl

theorem scanWalRegion_nil (minSeq : Nat) : scanWalRegion crc [] minSeq = [] := rfl

/-- A record at the start is found, and the scan goes on behind it. -/
theorem scanWalRegion_encode {r : WalRecord} (h : r.Fits) (rest : Bytes) (minSeq : Nat) :
    scanWalRegion crc (encodeWalRecord crc r ++ rest) minSeq =
      if minSeq < r.seq then r :: scanWalRegion crc rest minSeq
        else scanWalRegion crc rest minSeq := by
  have hlen := length_encodeWalRecord crc r
  obtain ⟨fuel, hfuel⟩ : ∃ fuel, (encodeWalRecord crc r ++ rest).length = fuel + 1 :=
    ⟨_, (Nat.succ_pred_eq_of_pos (by rw [length_append, hlen, walRecordPrefixSize]; omega)).symm⟩
  have hrest : (if (encodeWalRecord crc r ++ rest).length ≤ (encodeWalRecord crc r).length then []
      else scanFrom crc minSeq fuel
        ((encodeWalRecord crc r ++ rest).drop (encodeWalRecord crc r).length)) =
        scanWalRegion crc rest minSeq := by
    rw [drop_left]
    split
    · rename_i hle
      rw [length_append] at hle
      rw [length_eq_zero_iff.mp (show rest.length = 0 by omega), scanWalRegion_nil]
    · refine scanFrom_fuel ?_ le_rfl
      rw [length_append, hlen, walRecordPrefixSize] at hfuel
      omega
  rw [scanWalRegion, hfuel, scanFrom, decode_encode h]
  dsimp only
  rw [hrest]

theorem scanWalRegion_encodeAll {rs : List WalRecord} (h : ∀ r ∈ rs, r.Fits) (rest : Bytes)
    (minSeq : Nat) :
    scanWalRegion crc (encodeAll crc rs ++ rest) minSeq =
      (rs.filter fun r => minSeq < r.seq) ++ scanWalRegion crc rest minSeq := by
  induction rs with
  | nil => rfl
  | cons r rs ih =>
    rw [encodeAll_cons, append_assoc, scanWalRegion_encode (h r mem_cons_self),
      ih fun s hs => h s (mem_cons_of_mem r hs), filter_cons]
    split <;> simp_all

/-- A record that the scan of `bs` comes to. -/
inductive Reaches (crc : Bytes → UInt32) : Bytes → WalRecord → Prop where
  | here {bs : Bytes} {r : WalRecord} {n : Nat} : decodeWalRecord crc bs = .ok (some (r, n)) →
    Reaches crc bs r
  | next {bs : Bytes} {r r' : WalRecord} {n : Nat} : decodeWalRecord crc bs = .ok (some (r', n)) →
      Reaches crc (bs.drop n) r → Reaches crc bs r

/-- Where the scan comes only to applied records it returns none. -/
theorem scanWalRegion_eq_nil {bs : Bytes} {minSeq : Nat} (h : ∀ r, Reaches crc bs r → r.seq ≤ minSeq) :
    scanWalRegion crc bs minSeq = [] := by
  have hscan : ∀ fuel bs, (∀ r, Reaches crc bs r → r.seq ≤ minSeq) →
      scanFrom crc minSeq fuel bs = [] := by
    intro fuel
    induction fuel with
    | zero => exact fun _ _ => rfl
    | succ fuel ih =>
      intro bs h
      rw [scanFrom]
      cases hd : decodeWalRecord crc bs with
      | error e => rfl
      | ok o =>
        cases o with
        | none => rfl
        | some p =>
          obtain ⟨r, n⟩ := p
          dsimp only
          rw [if_neg (not_lt.mpr (h r (.here hd)))]
          split
          · rfl
          · exact ih _ fun r hr => h r (.next hd hr)
  exact hscan _ bs h

/-- Nothing is found where no record decodes. -/
theorem scanWalRegion_of_not_decode {bs : Bytes} {minSeq : Nat}
    (h : ∀ p, decodeWalRecord crc bs ≠ .ok (some p)) : scanWalRegion crc bs minSeq = [] := by
  apply scanWalRegion_eq_nil
  intro r hr
  cases hr with
  | here hd => exact absurd hd (h _)
  | next hd _ => exact absurd hd (h _)

end Sfs.Wal

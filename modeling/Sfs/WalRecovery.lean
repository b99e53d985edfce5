import Sfs.Lib.Run
import Sfs.Wal

/-!
# Recovering the log

`write_async` appends records to the log region; a checkpoint raises `wal_applied_seq` in the
header and starts again at the beginning of the region, over the records of before. After a crash
the scan has to find the records since the last checkpoint and nothing else, and the next append
has to go on behind them under a sequence number that was never used.

Three things break this: bytes behind the current records that decode as a record
(`log_recovery_inexact`), which a payload can contain when it is stored in the clear; an append
that seals its payload and does not log it, because of a crash, of a checkpoint that fails or of
its size, whose number is used again; and a checkpoint that grows the container and then fails,
after which the header names a place that is lent to others.
-/

namespace Sfs.Wal

open Sfs.Lib
open List hiding Vector

/-- The log of an open container: the region where the allocator has it, `wal_applied_seq` of the
header and the `WalState` in memory. `left` is there after a growth and until the next header
commit: the bytes at the place that the header still names. The rest is what an observer notes:
the acknowledged records that are not applied, the sequence numbers a payload was sealed under,
and whether the last payload that was sealed is not in the log. -/
structure Log where
  region : Bytes
  applied : Nat
  writeCursor : Nat
  nextSeq : Nat
  left : Option Bytes
  acked : List WalRecord
  sealedSeqs : List Nat
  cutOff : Bool

open Log

/-- The log as `enable_wal` makes it. -/
def Log.enabled (applied : Nat) : Log :=
  ⟨replicate walRegionSize 0, applied, 0, applied + 1, none, [], [], false⟩

/-- What a call of `write_async` appends, but for the sequence number. -/
structure Append where
  uuid : Vector UInt8 16
  logicalOffset : Nat
  plaintextLen : Nat
  ciphertext : Bytes
  deriving DecidableEq, Repr

def Append.record (w : Append) (seq : Nat) : WalRecord :=
  ⟨seq, w.uuid, w.logicalOffset, w.plaintextLen, w.ciphertext⟩

/-- A checkpoint makes its header commit or fails before it. If its apply loop has grown the
container by then, the log is copied up with the tail and `left` is what stands at its old place,
which the allocator has lent. -/
inductive Outcome where
  | done
  | failed (left : Option Bytes)
  deriving DecidableEq, Repr

inductive LogOp where
  /-- with the outcome of the checkpoint that a full region needs -/
  | append (w : Append) (out : Outcome)
  | checkpoint (out : Outcome)
  | crash
  /-- a crash while a record is written of which the bytes `i` with `landed i` reach the disk -/
  | crashInAppend (w : Append) (landed : Nat → Bool)

/-- The bytes of a region after a torn write. -/
def torn (region : Bytes) (pos : Nat) (bs : Bytes) (landed : Nat → Bool) : Bytes :=
  region.mapIdx fun i b =>
    if pos ≤ i ∧ i < pos + bs.length ∧ landed (i - pos) = true then bs.getD (i - pos) 0 else b

namespace Log

/-- `checkpoint_inner`, the part that concerns the log. -/
def checkpoint (s : Log) : Outcome → Log
  | .done =>
    let maxSeq := if 1 < s.nextSeq then s.nextSeq - 1 else s.applied
    { s with
      applied := maxSeq
      writeCursor := 0
      left := none
      acked := s.acked.filter fun r => maxSeq < r.seq }
  | .failed left => { s with left := left.or s.left }

/-- The region at the place that the header names. -/
def named (s : Log) : Bytes := s.left.getD s.region

section

variable (crc : Bytes → UInt32)

/-- The record reaches the disk and the call returns. -/
def acknowledge (s : Log) (r : WalRecord) : Log :=
  { s with
    region := overlay s.region s.writeCursor (encodeWalRecord crc r)
    writeCursor := s.writeCursor + (encodeWalRecord crc r).length
    nextSeq := s.nextSeq + 1
    acked := s.acked ++ [r]
    cutOff := false }

/-- A payload is sealed under the next sequence number. -/
def sealNext (s : Log) : Log := { s with sealedSeqs := s.nextSeq :: s.sealedSeqs, cutOff := true }

/-- The record does not fit behind the current ones. -/
def Full (s : Log) (w : Append) : Prop :=
  walRegionSize < s.writeCursor + (encodeWalRecord crc (w.record s.nextSeq)).length

instance (s : Log) (w : Append) : Decidable (s.Full crc w) := inferInstanceAs (Decidable (_ < _))

/-- `write_async`. The payload is sealed first; a full region is checkpointed, and a record that
does not even fit the empty region is refused. -/
def append (s : Log) (w : Append) (out : Outcome) : Log :=
  let r := w.record s.nextSeq
  let sd := s.sealNext
  if s.Full crc w then
    match out with
    | .failed left => sd.checkpoint (.failed left)
    | .done =>
      if walRegionSize < (encodeWalRecord crc r).length then sd.checkpoint .done
      else (sd.checkpoint .done).acknowledge crc r
  else sd.acknowledge crc r

def recovered (s : Log) : List WalRecord := scanWalRegion crc s.named s.applied

/-- `replay_wal`. -/
def reopen (s : Log) : Log :=
  let records := s.recovered crc
  let s := { s with region := s.named, left := none }
  if records = [] then { s with writeCursor := 0, nextSeq := s.applied + 1 }
  else { s with
    writeCursor := (encodeAll crc records).length
    nextSeq := (records.map WalRecord.seq).foldl max s.applied + 1 }

/-- The log as a crash leaves it. -/
def crashed (s : Log) : LogOp → Log
  | .crashInAppend w landed => { s.sealNext with
      region := torn s.region s.writeCursor (encodeWalRecord crc (w.record s.nextSeq)) landed }
  | _ => s

def step (s : Log) : LogOp → Log
  | .append w out => s.append crc w out
  | .checkpoint out => s.checkpoint out
  | .crash => (s.crashed crc .crash).reopen crc
  | .crashInAppend w landed => (s.crashed crc (.crashInAppend w landed)).reopen crc

/-- What is asked of each step: an append leaves the records before it in place and takes a fresh
sequence number, and a crash loses and invents no record. -/
def Exact (s : Log) : LogOp → Prop
  | .append w out => encodeAll crc (s.append crc w out).acked <+: (s.append crc w out).region ∧
      s.nextSeq ∉ s.sealedSeqs
  | .checkpoint _ => True
  | .crash => (s.crashed crc .crash).recovered crc = s.acked
  | .crashInAppend w landed => (s.crashed crc (.crashInAppend w landed)).recovered crc = s.acked

/-- The arguments fit their types, the record that is cut off had room, and a torn record does not
pass for a record. One that reached the disk as a whole counts as acknowledged. -/
def Legal (s : Log) : LogOp → Prop
  | .append w _ => (w.record s.nextSeq).Fits
  | .checkpoint _ => True
  | .crash => True
  | .crashInAppend w landed =>
    s.writeCursor + (encodeWalRecord crc (w.record s.nextSeq)).length ≤ walRegionSize ∧
      ((s.crashed crc (.crashInAppend w landed)).region = s.region ∨
        ∀ p, decodeWalRecord crc
          ((s.crashed crc (.crashInAppend w landed)).region.drop s.writeCursor) ≠ .ok (some p))

/-- Behind the current records the region holds no record but applied ones. -/
def Clean (s : Log) : Prop := ∀ r, Reaches crc (s.region.drop s.writeCursor) r → r.seq ≤ s.applied

/-- An append does not follow one that sealed its payload and did not log it. A crash finds the log
at the place that the header names, and one that leaves the region as it is finds it clean. -/
def Safe (s : Log) : LogOp → Prop
  | .append _ _ => s.cutOff = false
  | .checkpoint _ => True
  | .crash => s.left = none ∧ s.Clean crc
  | .crashInAppend w landed => s.left = none ∧
      ((s.crashed crc (.crashInAppend w landed)).region = s.region → s.Clean crc)

end

/-! ## Invariant -/

/-- The region starts with the acknowledged records, which are numbered from `applied + 1` on. -/
structure Inv (crc : Bytes → UInt32) (s : Log) : Prop where
  size : s.region.length = walRegionSize
  logged : encodeAll crc s.acked <+: s.region
  cursor : s.writeCursor = (encodeAll crc s.acked).length
  fits : ∀ r ∈ s.acked, r.Fits
  seqs : s.acked.map WalRecord.seq = range' (s.applied + 1) s.acked.length
  next : s.nextSeq = s.applied + s.acked.length + 1
  sealed_le : ∀ q ∈ s.sealedSeqs, q ≤ s.nextSeq
  sealed_lt : s.cutOff = false → ∀ q ∈ s.sealedSeqs, q < s.nextSeq

variable {crc : Bytes → UInt32} {s : Log}

theorem Inv.enabled (applied : Nat) : Inv crc (enabled applied) where
  size := length_replicate
  logged := nil_prefix
  cursor := rfl
  fits := fun r hr => by cases hr
  seqs := rfl
  next := rfl
  sealed_le := fun q hq => by cases hq
  sealed_lt := fun _ q hq => by cases hq

theorem Inv.region_eq (h : Inv crc s) :
    s.region = encodeAll crc s.acked ++ s.region.drop s.writeCursor := by
  obtain ⟨rest, hrest⟩ := h.logged
  rw [h.cursor, ← hrest, drop_left]

theorem Inv.seq_gt (h : Inv crc s) {r : WalRecord} (hr : r ∈ s.acked) : s.applied < r.seq := by
  have hmem : r.seq ∈ s.acked.map WalRecord.seq := mem_map_of_mem hr
  rw [h.seqs, mem_range'_1] at hmem
  omega

theorem Inv.seq_lt (h : Inv crc s) {r : WalRecord} (hr : r ∈ s.acked) : r.seq < s.nextSeq := by
  have hmem : r.seq ∈ s.acked.map WalRecord.seq := mem_map_of_mem hr
  rw [h.seqs, mem_range'_1] at hmem
  have := h.next
  omega

theorem foldl_max_range' (a n : Nat) : (range' (a + 1) n).foldl max a = a + n := by
  induction n generalizing a with
  | zero => rfl
  | succ n ih =>
    rw [range'_succ, foldl_cons, max_eq_right (by omega), ih]
    omega

/-- If the records found are the acknowledged ones, the state after the open is the one before. -/
theorem Inv.reopen_eq (h : Inv crc s) (hleft : s.left = none) (hrec : s.recovered crc = s.acked) :
    s.reopen crc = s := by
  have hnext := h.next
  have hcur := h.cursor
  have hnamed : s.named = s.region := by rw [named, hleft, Option.getD_none]
  unfold reopen
  rw [hrec, hnamed]
  by_cases hnil : s.acked = []
  · cases s
    simp_all
  · rw [if_neg hnil, h.seqs, foldl_max_range']
    cases s
    simp_all

/-- The scan finds the acknowledged records, and goes on behind them. -/
theorem Inv.scan (h : Inv crc s) (rest : Bytes) :
    scanWalRegion crc (encodeAll crc s.acked ++ rest) s.applied =
      s.acked ++ scanWalRegion crc rest s.applied := by
  rw [scanWalRegion_encodeAll h.fits]
  congr 1
  apply filter_eq_self.mpr
  intro r hr
  simpa using h.seq_gt hr

theorem Inv.recovered_clean (h : Inv crc s) (hleft : s.left = none) (hc : s.Clean crc) :
    s.recovered crc = s.acked := by
  rw [recovered, named, hleft, Option.getD_none, h.region_eq, h.scan, scanWalRegion_eq_nil hc,
    append_nil]

/-! ## Steps -/

theorem Inv.sealNext (h : Inv crc s) : Inv crc s.sealNext := by
  refine ⟨h.size, h.logged, h.cursor, h.fits, h.seqs, h.next, fun q hq => ?_, fun hc => by cases hc⟩
  rcases mem_cons.mp hq with rfl | hq
  · exact le_rfl
  · exact h.sealed_le q hq

theorem Inv.checkpoint_done (h : Inv crc s) :
    (s.checkpoint .done).acked = [] ∧ Inv crc (s.checkpoint .done) := by
  have hnext := h.next
  have hmax : (if 1 < s.nextSeq then s.nextSeq - 1 else s.applied) = s.applied + s.acked.length := by
    split <;> omega
  have hnil : (s.checkpoint .done).acked = [] := by
    unfold Log.checkpoint
    dsimp only
    rw [hmax, filter_eq_nil_iff]
    intro r hr
    have := h.seq_lt hr
    simp only [decide_eq_true_eq]
    omega
  refine ⟨hnil, h.size, ?_, ?_, ?_, ?_, ?_, h.sealed_le, h.sealed_lt⟩
  · rw [hnil]
    exact nil_prefix
  · rw [hnil]
    rfl
  · rw [hnil]
    exact fun r hr => by cases hr
  · rw [hnil]
    rfl
  · rw [hnil]
    show s.nextSeq = (if 1 < s.nextSeq then s.nextSeq - 1 else s.applied) + 0 + 1
    omega

theorem Inv.congr_left (h : Inv crc s) (left : Option Bytes) : Inv crc { s with left } :=
  ⟨h.size, h.logged, h.cursor, h.fits, h.seqs, h.next, h.sealed_le, h.sealed_lt⟩

theorem Inv.checkpoint (h : Inv crc s) (out : Outcome) : Inv crc (s.checkpoint out) := by
  cases out with
  | done => exact h.checkpoint_done.2
  | failed left => exact h.congr_left _

/-- A record with room behind the current ones is laid down there. -/
theorem Inv.acknowledge {r : WalRecord} (h : Inv crc s) (hfit : r.Fits) (hseq : r.seq = s.nextSeq)
    (hroom : s.writeCursor + (encodeWalRecord crc r).length ≤ walRegionSize) :
    Inv crc (s.acknowledge crc r) := by
  have hregion : overlay s.region s.writeCursor (encodeWalRecord crc r) =
      encodeAll crc (s.acked ++ [r]) ++
        s.region.drop (s.writeCursor + (encodeWalRecord crc r).length) := by
    have htake : s.region.take s.writeCursor = encodeAll crc s.acked := by
      rw [h.region_eq, h.cursor, take_left]
    rw [overlay, htake, encodeAll_append, encodeAll_cons, encodeAll_nil, append_nil]
  have hsealed : ∀ q ∈ s.sealedSeqs, q < s.nextSeq + 1 := by
    intro q hq
    have := h.sealed_le q hq
    omega
  refine ⟨?_, ⟨_, hregion.symm⟩, ?_, ?_, ?_, ?_, fun q hq => le_of_lt (hsealed q hq), fun _ => hsealed⟩
  · have hle : s.writeCursor + (encodeWalRecord crc r).length ≤ s.region.length := by rwa [h.size]
    exact (length_overlay hle).trans h.size
  · show s.writeCursor + (encodeWalRecord crc r).length = (encodeAll crc (s.acked ++ [r])).length
    rw [encodeAll_append, length_append, ← h.cursor, encodeAll_cons, encodeAll_nil, append_nil]
  · intro r' hr'
    rcases mem_append.mp hr' with hr' | hr'
    · exact h.fits r' hr'
    · cases mem_singleton.mp hr'
      exact hfit
  · show (s.acked ++ [r]).map WalRecord.seq = range' (s.applied + 1) (s.acked ++ [r]).length
    rw [map_append, h.seqs, length_append, length_singleton, range'_concat, map_singleton,
      hseq, h.next, one_mul, Nat.add_right_comm]
  · show s.nextSeq + 1 = s.applied + (s.acked ++ [r]).length + 1
    rw [length_append, length_singleton, h.next, add_assoc s.applied]

/-- An append fails in the checkpoint of a full region, empties the log and is refused, or lays its
record behind the ones that are left. -/
theorem append_cases (crc : Bytes → UInt32) (s : Log) (w : Append) (out : Outcome) :
    (∃ left, s.Full crc w ∧ out = .failed left ∧
      s.append crc w out = s.sealNext.checkpoint (.failed left)) ∨
    (s.Full crc w ∧ out = .done ∧ walRegionSize < (encodeWalRecord crc (w.record s.nextSeq)).length ∧
      s.append crc w out = s.sealNext.checkpoint .done) ∨
    (s.Full crc w ∧ out = .done ∧ (encodeWalRecord crc (w.record s.nextSeq)).length ≤ walRegionSize ∧
      s.append crc w out = (s.sealNext.checkpoint .done).acknowledge crc (w.record s.nextSeq)) ∨
    (¬ s.Full crc w ∧ s.append crc w out = s.sealNext.acknowledge crc (w.record s.nextSeq)) := by
  unfold Log.append
  dsimp only
  split
  · rename_i hfull
    cases out with
    | failed left => exact .inl ⟨left, hfull, rfl, rfl⟩
    | done =>
      dsimp only
      split
      · rename_i hbig
        exact .inr (.inl ⟨hfull, rfl, hbig, rfl⟩)
      · rename_i hfits
        exact .inr (.inr (.inl ⟨hfull, rfl, not_lt.mp hfits, rfl⟩))
  · rename_i hroom
    exact .inr (.inr (.inr ⟨hroom, rfl⟩))

theorem Inv.append {w : Append} {out : Outcome} (h : Inv crc s)
    (hl : s.Legal crc (.append w out)) : Inv crc (s.append crc w out) := by
  rcases append_cases crc s w out with
    ⟨left, -, -, he⟩ | ⟨-, -, -, he⟩ | ⟨-, -, hfits, he⟩ | ⟨hroom, he⟩ <;> rw [he]
  · exact h.sealNext.checkpoint _
  · exact h.sealNext.checkpoint _
  · refine (h.sealNext.checkpoint .done).acknowledge hl rfl ?_
    rw [show (s.sealNext.checkpoint .done).writeCursor = 0 from rfl, Nat.zero_add]
    exact hfits
  · exact h.sealNext.acknowledge hl rfl (not_lt.mp hroom)

theorem Inv.exact_append {w : Append} {out : Outcome} (h : Inv crc s)
    (hl : s.Legal crc (.append w out)) (hs : s.Safe crc (.append w out)) :
    s.Exact crc (.append w out) :=
  ⟨(h.append hl).logged, fun hmem => lt_irrefl _ (h.sealed_lt hs _ hmem)⟩

theorem length_torn (region : Bytes) (pos : Nat) (bs : Bytes) (landed : Nat → Bool) :
    (torn region pos bs landed).length = region.length := by
  simp [torn]

theorem take_torn (region : Bytes) (pos : Nat) (bs : Bytes) (landed : Nat → Bool) :
    (torn region pos bs landed).take pos = region.take pos := by
  apply ext_getElem
  · simp [length_torn]
  intro i h1 h2
  have hi : i < pos := by
    simp only [length_take] at h2
    omega
  simp only [torn, getElem_take, getElem_mapIdx]
  rw [if_neg (by omega)]

theorem Inv.crashed (h : Inv crc s) (w : Append) (landed : Nat → Bool) :
    Inv crc (s.crashed crc (.crashInAppend w landed)) := by
  have hsealed := h.sealNext
  refine ⟨(length_torn _ _ _ _).trans h.size, ?_, h.cursor, h.fits, h.seqs, h.next,
    hsealed.sealed_le, hsealed.sealed_lt⟩
  have htake : (torn s.region s.writeCursor (encodeWalRecord crc (w.record s.nextSeq)) landed).take
      s.writeCursor = encodeAll crc s.acked := by
    rw [take_torn, h.region_eq, h.cursor, take_left]
  show encodeAll crc s.acked <+:
    torn s.region s.writeCursor (encodeWalRecord crc (w.record s.nextSeq)) landed
  rw [← htake]
  exact take_prefix _ _

theorem Inv.recovered_crashed {w : Append} {landed : Nat → Bool} (h : Inv crc s)
    (hl : s.Legal crc (.crashInAppend w landed)) (hs : s.Safe crc (.crashInAppend w landed)) :
    (s.crashed crc (.crashInAppend w landed)).recovered crc = s.acked := by
  have hinv := h.crashed w landed
  have hleft : (s.crashed crc (.crashInAppend w landed)).left = none := hs.1
  rcases hl.2 with hsame | hno
  · refine hinv.recovered_clean hleft fun r hr => ?_
    rw [hsame] at hr
    exact hs.2 hsame r hr
  · rw [recovered, named, hleft, Option.getD_none, hinv.region_eq, hinv.scan]
    exact (congrArg _ (scanWalRegion_of_not_decode hno)).trans (append_nil _)

theorem Inv.step (h : Inv crc s) {op : LogOp} (hl : s.Legal crc op) (hs : s.Safe crc op) :
    Inv crc (s.step crc op) ∧ s.Exact crc op := by
  cases op with
  | append w out => exact ⟨h.append hl, h.exact_append hl hs⟩
  | checkpoint out => exact ⟨h.checkpoint out, trivial⟩
  | crash =>
    have hrec := h.recovered_clean hs.1 hs.2
    refine ⟨?_, hrec⟩
    show Inv crc (s.reopen crc)
    rw [h.reopen_eq hs.1 hrec]
    exact h
  | crashInAppend w landed =>
    have hrec := h.recovered_crashed hl hs
    refine ⟨?_, hrec⟩
    show Inv crc ((s.crashed crc (.crashInAppend w landed)).reopen crc)
    rw [(h.crashed w landed).reopen_eq hs.1 hrec]
    exact h.crashed w landed

end Log

/-! ## Empty space -/

theorem not_decode_of_magic {crc : Bytes → UInt32} {bs : Bytes} (h : bs.take 8 ≠ walMagic)
    (p : WalRecord × Nat) : decodeWalRecord crc bs ≠ .ok (some p) := by
  unfold decodeWalRecord
  split
  · simp
  have hmagic : (bs.take walRecordHeaderSize).take 8 ≠ walMagic := by
    rwa [take_take, min_eq_left (by decide)]
  rw [if_pos hmagic]
  simp

theorem not_decode_zeros {crc : Bytes → UInt32} (n : Nat) (p : WalRecord × Nat) :
    decodeWalRecord crc (replicate n 0) ≠ .ok (some p) := by
  apply not_decode_of_magic
  intro h
  have hmem : (0x73 : UInt8) ∈ (replicate n (0 : UInt8)).take 8 := by
    rw [h]
    exact mem_cons_self
  exact absurd (eq_of_mem_replicate (mem_of_mem_take hmem)) (by decide)

namespace Log

theorem append_of_room {crc : Bytes → UInt32} {s : Log} {w : Append} (out : Outcome)
    (h : s.writeCursor + (encodeWalRecord crc (w.record s.nextSeq)).length ≤ walRegionSize) :
    s.append crc w out = s.sealNext.acknowledge crc (w.record s.nextSeq) :=
  if_neg (not_lt.mpr h)

end Log

/-- A write of one byte whose sealed payload is `ct`. -/
def byteWrite (ct : Bytes) : Append := ⟨Vector.replicate 16 0, 0, 1, ct⟩

theorem length_byteWrite (crc : Bytes → UInt32) (seq : Nat) (ct : Bytes) :
    (encodeWalRecord crc ((byteWrite ct).record seq)).length = 52 + ct.length :=
      length_encodeWalRecord crc _

theorem fits_byteWrite {seq : Nat} {ct : Bytes} (hseq : seq < 2 ^ 64) (hct : ct.length < 2 ^ 32) :
    ((byteWrite ct).record seq).Fits :=
      ⟨hseq, by simp [byteWrite, Append.record], by simp [byteWrite, Append.record], hct⟩

/-- The first record of a log. -/
theorem append_enabled (crc : Bytes → UInt32) {w : Append}
    (h : 52 + w.ciphertext.length ≤ walRegionSize) :
    (enabled 0).append crc w .done =
      ⟨encodeWalRecord crc (w.record 1) ++
          replicate (walRegionSize - (52 + w.ciphertext.length)) 0, 0,
        52 + w.ciphertext.length, 2, none, [w.record 1], [1], false⟩ := by
  have hlen : (encodeWalRecord crc (w.record 1)).length = 52 + w.ciphertext.length :=
    length_encodeWalRecord crc _
  have hroom : (enabled 0).writeCursor +
      (encodeWalRecord crc (w.record (enabled 0).nextSeq)).length ≤ walRegionSize := by
    show 0 + (encodeWalRecord crc (w.record 1)).length ≤ walRegionSize
    omega
  rw [append_of_room _ hroom]
  unfold acknowledge sealNext enabled
  simp only [overlay, zero_add, take_zero, nil_append, drop_replicate, hlen]

/-- Two records, a checkpoint, and a third record as long as the first: behind it stands the second
one, which is applied. -/
theorem reused_region (crc : Bytes → UInt32) (w₁ w₂ w₃ : Append)
    (h₁₃ : w₁.ciphertext.length = w₃.ciphertext.length)
    (h : 104 + w₁.ciphertext.length + w₂.ciphertext.length ≤ walRegionSize) :
    run (Log.step crc) (enabled 0)
        [.append w₁ .done, .append w₂ .done, .checkpoint .done, .append w₃ .done] =
      ⟨encodeWalRecord crc (w₃.record 3) ++ (encodeWalRecord crc (w₂.record 2) ++
          replicate (walRegionSize - (104 + w₁.ciphertext.length + w₂.ciphertext.length)) 0),
        2, 52 + w₁.ciphertext.length, 4, none, [w₃.record 3], [3, 2, 1], false⟩ := by
  have hlen : ∀ (w : Append) (q : Nat), (encodeWalRecord crc (w.record q)).length =
      52 + w.ciphertext.length := fun w q => length_encodeWalRecord crc _
  show ((((enabled 0).append crc w₁ .done).append crc w₂ .done).checkpoint .done).append crc w₃
    .done = _
  have hroom : (52 + w₁.ciphertext.length) + (encodeWalRecord crc (w₂.record 2)).length ≤
      walRegionSize := by
    rw [hlen]
    omega
  have hroom' : 0 + (encodeWalRecord crc (w₃.record 3)).length ≤ walRegionSize := by
    rw [hlen]
    omega
  rw [append_enabled crc (by omega)]
  refine (congrArg (fun s : Log => (s.checkpoint .done).append crc w₃ .done)
    (append_of_room _ hroom)).trans ((append_of_room _ hroom').trans ?_)
  · unfold acknowledge sealNext checkpoint
    have htake : (encodeWalRecord crc (w₁.record 1) ++
        replicate (walRegionSize - (52 + w₁.ciphertext.length)) (0 : UInt8)).take
          (52 + w₁.ciphertext.length) = encodeWalRecord crc (w₁.record 1) := take_left' (hlen w₁ 1)
    have hdrop : (encodeWalRecord crc (w₁.record 1) ++
        replicate (walRegionSize - (52 + w₁.ciphertext.length)) (0 : UInt8)).drop
          (52 + w₁.ciphertext.length + (52 + w₂.ciphertext.length)) =
        replicate (walRegionSize - (104 + w₁.ciphertext.length + w₂.ciphertext.length)) 0 := by
      rw [← drop_drop, drop_left' (hlen w₁ 1), drop_replicate]
      congr 1
      omega
    simp only [overlay, hlen, take_zero, nil_append, zero_add, ← h₁₃, htake, hdrop]
    rw [append_assoc, drop_left' (hlen w₁ 1)]
    rfl

/-- An applied record and then nothing. -/
theorem clean_applied {crc : Bytes → UInt32} {r : WalRecord} (hfits : r.Fits) {n applied : Nat}
    (hseq : r.seq ≤ applied) :
    ∀ r', Reaches crc (encodeWalRecord crc r ++ replicate n 0) r' → r'.seq ≤ applied := by
  intro r' hr'
  have hd : decodeWalRecord crc (encodeWalRecord crc r ++ replicate n 0) =
      .ok (some (r, (encodeWalRecord crc r).length)) := decode_encode hfits _
  cases hr' with
  | here hd' =>
    rw [hd] at hd'
    cases hd'
    exact hseq
  | next hd' hrest =>
    rw [hd] at hd'
    cases hd'
    rw [drop_left] at hrest
    cases hrest with
    | here hz => exact absurd hz (not_decode_zeros _ _)
    | next hz _ => exact absurd hz (not_decode_zeros _ _)

theorem torn_none (region : Bytes) (pos : Nat) (bs : Bytes) :
    torn region pos bs (fun _ => false) = region := by
  apply ext_getElem
  · exact length_torn _ _ _ _
  · simp [torn]

theorem region_crashed_none (crc : Bytes → UInt32) (s : Log) (a : Append) :
    (s.crashed crc (.crashInAppend a fun _ => false)).region = s.region := by
  exact torn_none _ _ _

/-- A record that no call wrote. -/
def forged : WalRecord := (byteWrite [5]).record 9

theorem scan_zeros (crc : Bytes → UInt32) (n minSeq : Nat) :
    scanWalRegion crc (replicate n 0) minSeq = [] :=
  scanWalRegion_of_not_decode (not_decode_zeros n)

/-- After a crash that cuts off the first record, its number is the next one. -/
theorem crashInAppend_enabled :
    (enabled 0).step crc32 (.crashInAppend (byteWrite [7]) fun _ => false) =
      ⟨replicate walRegionSize 0, 0, 0, 1, none, [], [1], true⟩ := by
  have hnamed : ((enabled 0).crashed crc32 (.crashInAppend (byteWrite [7]) fun _ => false)).named =
      replicate walRegionSize 0 := by
    unfold named crashed sealNext enabled
    dsimp only
    rw [Option.getD_none, torn_none]
  have hrec : ((enabled 0).crashed crc32 (.crashInAppend (byteWrite [7]) fun _ => false)).recovered
      crc32 = [] := by
    rw [recovered, hnamed]
    exact scan_zeros crc32 _ _
  unfold Log.step reopen
  dsimp only
  rw [if_pos hrec, hnamed]
  rfl

/-- A payload that is applied, behind the record that overwrites its start. -/
theorem byteWrite_after_checkpoint (payload : Bytes) (h : 53 + payload.length ≤ walRegionSize) :
    run (Log.step crc32) (enabled 0) [.append (byteWrite (0 :: payload)) .done, .checkpoint .done,
        .append (byteWrite [0]) .done] =
      ⟨encodeWalRecord crc32 ((byteWrite [0]).record 2) ++
          (payload ++ replicate (walRegionSize - (53 + payload.length)) 0),
        1, 53, 3, none, [(byteWrite [0]).record 2], [2, 1], false⟩ := by
  have hlen := length_byteWrite crc32 2 [0]
  have hct : 52 + (byteWrite (0 :: payload)).ciphertext.length = 53 + payload.length := by
    show 52 + (0 :: payload).length = 53 + payload.length
    rw [length_cons]
    omega
  have hdrop : ∀ zeros, (encodeWalRecord crc32 ((byteWrite (0 :: payload)).record 1) ++ zeros).drop
      53 = payload ++ zeros := by
    intro zeros
    have hsplit : encodeWalRecord crc32 ((byteWrite (0 :: payload)).record 1) =
        (((byteWrite (0 :: payload)).record 1).header ++
          (leU32 (crc32 (((byteWrite (0 :: payload)).record 1).header ++ 0 :: payload)) ++ [0])) ++
            payload := by
      simp [encodeWalRecord, byteWrite, Append.record]
    rw [hsplit, append_assoc]
    apply drop_left'
    simp [length_header, walRecordHeaderSize]
  show (((enabled 0).append crc32 (byteWrite (0 :: payload)) .done).checkpoint .done).append crc32
    (byteWrite [0]) .done = _
  rw [append_enabled crc32 (hct ▸ h), append_of_room]
  · unfold acknowledge sealNext checkpoint
    simp only [overlay, hlen, take_zero, nil_append, zero_add, hct]
    rfl
  · show 0 + (encodeWalRecord crc32 ((byteWrite [0]).record 2)).length ≤ walRegionSize
    decide

end Sfs.Wal

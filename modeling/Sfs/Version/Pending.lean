import Sfs.Lib.Patch
import Sfs.Version.History
import Sfs.Version.FileBytes
import Sfs.WalRecovery

/-!
# Reading through pending writes

An asynchronous write goes to the log and to an overlay that reads lay over the committed
content; a checkpoint applies the overlay to the content in one header commit. The overlay is a
map from offsets, so it forgets in which order the writes were made, and it lies over every
synchronous operation, also over later ones.

A read shows the operations in call order as long as each one is `Orderly`: it does not reach
under a pending write that has to yield to it. After a crash the overlay is built from the records
that the scan of the log region finds, so the region must also be `Recoverable`.
-/

namespace Sfs.Version

open Sfs.Lib Patch
open List hiding Vector

variable {o j newSize : Nat} {d out : Bytes} {ws : List Patch}

/-! ## The overlay on a read -/

/-- `apply_overlay_to_read`, for a read of `len` bytes at `readOffset`. -/
def applyOverlayToRead (readOffset len : Nat) : List Patch → Bytes → Bytes
  | [], out => out
  | (o, d) :: rest, out =>
    if readOffset + len ≤ o ∨ o + d.length ≤ readOffset then applyOverlayToRead readOffset len rest out
    else
      let copyStart := max readOffset o
      let copyEnd := min (readOffset + len) (o + d.length)
      if copyEnd ≤ copyStart then applyOverlayToRead readOffset len rest out
      else
        let dst := copyStart - readOffset
        let n := copyEnd - copyStart
        let out := if out.length < dst + n then resize (dst + n) out else out
        applyOverlayToRead readOffset len rest (overlay out dst (slice (copyStart - o) n d))

/-- `read`. -/
def UnitState.read (u : UnitState) : Bytes := applyOverlayFull u.overlay (Version.read u.head.stream)

/-- `read_at`; what its loop over the fragments returns is the window of the content. -/
def UnitState.readAt (u : UnitState) (offset len : Nat) : Bytes :=
  if len = 0 then []
  else
    let s := u.head.stream
    let out := if s.byteLen ≤ offset then []
      else slice offset (min len (s.byteLen - offset)) (Version.read s)
    applyOverlayToRead offset len u.overlay out

theorem overlay_resize (o : Nat) (d out : Bytes) :
    overlay (if out.length < o + d.length then resize (o + d.length) out else out) o d =
      splice o d out := by
  congr 1
  split
  · rw [max_eq_right (by omega)]
  · rw [max_eq_left (by omega), resize, take_length, Nat.sub_self, replicate_zero, append_nil]

theorem applyOverlayFull_cons (w : Patch) (ws : List Patch) (out : Bytes) :
    applyOverlayFull (w :: ws) out = applyOverlayFull ws (splice w.1 w.2 out) := by
  rw [applyOverlayFull]
  simp only [overlay_resize]

theorem applyOverlayFull_eq (ws : List Patch) (out : Bytes) :
    applyOverlayFull ws out = spliced ws out := by
  induction ws generalizing out with
  | nil => rfl
  | cons w ws ih =>
    rw [applyOverlayFull_cons, ih]
    rfl

section

variable {off len : Nat}

/-- What one write does to the window, in terms of the file. -/
theorem getD_splice_window (h₁ : o < off + len) (h₂ : off < o + d.length) (hj : j < len) :
    (splice (max off o - off) (slice (max off o - o) (min (off + len) (o + d.length) - max off o) d)
      out).getD j 0 =
      patch (o, d) (fun i => out.getD (i - off) 0) (off + j) := by
  have hlen : (slice (max off o - o) (min (off + len) (o + d.length) - max off o) d).length =
      min (off + len) (o + d.length) - max off o := length_slice (by omega)
  have h := congrFun (getD_splice (max off o - off)
    (slice (max off o - o) (min (off + len) (o + d.length) - max off o) d) out) j
  refine h.trans ?_
  by_cases hc : o ≤ off + j ∧ off + j < o + d.length
  · rw [patch_of_covers (w := (o, d)) hc, patch_of_covers, getD_slice, if_pos (by dsimp only; omega)]
    · congr 1
      dsimp only
      omega
    · refine ⟨by dsimp only; omega, ?_⟩
      rw [stop, hlen]
      omega
  · rw [patch_of_not_covers (w := (o, d)) hc, patch_of_not_covers, Nat.add_sub_cancel_left]
    rintro ⟨h1, h2⟩
    rw [stop, hlen] at h2
    dsimp only at h1 h2
    omega

theorem applyOverlayToRead_cons_skip {w : Patch} (h : off + len ≤ w.1 ∨ w.stop ≤ off) :
    applyOverlayToRead off len (w :: ws) out = applyOverlayToRead off len ws out := by
  exact if_pos h

theorem applyOverlayToRead_cons (hd : d ≠ []) (hlen : 0 < len) (h₁ : o < off + len)
    (h₂ : off < o + d.length) :
    applyOverlayToRead off len ((o, d) :: ws) out = applyOverlayToRead off len ws
      (splice (max off o - off)
        (slice (max off o - o) (min (off + len) (o + d.length) - max off o) d) out) := by
  have hpos := length_pos_iff.mpr hd
  have hs : (slice (max off o - o) (min (off + len) (o + d.length) - max off o) d).length =
      min (off + len) (o + d.length) - max off o := length_slice (by omega)
  rw [applyOverlayToRead, if_neg (by omega)]
  rw [if_neg (by omega), ← overlay_resize, hs]

theorem getD_applyOverlayToRead (hne : ∀ w ∈ ws, w.2 ≠ []) (out : Bytes) (hj : j < len) :
    (applyOverlayToRead off len ws out).getD j 0 =
      patches ws (fun i => out.getD (i - off) 0) (off + j) := by
  induction ws generalizing out with
  | nil => rw [patches_nil, Nat.add_sub_cancel_left, applyOverlayToRead]
  | cons w ws ih =>
    have ih := fun out => ih (fun v hv => hne v (mem_cons_of_mem w hv)) out
    rw [patches_cons]
    by_cases hs : off + len ≤ w.1 ∨ w.stop ≤ off
    · rw [applyOverlayToRead_cons_skip hs, ih]
      refine patches_congr fun _ => ?_
      rw [patch_of_not_covers]
      unfold Patch.Covers
      omega
    obtain ⟨o, d⟩ := w
    have h₁ : o < off + len := by omega
    have h₂ : off < o + d.length := by
      simp only [stop] at hs
      omega
    rw [applyOverlayToRead_cons (hne _ mem_cons_self) (by omega) h₁ h₂, ih]
    refine patches_congr fun _ => ?_
    dsimp only
    rw [Nat.add_sub_cancel_left]
    exact getD_splice_window h₁ h₂ hj

theorem lt_length_applyOverlayToRead (hne : ∀ w ∈ ws, w.2 ≠ []) (out : Bytes)
    (hlen : 0 < len) :
    j < (applyOverlayToRead off len ws out).length ↔
      j < out.length ∨ j < len ∧ ∃ w ∈ ws, w.1 < off + len ∧ off + j < w.stop := by
  induction ws generalizing out with
  | nil => simp [applyOverlayToRead]
  | cons w ws ih =>
    have ih := fun out => ih (fun v hv => hne v (mem_cons_of_mem w hv)) out
    simp only [mem_cons, exists_eq_or_imp]
    by_cases hs : off + len ≤ w.1 ∨ w.stop ≤ off
    · rw [applyOverlayToRead_cons_skip hs, ih]
      have hw : ¬ (w.1 < off + len ∧ off + j < w.stop) := by omega
      simp only [hw, false_or]
    obtain ⟨o, d⟩ := w
    have h₁ : o < off + len := by omega
    have h₂ : off < o + d.length := by
      simp only [stop] at hs
      omega
    have hl : (slice (max off o - o) (min (off + len) (o + d.length) - max off o) d).length =
        min (off + len) (o + d.length) - max off o := length_slice (by omega)
    rw [applyOverlayToRead_cons (hne _ mem_cons_self) hlen h₁ h₂, ih, length_splice, hl]
    have hd := length_pos_iff.mpr (hne _ mem_cons_self)
    have hw : j < max out.length (max off o - off + (min (off + len) (o + d.length) - max off o)) ↔
        j < out.length ∨ j < len ∧ off + j < o + d.length := by
      dsimp only at hd
      omega
    simp only [hw, h₁, true_and, stop]
    tauto

/-- A whole window keeps its length. -/
theorem applyOverlay_window {n : Nat} (out : Bytes) (hout : out.length = n) :
    (applyOverlay n ws out).length = n ∧
      ∀ i, i < n → (applyOverlay n ws out).getD i 0 = patches ws (fun i => out.getD i 0) i := by
  induction ws generalizing out with
  | nil => exact ⟨hout, fun _ _ => rfl⟩
  | cons w ws ih =>
    obtain ⟨o, d⟩ := w
    simp only [applyOverlay]
    by_cases ho : n ≤ o
    · rw [if_pos ho]
      refine ⟨(ih out hout).1, fun i hi => ?_⟩
      rw [(ih out hout).2 i hi, patches_cons]
      refine patches_congr fun _ => ?_
      rw [patch_of_not_covers]
      unfold Patch.Covers
      dsimp only
      omega
    · rw [if_neg ho, if_neg (by omega)]
      have hl : (d.take (min n (o + d.length) - o)).length = min n (o + d.length) - o := by
        rw [length_take]
        omega
      have hfit : o + (d.take (min n (o + d.length) - o)).length ≤ out.length := by omega
      have hout' := (length_overlay hfit).trans hout
      refine ⟨(ih _ hout').1, fun i hi => ?_⟩
      rw [(ih _ hout').2 i hi, patches_cons]
      refine patches_congr fun _ => ?_
      rw [getD_overlay hfit, hl]
      by_cases hc : o ≤ i ∧ i < o + d.length
      · rw [patch_of_covers (w := (o, d)) hc, if_pos (by omega)]
        simp only [getD_eq_getElem?_getD]
        rw [getElem?_take_of_lt (by omega)]
      · rw [patch_of_not_covers (w := (o, d)) hc, if_neg (by omega)]

end

/-! ## A unit, its header and its log -/

/-- The CRC of the log records and the suite that seals their payloads, under the unit and the
sequence number. -/
structure WalCodec where
  crc : Bytes → UInt32
  seals : Vector UInt8 16 → Nat → Bytes → Bytes
  opens : Vector UInt8 16 → Nat → Bytes → Option Bytes
  opens_seals : ∀ u seq plain, opens u seq (seals u seq plain) = some plain

/-- What `write_async` appends. -/
def WalCodec.append (c : WalCodec) (suite : Suite) (u : Vector UInt8 16) (seq offset : Nat)
    (data : Bytes) : Wal.Append :=
  ⟨u, offset, data.length, c.seals u seq (padToMin suite data)⟩

/-- The overlay of `u` that `replay_wal` builds. -/
def WalCodec.replay (c : WalCodec) (u : Vector UInt8 16) :
    List Wal.WalRecord → List Patch → Result (List Patch)
  | [], ov => .ok ov
  | r :: rs, ov =>
    match c.opens r.uuid r.seq r.ciphertext with
    | none => .error (.integrity "WAL replay: decrypt failed")
    | some plain => c.replay u rs
        (if r.uuid = u then insertWrite r.logicalOffset (plain.take r.plaintextLen) ov else ov)

/-- A unit in memory, the record the header names with its parents, and the log. -/
structure AsyncUnit where
  uuid : Vector UInt8 16
  mem : UnitState
  head : UnitRecord
  past : List UnitRecord
  log : Wal.Log

open AsyncUnit

/-- What the storage does to a checkpoint: whether its header commit fails, and what is left at the
place of the log that the header names if the apply loop grows the container. -/
structure CheckpointIO where
  fault : Option Error
  left : Option Bytes
  deriving DecidableEq, Repr

def CheckpointIO.sound : CheckpointIO := ⟨none, none⟩

def CheckpointIO.outcome (io : CheckpointIO) : Result Unit → Wal.Outcome
  | .ok _ => .done
  | .error _ => .failed io.left

inductive AsyncOp where
  | edit (e : Edit)
  /-- with the storage for the checkpoint of a full log region -/
  | writeAsync (offset : Nat) (data : Bytes) (io : CheckpointIO)
  | checkpoint (io : CheckpointIO)
  | reopen
  deriving DecidableEq, Repr

def Edit.op : Edit → ContentOp
  | .write offset data => .write offset data
  | .truncate newSize => .truncate newSize
  | .extend newSize => .extend newSize

namespace AsyncUnit

/-- A file as a header commit left it, with nothing pending. -/
def committed (u : Vector UInt8 16) (r : UnitRecord) (past : List UnitRecord) (applied : Nat) :
    AsyncUnit :=
  ⟨u, ⟨r, past, []⟩, r, past, .enabled applied⟩

/-- A header commit; it names the log where the allocator has it. -/
def publish (a : AsyncUnit) : AsyncUnit :=
  { a with head := a.mem.head, past := a.mem.past, log := { a.log with left := none } }

section

variable (c : WalCodec) (padBlocks : Bool) (suite : Suite) (host : HostAlias)

/-- The apply loop of a checkpoint and its header commit, but for the log. -/
def settle (a : AsyncUnit) (io : CheckpointIO) : AsyncUnit × Result Unit :=
  match checkpoint padBlocks suite host a.mem with
  | (u, .error err) => ({ a with mem := u }, .error err)
  | (u, .ok _) =>
    match io.fault with
    | some err => ({ a with mem := { u with overlay := a.mem.overlay } }, .error err)
    | none => ({ a with mem := u, head := u.head, past := u.past }, .ok ())

/-- A call outside a batch, or a crash and the open after it. -/
def step (a : AsyncUnit) : AsyncOp → AsyncUnit × Result Unit
  | .edit e =>
    match stage padBlocks suite host a.mem.head a.mem.overlay e.op with
    | .error err => (a, .error err)
    | .ok none => (a, .ok ())
    | .ok (some st) => (publish { a with mem := a.mem.push st.stream }, .ok ())
  | .writeAsync offset data io =>
    if data = [] then (a, .error (.integrity "write_async: empty data"))
    else
      let w := c.append suite a.uuid a.log.nextSeq offset data
      let x := if a.log.Full c.crc w then a.settle padBlocks suite host io else (a, .ok ())
      let log := a.log.append c.crc w (io.outcome x.2)
      match x.2 with
      | .error err => ({ x.1 with log }, .error err)
      | .ok _ =>
        if Wal.walRegionSize < (Wal.encodeWalRecord c.crc (w.record a.log.nextSeq)).length then
          ({ x.1 with log }, .error (.integrity "write_async: WAL record too large for WAL region"))
        else
          let overlay := insertWrite offset data x.1.mem.overlay
          ({ x.1 with mem := { x.1.mem with overlay }, log }, .ok ())
  | .checkpoint io =>
    let x := a.settle padBlocks suite host io
    ({ x.1 with log := a.log.checkpoint (io.outcome x.2) }, x.2)
  | .reopen =>
    match c.replay a.uuid (a.log.recovered c.crc) [] with
    | .error err => (a, .error err)
    | .ok overlay =>
      ({ a with mem := ⟨a.head, a.past, overlay⟩, log := a.log.reopen c.crc }, .ok ())

end

end AsyncUnit

/-! ## The file the calls describe -/

def Edit.file (b : Bytes) : Edit → Bytes
  | .write offset data => splice offset data b
  | .truncate newSize => b.take newSize
  | .extend newSize => resize (max b.length newSize) b

def AsyncOp.file (b : Bytes) : AsyncOp → Bytes
  | .edit e => e.file b
  | .writeAsync offset data _ => splice offset data b
  | .checkpoint _ => b
  | .reopen => b

/-- The unit, and beside it the file after all calls that returned `Ok`. -/
def AsyncUnit.traced (c : WalCodec) (padBlocks : Bool) (suite : Suite) (host : HostAlias)
    (p : AsyncUnit × Bytes) (op : AsyncOp) : AsyncUnit × Bytes :=
  match p.1.step c padBlocks suite host op with
  | (a, .ok _) => (a, op.file p.2)
  | (a, .error _) => (a, p.2)

/-- The operation agrees with the pending writes: a synchronous write reaches under none of them, a
truncation cuts none off, and an asynchronous write leaves no gap, overlaps none at a later
offset and does not replace a longer one. A directory is not extended. -/
def Orderly (p : AsyncUnit × Bytes) : AsyncOp → Prop
  | .edit (.write offset data) =>
    offset ≤ p.1.mem.head.stream.byteLen → ∀ w ∈ p.1.mem.overlay, Patch.Apart (offset, data) w
  | .edit (.truncate newSize) => ∀ w ∈ p.1.mem.overlay, stop w ≤ newSize
  | .edit (.extend newSize) => p.1.mem.head.content = none → newSize ≤ p.1.mem.read.length
  | .writeAsync offset data _ => data ≠ [] → offset ≤ p.1.mem.read.length ∧
      ∀ w ∈ p.1.mem.overlay, (w.1 = offset → w.2.length ≤ data.length) ∧
        (offset < w.1 → offset + data.length ≤ w.1)
  | .checkpoint _ => True
  | .reopen => True

instance (p : AsyncUnit × Bytes) : (op : AsyncOp) → Decidable (Orderly p op)
  | .edit (.write _ _) => inferInstanceAs (Decidable (_ → ∀ w ∈ p.1.mem.overlay, _))
  | .edit (.truncate _) => inferInstanceAs (Decidable (∀ w ∈ p.1.mem.overlay, _))
  | .edit (.extend _) => inferInstanceAs (Decidable (_ → _ ≤ _))
  | .writeAsync _ _ _ => inferInstanceAs (Decidable (_ → _ ∧ ∀ w ∈ p.1.mem.overlay, _))
  | .checkpoint _ => isTrue trivial
  | .reopen => isTrue trivial

/-- A record's fields have room in its encoding; and a crash finds the log where the header has it,
with no record but applied ones behind the current ones. -/
def Recoverable (c : WalCodec) (suite : Suite) (p : AsyncUnit × Bytes) : AsyncOp → Prop
  | .writeAsync offset data _ => data ≠ [] →
      ((c.append suite p.1.uuid p.1.log.nextSeq offset data).record p.1.log.nextSeq).Fits
  | .reopen => p.1.log.left = none ∧ p.1.log.Clean c.crc
  | _ => True

/-! ## The overlay as a list of overwrites -/

section

variable {ws : List Patch} {o : Nat} {d : Bytes}

theorem mem_insertWrite {w : Patch} (h : w ∈ insertWrite o d ws) : w = (o, d) ∨ w ∈ ws := by
  induction ws with
  | nil => exact .inl (mem_singleton.mp h)
  | cons v ws ih =>
    simp only [insertWrite] at h
    split at h
    · exact (mem_cons.mp h)
    split at h
    · rcases mem_cons.mp h with h | h
      · exact .inl h
      · exact .inr (mem_cons_of_mem v h)
    · rcases mem_cons.mp h with h | h
      · exact .inr (h ▸ mem_cons_self)
      · exact (ih h).imp_right (mem_cons_of_mem v)

theorem sorted_insertWrite (hs : ws.Pairwise (·.1 < ·.1)) :
    (insertWrite o d ws).Pairwise (·.1 < ·.1) := by
  induction ws with
  | nil => exact pairwise_singleton _ _
  | cons v ws ih =>
    obtain ⟨hv, hws⟩ := pairwise_cons.mp hs
    simp only [insertWrite]
    split
    · rename_i hlt
      refine pairwise_cons.mpr ⟨fun w hw => ?_, hs⟩
      rcases mem_cons.mp hw with rfl | hw
      · exact hlt
      · exact lt_trans hlt (hv w hw)
    · split
      · rename_i heq
        exact pairwise_cons.mpr ⟨fun w hw => heq ▸ hv w hw, hws⟩
      rename_i hge hne
      refine pairwise_cons.mpr ⟨fun w hw => ?_, ih hws⟩
      rcases mem_insertWrite hw with rfl | hw
      · dsimp only
        omega
      · exact hv w hw

/-- The write replaces no longer one and overlaps none at a later offset. -/
def Ahead (ws : List Patch) (o : Nat) (d : Bytes) : Prop :=
  ∀ w ∈ ws, (w.1 = o → w.2.length ≤ d.length) ∧ (o < w.1 → o + d.length ≤ w.1)

theorem Ahead.apart {v : Patch} (h : Ahead ws o d) (hv : v ∈ ws) (hlt : o < v.1) :
    Patch.Apart (o, d) v :=
  .inl ((h v hv).2 hlt)

/-- A write that goes ahead of the pending ones shows as the last one made. -/
theorem patches_insertWrite (hs : ws.Pairwise (·.1 < ·.1)) (h : Ahead ws o d) (f : Nat → UInt8) :
    patches (insertWrite o d ws) f = patch (o, d) (patches ws f) := by
  induction ws generalizing f with
  | nil => rfl
  | cons v ws ih =>
    obtain ⟨hv, hws⟩ := pairwise_cons.mp hs
    have hrest : Ahead ws o d := fun w hw => h w (mem_cons_of_mem v hw)
    simp only [insertWrite]
    split
    · rename_i hlt
      rw [patches_cons]
      apply patches_patch
      intro w hw
      apply h.apart hw
      rcases mem_cons.mp hw with rfl | hw
      · exact hlt
      · exact lt_trans hlt (hv w hw)
    · split
      · rename_i heq
        rw [patches_cons, patches_cons, ← patches_patch fun w hw => hrest.apart hw (heq ▸ hv w hw),
          patch_patch heq ((h v mem_cons_self).1 heq.symm)]
      · rw [patches_cons, patches_cons, ih hws hrest]

theorem reach_insertWrite (h : Ahead ws o d) (n : Nat) :
    reach (insertWrite o d ws) n = max (reach ws n) (o + d.length) := by
  induction ws with
  | nil => exact max_comm _ _
  | cons v ws ih =>
    have hrest : Ahead ws o d := fun w hw => h w (mem_cons_of_mem v hw)
    have hv := (h v mem_cons_self).1
    simp only [insertWrite]
    split
    · rw [reach_cons, reach_cons, max_comm]
      rfl
    split
    · rename_i heq
      rw [reach_cons, reach_cons]
      simp only [stop]
      omega
    · rw [reach_cons, reach_cons, ih hrest, max_assoc]

theorem covered_insertWrite (hs : ws.Pairwise (·.1 < ·.1)) (h : Ahead ws o d) {i : Nat} :
    Lib.Covered (insertWrite o d ws) i ↔ Lib.Covered ws i ∨ Patch.Covers (o, d) i := by
  simp only [covered_iff, patches_insertWrite hs h]
  by_cases hc : Patch.Covers (o, d) i
  · simp only [patch_of_covers hc, hc, or_true, implies_true]
  · simp only [patch_of_not_covers hc, hc, or_false]

end

/-! ## What a read shows -/

/-- The content `s` under the pending writes `ws` is the file `b`. -/
structure Shows (s : StreamMeta Bytes) (ws : List Patch) (b : Bytes) : Prop where
  wf : Wf s
  length : reach ws s.byteLen = b.length
  bytes : patches ws (byteAt s) = fun i => b.getD i 0
  filled : ∀ i, i < b.length → i < s.byteLen ∨ Lib.Covered ws i

namespace Shows

variable {s : StreamMeta Bytes} {ws : List Patch} {b : Bytes}

theorem read_eq (h : Shows s ws b) : applyOverlayFull ws (Version.read s) = b := by
  rw [applyOverlayFull_eq]
  apply ext_getD
  · rw [length_spliced, length_read h.wf.geometry, h.length]
  · have hr : (fun i => (Version.read s).getD i 0) = byteAt s := funext (getD_read h.wf)
    intro i
    have := congrFun (getD_spliced ws (Version.read s)) i
    rwa [hr, h.bytes] at this

/-- The window of the committed content that `read_at` starts from. -/
theorem window_eq (h : Wf s) (offset len : Nat) :
    (if s.byteLen ≤ offset then [] else slice offset (min len (s.byteLen - offset)) (Version.read s)) =
      slice offset len (Version.read s) := by
  have hlen := length_read h.geometry
  split
  · rw [slice, drop_eq_nil_of_le (by omega), take_nil]
  · rw [slice, slice, take_eq_take_iff, length_drop]
    omega

theorem readAt_eq (h : Shows s ws b) (hne : ∀ w ∈ ws, w.2 ≠ []) {offset len : Nat} (hlen : 0 < len) :
    applyOverlayToRead offset len ws (slice offset len (Version.read s)) = slice offset len b := by
  have hslice : ∀ (c : Bytes) j, j < (slice offset len c).length ↔
      j < len ∧ offset + j < c.length := by
    intro c j
    rw [slice, length_take, length_drop]
    omega
  have hj : ∀ j, j < (applyOverlayToRead offset len ws (slice offset len (Version.read s))).length ↔
      j < (slice offset len b).length := by
    intro j
    rw [lt_length_applyOverlayToRead hne _ hlen, hslice, hslice, length_read h.wf.geometry]
    constructor
    · rintro (⟨h1, h2⟩ | ⟨h1, w, hw, h2, h3⟩)
      · exact ⟨h1, h.length ▸ lt_reach_iff.mpr (.inl h2)⟩
      · exact ⟨h1, h.length ▸ lt_reach_iff.mpr (.inr ⟨w, hw, h3⟩)⟩
    · rintro ⟨h1, h2⟩
      rcases h.filled _ h2 with hs | ⟨w, hw, hc⟩
      · exact .inl ⟨h1, hs⟩
      · have h3 : w.1 ≤ offset + j ∧ offset + j < w.stop := hc
        exact .inr ⟨h1, w, hw, by omega, h3.2⟩
  apply ext_getD (eq_of_forall_lt_iff hj)
  intro j
  by_cases hjl : j < len
  · rw [getD_applyOverlayToRead hne _ hjl, getD_slice, if_pos hjl]
    refine Eq.trans (patches_congr fun _ => ?_) (congrFun h.bytes (offset + j))
    rw [Nat.add_sub_cancel_left, getD_slice, if_pos hjl, getD_read h.wf]
  · have hout := mt (hslice b j).mp fun hin => hjl hin.1
    have := hj j
    rw [getD_of_length_le (by omega), getD_of_length_le (by omega)]

/-! ## Asynchronous writes and checkpoints -/

theorem insert (h : Shows s ws b) (hs : ws.Pairwise (·.1 < ·.1)) (ha : Ahead ws o d)
    (hgap : o ≤ b.length) : Shows s (insertWrite o d ws) (splice o d b) where
  wf := h.wf
  length := by rw [reach_insertWrite ha, h.length, length_splice]
  bytes := by rw [patches_insertWrite hs ha, h.bytes, getD_splice]
  filled := by
    intro i hi
    rw [length_splice] at hi
    rw [covered_insertWrite hs ha]
    by_cases hb : i < b.length
    · exact (h.filled i hb).imp_right .inl
    · have hc : o ≤ i ∧ i < o + d.length := by omega
      exact .inr (.inr hc)

/-- `vs` was written to `s`. -/
structure Written (s : StreamMeta Bytes) (vs : List Patch) (t : StreamMeta Bytes) : Prop where
  wf : Wf t
  length : t.byteLen = reach vs s.byteLen
  bytes : byteAt t = patches vs (byteAt s)

theorem written {vs : List Patch} {t : StreamMeta Bytes} (h : Shows s ws b) (hw : Written s vs t)
    (hsub : ∀ v ∈ vs, v ∈ ws) : Shows t ws b where
  wf := hw.wf
  length := by rw [hw.length, reach_absorb hsub, h.length]
  bytes := by rw [hw.bytes, patches_absorb hsub, h.bytes]
  filled := by
    intro i hi
    refine (h.filled i hi).imp_left fun hs => ?_
    rw [hw.length]
    exact lt_reach_iff.mpr (.inl hs)

theorem all_written {t : StreamMeta Bytes} (h : Shows s ws b) (hw : Written s ws t) :
    Shows t [] b where
  wf := hw.wf
  length := by rw [reach_nil, hw.length, h.length]
  bytes := by rw [patches_nil, hw.bytes, h.bytes]
  filled := by
    intro i hi
    rw [hw.length, h.length]
    exact .inl hi

end Shows

section

variable {padBlocks : Bool} {suite : Suite} {host : HostAlias}

variable (padBlocks suite host) in
/-- The apply loop writes a first part of the list, and all of it when it succeeds. -/
theorem applyPending_written (u : UnitState) (ws : List Patch) (hwf : Wf u.head.stream) :
    ∃ vs, vs <+: ws ∧ ((applyPending padBlocks suite host u ws).2 = .ok () → vs = ws) ∧
      Shows.Written u.head.stream vs (applyPending padBlocks suite host u ws).1.head.stream ∧
      (applyPending padBlocks suite host u ws).1.overlay = u.overlay := by
  induction ws generalizing u with
  | nil => exact ⟨[], prefix_rfl, fun _ => rfl, ⟨hwf, rfl, rfl⟩, rfl⟩
  | cons w ws ih =>
    obtain ⟨o, d⟩ := w
    cases hst : stageWrite padBlocks suite host u.head.stream o d with
    | error e =>
      have happ : applyPending padBlocks suite host u ((o, d) :: ws) = (u, .error e) := by
        simp only [applyPending, applyOp, stage, hst, Except.map]
      rw [happ]
      exact ⟨[], nil_prefix, fun h => (by cases h), ⟨hwf, rfl, rfl⟩, rfl⟩
    | ok st =>
      have happ : applyPending padBlocks suite host u ((o, d) :: ws) =
          applyPending padBlocks suite host (u.push st.stream) ws := by
        simp only [applyPending, applyOp, stage, hst, Except.map]
      rw [happ]
      obtain ⟨vs, hpre, hall, hw, hov⟩ := ih (u.push st.stream) (hwf.stageWrite hst)
      have hlen : (u.push st.stream).head.stream.byteLen = max u.head.stream.byteLen (o + d.length) :=
        byteLen_stageWrite hwf.toStored hst
      have hby : byteAt (u.push st.stream).head.stream = patch (o, d) (byteAt u.head.stream) :=
        funext fun i => byteAt_stageWrite hwf hst i
      refine ⟨(o, d) :: vs, prefix_cons_inj _ |>.mpr hpre, fun h => by rw [hall h], ⟨hw.wf, ?_, ?_⟩,
        hov⟩
      · rw [hw.length, hlen, reach_max, reach_cons, max_comm]
        rfl
      · rw [hw.bytes, hby, patches_cons]

end

/-! ## Synchronous operations -/

namespace Shows

variable {padBlocks : Bool} {suite : Suite} {host : HostAlias} {s : StreamMeta Bytes}
  {ws : List Patch} {b : Bytes}
  {st : Staged}

theorem patched {t : StreamMeta Bytes} (h : Shows s ws b) (hw : Written s [(o, d)] t)
    (ha : ∀ w ∈ ws, Patch.Apart (o, d) w) : Shows t ws (splice o d b) where
  wf := hw.wf
  length := by rw [hw.length, reach_cons, reach_nil, max_comm, reach_max, h.length, length_splice,
    stop]
  bytes := by rw [hw.bytes, patches_cons, patches_nil, patches_patch ha, h.bytes, getD_splice]
  filled := by
    intro i hi
    rw [length_splice] at hi
    rw [hw.length, reach_cons, reach_nil, stop]
    dsimp only
    by_cases hb : i < b.length
    · exact (h.filled i hb).imp_left fun _ => by omega
    · exact .inl (by omega)

theorem write (h : Shows s ws b) (hst : stageWrite padBlocks suite host s o d = .ok st)
    (ha : ∀ w ∈ ws, Patch.Apart (o, d) w) : Shows st.stream ws (splice o d b) :=
  h.patched ⟨h.wf.stageWrite hst, (byteLen_stageWrite h.wf.toStored hst).trans (max_comm _ _),
    funext fun i => byteAt_stageWrite h.wf hst i⟩ ha

theorem extend (h : Shows s ws b) (hst : Version.extend host s newSize = some st) :
    Shows st.stream ws (resize (max b.length newSize) b) where
  wf := h.wf.extend hst
  length := by
    obtain ⟨hlt, hlen⟩ := byteLen_extend h.wf.toStored hst
    rw [hlen, length_resize, ← h.length, ← reach_max, max_eq_right (by omega)]
  bytes := by
    have hby : byteAt st.stream = byteAt s := funext (byteAt_extend hst)
    rw [hby, h.bytes]
    funext i
    rw [getD_resize]
    split
    · rfl
    · exact getD_of_length_le (by omega)
  filled := by
    intro i hi
    obtain ⟨hlt, hlen⟩ := byteLen_extend h.wf.toStored hst
    rw [length_resize] at hi
    rw [hlen]
    by_cases hb : i < b.length
    · exact (h.filled i hb).imp_left fun _ => by omega
    · exact .inl (by omega)

/-- The bytes a truncation keeps, read through the overlay. -/
theorem getD_kept (h : Shows s ws b) (hlt : newSize < s.byteLen) {i : Nat} (hi : i < newSize) :
    (applyOverlay newSize ws ((Version.read s).take newSize)).getD i 0 = b.getD i 0 := by
  rw [(applyOverlay_window _ (length_take_read h.wf.toStored hlt)).2 i hi]
  refine Eq.trans (patches_congr fun _ => ?_) (congrFun h.bytes i)
  exact getD_take_read h.wf.toStored hlt hi

theorem truncate (h : Shows s ws b) (hc : ∀ w ∈ ws, stop w ≤ newSize)
    (hne : ∀ w ∈ ws, w.2 ≠ [])
    (hst : truncateWith padBlocks suite host s newSize
      (applyOverlay newSize ws ((Version.read s).take newSize)) = some st) :
    Shows st.stream ws (b.take newSize) := by
  obtain ⟨hlt, hcase⟩ := truncateWith_some hst
  rw [(applyOverlay_window _ (length_take_read h.wf.toStored hlt)).1, min_self] at hcase
  have hblen : b.length = s.byteLen := by
    rw [← h.length]
    refine le_antisymm (reach_le_iff.mpr ⟨le_rfl, fun w hw => ?_⟩) (le_reach ws _)
    exact le_trans (hc w hw) (by omega)
  obtain ⟨hz, rfl⟩ | ⟨hpos, rfl⟩ := hcase
  · -- with nothing left there is no pending write either
    have hnil : ws = [] := by
      apply eq_nil_iff_forall_not_mem.mpr
      intro w hw
      have := length_pos_iff.mpr (hne w hw)
      have := hc w hw
      unfold stop at this
      omega
    subst hnil hz
    exact ⟨Wf.empty, rfl, by funext i; rfl, fun i hi => by simp at hi⟩
  · have hlen : (stageCut padBlocks suite host s newSize
        (applyOverlay newSize ws ((Version.read s).take newSize))).stream.byteLen = newSize :=
      byteLen_stageCut h.wf.toStored hpos hlt
    refine ⟨h.wf.wf_stageCut hpos hlt, ?_, ?_, ?_⟩
    · rw [hlen, length_take, hblen, min_eq_left (by omega)]
      exact le_antisymm (reach_le_iff.mpr ⟨le_rfl, hc⟩) (le_reach ws _)
    · funext i
      have htake : (b.take newSize).getD i 0 = if i < newSize then b.getD i 0 else 0 := by
        simp only [getD_eq_getElem?_getD, getElem?_take]
        split <;> rfl
      rw [htake]
      rcases byteAt_stageCut_cases h.wf.toStored hlt i with ⟨hi, hb | hb⟩ | ⟨hi, hb⟩
      · rw [if_pos hi]
        exact (patches_congr fun _ => hb).trans (congrFun h.bytes i)
      · rw [if_pos hi]
        refine Eq.trans (patches_congr fun hn => ?_) (congrFun h.bytes i)
        rw [hb, getD_kept h hlt hi, ← congrFun h.bytes i, patches_of_not_covered hn]
      · rw [if_neg (by omega), patches_of_not_covered, hb]
        rintro ⟨w, hw, hcov⟩
        have := hc w hw
        unfold Patch.Covers at hcov
        omega
    · intro i hi
      rw [length_take] at hi
      exact .inl (by omega)

end Shows

/-! ## Runs -/

/-- In memory and after a crash the unit shows the file. -/
structure Visible (a : AsyncUnit) (b : Bytes) : Prop where
  mem : Shows a.mem.head.stream a.mem.overlay b
  disk : Shows a.head.stream a.mem.overlay b
  sorted : a.mem.overlay.Pairwise (·.1 < ·.1)
  data : ∀ w ∈ a.mem.overlay, w.2 ≠ []

/-- The unit shows the file, and the overlay is what the acknowledged records give. -/
structure Linear (c : WalCodec) (p : AsyncUnit × Bytes) : Prop extends Visible p.1 p.2 where
  log : p.1.log.Inv c.crc
  replayed : c.replay p.1.uuid p.1.log.acked [] = .ok p.1.mem.overlay

theorem take_padToMin (suite : Suite) (d : Bytes) : (padToMin suite d).take d.length = d := by
  unfold padToMin
  split
  · rw [resize, take_of_length_le (l := d) (by omega), take_left]
  · exact take_length

/-- One more record of the unit is one more pending write. -/
theorem WalCodec.replay_concat (c : WalCodec) (suite : Suite) {u : Vector UInt8 16}
    {rs : List Wal.WalRecord} {ov ov' : List Patch} (seq o : Nat) (d : Bytes)
    (h : c.replay u rs ov = .ok ov') :
    c.replay u (rs ++ [(c.append suite u seq o d).record seq]) ov = .ok (insertWrite o d ov') := by
  induction rs generalizing ov with
  | nil =>
    cases h
    simp [WalCodec.replay, WalCodec.append, Wal.Append.record, c.opens_seals, take_padToMin]
  | cons r rs ih =>
    simp only [cons_append, WalCodec.replay] at h ⊢
    split at h
    · cases h
    · exact ih h

namespace Visible

variable {a : AsyncUnit} {b : Bytes}

/-- A write that goes ahead of the pending ones. -/
theorem insert {log : Wal.Log} (h : Visible a b) (hd : d ≠ []) (hgap : o ≤ b.length)
    (ha : Ahead a.mem.overlay o d) :
    Visible { a with mem := { a.mem with overlay := insertWrite o d a.mem.overlay }, log }
      (splice o d b) := by
  refine ⟨h.mem.insert h.sorted ha hgap, h.disk.insert h.sorted ha hgap,
    sorted_insertWrite h.sorted, fun w hw => ?_⟩
  rcases mem_insertWrite hw with rfl | hw
  · exact hd
  · exact h.data w hw

/-- A checkpoint that fails leaves part of the pending writes in the content, below the overlay. -/
theorem settle (h : Visible a b) (padBlocks : Bool) (suite : Suite) (host : HostAlias)
    (io : CheckpointIO) :
    Visible (a.settle padBlocks suite host io).1 b ∧
      (a.settle padBlocks suite host io).1.uuid = a.uuid ∧
      (a.settle padBlocks suite host io).1.mem.overlay =
        if (a.settle padBlocks suite host io).2 = .ok () then [] else a.mem.overlay := by
  obtain ⟨vs, hpre, hall, hw, hov⟩ :=
    applyPending_written padBlocks suite host a.mem a.mem.overlay h.mem.wf
  unfold AsyncUnit.settle Version.checkpoint
  cases hr : applyPending padBlocks suite host a.mem a.mem.overlay with
  | mk u r =>
    rw [hr] at hall hw hov
    dsimp only at hall hw hov
    have hmem : Shows u.head.stream a.mem.overlay b := h.mem.written hw fun v hv => hpre.subset hv
    cases r with
    | error e =>
      dsimp only
      rw [if_neg (by simp), hov]
      refine ⟨⟨?_, ?_, ?_, ?_⟩, rfl, rfl⟩ <;> dsimp only <;> rw [hov]
      · exact hmem
      · exact h.disk
      · exact h.sorted
      · exact h.data
    | ok _ =>
      dsimp only
      cases io.fault with
      | some err =>
        dsimp only
        rw [if_neg (by simp)]
        exact ⟨⟨hmem, h.disk, h.sorted, h.data⟩, rfl, rfl⟩
      | none =>
        dsimp only
        rw [if_pos rfl]
        rw [hall rfl] at hw
        have hs := h.mem.all_written hw
        exact ⟨⟨hs, hs, List.Pairwise.nil, fun w hw => by cases hw⟩, rfl, rfl⟩

end Visible

namespace Linear

variable {c : WalCodec} {padBlocks : Bool} {suite : Suite} {host : HostAlias}
  {p : AsyncUnit × Bytes}

theorem committed (c : WalCodec) (u : Vector UInt8 16) {r : UnitRecord} (past : List UnitRecord)
    (applied : Nat) (h : Wf r.stream) : Linear c (committed u r past applied, read r.stream) := by
  have hs : Shows r.stream [] (read r.stream) := by
    refine ⟨h, (length_read h.geometry).symm, funext fun i => (getD_read h i).symm,
      fun i hi => .inl ?_⟩
    rwa [length_read h.geometry] at hi
  exact ⟨⟨hs, hs, List.Pairwise.nil, fun w hw => (by cases hw)⟩, .enabled applied, rfl⟩

theorem read_eq (h : Linear c p) : p.1.mem.read = p.2 := h.mem.read_eq

theorem readAt_eq (h : Linear c p) (offset len : Nat) :
    p.1.mem.readAt offset len = slice offset len p.2 := by
  unfold UnitState.readAt
  split
  · rename_i hz
    rw [hz, slice, take_zero]
  · dsimp only
    rw [Shows.window_eq h.mem.wf]
    exact h.mem.readAt_eq h.data (by omega)

/-- A staged stream that shows the new file is published. -/
theorem staged {st : Staged} {b : Bytes} (h : Linear c p)
    (hs : Shows st.stream p.1.mem.overlay b) :
    Linear c (publish { p.1 with mem := p.1.mem.push st.stream }, b) :=
  ⟨⟨hs, hs, h.sorted, h.data⟩, h.log.congr_left none, h.replayed⟩

theorem kept {b : Bytes} (h : Linear c p) (hb : b = p.2) : Linear c (p.1, b) := hb ▸ h

/-- A call that stages a stream for its file, or nothing where the file stays the same. -/
theorem edit {e : Edit} (h : Linear c p)
    (hkept : stage padBlocks suite host p.1.mem.head p.1.mem.overlay e.op = .ok none →
      e.file p.2 = p.2)
    (hstaged : ∀ st, stage padBlocks suite host p.1.mem.head p.1.mem.overlay e.op = .ok (some st) →
      Shows st.stream p.1.mem.overlay (e.file p.2)) :
    Linear c (traced c padBlocks suite host p (.edit e)) := by
  unfold traced AsyncUnit.step
  dsimp only
  cases hst : stage padBlocks suite host p.1.mem.head p.1.mem.overlay e.op with
  | error err => exact h
  | ok r =>
    cases r with
    | none => exact h.kept (hkept hst)
    | some st => exact h.staged (hstaged st hst)

theorem edit_write (h : Linear c p) (ho : Orderly p (.edit (.write o d))) :
    Linear c (traced c padBlocks suite host p (.edit (.write o d))) := by
  refine h.edit (fun hst => ?_) fun st hst => ?_ <;> obtain ⟨st', hw, he⟩ := exists_of_map_ok hst
  · cases he
  · cases he
    exact h.mem.write hw (ho (stageWrite_ok hw).2.2.1)

theorem edit_truncate (h : Linear c p) (ho : Orderly p (.edit (.truncate newSize))) :
    Linear c (traced c padBlocks suite host p (.edit (.truncate newSize))) := by
  have hsame : p.1.mem.head.stream.byteLen ≤ newSize → p.2.take newSize = p.2 := by
    intro hle
    apply take_of_length_le
    rw [← h.mem.length]
    exact reach_le_iff.mpr ⟨hle, ho⟩
  refine h.edit (fun hst => hsame ?_) fun st hst => h.mem.truncate ho h.data (stage_truncate_some hst)
  simp only [Edit.op, stage] at hst
  split at hst <;> rename_i hc <;> rw [UnitRecord.stream, hc]
  · exact Nat.zero_le _
  · exact truncateWith_eq_none_iff.mp (Except.ok.inj hst)

theorem edit_extend (h : Linear c p) (ho : Orderly p (.edit (.extend newSize))) :
    Linear c (traced c padBlocks suite host p (.edit (.extend newSize))) := by
  have hsame : newSize ≤ p.2.length → resize (max p.2.length newSize) p.2 = p.2 := by
    intro hle
    rw [max_eq_left hle, resize, take_length, Nat.sub_self, replicate_zero, append_nil]
  refine h.edit (fun hst => hsame ?_) fun st hst => h.mem.extend (stage_extend_some hst)
  simp only [Edit.op, stage] at hst
  split at hst
  · rename_i hc
    exact h.read_eq ▸ ho hc
  · rename_i s hc
    have hle : newSize ≤ s.byteLen := by
      by_contra hgt
      simp [extend, hgt] at hst
    have hs : p.1.mem.head.stream = s := by rw [UnitRecord.stream, hc, Option.getD_some]
    rw [← h.mem.length, hs]
    exact le_trans hle (le_reach _ _)

/-- The record is logged, or the checkpoint that a full region needs is all that is done. -/
theorem writeAsync {io : CheckpointIO} (h : Linear c p) (ho : Orderly p (.writeAsync o d io))
    (hrec : Recoverable c suite p (.writeAsync o d io)) :
    Linear c (traced c padBlocks suite host p (.writeAsync o d io)) := by
  unfold traced AsyncUnit.step
  by_cases hd : d = []
  · dsimp only
    rw [if_pos hd]
    exact h
  dsimp only
  rw [if_neg hd]
  obtain ⟨hgap, ha⟩ := ho hd
  rw [h.read_eq] at hgap
  have hfits := hrec hd
  generalize hw : c.append suite p.1.uuid p.1.log.nextSeq o d = w at hfits ⊢
  have hone : c.replay p.1.uuid [w.record p.1.log.nextSeq] [] = .ok (insertWrite o d []) :=
    hw ▸ c.replay_concat suite p.1.log.nextSeq o d (show c.replay p.1.uuid [] [] = .ok [] from rfl)
  have hmore : c.replay p.1.uuid (p.1.log.acked ++ [w.record p.1.log.nextSeq]) [] =
      .ok (insertWrite o d p.1.mem.overlay) :=
    hw ▸ c.replay_concat suite p.1.log.nextSeq o d h.replayed
  by_cases hfull : p.1.log.Full c.crc w
  · rw [if_pos hfull]
    obtain ⟨hvis, huuid, hov⟩ := h.toVisible.settle padBlocks suite host io
    generalize p.1.settle padBlocks suite host io = x at hvis huuid hov
    obtain ⟨a, r⟩ := x
    dsimp only at hvis huuid hov ⊢
    have hinv : (p.1.log.append c.crc w (io.outcome r)).Inv c.crc := h.log.append hfits
    have hempty := h.log.sealNext.checkpoint_done.1
    cases r with
    | error err =>
      rw [if_neg (by simp)] at hov
      refine ⟨⟨hvis.mem, hvis.disk, hvis.sorted, hvis.data⟩, hinv, ?_⟩
      rcases Wal.Log.append_cases c.crc p.1.log w (.failed io.left) with
        ⟨left, -, -, he⟩ | ⟨-, hout, -⟩ | ⟨-, hout, -⟩ | ⟨hroom, -⟩
      · show c.replay a.uuid (p.1.log.append c.crc w (.failed io.left)).acked [] = _
        rw [he, huuid, hov]
        exact h.replayed
      · cases hout
      · cases hout
      · exact absurd hfull hroom
    | ok _ =>
      rw [if_pos rfl] at hov
      rcases Wal.Log.append_cases c.crc p.1.log w .done with
        ⟨left, -, hout, -⟩ | ⟨-, -, hbig, he⟩ | ⟨-, -, hsmall, he⟩ | ⟨hroom, -⟩
      · cases hout
      · dsimp only
        rw [if_pos hbig]
        refine ⟨⟨hvis.mem, hvis.disk, hvis.sorted, hvis.data⟩, hinv, ?_⟩
        show c.replay a.uuid (p.1.log.append c.crc w .done).acked [] = _
        rw [he, hempty, hov]
        rfl
      · dsimp only
        rw [if_neg (not_lt.mpr hsmall)]
        refine ⟨hvis.insert hd hgap (by rw [hov]; exact fun w hw => by cases hw), hinv, ?_⟩
        show c.replay a.uuid (p.1.log.append c.crc w .done).acked [] =
          .ok (insertWrite o d a.mem.overlay)
        rw [he, hov, huuid]
        show c.replay p.1.uuid ((p.1.log.sealNext.checkpoint .done).acked ++ _) [] = _
        rw [hempty]
        exact hone
      · exact absurd hfull hroom
  · rw [if_neg hfull]
    have hinv : (p.1.log.append c.crc w .done).Inv c.crc := h.log.append hfits
    have hsmall : (Wal.encodeWalRecord c.crc (w.record p.1.log.nextSeq)).length ≤
        Wal.walRegionSize := (Nat.le_add_left _ _).trans (not_lt.mp hfull)
    dsimp only
    rw [if_neg (not_lt.mpr hsmall)]
    refine ⟨h.toVisible.insert hd hgap ha, hinv, ?_⟩
    show c.replay p.1.uuid (p.1.log.append c.crc w .done).acked [] = _
    rw [Wal.Log.append_of_room _ (not_lt.mp hfull)]
    exact hmore

theorem checkpoint (h : Linear c p) (io : CheckpointIO) :
    Linear c (traced c padBlocks suite host p (.checkpoint io)) := by
  unfold traced AsyncUnit.step
  obtain ⟨hvis, huuid, hov⟩ := h.toVisible.settle padBlocks suite host io
  dsimp only
  generalize p.1.settle padBlocks suite host io = x at hvis huuid hov
  obtain ⟨a, r⟩ := x
  dsimp only at hvis huuid hov ⊢
  have hinv := h.log.checkpoint (io.outcome r)
  cases r with
  | error err =>
    rw [if_neg (by simp)] at hov
    refine ⟨⟨hvis.mem, hvis.disk, hvis.sorted, hvis.data⟩, hinv, ?_⟩
    show c.replay a.uuid p.1.log.acked [] = .ok a.mem.overlay
    rw [huuid, hov]
    exact h.replayed
  | ok _ =>
    rw [if_pos rfl] at hov
    refine ⟨⟨hvis.mem, hvis.disk, hvis.sorted, hvis.data⟩, hinv, ?_⟩
    show c.replay a.uuid (p.1.log.checkpoint .done).acked [] = .ok a.mem.overlay
    rw [h.log.checkpoint_done.1, hov]
    rfl

/-- The scan finds the acknowledged records, and they give the overlay of before. -/
theorem traced_reopen (h : Linear c p) (hrec : Recoverable c suite p .reopen) :
    traced c padBlocks suite host p .reopen =
      ({ p.1 with mem := ⟨p.1.head, p.1.past, p.1.mem.overlay⟩ }, p.2) := by
  have hfound := h.log.recovered_clean hrec.1 hrec.2
  simp only [traced, AsyncUnit.step, hfound, h.replayed, h.log.reopen_eq hrec.1 hfound]
  rfl

theorem step (h : Linear c p) {op : AsyncOp} (ho : Orderly p op) (hrec : Recoverable c suite p op) :
    Linear c (traced c padBlocks suite host p op) := by
  cases op with
  | edit e =>
    cases e with
    | write o d => exact h.edit_write ho
    | truncate newSize => exact h.edit_truncate ho
    | extend newSize => exact h.edit_extend ho
  | writeAsync o d io => exact h.writeAsync ho hrec
  | checkpoint io => exact h.checkpoint io
  | reopen =>
    rw [h.traced_reopen hrec]
    exact ⟨⟨h.disk, h.disk, h.sorted, h.data⟩, h.log, h.replayed⟩

end Linear

/-- Suite NONE. -/
def WalCodec.clear : WalCodec := ⟨crc32, fun _ _ d => d, fun _ _ d => some d, fun _ _ _ => rfl⟩

/-- A new file in a container with an empty log. -/
def AsyncUnit.newFile : AsyncUnit × Bytes :=
  (committed (Vector.replicate 16 1) UnitState.created.head [] 0, read UnitState.created.head.stream)

/-- A write of the new file as its log record. -/
def AsyncUnit.clearAppend (seq offset : Nat) (d : Bytes) : Wal.Append :=
  WalCodec.clear.append .none (Vector.replicate 16 1) seq offset d

theorem fits_clearAppend {seq offset : Nat} {d : Bytes} (hseq : seq < 9) (ho : offset < 9)
    (hd : d.length < 9) : ((clearAppend seq offset d).record seq).Fits := by
  have hct : (clearAppend seq offset d).ciphertext = d := by
    show (if d.length < 0 then resize 0 d else d) = d
    exact if_neg (Nat.not_lt_zero _)
  refine ⟨hseq.trans (by decide), ho.trans (by decide), hd.trans (by decide), ?_⟩
  show (clearAppend seq offset d).ciphertext.length < 2 ^ 32
  rw [hct]
  exact hd.trans (by decide)

end Sfs.Version

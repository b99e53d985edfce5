import Mathlib.Logic.Function.Basic
import Sfs.Mount.WbCache
import Sfs.Version.Pending

/-!
# The handles of a mounted file

One file of the mount with its open handles. The engine serves the staged head of the file;
`flush` stages the dirty extents of a handle into the open write batch, and the batch is committed
by `fsync`, at the end of its window or on unmount. What the clock and the storage do during a call
is an input of the call (`Io`).
-/

namespace Sfs.Mount

open Sfs.Lib Sfs.Version

variable {fh : Nat} {h : HandleState}

inductive FsError where
  | notFound
  | noXattr
  | unsupported
  | tooBig
  | io
  deriving DecidableEq, Repr

/-- A write whose end is a 64-bit offset. -/
abbrev Extent := { w : Patch // w.stop < 2 ^ 64 }

structure ReadAhead where
  gen : Nat
  start : Nat
  data : Bytes
  deriving DecidableEq, Repr

structure HandleState where
  cache : WbCache
  readahead : Option ReadAhead
  seqNext : Nat
  deriving DecidableEq, Repr

/-- The handle after its extents were taken. -/
def HandleState.cleaned (h : HandleState) : HandleState :=
  { h with cache := { h.cache with ranges := [], dirty := false } }

structure Adapter where
  /-- the head that the engine serves -/
  file : StreamMeta Bytes
  /-- the head that the last published header leads to -/
  committed : StreamMeta Bytes
  /-- a write batch is open -/
  batch : Bool
  /-- operations counted against the commit window -/
  ops : Nat
  writeGen : Nat
  nextFh : Nat
  handles : Nat → Option HandleState

/-- What the clock and the storage do during a call. -/
structure Io where
  /-- the window has been open for its time -/
  elapsed : Bool
  summaryFails : Bool
  extendFails : Bool
  /-- writing the `k`-th extent fails -/
  writeFails : Nat → Bool
  windowCommitFails : Bool
  commitFails : Bool

/-- Storage that does not fail. -/
def Io.sound (elapsed : Bool) : Io := ⟨elapsed, false, false, fun _ => false, false, false⟩

/-- No step of a flush fails before the commit. -/
structure Io.Stages (io : Io) : Prop where
  summary : io.summaryFails = false
  extend : io.extendFails = false
  write : ∀ k, io.writeFails k = false

theorem Io.sound_stages (elapsed : Bool) : (Io.sound elapsed).Stages := ⟨rfl, rfl, fun _ => rfl⟩

def COMMIT_MAX_OPS : Nat := 512

def READAHEAD : Nat := 4 * 2 ^ 20

abbrev AdapterM := EStateM FsError Adapter

namespace Adapter

def handle (fh : Nat) : AdapterM HandleState :=
  fun a => (a.handles fh).elim (.error .notFound a) fun h => .ok h a

def setHandle (fh : Nat) (h : HandleState) : AdapterM Unit :=
  modify fun a => { a with handles := Function.update a.handles fh (some h) }

/-! ## Batches -/

def beginBatch : AdapterM Unit := modify fun a => { a with batch := true }

/-- The batch is closed before its header is published. -/
def commitBatch (fails : Bool) : AdapterM Unit := fun a =>
  if a.batch then
    if fails then .error .io { a with batch := false }
      else .ok () { a with batch := false, committed := a.file }
  else .ok () a

def windowDue (elapsed : Bool) (a : Adapter) : Bool := COMMIT_MAX_OPS ≤ a.ops + 1 || elapsed

def noteWrite (io : Io) : AdapterM Unit := fun a =>
  if windowDue io.elapsed a then commitBatch io.windowCommitFails
    { a with writeGen := a.writeGen + 1, ops := 0 }
  else .ok () { a with writeGen := a.writeGen + 1, ops := a.ops + 1 }

def commitNow (io : Io) : AdapterM Unit := do
  commitBatch io.commitFails
  modify fun a => { a with ops := 0 }

/-- A staged head; outside a batch it is published at once. -/
def stage (s : StreamMeta Bytes) (a : Adapter) : Adapter :=
  { a with file := s, committed := if a.batch then a.committed else s }

section

variable (padBlocks : Bool) (suite : Suite) (host : HostAlias)

/-! ## Flushing -/

def extendTo (io : Io) (maxEnd : Nat) : AdapterM Unit := fun a =>
  if a.file.byteLen < maxEnd then
    if io.extendFails then .error .io a
      else .ok () (stage (edit padBlocks suite host a.file (.extend maxEnd)) a)
  else .ok () a

def writeExtent (fails : Bool) (w : Patch) : AdapterM Unit := fun a =>
  if fails then .error .io a
  else
    match stageWrite padBlocks suite host a.file w.1 w.2 with
    | .ok st => .ok () (stage st.stream a)
    | .error _ => .error .io a

/-- The extents from the `k`-th on. -/
def writeExtents (io : Io) : Nat → List Patch → AdapterM Unit
  | _, [] => pure ()
  | k, w :: ws =>
    if w.2 = [] then writeExtents io (k + 1) ws
    else do
      writeExtent padBlocks suite host (io.writeFails k) w
      writeExtents io (k + 1) ws

def stageExtents (io : Io) (extents : List Patch) : AdapterM Unit := do
  beginBatch
  if io.summaryFails then throw .io
  else
    extendTo padBlocks suite host io (reach extents 0)
    writeExtents padBlocks suite host io 0 extents
    noteWrite io

def flush (fh : Nat) (io : Io) : AdapterM Unit := do
  let h ← handle fh
  let (dirtyRanges, cache) := h.cache.takeDirtyRanges
  setHandle fh { h with cache }
  match dirtyRanges with
  | none => pure ()
  | some extents => stageExtents padBlocks suite host io extents

def fsync (fh : Nat) (io : Io) : AdapterM Unit := do
  flush padBlocks suite host fh io
  commitNow io

def release (fh : Nat) (io : Io) : AdapterM Unit := do
  flush padBlocks suite host fh io
  modify fun a => { a with handles := Function.update a.handles fh none }

/-- Unmounting commits the open batch; a failure is only reported on the console. -/
def unmount (io : Io) (a : Adapter) : Adapter := after (commitBatch io.commitFails) a

/-! ## Opening, writing and reading -/

def openFh : AdapterM Nat := fun a =>
  .ok a.nextFh
    { a with
      nextFh := a.nextFh + 1
      handles := Function.update a.handles a.nextFh (some ⟨.new a.file.byteLen, none, 0⟩) }

def write (fh offset : Nat) (data : Bytes) : AdapterM Nat := do
  let h ← handle fh
  setHandle fh { h with cache := h.cache.write offset data }
  return data.length

/-- The engine's `read_at`. -/
def readAt (file : StreamMeta Bytes) (off n : Nat) : Bytes := slice off n (read file)

/-- How much a miss asks for: more than it needs when the reads are sequential. -/
def readWant (seqPrev baseOff baseLen : Nat) : Nat :=
  if baseOff = seqPrev then max baseLen READAHEAD else baseLen

/-- A committed read that is not served from the buffer. -/
def readMiss (file : StreamMeta Bytes) (curGen seqPrev : Nat) (baseOff baseLen : Nat) :
    Bytes × Option ReadAhead :=
  let big := readAt file baseOff (readWant seqPrev baseOff baseLen)
  (big.take (min baseLen big.length),
    if baseOff = seqPrev ∧ baseLen < big.length then some ⟨curGen, baseOff, big⟩ else none)

/-- The reader behind the dirty extents, on the handle's read-ahead buffer. -/
def baseReader (useReadahead : Bool) (file : StreamMeta Bytes) (curGen seqPrev : Nat)
    (baseOff baseLen : Nat) : EStateM FsError (Option ReadAhead) Bytes := fun ra =>
  if useReadahead then
    match ra.filter fun ra => ra.gen = curGen ∧ ra.start ≤ baseOff ∧
      baseOff + baseLen ≤ ra.start + ra.data.length with
    | some hit => .ok (slice (baseOff - hit.start) baseLen hit.data) ra
    | none => .ok (readMiss file curGen seqPrev baseOff baseLen).1
      (readMiss file curGen seqPrev baseOff baseLen).2
  else .ok (readAt file baseOff baseLen) ra

def readThrough (useReadahead : Bool) (fh offset size : Nat) : AdapterM Bytes := do
  let h ← handle fh
  let a ← get
  match h.cache.readThrough (baseReader useReadahead a.file a.writeGen h.seqNext) offset size
    h.readahead with
  | .ok out ra =>
    setHandle fh { h with readahead := ra, seqNext := offset + out.length }
    return out
  | .error e ra =>
    setHandle fh { h with readahead := ra }
    throw e

/-! ## Changing the size -/

def setSize (newSize : Nat) (s : StreamMeta Bytes) : StreamMeta Bytes :=
  if newSize < s.byteLen then edit padBlocks suite host s (.truncate newSize)
  else if s.byteLen < newSize then edit padBlocks suite host s (.extend newSize)
  else s

/-- The content part of `setattr` with a size: every open handle's cache is cut with the file. -/
def setattrSize (newSize : Nat) : AdapterM Unit := modify fun a =>
  { stage (setSize padBlocks suite host newSize a.file) a with
    writeGen := if newSize = a.file.byteLen then a.writeGen else a.writeGen + 1
    handles := fun fh => (a.handles fh).map fun h => { h with cache := h.cache.truncate newSize } }

end

/-! ## What a flush stages -/

theorem read_of_written {s t : StreamMeta Bytes} {ws : List Patch} (h : Wf s)
    (hw : Shows.Written s ws t) : read t = spliced ws (read s) := by
  have hs : (fun i => (read s).getD i 0) = byteAt s := funext (getD_read h)
  refine ext_getD ?_ fun i => ?_
  · rw [length_read hw.wf.geometry, hw.length, length_spliced, length_read h.geometry]
  · rw [getD_read hw.wf, hw.bytes, ← hs]
    exact (congrFun (getD_spliced ws (read s)) i).symm

section

variable (padBlocks : Bool) (suite : Suite) (host : HostAlias) {a : Adapter} {io : Io}
  {ws : List Patch}

/-- Extents that end within the file are all written. -/
theorem writeExtents_spec (hio : ∀ k, io.writeFails k = false) (k : Nat) (hb : a.batch = true)
    (hwf : Wf a.file) (hne : ∀ w ∈ ws, w.2 ≠ []) (hfit : ∀ w ∈ ws, w.stop < 2 ^ 64)
    (hin : ∀ w ∈ ws, w.1 ≤ a.file.byteLen) :
    ∃ t, writeExtents padBlocks suite host io k ws a = .ok () { a with file := t } ∧
      Shows.Written a.file ws t := by
  induction ws generalizing k a with
  | nil => exact ⟨a.file, rfl, hwf, rfl, rfl⟩
  | cons w ws ih =>
    obtain ⟨st, hst⟩ : ∃ st, stageWrite padBlocks suite host a.file w.1 w.2 = .ok st :=
      exists_stageWrite (hne w (.head _)) (hfit w (.head _)) (hin w (.head _))
    have hstep : writeExtent padBlocks suite host (io.writeFails k) w a =
        .ok () { a with file := st.stream } := by
      simp [writeExtent, hio, hst, stage, hb]
    have hlen := byteLen_stageWrite hwf.toStored hst
    obtain ⟨t, ht, hw⟩ := ih (a := { a with file := st.stream }) (k + 1) hb (hwf.stageWrite hst)
      (fun v hv => hne v (.tail _ hv)) (fun v hv => hfit v (.tail _ hv))
      fun v hv => by
        have := hin v (.tail _ hv)
        show v.1 ≤ st.stream.byteLen
        omega
    refine ⟨t, ?_, hw.wf, ?_, ?_⟩
    · rw [writeExtents, if_neg (hne w (.head _)), bind_of_ok hstep, ht]
    · rw [hw.length, hlen, reach_max, reach_cons, max_comm]
      rfl
    · rw [hw.bytes, funext fun i => byteAt_stageWrite hwf hst i, patches_cons]
      rfl

theorem extendTo_spec (hio : io.extendFails = false) (hb : a.batch = true) (hwf : Wf a.file)
    (n : Nat) :
    ∃ t, extendTo padBlocks suite host io n a = .ok () { a with file := t } ∧ Wf t ∧
      t.byteLen = max a.file.byteLen n ∧
      byteAt t = byteAt a.file := by
  unfold extendTo
  by_cases hlt : a.file.byteLen < n
  · obtain ⟨st, hst⟩ : ∃ st, extend host a.file n = some st := by
      unfold extend
      rw [if_neg (by omega)]
      exact ⟨_, rfl⟩
    refine ⟨st.stream, ?_, hwf.extend hst, ?_, funext fun i => byteAt_extend hst i⟩
    · simp [hlt, hio, stage, hb, edit, hst]
    · rw [(byteLen_extend hwf.toStored hst).2]
      omega
  · refine ⟨a.file, ?_, hwf, ?_, rfl⟩
    · rw [if_neg hlt]
    · omega

/-- The extents as a flush stages them: all of them, in an open batch, and then the window is looked
at. -/
theorem stageExtents_spec (hio : io.Stages) (hwf : Wf a.file) (hws : Coalesced ws)
    (hfit : ∀ w ∈ ws, w.stop < 2 ^ 64) :
    ∃ t, stageExtents padBlocks suite host io ws a = noteWrite io { a with batch := true, file := t } ∧
      Shows.Written a.file ws t := by
  obtain ⟨s, hext, hs, hlen, hby⟩ :=
    extendTo_spec padBlocks suite host (a := { a with batch := true }) hio.extend
    rfl hwf (reach ws 0)
  have hin : ∀ w ∈ ws, w.1 ≤ s.byteLen := by
    intro w hw
    have := stop_le_reach hw 0
    unfold Patch.stop at this
    omega
  obtain ⟨t, hwr, hw⟩ :=
    writeExtents_spec padBlocks suite host (a := { a with batch := true, file := s }) hio.write 0
    rfl hs hws.nonempty hfit hin
  refine ⟨t, ?_, hw.wf, ?_, ?_⟩
  · unfold stageExtents
    rw [hio.summary]
    show (beginBatch >>= _) a = _
    rw [bind_of_ok (show beginBatch a = .ok () { a with batch := true } from rfl)]
    show (extendTo padBlocks suite host io (reach ws 0) >>= _) _ = _
    rw [bind_of_ok hext, bind_of_ok hwr]
  · rw [hw.length, hlen]
    show reach ws (max a.file.byteLen (reach ws 0)) = _
    rw [reach_max]
    exact Nat.max_eq_left (reach_le_iff.mpr ⟨Nat.zero_le _, fun w hw => stop_le_reach hw _⟩)
  · rw [hw.bytes, hby]

theorem handle_of_some (hh : a.handles fh = some h) : handle fh a = .ok h a := by
  rw [handle, hh]
  rfl

theorem handle_of_none (hh : a.handles fh = none) : handle fh a = .error .notFound a := by
  rw [handle, hh]
  rfl

theorem flush_of_none (hh : a.handles fh = none) :
    flush padBlocks suite host fh io a = .error .notFound a := by
  rw [flush, bind_of_error (handle_of_none hh)]

theorem flush_of_clean (hh : a.handles fh = some h) (hd : h.cache.dirty = false) :
    flush padBlocks suite host fh io a = .ok () a := by
  have hput : { a with handles := Function.update a.handles fh (some h) } = a := by
    rw [← hh, Function.update_eq_self]
  rw [flush, bind_of_ok (handle_of_some hh), WbCache.takeDirtyRanges, hd]
  show EStateM.Result.ok () { a with handles := Function.update a.handles fh (some h) } = _
  rw [hput]

theorem flush_of_dirty (hh : a.handles fh = some h) (hd : h.cache.dirty = true) (hio : io.Stages)
    (hwf : Wf a.file) (hws : Coalesced h.cache.ranges)
    (hfit : ∀ w ∈ h.cache.ranges, w.stop < 2 ^ 64) :
    ∃ t, flush padBlocks suite host fh io a = noteWrite io
        { a with batch := true, file := t, handles := Function.update a.handles fh (some h.cleaned) } ∧
      Shows.Written a.file h.cache.ranges t := by
  obtain ⟨t, ht, hw⟩ := stageExtents_spec padBlocks suite host
    (a := { a with handles := Function.update a.handles fh (some h.cleaned) }) hio hwf hws hfit
  refine ⟨t, ?_, hw⟩
  rw [flush, bind_of_ok (handle_of_some hh), WbCache.takeDirtyRanges, hd]
  exact ht

/-! ## Committing -/

/-- The window either leaves the batch open or commits it, unless the commit fails. -/
theorem noteWrite_cases (io : Io) (hb : a.batch = true) :
    (∃ a', noteWrite io a = .ok () a' ∧ a'.file = a.file ∧ a'.handles = a.handles ∧
      a'.nextFh = a.nextFh ∧
      a'.writeGen = a.writeGen + 1 ∧ (a'.batch = false → a'.committed = a.file)) ∨
    (io.windowCommitFails = true ∧ ∃ a',
      noteWrite io a = .error .io a' ∧ a'.file = a.file ∧ a'.handles = a.handles) := by
  unfold noteWrite
  by_cases hdue : windowDue io.elapsed a = true
  · rw [if_pos hdue]
    unfold commitBatch
    rw [if_pos hb]
    by_cases hf : io.windowCommitFails = true
    · rw [if_pos hf]
      exact .inr ⟨hf, _, rfl, rfl, rfl⟩
    · rw [if_neg hf]
      exact .inl ⟨_, rfl, rfl, rfl, rfl, rfl, fun _ => rfl⟩
  · rw [if_neg hdue]
    refine .inl ⟨_, rfl, rfl, rfl, rfl, rfl, fun hc => ?_⟩
    exact absurd (hb.symm.trans hc) (by decide)

theorem commitNow_cases (a : Adapter) (io : Io) :
    (a.batch = false ∧ commitNow io a = .ok () { a with ops := 0 }) ∨
    (a.batch = true ∧ commitNow io a =
      .ok () { a with batch := false, committed := a.file, ops := 0 }) ∨
    (io.commitFails = true ∧ commitNow io a = .error .io { a with batch := false }) := by
  by_cases hb : a.batch = true
  · by_cases hf : io.commitFails = true
    · have hc : commitBatch io.commitFails a = .error .io { a with batch := false } := by
        rw [commitBatch, if_pos hb, if_pos hf]
      exact .inr (.inr ⟨hf, bind_of_error hc⟩)
    · have hc : commitBatch io.commitFails a =
          .ok () { a with batch := false, committed := a.file } := by
        rw [commitBatch, if_pos hb, if_neg hf]
      exact .inr (.inl ⟨hb, bind_of_ok hc⟩)
  · have hc : commitBatch io.commitFails a = .ok () a := by rw [commitBatch, if_neg hb]
    exact .inl ⟨by simpa using hb, bind_of_ok hc⟩

/-! ## The content after a change of size -/

/-- The file keeps its bytes below the new size and has zeros behind them. -/
theorem setSize_spec {s : StreamMeta Bytes} (h : Wf s) (n : Nat) :
    Wf (setSize padBlocks suite host n s) ∧
      read (setSize padBlocks suite host n s) = resize n (read s) := by
  have hspec : Wf (setSize padBlocks suite host n s) ∧ (setSize padBlocks suite host n s).byteLen = n ∧
      ∀ i, i < n → byteAt (setSize padBlocks suite host n s) i = byteAt s i := by
    unfold setSize
    by_cases hlt : n < s.byteLen
    · rw [if_pos hlt]
      obtain ⟨st, hst⟩ : ∃ st, truncate padBlocks suite host s n = some st := by
        unfold truncate truncateWith
        rw [if_neg (by omega)]
        dsimp only
        split
        · exact ⟨_, rfl⟩
        · exact ⟨_, rfl⟩
      have hedit : edit padBlocks suite host s (.truncate n) = st.stream := by rw [edit, hst]
      refine ⟨h.edit _, ?_⟩
      rw [hedit]
      obtain ⟨-, ⟨rfl, rfl⟩ | ⟨hpos, rfl⟩⟩ := truncate_cases h.toStored hst
      · exact ⟨rfl, fun i hi => absurd hi (Nat.not_lt_zero i)⟩
      · refine ⟨byteLen_stageCut h.toStored hpos hlt, fun i hi => ?_⟩
        rw [byteAt_stageCut h.toStored hlt fun j hj => getD_take_read h.toStored hlt hj, if_pos hi]
    · rw [if_neg hlt]
      by_cases hgt : s.byteLen < n
      · rw [if_pos hgt]
        obtain ⟨st, hst⟩ : ∃ st, extend host s n = some st := by
          unfold extend
          rw [if_neg (by omega)]
          exact ⟨_, rfl⟩
        have hedit : edit padBlocks suite host s (.extend n) = st.stream := by rw [edit, hst]
        refine ⟨h.edit _, ?_⟩
        rw [hedit]
        exact ⟨(byteLen_extend h.toStored hst).2, fun i _ => byteAt_extend hst i⟩
      · rw [if_neg hgt]
        exact ⟨h, by omega, fun _ _ => rfl⟩
  obtain ⟨hwf, hlen, hby⟩ := hspec
  refine ⟨hwf, ext_getD ?_ fun i => ?_⟩
  · rw [length_read hwf.geometry, length_resize, hlen]
  rw [getD_read hwf, getD_resize, getD_read h]
  split
  · rename_i hi
    exact hby i hi
  · exact hwf.hidden i (by omega)

end

end Adapter

end Sfs.Mount

import Sfs.Mount.Adapter

/-!
# What `fsync` promises

The writes that a handle has acknowledged are what its cache and the staged file show together, as
long as every flush stages all of its extents: they leave the cache before the engine is asked, so a
failure on the way drops them. A commit that fails closes the batch, and a later `fsync` of a clean
handle finds no batch to commit and returns success all the same. Apart from these two an `fsync`
that returns success has committed every acknowledged write (`fsync_truthful`).
-/

namespace Sfs.Mount

open Sfs.Lib Sfs.Version Adapter Function

variable {fh : Nat} {a a' : Adapter}

/-- A call on one handle, or on another file of the mount: those stage into the same batch. -/
inductive HandleOp where
  | write (w : Extent)
  | flush (io : Io)
  | fsync (io : Io)
  | release (io : Io)
  | otherWrite (io : Io)
  | otherFsync (io : Io)

section

variable (padBlocks : Bool) (suite : Suite) (host : HostAlias) (fh : Nat)

def HandleOp.exec : HandleOp → AdapterM Unit
  | .write w => do
    let _ ← Adapter.write fh w.val.1 w.val.2
  | .flush io => Adapter.flush padBlocks suite host fh io
  | .fsync io => Adapter.fsync padBlocks suite host fh io
  | .release io => Adapter.release padBlocks suite host fh io
  | .otherWrite io => do
    beginBatch
    noteWrite io
  | .otherFsync io => Adapter.commitNow io

/-- The file with all acknowledged writes; the call that follows acknowledges its own. -/
def acknowledge (a : Adapter) (acked : Bytes) : HandleOp → Bytes
  | .write w => if (a.handles fh).isSome ∧ w.val.2 ≠ [] then splice w.val.1 w.val.2 acked else acked
  | _ => acked

def handleStep (p : Adapter × Bytes) (op : HandleOp) : Adapter × Bytes :=
  (after (op.exec padBlocks suite host fh) p.1, acknowledge fh p.1 p.2 op)

/-- The file as the handle shows it; a closed handle shows what is staged. -/
def shown (a : Adapter) : Bytes :=
  (a.handles fh).elim (read a.file) fun h => spliced h.cache.ranges (read a.file)

/-- What a dirty handle flushes is staged without a failure. -/
def Staging (a : Adapter) (io : Io) : Prop :=
  ∀ h, a.handles fh = some h → h.cache.dirty = true → io.Stages

/-- Flushes stage what they take, and no `fsync` finds a clean handle without a batch while the
staged content is not the committed one. -/
def Orderly (p : Adapter × Bytes) : HandleOp → Prop
  | .flush io => Staging fh p.1 io
  | .fsync io => Staging fh p.1 io ∧
    ∀ h, p.1.handles fh = some h → h.cache.dirty = true ∨ p.1.batch = true ∨
      read p.1.committed = read p.1.file
  | .release io => Staging fh p.1 io
  | _ => True

end

/-! ## The acknowledged writes are shown -/

open HandleOp

theorem shown_of_some {h : HandleState} (hh : a.handles fh = some h) :
    shown fh a = spliced h.cache.ranges (read a.file) := by
  rw [shown, hh, Option.elim_some]

theorem shown_of_none (hh : a.handles fh = none) : shown fh a = read a.file := by
  rw [shown, hh, Option.elim_none]

structure Kept (fh : Nat) (a : Adapter) (acked : Bytes) : Prop where
  wf : Wf a.file
  shown : shown fh a = acked
  coalesced : ∀ h, a.handles fh = some h → Coalesced h.cache.ranges
  clean : ∀ h, a.handles fh = some h → h.cache.dirty = false → h.cache.ranges = []
  fits : ∀ h, a.handles fh = some h → ∀ w ∈ h.cache.ranges, w.stop < 2 ^ 64

namespace Kept

variable {fh : Nat} {a : Adapter} {acked : Bytes}

/-- Calls that leave the file and the handle alone. -/
theorem congr (h : Kept fh a acked) (hfile : a'.file = a.file)
    (hhandles : a'.handles fh = a.handles fh) : Kept fh a' acked where
  wf := hfile ▸ h.wf
  shown := by
    have := h.shown
    unfold Mount.shown at *
    rwa [hfile, hhandles]
  coalesced := hhandles ▸ h.coalesced
  clean := hhandles ▸ h.clean
  fits := hhandles ▸ h.fits

theorem closed (hwf : Wf a'.file) (hread : read a'.file = acked) (hh : a'.handles fh = none) :
    Kept fh a' acked where
  wf := hwf
  shown := (shown_of_none hh).trans hread
  coalesced := fun h hs => by rw [hh] at hs; cases hs
  clean := fun h hs => by rw [hh] at hs; cases hs
  fits := fun h hs => by rw [hh] at hs; cases hs

theorem opened {h : HandleState} (hh : a'.handles fh = some h) (hwf : Wf a'.file)
    (hshown : spliced h.cache.ranges (read a'.file) = acked) (hco : Coalesced h.cache.ranges)
    (hclean : h.cache.dirty = false → h.cache.ranges = [])
    (hfits : ∀ w ∈ h.cache.ranges, w.stop < 2 ^ 64) : Kept fh a' acked := by
  have hone : ∀ {P : HandleState → Prop}, P h → ∀ h', a'.handles fh = some h' → P h' := fun hP _ hh' =>
    Option.some.inj (hh.symm.trans hh') ▸ hP
  exact ⟨hwf, (shown_of_some hh).trans hshown, hone hco, hone hclean, hone hfits⟩

/-- The handle after its extents were staged. -/
theorem cleaned {h : HandleState} (hwf : Wf a'.file) (hread : read a'.file = acked)
    (hh : a'.handles fh = some h.cleaned) : Kept fh a' acked :=
  opened hh hwf hread .nil (fun _ => rfl) fun _ hw => (nomatch hw)

theorem write (h : Kept fh a acked) {hs : HandleState} (hh : a.handles fh = some hs) (w : Patch)
    (hw : w.stop < 2 ^ 64) (hd : w.2 ≠ []) :
    Kept fh { a with
      handles := update a.handles fh (some { hs with cache := hs.cache.write w.1 w.2 }) }
      (splice w.1 w.2 acked) := by
  have hco := h.coalesced hs hh
  have hco' : Coalesced (hs.cache.write w.1 w.2).ranges := WbCache.coalesced_write hco
  have hsame : Same (hs.cache.write w.1 w.2).ranges (hs.cache.ranges ++ [w]) := fun f => by
    rw [WbCache.patches_write hco, patches_append]
    rfl
  have hne : ∀ v ∈ hs.cache.ranges ++ [w], v.2 ≠ [] := by
    intro v hv
    rcases List.mem_append.mp hv with hv | hv
    · exact hco.nonempty v hv
    · exact List.mem_singleton.mp hv ▸ hd
  refine opened (update_self ..) h.wf ?_ hco' (fun hc => ?_) ?_
  · show spliced (hs.cache.write w.1 w.2).ranges (read a.file) = _
    rw [hsame.spliced_eq hco'.nonempty hne, spliced_concat, ← shown_of_some hh, h.shown]
  · have hdirty : (hs.cache.write w.1 w.2).dirty = true := by rw [WbCache.write, if_neg hd]
    exact absurd (hdirty.symm.trans hc) (by decide)
  have hlt : reach (hs.cache.write w.1 w.2).ranges 0 < 2 ^ 64 := by
    rw [hsame.reach_eq hco'.nonempty hne, reach_lt_iff]
    refine ⟨by decide, fun v hv => ?_⟩
    rcases List.mem_append.mp hv with hv | hv
    · exact h.fits hs hh v hv
    · exact List.mem_singleton.mp hv ▸ hw
  exact (reach_lt_iff.mp hlt).2

section

variable (padBlocks : Bool) (suite : Suite) (host : HostAlias) {io : Io}

/-- A flush of an open handle shows the acknowledged writes in the staged file; when it returns
success an open batch or the commit at the end of the window holds them, unless the handle was
clean. -/
theorem flush (h : Kept fh a acked) (hio : Staging fh a io) {hs : HandleState}
    (hh : a.handles fh = some hs) :
    Kept fh (after (Adapter.flush padBlocks suite host fh io) a) acked ∧
      read (after (Adapter.flush padBlocks suite host fh io) a).file = acked ∧
      ∀ a', Adapter.flush padBlocks suite host fh io a = .ok () a' →
        (hs.cache.dirty = true ∨ a.batch = true ∨ read a.committed = read a.file) →
        a'.batch = true ∨ read a'.committed = read a'.file := by
  cases hd : hs.cache.dirty with
  | false =>
    have hf : Adapter.flush padBlocks suite host fh io a = .ok () a :=
      flush_of_clean padBlocks suite host hh hd
    rw [after_of_ok hf]
    refine ⟨h, ?_, fun a' ha' hcond => ?_⟩
    · rw [← h.shown, shown_of_some hh, h.clean hs hh hd]
      rfl
    · cases hf.symm.trans ha'
      rcases hcond with hc | hc
      · cases hc
      · exact hc
  | true =>
    obtain ⟨t, hf, hw⟩ :=
      flush_of_dirty padBlocks suite host hh hd (hio hs hh hd) h.wf (h.coalesced hs hh)
      (h.fits hs hh)
    have hread : read t = acked := by
      rw [read_of_written h.wf hw, ← shown_of_some hh, h.shown]
    have hkept : ∀ {a' : Adapter}, a'.file = t → a'.handles = update a.handles fh (some hs.cleaned) →
        Kept fh a' acked ∧ read a'.file = acked := by
      rintro a' rfl hhandles
      exact ⟨cleaned hw.wf hread (hhandles ▸ update_self ..), hread⟩
    rcases noteWrite_cases (a := { a with
        batch := true
        file := t
        handles := update a.handles fh (some hs.cleaned) }) io rfl with
      ⟨a', hnote, hfile, hhandles, -, -, hpub⟩ | ⟨-, a', hnote, hfile, hhandles⟩
    · rw [after_of_ok (hf.trans hnote)]
      refine and_assoc.mp ⟨hkept hfile hhandles, fun a'' ha'' _ => ?_⟩
      cases (hf.trans hnote).symm.trans ha''
      cases hb : a'.batch with
      | true => exact .inl rfl
      | false => exact .inr (by rw [hpub hb, hfile])
    · rw [after_of_error (hf.trans hnote)]
      refine and_assoc.mp ⟨hkept hfile hhandles, fun a'' ha'' _ => ?_⟩
      cases (hf.trans hnote).symm.trans ha''

theorem commitNow (h : Kept fh a acked) (io : Io) :
    Kept fh (after (Adapter.commitNow io) a) acked := by
  rcases commitNow_cases a io with ⟨-, hc⟩ | ⟨-, hc⟩ | ⟨-, hc⟩ <;> rw [after, hc] <;>
    exact h.congr rfl rfl

/-- Every call keeps the acknowledged writes shown, and an `fsync` that returns success has
committed them. -/
theorem step (h : Kept fh a acked) (op : HandleOp) (hop : Orderly fh (a, acked) op) :
    Kept fh (after (op.exec padBlocks suite host fh) a) (acknowledge fh a acked op) ∧
      ∀ io, op = .fsync io → outcome (op.exec padBlocks suite host fh) a = .ok () →
        read (after (op.exec padBlocks suite host fh) a).committed = acked := by
  cases op with
  | write w =>
    refine ⟨?_, fun io hio => by cases hio⟩
    cases hh : a.handles fh with
    | none =>
      have hexec : exec padBlocks suite host fh (.write w) a = .error .notFound a :=
        bind_of_error (bind_of_error (handle_of_none hh))
      rw [after_of_error hexec, acknowledge, hh, if_neg (by simp)]
      exact h
    | some hs =>
      have hexec : exec padBlocks suite host fh (.write w) a =
          .ok () { a with
            handles := update a.handles fh (some { hs with cache := hs.cache.write w.val.1 w.val.2 }) } :=
        bind_of_ok (bind_of_ok (handle_of_some hh))
      rw [after_of_ok hexec, acknowledge, hh]
      by_cases hd : w.val.2 = []
      · have hsame : { hs with cache := hs.cache.write w.val.1 w.val.2 } = hs := by
          rw [WbCache.write, if_pos hd]
        rw [if_neg (by simp [hd]), hsame]
        exact h.congr rfl ((update_self _ _ _).trans hh.symm)
      · rw [if_pos ⟨rfl, hd⟩]
        exact h.write hh w.val w.property hd
  | flush io =>
    refine ⟨?_, fun io hio => by cases hio⟩
    cases hh : a.handles fh with
    | none =>
      have hexec : Adapter.flush padBlocks suite host fh io a = .error .notFound a :=
        flush_of_none padBlocks suite host hh
      rw [exec, after_of_error hexec]
      exact h
    | some hs => exact (h.flush padBlocks suite host hop hh).1
  | fsync io =>
    cases hh : a.handles fh with
    | none =>
      have hexec : exec padBlocks suite host fh (.fsync io) a = .error .notFound a :=
        bind_of_error (flush_of_none padBlocks suite host hh)
      rw [after_of_error hexec, outcome_of_error hexec]
      exact ⟨h, fun io' _ hok => by cases hok⟩
    | some hs =>
      obtain ⟨hk, hread, hpub⟩ := h.flush padBlocks suite host hop.1 hh
      cases hf : Adapter.flush padBlocks suite host fh io a with
      | ok u a₁ =>
        have hexec : exec padBlocks suite host fh (.fsync io) a = Adapter.commitNow io a₁ :=
          bind_of_ok hf
        rw [after_of_ok hf] at hk hread
        rw [after, outcome, hexec, ← after, ← outcome]
        refine ⟨hk.commitNow io, fun io' _ hok => ?_⟩
        rcases commitNow_cases a₁ io with ⟨hb, hc⟩ | ⟨-, hc⟩ | ⟨-, hc⟩
        · -- no batch is open: the content was committed before
          rcases hpub a₁ hf (hop.2 hs hh) with hb' | hcom
          · exact absurd (hb.symm.trans hb') (by decide)
          · rw [after_of_ok hc]
            exact hcom.trans hread
        · rw [after_of_ok hc]
          exact hread
        · rw [outcome_of_error hc] at hok
          cases hok
      | error e a₁ =>
        have hexec : exec padBlocks suite host fh (.fsync io) a = .error e a₁ := bind_of_error hf
        rw [after_of_error hf] at hk
        rw [after_of_error hexec, outcome_of_error hexec]
        exact ⟨hk, fun io' _ hok => by cases hok⟩
  | release io =>
    refine ⟨?_, fun io hio => by cases hio⟩
    cases hh : a.handles fh with
    | none =>
      have hexec : exec padBlocks suite host fh (.release io) a = .error .notFound a :=
        bind_of_error (flush_of_none padBlocks suite host hh)
      rw [after_of_error hexec]
      exact h
    | some hs =>
      obtain ⟨hk, hread, -⟩ := h.flush padBlocks suite host hop hh
      cases hf : Adapter.flush padBlocks suite host fh io a with
      | ok u a₁ =>
        have hexec : exec padBlocks suite host fh (.release io) a =
            .ok () { a₁ with handles := update a₁.handles fh none } := bind_of_ok hf
        rw [after_of_ok hf] at hk hread
        rw [after_of_ok hexec]
        exact closed hk.wf hread (update_self _ _ _)
      | error e a₁ =>
        have hexec : exec padBlocks suite host fh (.release io) a = .error e a₁ := bind_of_error hf
        rw [after_of_error hf] at hk
        rw [after_of_error hexec]
        exact hk
  | otherWrite io =>
    refine ⟨?_, fun io hio => by cases hio⟩
    have hexec : exec padBlocks suite host fh (.otherWrite io) a =
        noteWrite io { a with batch := true } := rfl
    rcases noteWrite_cases (a := { a with batch := true }) io rfl with
      ⟨a', hnote, hfile, hhandles, -⟩ | ⟨-, a', hnote, hfile, hhandles⟩
    · rw [after_of_ok (hexec.trans hnote)]
      exact h.congr hfile (congrFun hhandles fh)
    · rw [after_of_error (hexec.trans hnote)]
      exact h.congr hfile (congrFun hhandles fh)
  | otherFsync io => exact ⟨h.commitNow io, fun io hio => by cases hio⟩

end

end Kept

section

variable (padBlocks : Bool) (suite : Suite) (host : HostAlias)

theorem kept_opened (hwf : Wf a.file) (hopen : a.handles fh = some ⟨.new a.file.byteLen, none, 0⟩) :
    Kept fh a (read a.file) :=
  Kept.cleaned (h := ⟨.new a.file.byteLen, none, 0⟩) hwf rfl hopen

/-- In every orderly run of a handle that was just opened an `fsync` that returns success has
committed the file with all writes acknowledged before it, and the handle shows every acknowledged
write. -/
theorem fsync_truthful {a : Adapter} {fh : Nat} (hwf : Wf a.file)
    (hopen : a.handles fh = some ⟨.new a.file.byteLen, none, 0⟩) (ops : List HandleOp)
    (hops : Along (handleStep padBlocks suite host fh) (Orderly fh) (a, read a.file) ops) :
    Along (handleStep padBlocks suite host fh)
        (fun p op => ∀ io, op = .fsync io → outcome (op.exec padBlocks suite host fh) p.1 = .ok () →
          read (after (op.exec padBlocks suite host fh) p.1).committed = p.2)
        (a, read a.file) ops ∧
      shown fh (run (handleStep padBlocks suite host fh) (a, read a.file) ops).1 =
        (run (handleStep padBlocks suite host fh) (a, read a.file) ops).2 := by
  have hstep : ∀ (p : Adapter × Bytes) (op : HandleOp), Kept fh p.1 p.2 → Orderly fh p op →
      Kept fh (handleStep padBlocks suite host fh p op).1 (handleStep padBlocks suite host fh p op).2 ∧
        ∀ io, op = .fsync io → outcome (op.exec padBlocks suite host fh) p.1 = .ok () →
          read (after (op.exec padBlocks suite host fh) p.1).committed = p.2 :=
    fun p op hp hop => hp.step padBlocks suite host op hop
  have hinit : (fun p : Adapter × Bytes => Kept fh p.1 p.2) (a, read a.file) := kept_opened hwf hopen
  refine ⟨along_of_inv hstep hinit hops, ?_⟩
  have hrun := run_inv (fun p op hp hop => (hstep p op hp hop).1) hinit hops
  exact hrun.shown

end

/-- A new file with one handle. -/
def newFile : Adapter :=
  ⟨.empty, .empty, false, 0, 0, 2, fun fh => if fh = 1 then some ⟨.new 0, none, 0⟩ else none⟩

/-- A byte is written, the commit of an `fsync` fails, and the next write is synced. -/
def retried : List HandleOp :=
  [.write ⟨(0, [7]), by decide⟩, .fsync { Io.sound false with commitFails := true },
    .write ⟨(1, [8]), by decide⟩, .fsync (.sound false)]

theorem fsync_truthful_retried :
    Along (handleStep false .none 1 1)
        (fun p op => ∀ io, op = .fsync io → outcome (op.exec false .none 1 1) p.1 = .ok () →
          read (after (op.exec false .none 1 1) p.1).committed = p.2)
        (newFile, read newFile.file) retried ∧
      shown 1 (run (handleStep false .none 1 1) (newFile, read newFile.file) retried).1 =
        (run (handleStep false .none 1 1) (newFile, read newFile.file) retried).2 :=
  fsync_truthful false .none 1 Wf.empty rfl retried
    ⟨trivial, ⟨fun _ _ _ => ⟨rfl, rfl, fun _ => rfl⟩, fun _ hh => .inl (Option.some.inj hh ▸ rfl)⟩,
      trivial, ⟨fun _ _ _ => ⟨rfl, rfl, fun _ => rfl⟩, fun _ hh => .inl (Option.some.inj hh ▸ rfl)⟩,
      trivial⟩

/-- A byte is written and the flush fails to write it to the engine. -/
def failedFlush : List HandleOp :=
  [.write ⟨(0, [7]), by decide⟩, .flush { Io.sound false with writeFails := fun _ => true }]

/-- The byte is gone: the next `fsync` returns success and commits the hole that was made for it. -/
theorem fsync_untruthful :
    outcome (exec false .none 1 1 (.fsync (.sound false)))
        (run (handleStep false .none 1 1) (newFile, read newFile.file) failedFlush).1 = .ok () ∧
      read (after (exec false .none 1 1 (.fsync (.sound false)))
        (run (handleStep false .none 1 1) (newFile, read newFile.file) failedFlush).1).committed =
          [0] ∧
      (run (handleStep false .none 1 1) (newFile, read newFile.file) failedFlush).2 = [7] := by
  refine ⟨?_, ?_, ?_⟩
  · rfl
  · decide +kernel
  · decide +kernel

end Sfs.Mount

import Sfs.Lib.Run
import Sfs.Version.Content

/-!
# The record chain of a unit

Every content operation writes a new head record whose parent is the previous head. The state
of a unit is that chain with the pending asynchronous writes. The chain is append-only in the
causal sense when each record's vector dominates its parent's, strictly where the content
changed; `appendOnly_step_iff` says which single step breaks this.
-/

namespace Sfs.Version

open Sfs.Lib VersionVector

variable {op : ContentOp} {s : StreamMeta Bytes}

/-- The content side of a unit record; a directory has no content stream. The streams of the
concurrent strain heads stand for their addresses. -/
structure UnitRecord where
  content : Option (StreamMeta Bytes)
  strains : List (StreamMeta Bytes)
  deriving DecidableEq

def UnitRecord.stream (r : UnitRecord) : StreamMeta Bytes := r.content.getD .empty

def UnitRecord.vv (r : UnitRecord) : VersionVector := r.stream.vv

/-- A unit: its head record, the parents of it (newest first) and the overlay of asynchronous
writes, in the order of their offsets. -/
structure UnitState where
  head : UnitRecord
  past : List UnitRecord
  overlay : List (Nat × Bytes)

namespace UnitState

def heads (u : UnitState) : List UnitRecord := u.head :: u.past

/-- A new head over the old one; it has no strains. -/
def push (u : UnitState) (s : StreamMeta Bytes) : UnitState :=
  { u with head := ⟨some s, []⟩, past := u.head :: u.past }

/-- `create_unit`. -/
def created : UnitState := ⟨⟨some .empty, []⟩, [], []⟩

end UnitState

/-! ## Reads used by conflict resolution -/

/-- `read_raw_key`: unlike `read` it cuts a long last fragment but fills up no short one. -/
def readRawKey (s : StreamMeta Bytes) : Bytes :=
  (s.frags.mapIdx fun f fr =>
    let isLast := f + 1 = s.frags.length
    match fr.block with
    | none => List.replicate (if isLast then s.lastFragLength else s.fragsize) 0
    | some plain => if isLast then plain.take s.lastFragLength else plain).flatten

def firstHole (s : StreamMeta Bytes) : Option Nat := s.frags.findIdx? fun fr => fr.block.isNone

/-- `read_strain` of strain `i ≥ 1`. -/
def readStrain (strains : List (StreamMeta Bytes)) (i : Nat) : Result Bytes :=
  match strains[i - 1]? with
  | none => .error (.notFound ("read_strain: strain index " ++ toString i ++ " out of range"))
  | some s =>
    match firstHole s with
    | some f => .error
      (.notFound ("read_strain: strain " ++ toString i ++ " fragment " ++ toString f ++
        " is a hole (not yet synced)"))
    | none => .ok ((s.frags.flatMap fun fr => fr.block.getD []).take s.byteLen)

inductive Resolution where
  | chooseStrain (i : Nat)
  | mergedContent (b : Bytes)
  deriving DecidableEq, Repr

def resolvedBytes (r : UnitRecord) : Resolution → Result Bytes
  | .mergedContent b => .ok b
  | .chooseStrain 0 =>
    match firstHole r.stream with
    | some f => .error (.notFound ("resolve_conflict: primary (strain 0) fragment " ++ toString f ++
        " is a hole (not yet synced)"))
    | none => .ok (readRawKey r.stream)
  | .chooseStrain (i + 1) => readStrain r.strains (i + 1)

/-! ## The overlay -/

/-- Insertion into the offset-ordered map of pending writes. -/
def insertWrite (offset : Nat) (data : Bytes) : List (Nat × Bytes) → List (Nat × Bytes)
  | [] => [(offset, data)]
  | (o, d) :: rest =>
    if offset < o then (offset, data) :: (o, d) :: rest
    else if offset = o then (offset, data) :: rest
    else (o, d) :: insertWrite offset data rest

/-- `apply_overlay_to_read` for a read of `len` bytes at offset 0. -/
def applyOverlay (len : Nat) : List (Nat × Bytes) → Bytes → Bytes
  | [], out => out
  | (o, d) :: rest, out =>
    if len ≤ o then applyOverlay len rest out
    else
      let copyEnd := min len (o + d.length)
      let out := if out.length < copyEnd then resize copyEnd out else out
      applyOverlay len rest (overlay out o (d.take (copyEnd - o)))

/-- `apply_overlay_full`. -/
def applyOverlayFull : List (Nat × Bytes) → Bytes → Bytes
  | [], out => out
  | (o, d) :: rest, out =>
    let out := if out.length < o + d.length then resize (o + d.length) out else out
    applyOverlayFull rest (overlay out o d)

section

variable (padBlocks : Bool) (suite : Suite) (host : HostAlias)

/-! ## Operations -/

/-- The stream of the resolved content, cut anew under one fresh dot. -/
def stageResolved (r : UnitRecord) (bytes : Bytes) : Staged :=
  let primary := r.stream
  let vv := (r.strains.foldl (fun vv s => vv.join s.vv) primary.vv).bump host
  let newVer := packDot host (vv.get host)
  let exp := if primary.frags.length = 0 then deriveExp (max bytes.length 1) else primary.fragsizeExp
  let n := if bytes.length = 0 then 0 else fragCount bytes.length exp
  { stream := {
      frags := (List.range n).map fun f =>
        ⟨newVer, some (padPlain padBlocks suite exp
          (slice (f * 2 ^ exp) (min (f * 2 ^ exp + 2 ^ exp) bytes.length - f * 2 ^ exp) bytes))⟩
      vv
      fragsizeExp := exp
      lastFragLength := if n = 0 then 0 else lastFragLength bytes.length exp
      pins := [] }
    dirty := List.range n }

inductive ContentOp where
  | write (offset : Nat) (data : Bytes)
  | writeRawKey (offset : Nat) (data : Bytes)
  | truncate (newSize : Nat)
  | extend (newSize : Nat)
  | resolveConflict (r : Resolution)
  deriving DecidableEq, Repr

/-- What an operation stages over the head `r`; `none` is an `Ok(())` that changes nothing. A
truncation reads the bytes it keeps through the overlay. -/
def stage (r : UnitRecord) (overlay : List (Nat × Bytes)) : ContentOp → Result (Option Staged)
  | .write offset data => (stageWrite padBlocks suite host r.stream offset data).map some
  | .writeRawKey offset data => (stageWriteRawKey padBlocks suite host r.stream offset data).map some
  | .truncate newSize =>
    match r.content with
    | none => .ok none
    | some s => .ok (truncateWith padBlocks suite host s newSize
        (applyOverlay newSize overlay ((read s).take newSize)))
  | .extend newSize =>
    match r.content with
    | none => .ok none
    | some s => .ok (extend host s newSize)
  | .resolveConflict res =>
    if r.strains = [] then .ok none
    else (resolvedBytes r res).map fun bytes => some (stageResolved padBlocks suite host r bytes)

def applyOp (u : UnitState) (op : ContentOp) : UnitState × Result Unit :=
  match stage padBlocks suite host u.head u.overlay op with
  | .error e => (u, .error e)
  | .ok none => (u, .ok ())
  | .ok (some st) => (u.push st.stream, .ok ())

/-- `write_async`; when the log region is full the source runs a checkpoint first. -/
def writeAsync (u : UnitState) (offset : Nat) (data : Bytes) : UnitState × Result Unit :=
  if data = [] then (u, .error (.integrity "write_async: empty data"))
  else ({ u with overlay := insertWrite offset data u.overlay }, .ok ())

/-- The apply loop of a checkpoint: it stops at the first write that fails, and the heads
written so far stay. -/
def applyPending : UnitState → List (Nat × Bytes) → UnitState × Result Unit
  | u, [] => (u, .ok ())
  | u, (offset, data) :: rest =>
    match applyOp padBlocks suite host u (.write offset data) with
    | (u', .ok _) => applyPending u' rest
    | (u', .error e) => (u', .error e)

def checkpoint (u : UnitState) : UnitState × Result Unit :=
  match applyPending padBlocks suite host u u.overlay with
  | (u', .ok _) => ({ u' with overlay := [] }, .ok ())
  | (u', .error e) => (u', .error e)

inductive Op where
  | content (op : ContentOp)
  | writeAsync (offset : Nat) (data : Bytes)
  | checkpoint
  deriving DecidableEq, Repr

def step (u : UnitState) : Op → UnitState
  | .content op => (applyOp padBlocks suite host u op).1
  | .writeAsync offset data => (writeAsync u offset data).1
  | .checkpoint => (checkpoint padBlocks suite host u).1

/-! ## What an operation stages -/

variable {padBlocks suite host} {r : UnitRecord} {overlay : List (Nat × Bytes)} {st : Staged}

theorem foldl_join_dominates (strains : List (StreamMeta Bytes)) (vv : VersionVector) :
    (strains.foldl (fun vv s => vv.join s.vv) vv).dominates vv = true := by
  induction strains generalizing vv with
  | nil => exact vv.dominates_refl
  | cons s rest ih => exact dominates_trans (ih _) (vv.join_dominates_left s.vv)

/-- The overlay never shortens what was read. -/
theorem length_le_applyOverlay (len : Nat) (ws : List (Nat × Bytes)) (out : Bytes) :
    out.length ≤ (applyOverlay len ws out).length := by
  induction ws generalizing out with
  | nil => exact le_rfl
  | cons w rest ih =>
    obtain ⟨o, d⟩ := w
    simp only [applyOverlay]
    split
    · exact ih out
    refine le_trans ?_ (ih _)
    split
    · rename_i hs
      rw [length_overlay]
      · simp only [length_resize]
        omega
      · simp only [List.length_take, length_resize]
        omega
    · rw [length_overlay]
      simp only [List.length_take]
      omega

/-- The operation empties content that is not empty. -/
def ContentOp.Empties (r : UnitRecord) (op : ContentOp) : Prop :=
  op = .truncate 0 ∧ 0 < r.stream.byteLen

instance (r : UnitRecord) (op : ContentOp) : Decidable (op.Empties r) :=
  inferInstanceAs (Decidable (op = .truncate 0 ∧ 0 < r.stream.byteLen))

theorem Fresh.stageResolved (bytes : Bytes) :
    Fresh host r.stream (stageResolved padBlocks suite host r bytes)
      (r.strains.foldl (fun vv s => vv.join s.vv) r.stream.vv) := by
  refine .of_all (foldl_join_dominates r.strains r.stream.vv) rfl rfl ?_
    (by simp [Version.stageResolved])
  intro f hf
  have hf' := hf
  simp only [Version.stageResolved, List.length_map, List.length_range] at hf'
  simp only [Version.stageResolved, List.getElem?_map, List.getElem?_range hf', Option.map_some,
    get_bump_self]
  exact ⟨_, rfl⟩

theorem stage_truncate_some {newSize : Nat}
    (h : stage padBlocks suite host r overlay (.truncate newSize) = .ok (some st)) :
    truncateWith padBlocks suite host r.stream newSize
      (applyOverlay newSize overlay ((read r.stream).take newSize)) = some st := by
  simp only [stage] at h
  split at h
  · cases h
  · rename_i hc
    rw [UnitRecord.stream, hc]
    exact Except.ok.inj h

theorem stage_extend_some {newSize : Nat}
    (h : stage padBlocks suite host r overlay (.extend newSize) = .ok (some st)) :
    extend host r.stream newSize = some st := by
  simp only [stage] at h
  split at h
  · cases h
  · rename_i hc
    rw [UnitRecord.stream, hc]
    exact Except.ok.inj h

/-- An operation that stages something starts the stream over, which only one that empties the
content does, or seals under a fresh dot. -/
theorem stage_some (h : stage padBlocks suite host r overlay op = .ok (some st)) :
    op.Empties r ∧ st = ⟨.empty, []⟩ ∨ ¬ op.Empties r ∧ ∃ w, Fresh host r.stream st w := by
  cases op with
  | write offset data =>
    obtain ⟨_, hst, ⟨⟩⟩ := exists_of_map_ok h
    exact .inr ⟨fun he => (by cases he.1), _, Fresh.stageWrite hst⟩
  | writeRawKey offset data =>
    obtain ⟨_, hst, ⟨⟩⟩ := exists_of_map_ok h
    exact .inr ⟨fun he => (by cases he.1), _, Fresh.stageWriteRawKey hst⟩
  | truncate newSize =>
    have hlen := length_le_applyOverlay newSize overlay ((read r.stream).take newSize)
    have hread := byteLen_le_length_read r.stream
    rw [List.length_take] at hlen
    obtain ⟨hlt, ⟨hz, rfl⟩ | ⟨hpos, rfl⟩⟩ := truncateWith_some (stage_truncate_some h)
    · exact .inl ⟨⟨by rw [show newSize = 0 by omega], by omega⟩, rfl⟩
    refine .inr ⟨fun he => ?_, _, Fresh.stageCut _ hpos⟩
    cases he.1
    omega
  | extend newSize =>
    exact .inr ⟨fun he => (by cases he.1), _, Fresh.extend (stage_extend_some h)⟩
  | resolveConflict res =>
    simp only [stage] at h
    split at h
    · cases h
    · obtain ⟨bytes, -, ⟨⟩⟩ := exists_of_map_ok h
      exact .inr ⟨fun he => (by cases he.1), _, Fresh.stageResolved bytes⟩

/-- The operation writes a new head if it succeeds. -/
def ContentOp.Stages (r : UnitRecord) : ContentOp → Prop
  | .write _ _ => True
  | .writeRawKey _ _ => True
  | .truncate newSize => newSize < r.stream.byteLen
  | .extend newSize => r.stream.byteLen < newSize
  | .resolveConflict _ => r.strains ≠ []

instance (r : UnitRecord) : (op : ContentOp) → Decidable (op.Stages r)
  | .write _ _ => isTrue trivial
  | .writeRawKey _ _ => isTrue trivial
  | .truncate newSize => inferInstanceAs (Decidable (newSize < r.stream.byteLen))
  | .extend newSize => inferInstanceAs (Decidable (r.stream.byteLen < newSize))
  | .resolveConflict _ => inferInstanceAs (Decidable (r.strains ≠ []))

theorem stages_of_stage (h : stage padBlocks suite host r overlay op = .ok (some st)) :
    op.Stages r := by
  cases op with
  | write offset data => trivial
  | writeRawKey offset data => trivial
  | truncate newSize => exact (truncateWith_some (stage_truncate_some h)).1
  | extend newSize =>
    have h := stage_extend_some h
    show r.stream.byteLen < newSize
    unfold extend at h
    split at h
    · cases h
    · omega
  | resolveConflict res =>
    simp only [stage] at h
    split at h
    · cases h
    · assumption

/-- Unless it starts the stream over, a new head has seen the old one and one write more. -/
theorem bump_le_of_stage (h : stage padBlocks suite host r overlay op = .ok (some st))
    (he : ¬ op.Empties r) : r.vv.bump host ≤ st.stream.vv := by
  obtain ⟨he', -⟩ | ⟨-, w, hf⟩ := stage_some h
  · exact absurd he' he
  · rw [hf.vv]
    exact bump_le_bump host hf.dominates

theorem le_foldl_join {strains : List (StreamMeta Bytes)} (hs : s ∈ strains)
    (vv : VersionVector) : s.vv ≤ strains.foldl (fun vv s => vv.join s.vv) vv := by
  induction strains generalizing vv with
  | nil => cases hs
  | cons t rest ih =>
    rcases List.mem_cons.mp hs with rfl | hs
    · exact le_trans (vv.join_dominates_right s.vv) (foldl_join_dominates rest (vv.join s.vv))
    · exact ih hs _

/-- A resolved head has seen every strain. -/
theorem strain_le_of_resolve {res : Resolution} (hs : s ∈ r.strains)
    (h : stage padBlocks suite host r overlay (.resolveConflict res) = .ok (some st)) :
    s.vv ≤ st.stream.vv := by
  simp only [stage] at h
  split at h
  · cases h
  · obtain ⟨bytes, -, h⟩ := exists_of_map_ok h
    cases h
    exact le_trans (le_foldl_join hs r.stream.vv) (le_bump _ host)

theorem stage_of_empties (h : op.Empties r) :
    stage padBlocks suite host r overlay op = .ok (some ⟨.empty, []⟩) := by
  obtain ⟨rfl, hlen⟩ := h
  simp only [stage]
  cases hc : r.content with
  | none => simp [UnitRecord.stream, hc, StreamMeta.byteLen, StreamMeta.empty] at hlen
  | some s =>
    have hs : r.stream = s := by simp [UnitRecord.stream, hc]
    rw [hs] at hlen
    simp [truncateWith, show ¬ s.byteLen = 0 by omega]

/-! ## Append-only history -/

/-- The causal history `new` extends that of `old`, properly if the content changed. -/
structure Grows (old new : UnitRecord) : Prop where
  dominates : new.vv.dominates old.vv = true
  strict : read new.stream ≠ read old.stream → new.vv ≠ old.vv
  keeps : ∀ h, 0 < old.vv.get h → 0 < new.vv.get h

def AppendOnly (u : UnitState) : Prop := u.heads.IsChain fun newer older => Grows older newer

/-- The operation truncates content that is not empty to length 0. -/
def Op.Empties (u : UnitState) : Op → Prop
  | .content op => op.Empties u.head
  | _ => False

theorem Grows.of_fresh {old : UnitRecord} {w : VersionVector} (h : Fresh host old.stream st w) :
    Grows old ⟨some st.stream, []⟩ := by
  have hw := dominates_iff.mp h.dominates
  have hnew : (UnitRecord.mk (some st.stream) []).vv = w.bump host := h.vv
  have hle : ∀ k, old.vv.get k ≤ (w.bump host).get k := fun k =>
    le_trans (hw k) (w.get_le_get_bump host k)
  refine ⟨?_, fun _ he => ?_, fun k hk => ?_⟩
  · rw [hnew]
    exact dominates_iff.mpr hle
  · have h2 := congrArg (fun v => v.get host) (hnew.symm.trans he)
    have h1 : old.vv.get host ≤ w.get host := hw host
    simp only [get_bump_self] at h2
    omega
  · rw [hnew]
    have := hle k
    omega

/-- Content that reads as something cannot grow into the empty stream. -/
theorem not_grows_empty {old : UnitRecord} (hlen : 0 < old.stream.byteLen) :
    ¬ Grows old ⟨some .empty, []⟩ := by
  intro hg
  have hvv : old.vv = .new := by
    apply ext_get
    intro h
    have h1 := dominates_iff.mp hg.dominates h
    have h2 : (UnitRecord.mk (some .empty) []).vv.get h = 0 := rfl
    rw [get_new]
    omega
  apply hg.strict _ hvv.symm
  intro he
  have h1 := byteLen_le_length_read old.stream
  have h2 : read (UnitRecord.mk (some .empty) []).stream = [] := rfl
  rw [← he, h2, List.length_nil] at h1
  omega

theorem appendOnly_push {u : UnitState} :
    AppendOnly (u.push s) ↔ AppendOnly u ∧ Grows u.head ⟨some s, []⟩ := by
  simp only [AppendOnly, UnitState.heads, UnitState.push, List.isChain_cons_cons]
  exact and_comm

theorem appendOnly_applyOp (u : UnitState) (op : ContentOp) :
    AppendOnly (applyOp padBlocks suite host u op).1 ↔ AppendOnly u ∧ ¬ op.Empties u.head := by
  by_cases he : op.Empties u.head
  · simp only [applyOp, stage_of_empties he, appendOnly_push, not_grows_empty he.2, he, not_true,
      and_false]
  rw [and_iff_left he]
  unfold applyOp
  split
  · rfl
  · rfl
  rename_i st hst
  obtain ⟨h, -⟩ | ⟨-, w, hf⟩ := stage_some hst
  · exact absurd h he
  · rw [appendOnly_push]
    exact and_iff_left (.of_fresh hf)

theorem appendOnly_applyPending (u : UnitState) (ws : List (Nat × Bytes)) :
    AppendOnly (applyPending padBlocks suite host u ws).1 ↔ AppendOnly u := by
  induction ws generalizing u with
  | nil => rfl
  | cons w rest ih =>
    obtain ⟨offset, data⟩ := w
    have hw : AppendOnly (applyOp padBlocks suite host u (.write offset data)).1 ↔ AppendOnly u := by
      rw [appendOnly_applyOp]
      exact and_iff_left fun he => by cases he.1
    unfold applyPending
    split
    · rename_i u' _ hres
      rw [hres] at hw
      rw [ih u', hw]
    · rename_i u' e hres
      rw [hres] at hw
      exact hw

theorem appendOnly_checkpoint (u : UnitState) :
    AppendOnly (checkpoint padBlocks suite host u).1 ↔ AppendOnly u := by
  have hp : AppendOnly (applyPending padBlocks suite host u u.overlay).1 ↔ AppendOnly u :=
    appendOnly_applyPending u u.overlay
  unfold checkpoint
  split
  · rename_i hres
    rw [hres] at hp
    exact hp
  · rename_i hres
    rw [hres] at hp
    exact hp

/-- One operation keeps the history append-only unless it empties the content. -/
theorem appendOnly_step_iff (u : UnitState) (op : Op) :
    AppendOnly (step padBlocks suite host u op) ↔ AppendOnly u ∧ ¬ op.Empties u := by
  cases op with
  | content op => exact appendOnly_applyOp u op
  | writeAsync offset data =>
    simp only [step, Op.Empties, writeAsync]
    split <;> simp [AppendOnly, UnitState.heads]
  | checkpoint => simp [step, Op.Empties, appendOnly_checkpoint]

end

/-- From any head, any sequence of local operations writes an append-only chain of records
exactly when none of them truncates content to length 0. -/
theorem history_appendOnly_iff (padBlocks : Bool) (suite : Suite) (host : HostAlias) (r : UnitRecord)
    (overlay : List (Nat × Bytes)) (ops : List Op) :
    AppendOnly (run (step padBlocks suite host) ⟨r, [], overlay⟩ ops) ↔
      Along (step padBlocks suite host) (fun u op => ¬ op.Empties u) ⟨r, [], overlay⟩ ops := by
  rw [run_iff appendOnly_step_iff]
  exact and_iff_right (List.isChain_singleton r)

/-- Truncating a one-byte file to nothing forgets the counter of its writer. -/
theorem truncate_zero_not_appendOnly :
    ¬ AppendOnly (run (step false .none 1) .created
      [.content (.write 0 [7]), .content (.truncate 0)]) := by
  intro h
  have hg : Grows _ _ := (List.isChain_cons_cons.mp h).1
  exact absurd hg.dominates (by decide)

end Sfs.Version

import Sfs.Lib.Fallible
import Sfs.Version.Engine

/-!
# Suppressed header commits

`publish` does nothing while `suppress_commit` is set: a batch, a transaction, a checkpoint and a
commit set it to gather several updates under one header commit. A call that sets it has to put
it back on every exit, or the writes after it are acknowledged and never published.

Every access to the store can fail, so the steps of the engine are any fallible computations on
it (`Steps`); a step that fails leaves the store as it got it so far, and its caller returns. The
control flow around the steps is the source's. All calls put the flag back except `commit`, whose
early returns do not (`flag_kept_iff`).
-/

namespace Sfs.Version

open Sfs.Lib

open Keeps

/-- The steps of the engine on its store `σ` (backend, allocator, catalogs, log), with records
`ρ` at addresses `ι`. -/
structure Steps (σ ρ ι : Type) where
  getPath : String → EStateM Error σ (Option Uuid)
  uuidForPath : String → EStateM Error σ Uuid
  getUuid : Uuid → EStateM Error σ (Option ι)
  putUuid : Uuid → ι → EStateM Error σ Unit
  putPath : String → Uuid → EStateM Error σ Unit
  scanPaths : EStateM Error σ (List (String × Uuid))
  newUuid : EStateM Error σ Uuid
  read : String → EStateM Error σ Bytes
  readUnitRecord : ι → EStateM Error σ ρ
  writeUnitRecord : ρ → EStateM Error σ ι
  /-- the record of a new unit, with its Meta stream staged -/
  newRecord : Uuid → Bool → Option Bytes → EStateM Error σ ρ
  stageWrite : String → Nat → Bytes → EStateM Error σ (Uuid × ρ)
  /-- the newest versions of the content and the Meta stream -/
  newest : ρ → BlockVersion × BlockVersion
  /-- the record with every fragment of its content pinned -/
  pin : Uuid → ρ → ρ
  /-- the pending asynchronous writes of each unit, in the order of their offsets -/
  overlay : σ → List (Uuid × List (Nat × Bytes))
  walActive : σ → Bool
  /-- `pending_wal_applied_seq` for the next header commit -/
  armCheckpoint : σ → σ
  disarmCheckpoint : σ → σ
  clearLog : σ → σ
  beginReclaimScope : σ → σ
  endReclaimScope : σ → σ
  abortDeferred : σ → σ
  flush : EStateM Error σ Unit
  commitHeader : EStateM Error σ Unit

/-- An engine: the store as it is in memory, the one the header names, and `suppress_commit`. -/
structure Session (σ : Type) where
  store : σ
  published : σ
  suppress : Bool

/-- Opening a container starts from what the header names. -/
def Session.opened {σ : Type} (s : σ) : Session σ := ⟨s, s, false⟩

def Session.reopened {σ : Type} (s : Session σ) : Session σ := .opened s.published

abbrev Act (σ α : Type) := EStateM Error (Session σ) α

namespace Session

section

variable {σ ρ ι α : Type}

def onStore (m : EStateM Error σ α) : Act σ α :=
  onPart Session.store (fun s x => { s with store := x }) m

def updateStore (f : σ → σ) : Act σ Unit := modify fun s => { s with store := f s.store }

def setSuppress (b : Bool) : Act σ Unit := modify fun s => { s with suppress := b }

/-- What the header commit names from now on. -/
def markPublished : Act σ Unit := modify fun s => { s with published := s.store }

/-- `ok_or_else(NotFound)` -/
def orNotFound (what : String) : Option α → Act σ α
  | some a => pure a
  | none => throw (.notFound what)

variable (st : Steps σ ρ ι)

/-- One barrier, then the header commit. -/
def publish : Act σ Unit := do
  if (← get).suppress then pure ()
  else do
    onStore st.flush
    onStore st.commitHeader
    markPublished

/-- A write up to its publish. -/
def stageRecord (path : String) (offset : Nat) (data : Bytes) : Act σ Unit := do
  let (uuid, newRec) ← onStore (st.stageWrite path offset data)
  let recAddr ← onStore (st.writeUnitRecord newRec)
  onStore (st.putUuid uuid recAddr)
  onStore (st.putPath path uuid)

def write (path : String) (offset : Nat) (data : Bytes) : Act σ Unit := do
  stageRecord st path offset data
  publish st

def createUnitInner (path : String) (content : Bool) (metadata : Option Bytes) : Act σ Uuid := do
  if (← onStore (st.getPath path)).isSome then throw (.integrity ("unit already exists: " ++ path))
  else do
    let uuid ← onStore st.newUuid
    let newRec ← onStore (st.newRecord uuid content metadata)
    let recAddr ← onStore (st.writeUnitRecord newRec)
    onStore (st.putUuid uuid recAddr)
    onStore (st.putPath path uuid)
    publish st
    pure uuid

/-! ## Scopes that suppress -/

/-- Only the outermost of nested scopes does `m`. -/
def outermost (prev : Bool) (m : Act σ Unit) : Act σ Unit := if prev then pure () else m

/-- `transaction` around any closure. -/
def transaction (f : Act σ α) : Act σ α := do
  let prev := (← get).suppress
  setSuppress true
  outermost prev (updateStore st.beginReclaimScope)
  let result ← attempt f
  outermost prev (updateStore st.endReclaimScope)
  setSuppress prev
  match result with
  | .ok value => do
    outermost prev (publish st)
    pure value
  | .error e => do
    updateStore st.abortDeferred
    throw e

def beginBatch : Act σ Unit := do
  if (← get).suppress then pure ()
  else do
    setSuppress true
    updateStore st.beginReclaimScope

def commitBatch : Act σ Unit := do
  if (← get).suppress then do
    updateStore st.endReclaimScope
    setSuppress false
    publish st
  else pure ()

def applyWrites : List (String × Nat × Bytes) → Act σ Unit
  | [] => pure ()
  | (path, ofs, data) :: writes => do
    write st path ofs data
    applyWrites writes

def checkpointInner : Act σ Unit := do
  let pairs ← onStore st.scanPaths
  let store := (← get).store
  if (st.overlay store).isEmpty && !st.walActive store then pure ()
  else do
    let oldSuppress := (← get).suppress
    setSuppress true
    match ← attempt (applyWrites st (pendingWrites pairs (st.overlay store))) with
    | .error e => do
      setSuppress oldSuppress
      throw e
    | .ok () => do
      updateStore st.armCheckpoint
      setSuppress oldSuppress
      publish st
      updateStore st.clearLog

def checkpoint : Act σ Unit := do
  let store := (← get).store
  if (st.overlay store).isEmpty && !st.walActive store then pure () else checkpointInner st

/-! ## Commits -/

/-- The head record of `path`. -/
def headRecord (path : String) : Act σ (Uuid × ρ) := do
  let uuid ← onStore (st.uuidForPath path)
  let headAddr ← orNotFound ("no record for path: " ++ path) (← onStore (st.getUuid uuid))
  let rec' ← onStore (st.readUnitRecord headAddr)
  pure (uuid, rec')

/-- The commit that the head pointer names; a malformed pointer starts a new graph. -/
def commitParents : Act σ (List Uuid) := do
  match ← onStore (st.getPath commitHeadKey) with
  | none => pure []
  | some _ =>
    match ← attempt (onStore (st.read commitHeadKey)) with
    | .ok bytes => pure (if bytes.length = 16 then [BitVec.ofNat 128 (leNat bytes)] else [])
    | .error _ => pure []

def collectEntries : List String → Act σ (List (Uuid × BlockVersion × BlockVersion))
  | [] => pure []
  | path :: paths => do
    let (uuid, rec') ← headRecord st path
    let rest ← collectEntries paths
    pure ((uuid, st.newest rec') :: rest)

/-- `commit` up to where it sets the flag. -/
def prepareCommit (paths : List String) (title message : String) : Act σ CommitObject := do
  checkpoint st
  let commitish ← onStore st.newUuid
  let parents ← commitParents st
  let entries ← collectEntries st paths
  pure ⟨title, message, commitish, parents, entries⟩

def pinPaths (c : Uuid) : List String → Act σ Unit
  | [] => pure ()
  | path :: paths => do
    let (uuid, rec') ← headRecord st path
    let recAddr ← onStore (st.writeUnitRecord (st.pin c rec'))
    onStore (st.putUuid uuid recAddr)
    onStore (st.putPath path uuid)
    pinPaths c paths

/-- What `commit` does while the flag is set: the pins, the commit unit and the head pointer. -/
def stageCommit (paths : List String) (k : CommitObject) : Act σ Unit := do
  pinPaths st k.commitish paths
  let _ ← createUnitInner st (commitPath k.commitish) true none
  stageRecord st (commitPath k.commitish) 0 k.encode
  if (← onStore (st.getPath commitHeadKey)).isNone then do
    let _ ← createUnitInner st commitHeadKey true none
  stageRecord st commitHeadKey 0 (uuidLe k.commitish)

/-- Everything between the two assignments returns early when it fails. -/
def commit (paths : List String) (title message : String) : Act σ Uuid := do
  let k ← prepareCommit st paths title message
  let oldSuppress := (← get).suppress
  setSuppress true
  stageCommit st paths k
  setSuppress oldSuppress
  publish st
  pure k.commitish

end

/-! ## Public calls -/

/-- Any other mutating call (create, rename, link, remove, truncate, extend, `write_meta`, imports,
eviction, defragmentation, rotation, Writer-Set changes …): steps on the store and publishes, in
any order and number. The number a step returns says how the call goes on. -/
inductive Mutation (σ : Type) where
  | done (r : Result Unit)
  | step (m : EStateM Error σ Nat) (next : Nat → Mutation σ)
  | publish (next : Mutation σ)

/-- The public calls of the engine. The closure of a transaction is any computation: it is put
nothing past, not even to open or close a batch. -/
inductive Call (σ : Type) where
  | write (path : String) (offset : Nat) (data : Bytes)
  | mutate (m : Mutation σ)
  | transaction (f : Act σ Unit)
  | beginBatch
  | commitBatch
  | checkpoint
  | commit (paths : List String) (title message : String)
  /-- test seam: a write whose header commit does not happen -/
  | writeSimulateCrashBeforeCommit (path : String) (offset : Nat) (data : Bytes)
  /-- test seam: a transaction whose header commit does not happen -/
  | transactionSimulateCrashBeforeCommit (f : Act σ Unit)
  /-- test seam: a checkpoint whose header commit does not happen -/
  | checkpointSimulateCrashBeforePublish

section

variable {σ ρ ι : Type} (st : Steps σ ρ ι)

def Mutation.exec : Mutation σ → Act σ Unit
  | .done (.ok ()) => pure ()
  | .done (.error e) => throw e
  | .step m next => do
    let n ← onStore m
    (next n).exec
  | .publish next => do
    Session.publish st
    next.exec

/-- The seam clears the flag, whatever it was. -/
def writeSimulateCrashBeforeCommit (path : String) (offset : Nat) (data : Bytes) : Act σ Unit := do
  setSuppress true
  let r ← attempt (write st path offset data)
  setSuppress false
  match r with
  | .ok () => pure ()
  | .error e => throw e

/-- Nothing is published and no deferred free is dropped. -/
def transactionSimulateCrashBeforeCommit (f : Act σ Unit) : Act σ Unit := do
  let prev := (← get).suppress
  setSuppress true
  outermost prev (updateStore st.beginReclaimScope)
  let result ← attempt f
  outermost prev (updateStore st.endReclaimScope)
  setSuppress prev
  match result with
  | .ok () => pure ()
  | .error e => throw e

def checkpointSimulateCrashBeforePublish : Act σ Unit := do
  let oldSuppress := (← get).suppress
  setSuppress true
  let r ← attempt (checkpointInner st)
  setSuppress oldSuppress
  updateStore st.disarmCheckpoint
  match r with
  | .ok () => pure ()
  | .error e => throw e

def Call.exec : Call σ → Act σ Unit
  | .write path offset data => Session.write st path offset data
  | .mutate m => m.exec st
  | .transaction f => Session.transaction st f
  | .beginBatch => Session.beginBatch st
  | .commitBatch => Session.commitBatch st
  | .checkpoint => Session.checkpoint st
  | .commit paths title message => do
    let _ ← Session.commit st paths title message
  | .writeSimulateCrashBeforeCommit path offset data =>
    Session.writeSimulateCrashBeforeCommit st path offset data
  | .transactionSimulateCrashBeforeCommit f => Session.transactionSimulateCrashBeforeCommit st f
  | .checkpointSimulateCrashBeforePublish => Session.checkpointSimulateCrashBeforePublish st

end

/-! ## What leaves the flag alone -/

section

variable {σ ρ ι α : Type} {st : Steps σ ρ ι}

theorem keeps_onStore (m : EStateM Error σ α) : Keeps suppress (onStore m) := by
  refine onPart ?_ m
  exact fun _ _ => rfl

theorem keeps_updateStore (f : σ → σ) : Keeps suppress (updateStore f) := modify fun _ => rfl

theorem keeps_publish : Keeps suppress (publish st) :=
  Keeps.get.bind fun _ => (Keeps.pure _).ite <|
    (keeps_onStore _).bind fun _ => (keeps_onStore _).bind fun _ => modify fun _ => rfl

theorem keeps_stageRecord (path : String) (offset : Nat) (data : Bytes) :
    Keeps suppress (stageRecord st path offset data) :=
  (keeps_onStore _).bind fun _ =>
    (keeps_onStore _).bind fun _ => (keeps_onStore _).bind fun _ => keeps_onStore _

theorem keeps_write (path : String) (offset : Nat) (data : Bytes) :
    Keeps suppress (write st path offset data) :=
  (keeps_stageRecord path offset data).bind fun _ => keeps_publish

theorem keeps_createUnitInner (path : String) (content : Bool) (metadata : Option Bytes) :
    Keeps suppress (createUnitInner st path content metadata) :=
  (keeps_onStore _).bind fun _ => (throw _).ite <|
    (keeps_onStore _).bind fun _ => (keeps_onStore _).bind fun _ => (keeps_onStore _).bind fun _ =>
      (keeps_onStore _).bind fun _ =>
        (keeps_onStore _).bind fun _ => keeps_publish.bind fun _ => Keeps.pure _

theorem keeps_orNotFound (what : String) (o : Option α) :
    Keeps suppress (orNotFound what o : Act σ α) := by
  cases o with
  | none => exact throw _
  | some a => exact Keeps.pure a

theorem keeps_headRecord (path : String) : Keeps suppress (headRecord st path) :=
  (keeps_onStore _).bind fun _ => (keeps_onStore _).bind fun _ => (keeps_orNotFound _ _).bind fun _ =>
    (keeps_onStore _).bind fun _ => Keeps.pure _

theorem keeps_collectEntries (paths : List String) : Keeps suppress (collectEntries st paths) := by
  induction paths with
  | nil => exact Keeps.pure _
  | cons path paths ih => exact (keeps_headRecord path).bind fun _ => ih.bind fun _ => Keeps.pure _

theorem keeps_commitParents : Keeps suppress (commitParents st) := by
  refine (keeps_onStore _).bind fun found => ?_
  cases found with
  | none => exact Keeps.pure _
  | some u =>
    refine (keeps_onStore _).attempt.bind fun r => ?_
    cases r with
    | ok bytes => exact Keeps.pure _
    | error e => exact Keeps.pure _

theorem keeps_pinPaths (c : Uuid) (paths : List String) : Keeps suppress (pinPaths st c paths) := by
  induction paths with
  | nil => exact Keeps.pure _
  | cons path paths ih =>
    exact (keeps_headRecord path).bind fun _ =>
        (keeps_onStore _).bind fun _ => (keeps_onStore _).bind fun _ =>
      (keeps_onStore _).bind fun _ => ih

theorem keeps_stageCommit (st : Steps σ ρ ι) (paths : List String) (k : CommitObject) :
    Keeps suppress (stageCommit st paths k) := by
  refine (keeps_pinPaths _ paths).bind fun _ => (keeps_createUnitInner _ _ _).bind fun _ =>
    (keeps_stageRecord _ _ _).bind fun _ => (keeps_onStore _).bind fun found => ?_
  cases found with
  | none => exact (keeps_createUnitInner _ _ _).bind fun _ => keeps_stageRecord _ _ _
  | some u => exact keeps_stageRecord _ _ _

theorem keeps_mutation (m : Mutation σ) : Keeps suppress (m.exec st) := by
  induction m with
  | done r =>
    cases r with
    | ok u => exact Keeps.pure _
    | error e => exact throw _
  | step m next ih => exact (keeps_onStore m).bind fun n => ih n
  | publish next ih => exact keeps_publish.bind fun _ => ih

/-! ### Scopes put it back -/

theorem leaves_setSuppress (b : Bool) : Leaves suppress b (setSuppress b : Act σ Unit) :=
  Leaves.modify fun _ => rfl

theorem total_setSuppress (b : Bool) : Total (setSuppress b : Act σ Unit) := Total.modify _

theorem total_updateStore (f : σ → σ) : Total (updateStore f) := Total.modify _

theorem setSuppress_apply (b : Bool) (s : Session σ) :
    setSuppress b s = .ok () { s with suppress := b } :=
  rfl

theorem keeps_transaction (f : Act σ α) : Keeps suppress (transaction st f) := by
  refine of_get fun s => (total_setSuppress true).leaves fun _ =>
    ((Total.pure _).ite (total_updateStore _)).leaves fun _ => (Total.attempt f).leaves fun result =>
      ((Total.pure _).ite (total_updateStore _)).leaves fun _ =>
        (leaves_setSuppress _).bind fun _ => ?_
  cases result with
  | ok value => exact ((Keeps.pure _).ite keeps_publish).bind fun _ => Keeps.pure _
  | error e => exact (keeps_updateStore _).bind fun _ => throw _

theorem keeps_checkpointInner : Keeps suppress (checkpointInner st) := by
  refine (keeps_onStore _).bind fun pairs => Keeps.get.bind fun s => (Keeps.pure _).ite ?_
  refine of_get fun s' => (total_setSuppress true).leaves fun _ => (Total.attempt _).leaves fun r => ?_
  cases r with
  | error e => exact (leaves_setSuppress _).bind fun _ => throw _
  | ok u =>
    exact (total_updateStore _).leaves fun _ =>
        (leaves_setSuppress _).bind fun _ => keeps_publish.bind fun _ =>
      keeps_updateStore _

theorem keeps_checkpoint : Keeps suppress (checkpoint st) :=
  Keeps.get.bind fun _ => (Keeps.pure _).ite keeps_checkpointInner

theorem keeps_transactionSimulateCrashBeforeCommit (f : Act σ Unit) :
    Keeps suppress (transactionSimulateCrashBeforeCommit st f) := by
  refine of_get fun s => (total_setSuppress true).leaves fun _ =>
    ((Total.pure _).ite (total_updateStore _)).leaves fun _ => (Total.attempt f).leaves fun r =>
      ((Total.pure _).ite (total_updateStore _)).leaves fun _ =>
        (leaves_setSuppress _).bind fun _ => ?_
  cases r with
  | ok u => exact Keeps.pure _
  | error e => exact throw _

theorem keeps_checkpointSimulateCrashBeforePublish :
    Keeps suppress (checkpointSimulateCrashBeforePublish st) := by
  refine of_get fun s => (total_setSuppress true).leaves fun _ => (Total.attempt _).leaves fun r =>
    (leaves_setSuppress _).bind fun _ => (keeps_updateStore _).bind fun _ => ?_
  cases r with
  | ok u => exact Keeps.pure _
  | error e => exact throw _

theorem leaves_writeSimulateCrashBeforeCommit (path : String) (offset : Nat) (data : Bytes) :
    Leaves suppress false (writeSimulateCrashBeforeCommit st path offset data) := by
  refine (total_setSuppress true).leaves fun _ => (Total.attempt _).leaves fun r =>
    (leaves_setSuppress false).bind fun _ => ?_
  cases r with
  | ok u => exact Keeps.pure _
  | error e => exact throw _

/-! ### A commit does so only if it stages everything -/

theorem keeps_prepareCommit (st : Steps σ ρ ι) (paths : List String) (title message : String) :
    Keeps suppress (prepareCommit st paths title message) :=
  keeps_checkpoint.bind fun _ => (keeps_onStore _).bind fun _ => keeps_commitParents.bind fun _ =>
    (keeps_collectEntries paths).bind fun _ => Keeps.pure _

/-- Once a commit has set the flag no step of it fails. -/
def Stages (st : Steps σ ρ ι) (paths : List String) (title message : String) (s : Session σ) : Prop :=
  ∀ k s', prepareCommit st paths title message s = .ok k s' →
    ∃ s'', stageCommit st paths k { s' with suppress := true } = .ok () s''

theorem commit_keeps_iff {paths : List String} {title message : String} {s : Session σ} :
    (after (commit st paths title message) s).suppress = s.suppress ↔
      s.suppress = true ∨ Stages st paths title message s := by
  have hprep := keeps_prepareCommit st paths title message
  unfold commit Stages
  cases hp : prepareCommit st paths title message s with
  | error e s' =>
    rw [after, bind_of_error hp]
    simp [hprep.of_error hp]
  | ok k s' =>
    have hs' : s'.suppress = s.suppress := hprep.of_ok hp
    rw [after, bind_of_ok hp, ← after]
    show (after (setSuppress true >>= fun _ => stageCommit st paths k >>= fun _ =>
      setSuppress s'.suppress >>= fun _ => publish st >>= fun _ => pure k.commitish) s').suppress =
        _ ↔ _
    rw [after, bind_of_ok (setSuppress_apply true s'), ← after]
    have hstage := keeps_stageCommit st paths k
    cases hst : stageCommit st paths k { s' with suppress := true } with
    | error e s'' =>
      -- the early return: the flag is still set
      have hset : s''.suppress = true := hstage.of_error hst
      rw [after, bind_of_error hst]
      constructor
      · intro h
        exact .inl (h ▸ hset)
      rintro (h | h)
      · exact hset.trans h.symm
      · obtain ⟨s₁, h₁⟩ := h k s' rfl
        rw [hst] at h₁
        cases h₁
    | ok u s'' =>
      rw [after, bind_of_ok hst, ← after]
      have hrest : Leaves suppress s'.suppress
          (setSuppress s'.suppress >>= fun _ => publish st >>= fun _ =>
          (pure k.commitish : Act σ Uuid)) :=
        (leaves_setSuppress _).bind fun _ => keeps_publish.bind fun _ => Keeps.pure _
      refine iff_of_true ((hrest s'').trans hs') (.inr ?_)
      rintro _ _ ⟨⟩
      exact ⟨s'', hst⟩

/-! ## Runs of calls -/

/-- The calls that open and close a batch. -/
def Call.isBatch : Call σ → Bool
  | .beginBatch => true
  | .commitBatch => true
  | _ => false

/-- The call meets none of the ways to change the flag: a commit that stops between setting and
restoring it while it was clear, and the test seam of `write` inside a batch. -/
def Restores (st : Steps σ ρ ι) (s : Session σ) : Call σ → Prop
  | .commit paths title message => s.suppress = true ∨ Stages st paths title message s
  | .writeSimulateCrashBeforeCommit _ _ _ => s.suppress = false
  | _ => True

/-- On every exit of every call but the two of batches. -/
theorem flag_kept_iff {s : Session σ} {call : Call σ} (hb : call.isBatch = false) :
    (after (call.exec st) s).suppress = s.suppress ↔ Restores st s call := by
  cases call with
  | write path offset data => exact iff_of_true (keeps_write path offset data s) trivial
  | mutate m => exact iff_of_true (keeps_mutation m s) trivial
  | transaction f => exact iff_of_true (keeps_transaction f s) trivial
  | beginBatch => cases hb
  | commitBatch => cases hb
  | checkpoint => exact iff_of_true (keeps_checkpoint s) trivial
  | commit paths title message =>
    have hstate : after (Call.exec st (.commit paths title message)) s =
        after (commit st paths title message) s := by
      show after (commit st paths title message >>= fun _ => pure ()) s = _
      cases h : commit st paths title message s with
      | ok a s' => rw [after, bind_of_ok h, after_of_ok h]; rfl
      | error e s' => rw [after, bind_of_error h, after_of_error h]
    rw [hstate]
    exact commit_keeps_iff
  | writeSimulateCrashBeforeCommit path offset data =>
    show (after (writeSimulateCrashBeforeCommit st path offset data) s).suppress = _ ↔
      s.suppress = false
    rw [leaves_writeSimulateCrashBeforeCommit path offset data s]
    exact eq_comm
  | transactionSimulateCrashBeforeCommit f =>
    exact iff_of_true (keeps_transactionSimulateCrashBeforeCommit f s) trivial
  | checkpointSimulateCrashBeforePublish =>
    exact iff_of_true (keeps_checkpointSimulateCrashBeforePublish s) trivial

theorem leaves_beginBatch (s : Session σ) : (after (beginBatch st) s).suppress = true := by
  unfold beginBatch
  rw [after, get_bind, ← after]
  cases hs : s.suppress with
  | true => exact hs
  | false => exact ((leaves_setSuppress true).bind fun _ => keeps_updateStore _) s

theorem leaves_commitBatch (s : Session σ) : (after (commitBatch st) s).suppress = false := by
  unfold commitBatch
  rw [after, get_bind, ← after]
  cases hs : s.suppress with
  | true => exact ((total_updateStore _).leaves fun _ =>
    (leaves_setSuppress false).bind fun _ => keeps_publish) s
  | false => exact hs

/-- A batch is open after the call. -/
def Call.batch (isOpen : Bool) : Call σ → Bool
  | .beginBatch => true
  | .commitBatch => false
  | _ => isOpen

def callStep (st : Steps σ ρ ι) (s : Session σ) (call : Call σ) : Session σ := after (call.exec st) s

/-- The flag says whether a batch is open. -/
theorem flag_step {s : Session σ} {call : Call σ} (h : Restores st s call) :
    (callStep st s call).suppress = call.batch s.suppress := by
  cases hb : call.isBatch with
  | false =>
    have hkept : call.batch s.suppress = s.suppress := by cases call <;>
      simp_all [Call.isBatch, Call.batch]
    rw [hkept]
    exact (flag_kept_iff hb).mpr h
  | true =>
    cases call with
    | beginBatch => exact leaves_beginBatch s
    | commitBatch => exact leaves_commitBatch s
    | _ => cases hb

theorem flag_run {s : Session σ} {calls : List (Call σ)}
    (h : Along (callStep st) (Restores st) s calls) :
    (run (callStep st) s calls).suppress = run Call.batch s.suppress calls := by
  induction calls generalizing s with
  | nil => rfl
  | cons call calls ih => rw [run_cons, run_cons, ih h.2, flag_step h.1]

/-- A publish with the flag clear leaves nothing unpublished. -/
theorem published_of_publish {s s' : Session σ} (hs : s.suppress = false)
    (h : publish st s = .ok () s') : s'.published = s'.store := by
  unfold publish at h
  rw [get_bind, if_neg (by simp [hs])] at h
  obtain ⟨-, s₁, -, h₁⟩ := bind_eq_ok_iff.mp h
  obtain ⟨-, s₂, -, h₂⟩ := bind_eq_ok_iff.mp h₁
  cases h₂
  rfl

theorem published_of_write {s s' : Session σ} {path : String} {offset : Nat} {data : Bytes}
    (hs : s.suppress = false) (h : write st path offset data s = .ok () s') :
    s'.reopened = .opened s'.store := by
  obtain ⟨_, s₁, h₁, h₂⟩ := bind_eq_ok_iff.mp h
  have hclear : s₁.suppress = false := ((keeps_stageRecord path offset data).of_ok h₁).trans hs
  rw [reopened, published_of_publish hclear h₂]

/-- On every exit of every call the flag is as before exactly if the call `Restores` it; and in
every run of such calls, whatever steps fail, a write outside a batch that returns `Ok` is what a
reopened container starts from. -/
theorem acknowledged_write_published (st : Steps σ ρ ι) :
    (∀ (s : Session σ) (call : Call σ), call.isBatch = false →
      ((after (call.exec st) s).suppress = s.suppress ↔ Restores st s call)) ∧
    ∀ (x : σ) (calls : List (Call σ)) (path : String) (offset : Nat) (data : Bytes) (s' : Session σ),
      Along (callStep st) (Restores st) (.opened x) calls → run Call.batch false calls = false →
        write st path offset data (run (callStep st) (.opened x) calls) = .ok () s' →
          s'.reopened = .opened s'.store := by
  refine ⟨fun s call hb => flag_kept_iff hb, fun x calls path offset data s' halong hclosed hw => ?_⟩
  refine published_of_write ?_ hw
  rw [flag_run halong]
  exact hclosed

end

/-! ## The engine by value as steps -/

/-- Catalogs by value, with a plan of which accesses fail. -/
structure ByValue where
  cat : Catalog
  faults : List Bool

namespace ByValue

/-- An access that fails if the plan says so. -/
def access {α : Type} (f : Catalog → Result (α × Catalog)) : EStateM Error ByValue α := fun s =>
  match s.faults with
  | true :: faults => .error (.io "access failed") { s with faults := faults }
  | faults =>
    match f s.cat with
    | .ok (a, cat) => .ok a ⟨cat, faults.tail⟩
    | .error e => .error e ⟨s.cat, faults.tail⟩

def look {α : Type} (f : Catalog → Result α) : EStateM Error ByValue α :=
  access fun c => (f c).map fun a => (a, c)

def change (f : Catalog → Catalog) : EStateM Error ByValue Unit := access fun c => .ok ((), f c)

/-- An address stands for the record at it and its parents. -/
def steps (padBlocks : Bool) (suite : Suite) (host : HostAlias) :
    Steps ByValue UnitState UnitState where
  getPath path := look fun c => .ok (c.keys.lookup path)
  uuidForPath path := look fun c => uuidForPath c path
  getUuid u := look fun c => .ok (c.units u)
  putUuid u st := change fun c => c.setUnit u st
  putPath path u := change fun c => { c with keys := c.keys.insert path u }
  scanPaths := look fun _ => .ok []
  newUuid := look fun c => .ok (BitVec.ofNat 128 (c.keys.keys.card + 1))
  read path := look fun c => c.read path
  readUnitRecord st := look fun _ => .ok st
  writeUnitRecord st := look fun _ => .ok st
  newRecord _ content _ := look fun _ => .ok (if content then .created else ⟨⟨none, []⟩, [], []⟩)
  stageWrite path offset data := look fun c => do
    let (u, st) ← unitAt "" c path
    let staged ← stageWrite padBlocks suite host st.head.stream offset data
    .ok (u, st.push staged.stream)
  newest st := (maxVer st.head.stream, 0)
  pin c st := { st with head := { st.head with content := st.head.content.map (pinAll c) } }
  overlay _ := []
  walActive _ := false
  armCheckpoint := id
  disarmCheckpoint := id
  clearLog := id
  beginReclaimScope := id
  endReclaimScope := id
  abortDeferred := id
  flush := look fun _ => .ok ()
  commitHeader := look fun _ => .ok ()

/-- A file `a` of one byte. -/
def oneFile : Catalog :=
  ⟨(∅ : Finmap fun _ : String => Uuid).insert "a" 7,
    fun u => if u = 7 then some (UnitState.created.push
      ⟨[⟨packDot 1 1, some [7]⟩], VersionVector.new.bump 1, 12, 1, []⟩) else none⟩

end ByValue

/-- A commit of a missing file fails before it sets the flag; the write after it is durable. -/
theorem acknowledged_write_after_refused_commit :
    ∃ s', write (ByValue.steps false .none 1) "a" 0 [8] (run (callStep (ByValue.steps false .none 1))
        (.opened ⟨ByValue.oneFile, []⟩) [.commit ["b"] "" ""]) = .ok () s' ∧
          s'.reopened = .opened s'.store :=
  ⟨_, rfl, (acknowledged_write_published (ByValue.steps false .none 1)).2
    ⟨ByValue.oneFile, []⟩ [.commit ["b"] "" ""]
    "a" 0 [8] _ ⟨.inr fun _ _ h => (nomatch h), trivial⟩ rfl rfl⟩

/-- The sixth access, the first one after the flag is set, fails and the commit returns its
error. The write after it returns `Ok` and is gone when the container is opened again. -/
theorem acknowledged_write_lost_after_failed_commit :
    let s := callStep (ByValue.steps false .none 1)
      (.opened ⟨ByValue.oneFile, [false, false, false, false, false, true]⟩) (.commit ["a"] "" "")
    s.suppress = true ∧ ∃ s', write (ByValue.steps false .none 1) "a" 0 [8] s = .ok () s' ∧
      s'.store.cat.read "a" = .ok [8] ∧ s'.reopened.store.cat.read "a" = .ok [7] :=
  ⟨rfl, _, rfl, by decide, by decide⟩

end Session

end Sfs.Version

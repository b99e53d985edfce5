import Sfs.Lib.Run
import Sfs.Version.History

/-!
# What one replica passes to the cipher

The nonce of a sealed block is derived from its context: unit, fragment (or the sentinel of
the write-ahead log), version and key epoch. The replica below keeps the log of all seals it
ever made under its root key and epoch, those of operations that failed or were lost in a
crash included. In memory it runs ahead of the published header: inside a batch, and after a
publish that failed. A crash goes back to the header.

Dots come from the in-memory vectors, so a context is used twice when a vector goes back
behind a dot that was already used: after a crash or a failure that loses sealed fragments,
and after a truncation to nothing. Re-ciphering seals under old dots.
-/

namespace Sfs.Version

open Sfs.Lib List

/-- The fragment of a context; the log's sentinel is `u32::MAX`. -/
inductive Slot where
  | content (frag : Nat)
  | wal
  deriving DecidableEq, Repr

/-- One call of the suite's `seal` under the replica's root key and key epoch. -/
structure Seal where
  suite : Suite
  uuid : Uuid
  slot : Slot
  version : Nat
  plain : Bytes
  deriving DecidableEq, Repr

/-- The catalogs and the content suite; `fragSuite` is the suite each fragment is stored under. -/
structure Store where
  units : Uuid → Option UnitRecord
  uuids : List Uuid
  suite : Suite
  fragSuite : Uuid → Nat → Suite

/-- `mem` is what the session sees, `disk` what the active header publishes. `nextSeq` is the
next log sequence number, `diskSeq` the one a reopen would find: a record counts for it when
the header names the region it was appended to (`walPub`). -/
structure Replica where
  mem : Store
  disk : Store
  overlay : Uuid → List (Nat × Bytes)
  batch : Bool
  walOn : Bool
  diskWal : Bool
  walPub : Bool
  nextSeq : Nat
  diskSeq : Nat
  log : List Seal

def Store.empty (suite : Suite) : Store := ⟨fun _ => none, [], suite, fun _ _ => suite⟩

/-- A container just created. -/
def Replica.init (suite : Suite) : Replica :=
  ⟨.empty suite, .empty suite, fun _ => [], false, false, false, false, 1, 1, []⟩

/-- Where a call fails: the `i`-th write it makes, after `k` of that write's seals, or the
publish. -/
inductive Fault where
  | none
  | stage (i k : Nat)
  | publish
  deriving DecidableEq, Repr

def walRegionSize : Nat := 8 * 1024 * 1024

def Suite.cipherLen (suite : Suite) (n : Nat) : Nat :=
  match suite with
  | .gcm => n + 16
  | _ => n

/-- The encoded length of a log record with `data`. -/
def walRecordLen (suite : Suite) (data : Bytes) : Nat :=
  52 + suite.cipherLen (padToMin suite data).length

/-- The plaintext `recipher` seals for fragment `f`: the stored one, the last fragment cut to its
logical length, padded to the new suite's minimum. -/
def resealPlain (target : Suite) (s : StreamMeta Bytes) (f : Nat) (d : Bytes) : Bytes :=
  padToMin target (if f + 1 = s.frags.length then d.take s.lastFragLength else d)

/-- Fragment `f` is stored and not yet under the target suite. -/
def toReseal (target : Suite) (fragSuite : Nat → Suite) (s : StreamMeta Bytes) (f : Nat) : Bool :=
  (s.block f).isSome && fragSuite f ≠ target

def resealStream (target : Suite) (fragSuite : Nat → Suite) (s : StreamMeta Bytes) :
    StreamMeta Bytes :=
  { s with frags := s.frags.mapIdx fun f fr =>
      if toReseal target fragSuite s f then { fr with block := fr.block.map (resealPlain target s f) }
      else fr }

def resealDirty (target : Suite) (fragSuite : Nat → Suite) (s : StreamMeta Bytes) : List Nat :=
  (range s.frags.length).filter (toReseal target fragSuite s)

/-- The seals of the fragments `dirty` of the stream `s`. -/
def sealsOf (suite : Suite) (uuid : Uuid) (s : StreamMeta Bytes) (dirty : List Nat) : List Seal :=
  dirty.map fun f => ⟨suite, uuid, .content f, s.dot f, (s.block f).getD []⟩

namespace Replica

/-- The header takes over what is in memory, unless a batch is open. -/
def publish (r : Replica) (fault : Fault) : Replica :=
  if r.batch ∨ fault = .publish then r
  else { r with disk := r.mem, diskWal := r.walOn, walPub := r.walOn, diskSeq := r.nextSeq }

def noteSeals (r : Replica) (seals : List Seal) : Replica := { r with log := seals ++ r.log }

/-- Point the catalog at a new head record of `u`. -/
def install (r : Replica) (u : Uuid) (rec : UnitRecord) (fragSuite : Nat → Suite) : Replica :=
  { r with mem := { r.mem with
      units := fun v => if v = u then some rec else r.mem.units v
      fragSuite := fun v => if v = u then fragSuite else r.mem.fragSuite v } }

def listUuid (r : Replica) (u : Uuid) : Replica :=
  { r with mem := { r.mem with uuids := u :: r.mem.uuids } }

end Replica

section

variable (padBlocks : Bool) (host : HostAlias)

/-- The suite an operation seals under: a truncation keeps the suite of the fragment it cuts. -/
def opSuite (m : Store) (u : Uuid) (rec : UnitRecord) : ContentOp → Suite
  | .truncate newSize => m.fragSuite u (fragCount newSize rec.stream.fragsizeExp - 1)
  | _ => m.suite

inductive Outcome where
  | failed
  /-- `Ok(())`, and nothing was staged -/
  | unchanged
  | staged
  deriving DecidableEq, Repr

/-- One operation up to its publish. -/
def stageInto (r : Replica) (u : Uuid) (op : ContentOp) (failAfter : Option Nat) : Replica × Outcome :=
  match r.mem.units u with
  | none => (r, .failed)
  | some rec =>
    let suite := opSuite r.mem u rec op
    match stage padBlocks suite host rec (r.overlay u) op with
    | .error _ => (r, .failed)
    | .ok none => (r, .unchanged)
    | .ok (some st) =>
      let seals := sealsOf suite u st.stream st.dirty
      match failAfter with
      | some k => (r.noteSeals (seals.take k), .failed)
      | none => ((r.noteSeals seals).install u ⟨some st.stream, []⟩ fun f =>
          if f ∈ st.dirty then suite else r.mem.fragSuite u f, .staged)

def content (r : Replica) (u : Uuid) (op : ContentOp) (fault : Fault) : Replica :=
  match fault with
  | .stage _ k => (stageInto padBlocks host r u op (some k)).1
  | _ =>
    let res := stageInto padBlocks host r u op none
    if res.2 = .staged then res.1.publish fault else res.1

/-- The fault seen from the next write of the call on. -/
def Fault.next : Fault → Fault
  | .stage (i + 1) k => .stage i k
  | f => f

/-- The apply loop of a checkpoint; a unit that is gone is skipped. -/
def applyWrites (r : Replica) : List (Uuid × Nat × Bytes) → Fault → Replica × Bool
  | [], _ => (r, true)
  | (u, offset, data) :: rest, fault =>
    if (r.mem.units u).isNone then applyWrites r rest fault
    else
      match fault with
      | .stage 0 k => ((stageInto padBlocks host r u (.write offset data) (some k)).1, false)
      | _ =>
        let res := stageInto padBlocks host r u (.write offset data) none
        if res.2 = .failed then (res.1, false) else applyWrites res.1 rest fault.next

/-- `checkpoint`, visiting the units with pending writes in the given order. -/
def checkpointAll (r : Replica) (order : List Uuid) (fault : Fault) : Replica × Bool :=
  let pending := order.flatMap fun u => (r.overlay u).map fun w => (u, w.1, w.2)
  if pending = [] ∧ !r.walOn then (r, true)
  else
    let res := applyWrites padBlocks host r pending fault
    if !res.2 then res
    else if fault = .publish ∧ !r.batch then (res.1, false)
    else ({ res.1.publish fault with overlay := fun _ => [] }, true)

/-- The unit loop of `recipher`; a fault stops it in the `i`-th unit after `k` seals. -/
def resealUnits (target : Suite) (r : Replica) : List Uuid → Fault → Replica × Bool
  | [], _ => (r, true)
  | u :: us, fault =>
    match r.mem.units u with
    | none => resealUnits target r us fault
    | some rec =>
      let dirty := resealDirty target (r.mem.fragSuite u) rec.stream
      let stream := resealStream target (r.mem.fragSuite u) rec.stream
      let seals := sealsOf target u stream dirty
      match fault with
      | .stage 0 k => (r.noteSeals (seals.take k), false)
      | _ =>
        if dirty = [] then resealUnits target r us fault.next
        else resealUnits target ((r.noteSeals seals).install u { rec with content := some stream }
          fun _ => target) us fault.next

/-- `recipher`: a checkpoint, then every stored fragment of every head. -/
def recipher (r : Replica) (target : Suite) (order : List Uuid) (ckFault fault : Fault) : Replica :=
  if target = r.mem.suite then r
  else
    let ck := checkpointAll padBlocks host r order ckFault
    if !ck.2 then ck.1
    else
      let res := resealUnits target ck.1 ck.1.mem.uuids fault
      if !res.2 then res.1
      else { res.1 with mem := { res.1.mem with suite := target } }.publish fault

def appendWal (r : Replica) (u : Uuid) (offset : Nat) (data : Bytes) (lost : Bool) : Replica :=
  if data = [] ∨ !r.walOn ∨ (r.mem.units u).isNone then r
  else
    let sealed := r.noteSeals [⟨r.mem.suite, u, .wal, r.nextSeq, padToMin r.mem.suite data⟩]
    if lost ∨ walRegionSize < walRecordLen r.mem.suite data then sealed
    else { sealed with
      nextSeq := r.nextSeq + 1
      diskSeq := if r.walPub then r.nextSeq + 1 else r.diskSeq
      overlay := fun v => if v = u then insertWrite offset data (r.overlay u) else r.overlay v }

/-- A step of the replica or of its surroundings. A strain is what an import of a concurrent
record leaves; the allocator moves the log region when the container grows. -/
inductive Event where
  | create (u : Uuid) (fault : Fault)
  | content (u : Uuid) (op : ContentOp) (fault : Fault)
  | strain (u : Uuid) (s : StreamMeta Bytes) (fault : Fault)
  | recipher (target : Suite) (order : List Uuid) (ckFault fault : Fault)
  | enableWal (fault : Fault)
  | writeAsync (u : Uuid) (offset : Nat) (data : Bytes) (lost : Bool)
  | checkpoint (order : List Uuid) (fault : Fault)
  | relocateWal
  | beginBatch
  | commitBatch (fault : Fault)
  /-- the closure of a transaction returned an error -/
  | abort
  /-- crash and reopen; the replay fills the overlay -/
  | crash (overlay : Uuid → List (Nat × Bytes))

def Replica.step (r : Replica) : Event → Replica
  | .create u fault =>
    if (r.mem.units u).isSome then r
    else ((r.listUuid u).install u ⟨some .empty, []⟩ (r.mem.fragSuite u)).publish fault
  | .content u op fault => content padBlocks host r u op fault
  | .strain u s fault =>
    match r.mem.units u with
    | none => r
    | some rec =>
      (r.install u { rec with strains := rec.strains ++ [s] } (r.mem.fragSuite u)).publish fault
  | .recipher target order ckFault fault => recipher padBlocks host r target order ckFault fault
  | .enableWal fault => if r.walOn then r else { r with walOn := true, walPub := false }.publish fault
  | .writeAsync u offset data lost => appendWal r u offset data lost
  | .checkpoint order fault => (checkpointAll padBlocks host r order fault).1
  | .relocateWal => { r with walPub := false }
  | .beginBatch => { r with batch := true }
  | .commitBatch fault => if r.batch then { r with batch := false }.publish fault else r
  | .abort => { r with batch := false }
  | .crash overlay => { r with
      mem := r.disk
      overlay := overlay
      batch := false
      walOn := r.diskWal
      walPub := r.diskWal
      nextSeq := r.diskSeq }

/-! ## Sealed once -/

/-- No two plaintexts were sealed under one suite and context. -/
def SealedOnce (log : List Seal) : Prop :=
  ∀ s ∈ log, ∀ t ∈ log, s.suite = t.suite → s.uuid = t.uuid → s.slot = t.slot →
    s.version = t.version → s.plain = t.plain

instance (log : List Seal) : Decidable (SealedOnce log) :=
  inferInstanceAs (Decidable (∀ s ∈ log, ∀ t ∈ log, s.suite = t.suite → s.uuid = t.uuid →
    s.slot = t.slot → s.version = t.version → s.plain = t.plain))

/-- The host's counter in the head of `u`. -/
def Store.counter (m : Store) (u : Uuid) : Nat :=
  match m.units u with
  | none => 0
  | some rec => rec.vv.get host

/-- The next operation on this state cannot take the dot or sequence number of `s` again. -/
def Covered (m : Store) (seq : Nat) (s : Seal) : Prop :=
  match s.slot with
  | .content _ => ∃ n, s.version = packDot host n ∧ n ≤ m.counter host s.uuid ∧ 0 < n
  | .wal => s.version < seq

/-- Nothing was sealed by the write that failed. -/
def Fault.Harmless : Fault → Prop
  | .stage _ k => k = 0
  | _ => True

/-- Re-sealing under `target` leaves every stored plaintext as it is. -/
def KeepsPlain (target : Suite) (m : Store) : Prop :=
  ∀ u rec f d, m.units u = some rec → rec.stream.block f = some d → m.fragSuite u f ≠ target →
    resealPlain target rec.stream f d = d

/-- The step goes back behind no dot or sequence number already used: a failed call sealed
nothing, content is emptied only where none of it was sealed here, a crash finds everything
sealed covered by the published header, an asynchronous write reaches the log. Re-ciphering
keeps each plaintext, and a created unit has a new uuid. -/
def Careful (r : Replica) : Event → Prop
  | .create u _ => ∀ s ∈ r.log, s.uuid ≠ u
  | .content u op fault => fault.Harmless ∧ ∀ rec, r.mem.units u = some rec → op.Empties rec →
      ∀ s ∈ r.log, s.uuid = u → s.slot = .wal
  | .recipher target order ckFault _ =>
    ckFault.Harmless ∧ KeepsPlain target (checkpointAll padBlocks host r order ckFault).1.mem
  | .writeAsync _ _ data lost => lost = false ∧ walRecordLen r.mem.suite data ≤ walRegionSize
  | .checkpoint _ fault => fault.Harmless
  | .crash _ => ∀ s ∈ r.log, Covered host r.disk r.diskSeq s
  | _ => True

/-- Every fragment of the store is a hole, or was sealed with its dot, always as this block. -/
def Traced (m : Store) (log : List Seal) : Prop :=
  ∀ u rec f, m.units u = some rec →
    rec.stream.dot f = 0 ∧ rec.stream.block f = none ∨
      (∃ s ∈ log, s.uuid = u ∧ s.slot = .content f ∧ s.version = rec.stream.dot f) ∧
        ∀ s ∈ log, s.uuid = u → s.slot = .content f → s.version = rec.stream.dot f →
          rec.stream.block f = some s.plain

structure Inv (r : Replica) : Prop where
  covered : ∀ s ∈ r.log, Covered host r.mem r.nextSeq s
  mem : Traced r.mem r.log
  disk : Traced r.disk r.log
  once : SealedOnce r.log

/-- New seals repeat at most what the log has. -/
def Agrees (new log : List Seal) : Prop :=
  ∀ t ∈ new, ∀ s ∈ log, t.uuid = s.uuid → t.slot = s.slot → t.version = s.version → t.plain = s.plain

theorem Traced.append {m : Store} {new : List Seal} {log : List Seal} (h : Traced m log)
    (ha : Agrees new log) : Traced m (new ++ log) := by
  intro u rec f hu
  rcases h u rec f hu with hz | ⟨⟨s, hs, h1, h2, h3⟩, hall⟩
  · exact .inl hz
  refine .inr ⟨⟨s, mem_append_right _ hs, h1, h2, h3⟩, ?_⟩
  intro t ht hu' hf hv
  rcases mem_append.mp ht with hn | ho
  · have := ha t hn s hs (hu'.trans h1.symm) (hf.trans h2.symm) (hv.trans h3.symm)
    rw [this]
    exact hall s hs h1 h2 h3
  · exact hall t ho hu' hf hv

theorem SealedOnce.append {new : List Seal} {log : List Seal} (h : SealedOnce log)
    (ha : Agrees new log) (hn : Agrees new new) : SealedOnce (new ++ log) := by
  intro s hs t ht _ h2 h3 h4
  rcases mem_append.mp hs with hs | hs
  · rcases mem_append.mp ht with ht | ht
    · exact hn s hs t ht h2 h3 h4
    · exact ha s hs t ht h2 h3 h4
  · rcases mem_append.mp ht with ht | ht
    · exact (ha t ht s hs h2.symm h3.symm h4.symm).symm
    · exact h s hs t ht ‹_› h2 h3 h4

theorem agrees_sealsOf_self (suite : Suite) (u : Uuid) (s : StreamMeta Bytes) (dirty : List Nat) :
    Agrees (sealsOf suite u s dirty) (sealsOf suite u s dirty) := by
  intro t ht t' ht' _ hslot _
  simp only [sealsOf, mem_map] at ht ht'
  obtain ⟨f, -, rfl⟩ := ht
  obtain ⟨f', -, rfl⟩ := ht'
  cases hslot
  rfl

/-! ## One step keeps the invariant -/

variable {host}

theorem Covered.mono {m : Store} {m' : Store} {seq seq' : Nat} {s : Seal} (h : Covered host m seq s)
    (hc : m.counter host s.uuid ≤ m'.counter host s.uuid) (hs : seq ≤ seq') :
    Covered host m' seq' s := by
  unfold Covered at h ⊢
  split at h
  · obtain ⟨n, hv, hn, hpos⟩ := h
    exact ⟨n, hv, le_trans hn hc, hpos⟩
  · exact lt_of_lt_of_le h hs

theorem Covered.content {m : Store} {seq : Nat} {s : Seal} {f : Nat} (h : Covered host m seq s)
    (hf : s.slot = .content f) :
    ∃ n, s.version = packDot host n ∧ n ≤ m.counter host s.uuid ∧ 0 < n := by
  unfold Covered at h
  rw [hf] at h
  exact h

theorem Inv.publish {r : Replica} (h : Inv host r) (fault : Fault) : Inv host (r.publish fault) := by
  unfold Replica.publish
  split
  · exact h
  · exact ⟨h.covered, h.mem, h.mem, h.once⟩

/-- A state whose log has grown by `new`. -/
theorem Inv.grow {new : List Seal} {r : Replica} {r' : Replica} (h : Inv host r)
    (hlog : r'.log = new ++ r.log) (hdisk : r'.disk = r.disk)
    (hold : ∀ s ∈ r.log, Covered host r'.mem r'.nextSeq s)
    (hnew : ∀ s ∈ new, Covered host r'.mem r'.nextSeq s) (ha : Agrees new r.log)
    (hself : Agrees new new) (hmem : Traced r'.mem r'.log) : Inv host r' := by
  refine ⟨?_, hmem, ?_, ?_⟩
  · intro s hs
    rw [hlog] at hs
    rcases mem_append.mp hs with hs | hs
    · exact hnew s hs
    · exact hold s hs
  · rw [hdisk, hlog]
    exact h.disk.append ha
  · rw [hlog]
    exact h.once.append ha hself

@[simp] theorem units_install (r : Replica) (u v : Uuid) (rec : UnitRecord) (fs : Nat → Suite) :
    (r.install u rec fs).mem.units v = if v = u then some rec else r.mem.units v := rfl

theorem counter_install (r : Replica) (u v : Uuid) (rec : UnitRecord) (fs : Nat → Suite) :
    (r.install u rec fs).mem.counter host v =
      if v = u then rec.vv.get host else r.mem.counter host v := by
  unfold Store.counter
  by_cases hv : v = u <;> simp [hv]

/-- Sealing a fresh dot and installing the stream that holds it. -/
theorem Inv.install_fresh {rec : UnitRecord} {fs : Nat → Suite} {r : Replica} {u : Uuid}
    {st : Staged} {w : VersionVector} {suite : Suite} (h : Inv host r)
    (hu : r.mem.units u = some rec) (hf : Fresh host rec.stream st w) :
    Inv host ((r.noteSeals (sealsOf suite u st.stream st.dirty)).install u
      ⟨some st.stream, []⟩ fs) := by
  have hold : r.mem.counter host u ≤ w.get host := by
    simp only [Store.counter, hu]
    exact VersionVector.dominates_iff.mp hf.dominates host
  have hvv : (UnitRecord.mk (some st.stream) []).vv.get host = w.get host + 1 := by
    show st.stream.vv.get host = _
    rw [hf.vv, VersionVector.get_bump_self]
  -- the new dot is above every content dot the log has for `u`
  have hagree : Agrees (sealsOf suite u st.stream st.dirty) r.log := by
    intro t ht s hs huuid hslot hver
    obtain ⟨f, hfd, rfl⟩ := mem_map.mp ht
    obtain ⟨n, hn, hle, -⟩ := (h.covered s hs).content hslot.symm
    simp only at huuid hver
    rw [hf.dirty_dot f hfd, hn] at hver
    rw [← huuid] at hle
    have := (packDot_inj hver).2
    omega
  refine h.grow rfl rfl ?_ ?_ hagree (agrees_sealsOf_self _ _ _ _) ?_
  · intro s hs
    refine (h.covered s hs).mono ?_ le_rfl
    rw [counter_install, hvv]
    split
    · rename_i hs
      rw [hs]
      omega
    · exact le_rfl
  · intro t ht
    obtain ⟨f, hfd, rfl⟩ := mem_map.mp ht
    refine ⟨w.get host + 1, hf.dirty_dot f hfd, ?_, Nat.succ_pos _⟩
    rw [counter_install, if_pos rfl, hvv]
  · intro v rec' f hv
    rw [units_install] at hv
    split at hv
    · rename_i hvu
      cases hv
      subst hvu
      by_cases hd : f ∈ st.dirty
      · obtain ⟨d, hb⟩ := Option.isSome_iff_exists.mp (hf.dirty_block f hd)
        refine .inr ⟨⟨_, mem_append_left _ (mem_map_of_mem hd), rfl, rfl, rfl⟩, ?_⟩
        intro s hs huuid hslot hver
        rcases mem_append.mp hs with hs | hs
        · obtain ⟨f', -, rfl⟩ := mem_map.mp hs
          cases hslot
          show st.stream.block f = some ((st.stream.block f).getD [])
          rw [hb]
          rfl
        · have := hagree _ (mem_map_of_mem hd) s hs huuid.symm hslot.symm hver.symm
          show st.stream.block f = some s.plain
          rw [← this, hb]
          rfl
      · show st.stream.dot f = 0 ∧ st.stream.block f = none ∨ _
        rcases hf.others f hd with hz | ⟨h1, h2⟩
        · exact .inl hz
        · have := (h.mem.append hagree) v rec f hu
          rw [← h1, ← h2] at this
          exact this
    · exact (h.mem.append hagree) v rec' f hv

/-- An empty stream for a unit none of whose content was sealed. -/
theorem Inv.install_empty {fs : Nat → Suite} {r : Replica} {u : Uuid} (h : Inv host r)
    (hu : ∀ s ∈ r.log, s.uuid = u → s.slot = .wal) : Inv host (r.install u ⟨some .empty, []⟩ fs) := by
  refine ⟨?_, ?_, h.disk, h.once⟩
  · intro s hs
    have hc := h.covered s hs
    by_cases hsu : s.uuid = u
    · have hw := hu s hs hsu
      simp only [Covered, hw] at hc ⊢
      exact hc
    · refine hc.mono ?_ le_rfl
      rw [counter_install, if_neg hsu]
  · intro v rec f hv
    rw [units_install] at hv
    split at hv
    · cases hv
      exact .inl ⟨rfl, rfl⟩
    · exact h.mem v rec f hv

theorem Inv.stageInto {r : Replica} {u : Uuid} {op : ContentOp} {failAfter : Option Nat}
    (h : Inv host r)
    (hE : ∀ rec, r.mem.units u = some rec → op.Empties rec → ∀ s ∈ r.log, s.uuid = u → s.slot = .wal)
    (hk : ∀ k, failAfter = some k → k = 0) :
    Inv host (stageInto padBlocks host r u op failAfter).1 := by
  unfold Version.stageInto
  split
  · exact h
  rename_i rec hu
  dsimp only
  split
  · exact h
  · exact h
  rename_i st hst
  split
  · rename_i k
    cases hk k rfl
    exact h
  · obtain ⟨he, rfl⟩ | ⟨-, w, hf⟩ := stage_some hst
    · exact h.install_empty (hE rec hu he)
    · exact h.install_fresh hu hf

theorem Inv.applyWrites {fault : Fault} {r : Replica} (ws : List (Uuid × Nat × Bytes)) (h : Inv host r)
    (hf : fault.Harmless) : Inv host (applyWrites padBlocks host r ws fault).1 := by
  induction ws generalizing r fault with
  | nil => exact h
  | cons w rest ih =>
    obtain ⟨v, offset, data⟩ := w
    have hE : ∀ rec, r.mem.units v = some rec → (ContentOp.write offset data).Empties rec →
        ∀ s ∈ r.log, s.uuid = v → s.slot = .wal := fun _ _ he => by cases he.1
    unfold Version.applyWrites
    split
    · exact ih h hf
    split
    · rename_i k
      refine h.stageInto padBlocks hE fun k' hk => ?_
      cases hk
      exact hf
    have hst : Inv host (Version.stageInto padBlocks host r v (.write offset data) none).1 :=
      h.stageInto padBlocks hE (by simp)
    dsimp only
    split
    · exact hst
    refine ih hst ?_
    unfold Fault.next
    split
    · exact hf
    · exact hf

theorem Inv.checkpointAll {fault : Fault} {r : Replica} (order : List Uuid) (h : Inv host r)
    (hf : fault.Harmless) : Inv host (checkpointAll padBlocks host r order fault).1 := by
  unfold Version.checkpointAll
  dsimp only
  split
  · exact h
  have hw := h.applyWrites padBlocks
    (order.flatMap fun u => (r.overlay u).map fun w => (u, w.1, w.2)) hf
  split
  · exact hw
  split
  · exact hw
  · have := hw.publish fault
    exact ⟨this.covered, this.mem, this.disk, this.once⟩

/-- A new record over the same stream. -/
theorem Inv.install_same {rec : UnitRecord} {fs : Nat → Suite} {r : Replica} {u : Uuid}
    {rec' : UnitRecord} (h : Inv host r) (hu : r.mem.units u = some rec)
    (hs : rec'.stream = rec.stream) : Inv host (r.install u rec' fs) := by
  refine ⟨fun s hs' => (h.covered s hs').mono ?_ le_rfl, ?_, h.disk, h.once⟩
  · rw [counter_install]
    split
    · rename_i hsu
      simp only [Store.counter, hsu, hu, UnitRecord.vv, hs]
      exact le_rfl
    · exact le_rfl
  · intro v rec'' f hv
    rw [units_install] at hv
    split at hv
    · rename_i hvu
      cases hv
      subst hvu
      rw [hs]
      exact h.mem v rec f hu
    · exact h.mem v rec'' f hv

/-- Sealing stored fragments again, as they are. -/
theorem Inv.note_stored {new : List Seal} {rec : UnitRecord} {target : Suite} {r : Replica}
    {u : Uuid} {dirty : List Nat} (h : Inv host r) (hu : r.mem.units u = some rec)
    (hd : ∀ f ∈ dirty, (rec.stream.block f).isSome) (hnew : new ⊆ sealsOf target u rec.stream dirty) :
    Inv host (r.noteSeals new) := by
  have hstored : ∀ f ∈ dirty, (∃ s ∈ r.log, s.uuid = u ∧ s.slot = .content f ∧
      s.version = rec.stream.dot f) ∧ ∀ s ∈ r.log, s.uuid = u → s.slot = .content f →
        s.version = rec.stream.dot f → rec.stream.block f = some s.plain := by
    intro f hf
    rcases h.mem u rec f hu with ⟨-, hz⟩ | hs
    · have := hd f hf
      simp [hz] at this
    · exact hs
  have hagree : Agrees new r.log := by
    intro t ht s hs huuid hslot hver
    obtain ⟨f, hf, rfl⟩ := mem_map.mp (hnew ht)
    have := (hstored f hf).2 s hs huuid.symm hslot.symm hver.symm
    show (rec.stream.block f).getD [] = s.plain
    rw [this]
    rfl
  refine h.grow rfl rfl h.covered ?_ hagree ?_ (h.mem.append hagree)
  · intro t ht
    obtain ⟨f, hf, rfl⟩ := mem_map.mp (hnew ht)
    obtain ⟨s, hs, huuid, hslot, hver⟩ := (hstored f hf).1
    have := (h.covered s hs).content hslot
    rw [huuid, hver] at this
    exact this
  · intro t ht t' ht'
    exact agrees_sealsOf_self target u rec.stream dirty t (hnew ht) t' (hnew ht')

theorem resealStream_eq_self {fs : Nat → Suite} {target : Suite} {s : StreamMeta Bytes}
    (h : ∀ f d, s.block f = some d → fs f ≠ target → resealPlain target s f d = d) :
    resealStream target fs s = s := by
  have hfr : (s.frags.mapIdx fun f fr =>
      if toReseal target fs s f then { fr with block := fr.block.map (resealPlain target s f) }
      else fr) = s.frags := by
    apply ext_getElem (by simp)
    intro f h1 h2
    rw [getElem_mapIdx]
    split
    · rename_i ht
      simp only [toReseal, Bool.and_eq_true, decide_eq_true_eq] at ht
      obtain ⟨d, hd⟩ := Option.isSome_iff_exists.mp ht.1
      have hp := h f d hd ht.2
      rw [StreamMeta.block_of_lt h2] at hd
      rw [hd, Option.map_some, hp, ← hd]
    · rfl
  unfold resealStream
  rw [hfr]

theorem Inv.resealUnits {fault : Fault} {target : Suite} {r : Replica} (us : List Uuid)
    (h : Inv host r) (hk : KeepsPlain target r.mem) :
    Inv host (resealUnits target r us fault).1 := by
  induction us generalizing r fault with
  | nil => exact h
  | cons v rest ih =>
    unfold Version.resealUnits
    split
    · exact ih h hk
    rename_i rec hu
    have hself : resealStream target (r.mem.fragSuite v) rec.stream = rec.stream :=
      resealStream_eq_self fun f d hb hs => hk v rec f d hu hb hs
    have hd : ∀ f ∈ resealDirty target (r.mem.fragSuite v) rec.stream,
        (rec.stream.block f).isSome := by
      intro f hf
      have := (mem_filter.mp hf).2
      simp only [toReseal, Bool.and_eq_true] at this
      exact this.1
    dsimp only
    rw [hself]
    split
    · exact h.note_stored hu hd (take_subset _ _)
    split
    · exact ih h hk
    refine ih ((h.note_stored hu hd fun _ => id).install_same hu rfl) ?_
    -- what is now under the target needs no second sealing
    intro v' rec' f d hu' hb hs
    simp only [units_install] at hu'
    simp only [Replica.install] at hs
    split at hu'
    · rename_i hv
      simp [hv] at hs
    · rename_i hv
      rw [if_neg hv] at hs
      exact hk v' rec' f d hu' hb hs

theorem Inv.recipher {target : Suite} {r : Replica} {order : List Uuid} {ckFault : Fault}
    (fault : Fault) (h : Inv host r) (hf : ckFault.Harmless)
    (hk : KeepsPlain target (Version.checkpointAll padBlocks host r order ckFault).1.mem) :
    Inv host (recipher padBlocks host r target order ckFault fault) := by
  have hck := h.checkpointAll padBlocks order hf
  unfold Version.recipher
  split
  · exact h
  dsimp only
  split
  · exact hck
  have hre : Inv host
    (Version.resealUnits target (Version.checkpointAll padBlocks host r order ckFault).1
      (Version.checkpointAll padBlocks host r order ckFault).1.mem.uuids fault).1 :=
        hck.resealUnits _ hk
  split
  · exact hre
  · apply Inv.publish
    exact ⟨hre.covered, hre.mem, hre.disk, hre.once⟩

theorem Inv.appendWal {r : Replica} {u : Uuid} {offset : Nat} {data : Bytes} (h : Inv host r)
    (hfits : walRecordLen r.mem.suite data ≤ walRegionSize) :
    Inv host (appendWal r u offset data false) := by
  unfold Version.appendWal
  split
  · exact h
  rw [if_neg (by simpa using hfits)]
  have hagree : Agrees [⟨r.mem.suite, u, .wal, r.nextSeq, padToMin r.mem.suite data⟩] r.log := by
    intro t ht s hs _ hslot hver
    cases mem_singleton.mp ht
    have hc := h.covered s hs
    simp only [Covered, ← hslot] at hc
    simp only at hver
    omega
  refine h.grow rfl rfl ?_ ?_ hagree ?_ (h.mem.append hagree)
  · intro s hs
    exact (h.covered s hs).mono le_rfl (Nat.le_succ _)
  · intro s hs
    cases mem_singleton.mp hs
    exact Nat.lt_succ_self _
  · intro s hs t ht _ _ _
    rw [mem_singleton.mp hs, mem_singleton.mp ht]

theorem Inv.step {r : Replica} {event : Event} (h : Inv host r) (hc : Careful padBlocks host r event) :
    Inv host (r.step padBlocks host event) := by
  cases event with
  | create v fault =>
    simp only [Replica.step]
    split
    · exact h
    · have hlisted : Inv host (r.listUuid v) := ⟨h.covered, h.mem, h.disk, h.once⟩
      exact (hlisted.install_empty fun s hs he => absurd he (hc s hs)).publish fault
  | content v op fault =>
    obtain ⟨hf, hE⟩ := hc
    simp only [Replica.step, Version.content]
    split
    · rename_i k
      refine h.stageInto padBlocks hE fun k' hk => ?_
      cases hk
      exact hf
    · have hst : Inv host (Version.stageInto padBlocks host r v op none).1 :=
        h.stageInto padBlocks hE (by simp)
      split
      · exact hst.publish fault
      · exact hst
  | strain v s fault =>
    simp only [Replica.step]
    split
    · exact h
    · rename_i rec hu
      apply Inv.publish
      exact h.install_same hu rfl
  | recipher target order ckFault fault => exact h.recipher padBlocks fault hc.1 hc.2
  | enableWal fault =>
    simp only [Replica.step]
    split
    · exact h
    · apply Inv.publish
      exact ⟨h.covered, h.mem, h.disk, h.once⟩
  | writeAsync v offset data lost =>
    obtain ⟨rfl, hfits⟩ := hc
    exact h.appendWal hfits
  | checkpoint order fault => exact h.checkpointAll padBlocks order hc
  | relocateWal => exact ⟨h.covered, h.mem, h.disk, h.once⟩
  | beginBatch => exact ⟨h.covered, h.mem, h.disk, h.once⟩
  | commitBatch fault =>
    simp only [Replica.step]
    split
    · apply Inv.publish
      exact ⟨h.covered, h.mem, h.disk, h.once⟩
    · exact h
  | abort => exact ⟨h.covered, h.mem, h.disk, h.once⟩
  | crash overlay => exact ⟨hc, h.disk, h.disk, h.once⟩

theorem Inv.init (suite : Suite) : Inv host (.init suite) := by
  refine ⟨?_, ?_, ?_, ?_⟩ <;> intro _ <;> simp [Replica.init, Store.empty]

end

-- regrowth from nothing takes the first dot again
example : ¬ SealedOnce (run (Replica.step false 1) (.init .gcm)
    [.create 7 .none, .content 7 (.write 0 [1]) .none, .content 7 (.truncate 0) .none,
      .content 7 (.write 0 [2]) .none]).log := by
  decide

-- a write that failed after sealing, and another in its place
example : ¬ SealedOnce (run (Replica.step false 1) (.init .gcm)
    [.create 7 .none, .content 7 (.write 0 [1]) (.stage 0 1),
      .content 7 (.write 0 [2]) .none]).log := by
  decide

-- the padding of the other suite comes back as content of an extended last fragment
example : ¬ SealedOnce (run (Replica.step false 1) (.init .gcm)
    [.create 7 .none, .content 7 (.write 0 [1]) .none, .content 7 (.extend 20) .none,
      .recipher .xts [] .none .none, .recipher .gcm [] .none .none]).log := by
  decide

end Sfs.Version

import Sfs.Lib.Fallible
import Sfs.Lib.Newest
import Sfs.Sync.Export
import Sfs.Sync.Namespace

/-!
# A sync round

`sync_impl` between a replica and a transport: push what the transport does not dominate, import
the records of the units it may be ahead on, then fetch the blocks the imported records name, for
the primaries by a diff against the manifest from before the imports and for the strains one by
one. An error stops the round where it is.

A transport is given by its operations, so that a store and a live peer run the same round. A
record travels in an envelope; a block is a byte string that the round never looks into, so its
suite goes with it. Negotiation and the Writer-Set step are left out: the first changes the sealing
of blocks and nothing else, the second does not touch the records.
-/

namespace Sfs.Sync

open Sfs.Lib Sfs.Version

/-- The envelope of a projection. -/
structure Envelope (ω : Type) where
  wrap : Incoming → ω
  unwrap : ω → Result Incoming

/-- Nothing is hidden. -/
def clearEnvelope : Envelope Incoming := ⟨id, .ok⟩

/-- The operations of `Transport` that a round uses. A unit or block it does not have is `none`. -/
structure Backend (ω τ : Type) where
  have_ : τ → Uuid → Result (Option VersionVector)
  listRecords : τ → Result (List Uuid)
  getRecords : τ → Uuid → Result (List ω)
  getBlock : τ → Uuid → Nat → BlockVersion → Result (Option Bytes)
  putRecord : Uuid → VersionVector → ω → EStateM Error τ Unit
  putBlock : Uuid → Nat → BlockVersion → Bytes → EStateM Error τ Unit
  setVv : Uuid → VersionVector → EStateM Error τ Unit

/-! ## The store -/

/-- One account of a `LocalTransport`. -/
structure LocalTransport (ω : Type) where
  vvs : Uuid → Option VersionVector
  records : KeyMap Uuid (List (VersionVector × ω))
  blocks : Uuid → Nat → BlockVersion → Option Bytes

namespace LocalTransport

variable {ω : Type}

def new : LocalTransport ω := ⟨fun _ => none, .empty, fun _ _ _ => none⟩

/-- The records stored for a unit. -/
def frontier (t : LocalTransport ω) (u : Uuid) : List (VersionVector × ω) := (t.records.get u).getD []

def putRecord (t : LocalTransport ω) (u : Uuid) (vv : VersionVector) (blob : ω) : LocalTransport ω :=
  { t with records := t.records.put u (addNewest (t.frontier u) vv blob) }

/-- Insert-if-absent. -/
def putBlock (t : LocalTransport ω) (u : Uuid) (f : Nat) (v : BlockVersion) (b : Bytes) :
    LocalTransport ω :=
  { t with blocks := fun u' f' v' =>
    if u' = u ∧ f' = f ∧ v' = v then some ((t.blocks u f v).getD b) else t.blocks u' f' v' }

def setVv (t : LocalTransport ω) (u : Uuid) (vv : VersionVector) : LocalTransport ω :=
  { t with
    vvs := fun u' =>
      if u' = u then some (match t.vvs u with | none => vv | some old => old.join vv) else t.vvs u' }

theorem frontier_putRecord (t : LocalTransport ω) (u : Uuid) (vv : VersionVector) (blob : ω)
    (u' : Uuid) :
    (t.putRecord u vv blob).frontier u' =
      if u' = u then addNewest (t.frontier u) vv blob else t.frontier u' := by
  unfold frontier putRecord
  split
  · rename_i h
    rw [h, KeyMap.get_put_self]
    rfl
  · rename_i h
    rw [KeyMap.get_put_of_ne _ _ h]

def backend : Backend ω (LocalTransport ω) where
  have_ t u := .ok (t.vvs u)
  listRecords t := .ok (t.records.entries.map Prod.fst)
  getRecords t u := .ok ((t.frontier u).map Prod.snd)
  getBlock t u f v := .ok (t.blocks u f v)
  putRecord u vv blob := modify fun t => t.putRecord u vv blob
  putBlock u f v b := modify fun t => t.putBlock u f v b
  setVv u vv := modify fun t => t.setVv u vv

end LocalTransport

/-! ## What the replica tells -/

structure UnitSyncState where
  uuid : Uuid
  key : Bytes
  vv : VersionVector
  fragVersions : List BlockVersion
  present : List Bool
  lastFragLength : Nat
  fragsizeExp : Nat

/-- A unit without content is told by its Meta stream. -/
def syncState (key : Bytes) (u : Uuid) (r : Record Bytes) : UnitSyncState :=
  match r.content with
  | some s => ⟨u, key, s.vv, s.unitMap, s.frags.map fun fr => fr.block.isSome, s.lastFragLength,
    s.fragsizeExp⟩
  | none => ⟨u, key, headMetaVv (some r), [], [], 0, 0⟩

/-- Blocks are held by value here, a sealed Meta block as its plaintext. -/
def openPlain : OpenMeta Bytes := fun _ _ b => .ok (b.getD [])

namespace Namespace

def new : Namespace := ⟨.empty, fun _ => none, [], []⟩

variable (scheme : SignatureScheme) (signer : Signer)

/-- `unit_sync_state_inner`; a name without a record is passed over. -/
def unitSyncState (s : Namespace) (key : Bytes) (u : Uuid) : Result (Option UnitSyncState) :=
  match s.units u with
  | none => .ok none
  | some ch => do
    let r ← readUnitRecord scheme signer u ch.head
    return some (syncState key u r)

def manifestOf (s : Namespace) : List (Bytes × Uuid) → Result (List UnitSyncState)
  | [] => .ok []
  | (key, u) :: rest => do
    let st ← s.unitSyncState scheme signer key u
    let sts ← s.manifestOf rest
    return st.toList ++ sts

def syncManifest (s : Namespace) : Result (List UnitSyncState) :=
  s.manifestOf scheme signer s.keys.entries

/-- `export_record` up to its envelope. -/
def exportRecord (s : Namespace) (key : Bytes) : Result Incoming :=
  match s.keys.get key with
  | none => .error (.notFound "export_record: key not found")
  | some u =>
    match s.units u with
    | none => .error (.notFound "export_record: no record for uuid")
    | some ch => do
      let r ← readUnitRecord scheme signer u ch.head
      let m ← exportMeta openPlain u r
      return exportedIncoming key r r.signature m

/-- `resolve_with_version` where the version has to match: the newest of `streams` that is at or
below `v` on fragment `f`. -/
def exactBlock (streams : List (StreamMeta Bytes)) (f : Nat) (v : BlockVersion) : Option Bytes :=
  match streams.find? fun s => f < s.frags.length ∧ s.dot f ≤ v with
  | none => none
  | some s => if s.dot f = v then s.block f else none

/-- The strains a search for one with `p` reads. -/
def searched (p : StreamMeta Bytes → Bool) (strains : List (StreamMeta Bytes)) :
    List (StreamMeta Bytes) :=
  strains.take (strains.findIdx p + 1)

/-- A strain and its parents: the chain of the primary as it was when the strain came. -/
def strainChain (ch : Chain) (st : StreamMeta Bytes) : List (StreamMeta Bytes) :=
  st :: ((ch.head :: ch.past).drop (ch.past.length + 1 - ch.rooted st.vv)).filterMap Record.content

/-- `export_block`: from the record chain of the primary, then from those of the strains. -/
def exportBlock (s : Namespace) (u : Uuid) (f : Nat) (v : BlockVersion) : Result Bytes :=
  match s.units u with
  | none => .error (.notFound "export_block: uuid not found")
  | some ch => do
    let r ← readUnitRecord scheme signer u ch.head
    match exactBlock ((r :: ch.past).filterMap Record.content) f v with
    | some b => .ok b
    | none => do
      let found := fun st => exactBlock (strainChain ch st) f v
      let _ ← readStrainRecords (searched (fun st => (found st).isSome) r.strains)
      match r.strains.findSome? found with
      | some b => .ok b
      | none => .error (.notFound
        ("export_block: no block for uuid/frag=" ++ toString f ++ "/version=" ++ toString v))

/-- `unit_strains`: the primary and the strains. -/
def unitStrains (s : Namespace) (key : Bytes) : Result (List (StreamMeta Bytes)) :=
  match s.keys.get key with
  | none => .error (.notFound "unit_strains: key not found")
  | some u =>
    match s.units u with
    | none => .error (.notFound "unit_strains: no record for uuid")
    | some ch => do
      let r ← readUnitRecord scheme signer u ch.head
      match r.content with
      | none => .error (.integrity "strain_info_from_record: no content stream")
      | some primary => do
        let _ ← readStrainRecords r.strains
        return primary :: r.strains

/-- Put a block where its version is named: in the primary, else in the first strain that has it,
else in the primary all the same. -/
def placeBlock (r : Record Bytes) (f : Nat) (v : BlockVersion) (b : Bytes) (fragLen : Nat) :
    Record Bytes :=
  if r.stream.dot f = v then { r with content := some (Version.importBlock r.stream f v b fragLen) }
  else
    match r.strains.findIdx? fun st => st.dot f = v with
    | some i => { r with strains := r.strains.modify i fun st => Version.importBlock st f v b fragLen }
    | none => { r with content := some (Version.importBlock r.stream f v b fragLen) }

/-- The strains `import_block` reads before it places the block. -/
def readSearched (r : Record Bytes) (f : Nat) (v : BlockVersion) : Result Unit :=
  if r.stream.dot f = v then .ok ()
    else readStrainRecords (searched (fun st => st.dot f = v) r.strains)

/-- `import_block` -/
def importBlock (s : Namespace) (u : Uuid) (f : Nat) (v : BlockVersion) (b : Bytes) (fragLen : Nat) :
    Result Namespace :=
  match s.units u with
  | none => .error (.notFound "import_block: uuid not registered — call register_unit_uuid first")
  | some ch => do
    let r ← readUnitRecord scheme signer u ch.head
    let _ ← readSearched r f v
    let stored ← writeUnitRecord scheme signer u (placeBlock r f v b fragLen) .preserve
    return s.install u ⟨stored, true⟩

/-- `import_record` on the blob of unit `u`. -/
def importBlob {ω : Type} (env : Envelope ω) (u : Uuid) (blob : ω) : EStateM Error Namespace Unit :=
  fun s => match s.receive scheme signer ((env.unwrap blob).map fun inc => (u, inc)) with
  | (s', .ok _) => .ok () s'
  | (s', .error e) => .error e s'

end Namespace

/-! ## Push -/

section

variable {ω τ : Type} (scheme : SignatureScheme) (signer : Signer) (env : Envelope ω) (b : Backend ω τ)

/-- The blocks of a unit that the replica has; a block it does not have is passed over. -/
def exportBlocks (s : Namespace) (u : Uuid) :
    Nat → List BlockVersion → Result (List (Nat × BlockVersion × Bytes))
  | _, [] => .ok []
  | f, v :: rest =>
    if v = 0 then exportBlocks s u (f + 1) rest
    else
      match s.exportBlock scheme signer u f v with
      | .ok block => (exportBlocks s u (f + 1) rest).map ((f, v, block) :: ·)
      | .error (.notFound _) => exportBlocks s u (f + 1) rest
      | .error e => .error e

def pushUnit (s : Namespace) (m : UnitSyncState) : EStateM Error τ Unit := do
  let t ← get
  let transportVv := (← ofExcept (b.have_ t m.uuid)).getD .new
  if transportVv.dominates m.vv then return
  let projection ← ofExcept (s.exportRecord scheme signer m.key)
  b.putRecord m.uuid m.vv (env.wrap projection)
  let blocks ← ofExcept (exportBlocks scheme signer s m.uuid 0 m.fragVersions)
  forEach blocks fun (f, v, block) => b.putBlock m.uuid f v block
  b.setVv m.uuid m.vv

def push (s : Namespace) (manifest : List UnitSyncState) : EStateM Error τ Unit :=
  forEach manifest (pushUnit scheme signer env b s)

/-! ## Pull -/

def stateOf (manifest : List UnitSyncState) (u : Uuid) : Option UnitSyncState :=
  manifest.find? fun m => m.uuid = u

/-- The unit is unknown, or the transport is not dominated. -/
def needPull (pre : List UnitSyncState) (u : Uuid) (remoteJoinVv : VersionVector) : Bool :=
  match stateOf pre u with
  | some m => !m.vv.dominates remoteJoinVv
  | none => true

def pullUnit (t : τ) (pre : List UnitSyncState) (u : Uuid) : EStateM Error Namespace Unit := do
  let remoteJoinVv := (← ofExcept (b.have_ t u)).getD .new
  if needPull pre u remoteJoinVv then
    let projections ← ofExcept (b.getRecords t u)
    forEach projections (Namespace.importBlob scheme signer env u)

end

/-! ## Blocks -/

structure Diff where
  toPush : List (Nat × BlockVersion)
  toPull : List (Nat × BlockVersion)

/-- The fragment `f` of one unit, here and there. -/
def diffFrag (l r : Option BlockVersion) (f : Nat) : Diff :=
  match l, r with
  | some l, some r =>
    if l = r then ⟨[], []⟩
    else if l = 0 then ⟨[], [(f, r)]⟩
    else if r = 0 then ⟨[(f, l)], []⟩
    else ⟨[(f, l)], [(f, r)]⟩
  | some l, none => if l ≠ 0 then ⟨[(f, l)], []⟩ else ⟨[], []⟩
  | none, some r => if r ≠ 0 then ⟨[], [(f, r)]⟩ else ⟨[], []⟩
  | none, none => ⟨[], []⟩

/-- `diff` on one unit. -/
def diff (localFrags remoteFrags : List BlockVersion) : Diff :=
  let frags := (List.range (max localFrags.length remoteFrags.length)).map fun f =>
    diffFrag localFrags[f]? remoteFrags[f]? f
  ⟨frags.flatMap Diff.toPush, frags.flatMap Diff.toPull⟩

/-- The versions of the fragments a unit has; one that is a hole counts as version 0. -/
def UnitSyncState.effective (m : UnitSyncState) : List BlockVersion :=
  m.fragVersions.mapIdx fun f v => if m.present.getD f false then v else 0

/-- The plaintext length of fragment `f`. -/
def UnitSyncState.fragLen (m : UnitSyncState) (f : Nat) : Nat :=
  if f + 1 = m.fragVersions.length then m.lastFragLength else 2 ^ m.fragsizeExp

section

variable {ω τ : Type} (scheme : SignatureScheme) (signer : Signer) (env : Envelope ω) (b : Backend ω τ)

/-- `get_blocks` -/
def getBlocks (t : τ) (u : Uuid) : List (Nat × BlockVersion) → Result (List (Option Bytes))
  | [] => .ok []
  | (f, v) :: rest => do
    let block ← b.getBlock t u f v
    let blocks ← getBlocks t u rest
    return block :: blocks

/-- What the diff says the primary of `u` is missing. -/
def toPull (pre post : List UnitSyncState) (u : Uuid) : List (Nat × BlockVersion) :=
  match stateOf post u with
  | none => []
  | some m => (diff ((stateOf pre u).elim [] UnitSyncState.effective) m.fragVersions).toPull

/-- Step 5a. -/
def importPrimary (post : List UnitSyncState) (u : Uuid)
    (wanted : (Nat × BlockVersion) × Option Bytes) : EStateM Error Namespace Unit :=
  match wanted.2 with
  | none => throw (.notFound "not found")
  | some block =>
    let fragLen := match stateOf post u with
      | some m => m.fragLen wanted.1.1
      | none => block.length
    transact fun s => s.importBlock scheme signer u wanted.1.1 wanted.1.2 block fragLen

/-- The fragments of a strain that are still to come. -/
def wantedOf (strain : StreamMeta Bytes) : List (Nat × BlockVersion) :=
  (List.range strain.frags.length).filterMap fun f =>
    if Version.missing strain f then some (f, strain.dot f) else none

/-- Step 5b for one strain: a block the transport does not have is passed over. -/
def importStrainBlock (u : Uuid) (strain : StreamMeta Bytes)
    (wanted : (Nat × BlockVersion) × Option Bytes) : EStateM Error Namespace Unit :=
  match wanted.2 with
  | none => return
  | some block =>
    transact fun s => s.importBlock scheme signer u wanted.1.1 wanted.1.2 block
      (if wanted.1.1 + 1 = strain.frags.length then strain.lastFragLength else strain.fragsize)

def pullStrain (t : τ) (u : Uuid) (strain : StreamMeta Bytes) : EStateM Error Namespace Unit := do
  let wanted := wantedOf strain
  let fetched ← ofExcept (getBlocks b t u wanted)
  forEach (wanted.zip fetched) (importStrainBlock scheme signer u strain)

def pullStrains (t : τ) (post : List UnitSyncState) (u : Uuid) : EStateM Error Namespace Unit := do
  match stateOf post u with
  | none => return
  | some m =>
    let s ← get
    let strains ← ofExcept (s.unitStrains scheme signer m.key)
    forEach strains.tail (pullStrain scheme signer b t u)

def fetchPrimaries (t : τ) (pre post : List UnitSyncState) :
    List Uuid → Result (List (Uuid × List ((Nat × BlockVersion) × Option Bytes)))
  | [] => .ok []
  | u :: rest => do
    let fetched ← getBlocks b t u (toPull pre post u)
    let others ← fetchPrimaries t pre post rest
    return (u, (toPull pre post u).zip fetched) :: others

def pullPrimaries (t : τ) (pre post : List UnitSyncState) (remote : List Uuid) :
    EStateM Error Namespace Unit := do
  let fetched ← ofExcept (fetchPrimaries b t pre post remote)
  forEach fetched fun (u, wanted) => forEach wanted (importPrimary scheme signer post u)

/-- Step 3. -/
def pullRecords (t : τ) (pre : List UnitSyncState) (remote : List Uuid) :
    EStateM Error Namespace Unit :=
  forEach remote (pullUnit scheme signer env b t pre)

/-- Steps 3 to 5: records, then the blocks of the primaries, then those of the strains. -/
def pull (t : τ) (pre : List UnitSyncState) : EStateM Error Namespace Unit := do
  let remote ← ofExcept (b.listRecords t)
  pullRecords scheme signer env b t pre remote
  let post ← ofExcept ((← get).syncManifest scheme signer)
  pullPrimaries scheme signer b t pre post remote
  forEach remote (pullStrains scheme signer b t post)

/-- `sync_impl`: the replica and the transport as the round leaves them, and its outcome. -/
def sync (s : Namespace) (t : τ) : (Namespace × τ) × Result Unit :=
  match s.syncManifest scheme signer with
  | .error e => ((s, t), .error e)
  | .ok pre =>
    match push scheme signer env b s pre t with
    | .error e t' => ((s, t'), .error e)
    | .ok _ t' =>
      match pull scheme signer env b t' pre s with
      | .error e s' => ((s', t'), .error e)
      | .ok _ s' => ((s', t'), .ok ())

end

/-! ## The manifest -/

/-- The unit has a name. -/
def Namespace.Bound (s : Namespace) (u : Uuid) : Prop := ∃ key, s.keys.get key = some u

/-- Every unit with a name can be read. -/
def Namespace.Readable (scheme : SignatureScheme) (signer : Signer) (s : Namespace) : Prop :=
  ∀ e ∈ s.keys.entries, ∀ ch, s.units e.2 = some ch →
    readUnitRecord scheme signer e.2 ch.head = .ok ch.head

/-- The entries of the manifest. -/
def Namespace.told (s : Namespace) : List UnitSyncState :=
  s.keys.entries.filterMap fun e => (s.units e.2).map fun ch => syncState e.1 e.2 ch.head

section

variable {scheme : SignatureScheme} {signer : Signer} {s : Namespace} {key : Bytes} {u : Uuid}
  {r : Record Bytes}

@[simp] theorem syncState_uuid : (syncState key u r).uuid = u := by
  unfold syncState
  split <;> rfl

theorem syncManifest_eq_ok_iff {ms : List UnitSyncState} :
    s.syncManifest scheme signer = .ok ms ↔ s.Readable scheme signer ∧ ms = s.told := by
  unfold Namespace.syncManifest Namespace.Readable Namespace.told
  generalize s.keys.entries = entries
  induction entries generalizing ms with
  | nil =>
    constructor
    · rintro ⟨⟩
      exact ⟨fun _ => nofun, rfl⟩
    · rintro ⟨-, rfl⟩
      rfl
  | cons e rest ih =>
    rw [List.forall_mem_cons, and_assoc]
    constructor
    · intro h
      obtain ⟨st, hst, h⟩ := exists_of_bind_ok h
      obtain ⟨sts, hrest, h⟩ := exists_of_bind_ok h
      cases h
      obtain ⟨hread, rfl⟩ := ih.mp hrest
      unfold Namespace.unitSyncState at hst
      cases hu : s.units e.2 with
      | none =>
        rw [hu] at hst
        cases hst
        exact ⟨fun _ => nofun, hread, by simp [hu]⟩
      | some ch =>
        rw [hu] at hst
        obtain ⟨r, hr, hst⟩ := exists_of_bind_ok hst
        cases readUnitRecord_eq hr
        cases hst
        exact ⟨fun _ h => by cases h; exact hr, hread, by simp [hu]⟩
    · rintro ⟨hhead, hread, rfl⟩
      unfold Namespace.manifestOf Namespace.unitSyncState
      rw [ih.mpr ⟨hread, rfl⟩]
      cases hu : s.units e.2 with
      | none =>
        rw [List.filterMap_cons, hu]
        rfl
      | some ch =>
        dsimp only
        rw [hhead ch hu, List.filterMap_cons, hu]
        rfl

theorem mem_told {m : UnitSyncState} : m ∈ s.told ↔
    ∃ key u ch, s.keys.get key = some u ∧ s.units u = some ch ∧ m = syncState key u ch.head := by
  unfold Namespace.told
  rw [List.mem_filterMap]
  constructor
  · rintro ⟨⟨key, u⟩, he, hm⟩
    obtain ⟨ch, hch, rfl⟩ := Option.map_eq_some_iff.mp hm
    exact ⟨key, u, ch, KeyMap.get_of_mem he, hch, rfl⟩
  · rintro ⟨key, u, ch, hkey, hch, rfl⟩
    exact ⟨(key, u), KeyMap.mem_of_get hkey, by simp [hch]⟩

end

/-! ## What an imported block does -/

section

variable {scheme : SignatureScheme} {signer : Signer} {s s' : Namespace} {u : Uuid} {f : Nat}
  {v : BlockVersion} {block : Bytes}
  {fragLen : Nat}

theorem importBlock_eq_ok_iff : s.importBlock scheme signer u f v block fragLen = .ok s' ↔
    ∃ ch stored, s.units u = some ch ∧ readUnitRecord scheme signer u ch.head = .ok ch.head ∧
      Namespace.readSearched ch.head f v = .ok () ∧
      writeUnitRecord scheme signer u (Namespace.placeBlock ch.head f v block fragLen) .preserve =
        .ok stored ∧
      s' = s.install u ⟨stored, true⟩ := by
  unfold Namespace.importBlock
  cases hu : s.units u with
  | none => exact iff_of_false (fun h => (nomatch h)) fun ⟨_, _, h, _⟩ => (nomatch h)
  | some ch =>
    constructor
    · intro h
      obtain ⟨r, hr, h⟩ := exists_of_bind_ok h
      cases readUnitRecord_eq hr
      obtain ⟨_, hsearch, h⟩ := exists_of_bind_ok h
      obtain ⟨stored, hw, h⟩ := exists_of_bind_ok h
      cases h
      exact ⟨ch, stored, rfl, hr, hsearch, hw, rfl⟩
    · rintro ⟨ch', stored, ⟨⟩, hr, hsearch, hw, rfl⟩
      simp only [bind, Except.bind, hr, hsearch, hw, pure, Except.pure]

end

end Sfs.Sync

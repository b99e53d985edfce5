import Mathlib.Data.Finmap
import Mathlib.Data.String.Basic
import Sfs.Catalog.Node
import Sfs.Lib.Run
import Sfs.Retention
import Sfs.Version.History

/-!
# The engine by value

The engine with its two catalogs and the pending asynchronous writes, where blocks stand for
themselves and not for their place in the container. Each operation stages a new head or a change
of names in the catalogs in memory and publishes them, unless a batch suppresses the header
commit. `commit` and `evict` checkpoint the pending writes first. A commit is itself two units
under `.sfs/`, the commit object and the pointer to the newest one.

Where superseded blocks go is not followed here: no catalog names a block of the eviction tail.
Reading at a version (`reconstructAt`) takes what the scan of the tail finds as an argument. The
pending writes belong to the engine and not to a catalog, so the `overlay` of a `UnitState` stays
empty here.
-/

namespace Sfs.Version

open Sfs.Lib

/-- What a checkout reads of a commit object: the version of each unit it pins. -/
structure Commit where
  commitish : Uuid
  entries : List (Uuid × BlockVersion)
  deriving DecidableEq, Repr

/-- A commit object as `commit` stores it. -/
structure CommitObject where
  title : String
  message : String
  commitish : Uuid
  parents : List Uuid
  /-- the unit and the newest versions of its content and its Meta stream -/
  entries : List (Uuid × BlockVersion × BlockVersion)

def uuidLe (u : Uuid) : Bytes := leBytes 16 u.toNat

def CommitObject.body (k : CommitObject) : Bytes :=
  "sfsc\x00c1\x00".toUTF8.toList ++ uuidLe k.commitish ++
    leBytes 4 k.title.toUTF8.size ++ k.title.toUTF8.toList ++
    leBytes 4 k.message.toUTF8.size ++ k.message.toUTF8.toList ++
    leBytes 4 k.parents.length ++ k.parents.flatMap uuidLe ++
    leBytes 4 k.entries.length ++ k.entries.flatMap fun e =>
      uuidLe e.1 ++ leBytes 8 e.2.1 ++ leBytes 8 e.2.2

def CommitObject.encode (k : CommitObject) : Bytes := k.body ++ leBytes 4 (crc32 k.body).toNat

/-- What a header publishes: names and units. -/
@[ext] structure Catalog where
  keys : Finmap fun _ : String => Uuid
  units : Uuid → Option UnitState

structure Engine where
  cat : Catalog
  published : Catalog
  /-- `wal_overlay`, in the order in which a checkpoint walks it -/
  pending : List (Uuid × List (Nat × Bytes))
  /-- `wal.is_some()` -/
  wal : Bool
  /-- `suppress_commit` -/
  batch : Bool

def Catalog.empty : Catalog := ⟨∅, fun _ => none⟩

def Engine.new : Engine := ⟨.empty, .empty, [], false, false⟩

def Catalog.setUnit (c : Catalog) (u : Uuid) (st : UnitState) : Catalog :=
  { c with units := fun v => if v = u then some st else c.units v }

def uuidForPath (c : Catalog) (path : String) : Result Uuid :=
  match c.keys.lookup path with
  | some u => .ok u
  | none => .error (.notFound ("path not found: " ++ path))

/-- The unit at `path`; `what` names the calling operation in the error. -/
def unitAt (what : String) (c : Catalog) (path : String) : Result (Uuid × UnitState) :=
  match uuidForPath c path with
  | .error e => .error e
  | .ok u =>
    match c.units u with
    | some st => .ok (u, st)
    | none => .error (.notFound (what ++ "no record for path: " ++ path))

@[simp] theorem units_setUnit (cat : Catalog) (u v : Uuid) (st : UnitState) :
    (cat.setUnit u st).units v = if v = u then some st else cat.units v := rfl

theorem unitAt_ok {what path : String} {cat : Catalog} {u : Uuid} {st : UnitState} :
    unitAt what cat path = .ok (u, st) ↔ cat.keys.lookup path = some u ∧ cat.units u = some st := by
  unfold unitAt uuidForPath
  cases hk : cat.keys.lookup path with
  | none => simp
  | some v =>
    simp only
    cases hv : cat.units v with
    | none =>
      simp only [Option.some.injEq, reduceCtorEq, false_iff, not_and]
      rintro rfl
      simp [hv]
    | some st' =>
      simp only [Except.ok.injEq, Prod.mk.injEq, Option.some.injEq]
      constructor
      · rintro ⟨rfl, rfl⟩
        exact ⟨rfl, hv⟩
      · rintro ⟨rfl, h⟩
        exact ⟨rfl, Option.some.inj (hv.symm.trans h)⟩

/-! ## Commits and the versions they name -/

/-- The largest version of a stream's `unit_map`. -/
def maxVer {β : Type} (s : StreamMeta β) : BlockVersion := (s.frags.map Frag.version).foldr max 0

/-- Pin every fragment. -/
def pinAll {β : Type} (c : Uuid) (s : StreamMeta β) : StreamMeta β :=
  if s.frags.length = 0 then s
  else { s with pins := s.pins ++ [⟨c, List.replicate s.frags.length true⟩] }

/-- Rewrite the head of `u` with its pins; the parent stays the same. -/
def pinUnit (c : Uuid) (cat : Catalog) (u : Uuid) : Catalog :=
  match cat.units u with
  | none => cat
  | some st => cat.setUnit u { st
    with head := { st.head with content := st.head.content.map (pinAll c) } }

theorem pinUnit_units (c : Uuid) (cat : Catalog) (v u : Uuid) :
    (pinUnit c cat v).units u = if u = v then (cat.units u).map fun st =>
      { st with head := { st.head with content := st.head.content.map (pinAll c) } }
        else cat.units u := by
  unfold pinUnit
  by_cases huv : u = v
  · subst huv
    cases hu : cat.units u <;> simp [hu]
  · cases hv : cat.units v <;> simp [huv]

theorem pinUnit_keys (c : Uuid) (cat : Catalog) (v : Uuid) : (pinUnit c cat v).keys = cat.keys := by
  unfold pinUnit
  split <;> rfl

/-! ## Reading -/

def Catalog.read (c : Catalog) (path : String) : Result Bytes :=
  (unitAt "" c path).map fun ust => Version.read ust.2.head.stream

def Engine.overlay (e : Engine) (u : Uuid) : List (Nat × Bytes) :=
  ((e.pending.find? fun p => p.1 = u).map Prod.snd).getD []

/-- `read`, through the pending writes. -/
def Engine.read (e : Engine) (path : String) : Result Bytes :=
  (unitAt "" e.cat path).map fun ust =>
    applyOverlayFull (e.overlay ust.1) (Version.read ust.2.head.stream)

/-- Paths under `stem`, sorted. -/
def Catalog.list (c : Catalog) (stem : String) : List String :=
  (c.keys.keys.filter fun p => stem.toList <+: p.toList).sort (· ≤ ·)

/-- The versions of the content, newest first. -/
def Catalog.history (c : Catalog) (path : String) : Result (List BlockVersion) :=
  match unitAt "" c path with
  | .error e => .error e
  | .ok (_, st) =>
    match (st.heads.filter fun r => r.stream.frags ≠ []).map fun r => maxVer r.stream with
    | [] => .error (.notFound ("history: no content versions found for path: " ++ path))
    | vs => .ok vs

/-- The newest record whose versions are all at most `at`: it gives the geometry. -/
def targetRecord (ver : BlockVersion) (records : List UnitRecord) : Option (StreamMeta Bytes) :=
  (records.filterMap UnitRecord.content).find? fun s => s.frags ≠ [] ∧ maxVer s ≤ ver

/-- `resolve_with_version`: the newest entry of fragment `f` that is at most `at`, as whether it
is a hole and its version. -/
def resolve (f : Nat) (ver : BlockVersion) (records : List UnitRecord) :
    Option (Bool × BlockVersion) :=
  ((records.filterMap UnitRecord.content).find? fun s => f < s.frags.length ∧ s.dot f ≤ ver).map
    fun s => ((s.block f).isNone, s.dot f)

/-- The first block of that fragment and version among those that the scan of the tail finds, by
address. -/
def tailLookup (tail : List Evicted) (u : Uuid) (f : Nat) (ver : BlockVersion) : Option Bytes :=
  (tail.find? fun b => b.uuid = u ∧ b.frag = f ∧ b.oldVersion = ver).map Evicted.block

/-- The block of fragment `f` at version `at`; `fast` says that its pin bit is set. -/
def blockAt (tail : List Evicted) (u : Uuid) (st : UnitState) (ver : BlockVersion) (fast : Bool)
    (f : Nat) : Result (Option Bytes) :=
  let head := st.head.stream
  if fast ∧ (head.block f).isSome then .ok (head.block f)
  else
    match resolve f ver st.heads with
    | none => .error (.integrity ("checkout: fragment " ++ toString f ++ " not found at version " ++
        toString ver))
    | some (true, _) => .ok none
    | some (false, v) =>
      if head.dot f = v ∧ (head.block f).isSome then .ok (head.block f)
      else
        match tailLookup tail u f v with
        | some d => .ok (some d)
        | none => .error (.integrity ("checkout: superseded fragment " ++ toString f ++ " version " ++
            toString v ++ " not found in tail"))

/-- The fragments `fs` of the target, one after the other. -/
def readFrags (target : StreamMeta Bytes) (block : Nat → Result (Option Bytes)) :
    List Nat → Result Bytes
  | [] => .ok []
  | f :: fs =>
    match block f with
    | .error e => .error e
    | .ok b =>
      match readFrags target block fs with
      | .error e => .error e
      | .ok rest => .ok (fragOut target f b ++ rest)

def reconstructAt (tail : List Evicted) (path : String) (u : Uuid) (st : UnitState)
    (ver : BlockVersion) (bits : Nat → Bool) : Result Bytes :=
  match st.head.content with
  | none => .ok []
  | some _ =>
    match targetRecord ver st.heads with
    | none => .error (.notFound ("checkout: no record with version ≤ " ++ toString ver ++
        " found for path: " ++ path))
    | some target =>
      readFrags target (fun f => blockAt tail u st ver (bits f) f) (List.range target.frags.length)

/-- The bit of fragment `f` in the bitmap of commit `c`. -/
def pinBit {β : Type} (s : StreamMeta β) (c : Uuid) (f : Nat) : Bool :=
  match s.pins.find? fun p => p.commit = c with
  | some p => p.getBit f
  | none => false

/-- The version commit `c` records for `u`. -/
def committedVersion (commits : List Commit) (c u : Uuid) : Result BlockVersion :=
  match commits.find? fun k => k.commitish = c with
  | none => .error (.notFound ("path not found: .sfs/commits/" ++ c.toHex))
  | some k =>
    match k.entries.find? fun e => e.1 = u with
    | some e => .ok e.2
    | none => .error (.notFound ("checkout_at_commit: unit not pinned by commit " ++ c.toHex))

/-! ## The chain walk -/

section

variable {v : BlockVersion} {f : Nat} {s : StreamMeta Bytes}

theorem targetRecord_cons {r : UnitRecord} {rs : List UnitRecord}
    (hr : r.content = some s) :
    targetRecord v (r :: rs) = if s.frags ≠ [] ∧ maxVer s ≤ v then some s else targetRecord v rs := by
  unfold targetRecord
  rw [List.filterMap_cons, hr]
  by_cases h : s.frags ≠ [] ∧ maxVer s ≤ v <;> simp [h]

theorem resolve_cons {r : UnitRecord} {rs : List UnitRecord} (hr : r.content = some s) :
    resolve f v (r :: rs) =
      if f < s.frags.length ∧ s.dot f ≤ v then some ((s.block f).isNone, s.dot f)
        else resolve f v rs := by
  unfold resolve
  rw [List.filterMap_cons, hr]
  by_cases h : f < s.frags.length ∧ s.dot f ≤ v <;> simp [h]

/-- The same fragments and the same lengths. -/
structure SameGeometry (s t : StreamMeta Bytes) : Prop where
  length : s.frags.length = t.frags.length
  exp : s.fragsizeExp = t.fragsizeExp
  last : s.lastFragLength = t.lastFragLength

theorem SameGeometry.fragOut {t : StreamMeta Bytes} (h : SameGeometry s t) (f : Nat)
    (b : Option Bytes) : fragOut s f b = fragOut t f b := by
  have hfs : s.fragsize = t.fragsize := congrArg (2 ^ ·) h.exp
  cases b with
  | none => simp only [Version.fragOut, hfs, h.length, h.last]
  | some d => simp only [Version.fragOut, hfs, h.length, h.last]

end

/-! ## Operations -/

def keyTooLong (len : Nat) : Error :=
  .integrity ("trie key too long: " ++ toString len ++ " > " ++ toString Catalog.MAX_KEY_LEN)

/-- The last of the names of a unit, in the order of the scan. -/
def pathOf (pairs : List (String × Uuid)) (u : Uuid) : Option String :=
  (pairs.reverse.find? fun p => p.2 = u).map Prod.fst

/-- The asynchronous writes of the units that still have a name. -/
def pendingWrites (pairs : List (String × Uuid)) (overlay : List (Uuid × List (Nat × Bytes))) :
    List (String × Nat × Bytes) :=
  overlay.flatMap fun e =>
    ((pathOf pairs e.1).map fun path => e.2.map fun w => (path, w.1, w.2)).getD []

def commitHeadKey : String := ".sfs/COMMIT_HEAD"

def commitPath (c : Uuid) : String := ".sfs/commits/" ++ c.toHex

/-- The names in the order of the scan. -/
def Catalog.scanPaths (c : Catalog) : List (String × Uuid) :=
  (c.keys.keys.sort (· ≤ ·)).filterMap fun p => (c.keys.lookup p).map fun u => (p, u)

inductive EngineOp where
  | create (path : String) (u : Uuid)
  | write (path : String) (offset : Nat) (data : Bytes)
  | writeMeta (path : String)
  | truncate (path : String) (newSize : Nat)
  | extend (path : String) (newSize : Nat)
  | rename (old new : String)
  | remove (path : String)
  /-- with the commitish and the uuids of the two units that are drawn -/
  | commit (paths : List String) (title message : String) (c u u' : Uuid)
  | checkpoint
  | evict
  deriving DecidableEq, Repr

/-- The units of the paths of a commit. -/
def commitUnits (c : Catalog) : List String → Result (List (Uuid × UnitState))
  | [] => .ok []
  | path :: paths =>
    match unitAt "" c path with
    | .error err => .error err
    | .ok ust =>
      match commitUnits c paths with
      | .error err => .error err
      | .ok rest => .ok (ust :: rest)

/-- The version of the Meta stream is left out; the units here have none. -/
def commitEntries (units : List (Uuid × UnitState)) : List (Uuid × BlockVersion × BlockVersion) :=
  units.map fun ust => (ust.1, maxVer ust.2.head.stream, 0)

/-- `create_unit_inner` without its publish, where `u` is the uuid drawn. A key that is too long is
refused when the record is already in the id catalog. -/
def Catalog.create (cat : Catalog) (path : String) (u : Uuid) : Catalog × Result Unit :=
  if (cat.keys.lookup path).isSome then (cat, .error (.integrity ("unit already exists: " ++ path)))
  else
    let cat := cat.setUnit u .created
    if Catalog.MAX_KEY_LEN < path.utf8ByteSize then (cat, .error (keyTooLong path.utf8ByteSize))
    else ({ cat with keys := cat.keys.insert path u }, .ok ())

section

variable (padBlocks : Bool) (suite : Suite) (host : HostAlias)

/-- `stage_write` and the new record in the catalogs. -/
def Catalog.stageRecord (cat : Catalog) (path : String) (offset : Nat) (data : Bytes) :
    Catalog × Result Unit :=
  match unitAt "" cat path with
  | .error err => (cat, .error err)
  | .ok (u, st) =>
    match stageWrite padBlocks suite host st.head.stream offset data with
    | .error err => (cat, .error err)
    | .ok staged => (cat.setUnit u (st.push staged.stream), .ok ())

/-- `f`, unless the step before it failed. -/
def andThen {α : Type} (x : α × Result Unit) (f : α → α × Result Unit) : α × Result Unit :=
  match x with
  | (a, .ok ()) => f a
  | (a, .error err) => (a, .error err)

namespace Engine

/-- `publish`: outside a batch the header takes over the catalogs. -/
def publish (e : Engine) : Engine := if e.batch then e else { e with published := e.cat }

/-- A staged change is published if there was no error. -/
def settle (e : Engine) (x : Catalog × Result Unit) : Engine × Result Unit :=
  andThen ({ e with cat := x.1 }, x.2) fun e => (e.publish, .ok ())

def create (e : Engine) (path : String) (u : Uuid) : Engine × Result Unit :=
  e.settle (e.cat.create path u)

def write (e : Engine) (path : String) (offset : Nat) (data : Bytes) : Engine × Result Unit :=
  e.settle (e.cat.stageRecord padBlocks suite host path offset data)

/-- `write_meta`: a new head over the old one with the same content. -/
def writeMeta (e : Engine) (path : String) : Engine × Result Unit :=
  match unitAt "write_meta: " e.cat path with
  | .error err => (e, .error err)
  | .ok (u, st) =>
    let next : UnitState :=
      { st with head := { st.head with strains := [] }, past := st.head :: st.past }
    ({ e with cat := e.cat.setUnit u next }.publish, .ok ())

/-- `truncate` and `extend`. -/
def resize (e : Engine) (what path : String) (op : ContentOp) : Engine × Result Unit :=
  match unitAt what e.cat path with
  | .error err => (e, .error err)
  | .ok (u, st) =>
    match stage padBlocks suite host st.head (e.overlay u) op with
    | .error err => (e, .error err)
    | .ok none => (e, .ok ())
    | .ok (some staged) =>
      ({ e with cat := e.cat.setUnit u (st.push staged.stream) }.publish, .ok ())

def rename (e : Engine) (old new : String) : Engine × Result Unit :=
  match e.cat.keys.lookup old with
  | none => (e, .error (.notFound ("rename source missing: " ++ old)))
  | some u =>
    if (e.cat.keys.lookup new).isSome then
      (e, .error (.integrity ("rename target exists: " ++ new)))
    else if Catalog.MAX_KEY_LEN < new.utf8ByteSize then (e, .error (keyTooLong new.utf8ByteSize))
    else
      let keys := (e.cat.keys.insert new u).erase old
      ({ e with cat := { e.cat with keys } }.publish, .ok ())

/-- `remove` unlinks the name; the unit stays. -/
def remove (e : Engine) (path : String) : Engine × Result Unit :=
  if (e.cat.keys.lookup path).isNone then
    (e, .error (.notFound ("remove: path not found: " ++ path)))
  else ({ e with cat := { e.cat with keys := e.cat.keys.erase path } }.publish, .ok ())

/-- The apply loop of a checkpoint: it stops at the first write that fails. -/
def applyWrites (e : Engine) : List (String × Nat × Bytes) → Engine × Result Unit
  | [] => (e, .ok ())
  | (path, ofs, data) :: writes =>
    andThen (e.write padBlocks suite host path ofs data) fun e => e.applyWrites writes

/-- What a checkpoint writes: the pending writes of the units that have a name. -/
def toWrite (e : Engine) : List (String × Nat × Bytes) := pendingWrites e.cat.scanPaths e.pending

def checkpoint (e : Engine) : Engine × Result Unit :=
  if e.pending.isEmpty && !e.wal then (e, .ok ())
  else
    let x := { e with batch := true }.applyWrites padBlocks suite host e.toWrite
    andThen ({ x.1 with batch := e.batch }, x.2) fun e => ({ e.publish with pending := [] }, .ok ())

/-- The commit that the head pointer names. -/
def commitParents (e : Engine) : List Uuid :=
  match e.read commitHeadKey with
  | .ok bytes => if bytes.length = 16 then [BitVec.ofNat 128 (leNat bytes)] else []
  | .error _ => []

/-- The pins, the commit unit and the head pointer. -/
def stageCommit (cat : Catalog) (units : List (Uuid × UnitState)) (k : CommitObject)
    (u u' : Uuid) : Catalog × Result Unit :=
  let pinned := units.foldl (fun cat ust => pinUnit k.commitish cat ust.1) cat
  let x := andThen (pinned.create (commitPath k.commitish) u) fun cat =>
    cat.stageRecord padBlocks suite host (commitPath k.commitish) 0 k.encode
  let y := andThen x fun cat =>
    if (cat.keys.lookup commitHeadKey).isNone then cat.create commitHeadKey u' else (cat, .ok ())
  andThen y fun cat =>
    cat.stageRecord padBlocks suite host commitHeadKey 0 (uuidLe k.commitish)

/-- `commit` after its checkpoint. An error of `stageCommit` returns with the header commits
suppressed. -/
def snapshot (e : Engine) (paths : List String) (title message : String) (c u u' : Uuid) :
    Engine × Result Unit :=
  match commitUnits e.cat paths with
  | .error err => (e, .error err)
  | .ok units =>
    let k : CommitObject := ⟨title, message, c, e.commitParents, commitEntries units⟩
    let x := stageCommit padBlocks suite host e.cat units k u u'
    andThen ({ e with cat := x.1, batch := true }, x.2) fun e' =>
      ({ e' with batch := e.batch }.publish, .ok ())

def commit (e : Engine) (paths : List String) (title message : String) (c u u' : Uuid) :
    Engine × Result Unit :=
  andThen (e.checkpoint padBlocks suite host) fun e =>
    e.snapshot padBlocks suite host paths title message c u u'

/-- `evict_with_strategy`: blocks of the tail are freed in the allocator. -/
def evict (e : Engine) : Engine × Result Unit :=
  andThen (e.checkpoint padBlocks suite host) fun e => (e.publish, .ok ())

def apply (e : Engine) : EngineOp → Engine × Result Unit
  | .create path u => e.create path u
  | .write path offset data => e.write padBlocks suite host path offset data
  | .writeMeta path => e.writeMeta path
  | .truncate path newSize => e.resize padBlocks suite host "truncate: " path (.truncate newSize)
  | .extend path newSize => e.resize padBlocks suite host "extend: " path (.extend newSize)
  | .rename old new => e.rename old new
  | .remove path => e.remove path
  | .commit paths title message c u u' => e.commit padBlocks suite host paths title message c u u'
  | .checkpoint => e.checkpoint padBlocks suite host
  | .evict => e.evict padBlocks suite host

end Engine

end

end Sfs.Version

import Sfs.Sync.Round

/-!
# Calls on a replica

The calls that change a replica's names and records, outside a batch. A content call or a Meta
write goes over the head record of its unit; renaming, linking and removing only touch the names.
What a call leaves of the superseded blocks is not followed here.
-/

namespace Sfs.Sync

open Sfs.Lib Sfs.Version

/-- The key of a path. -/
def pathBytes (path : String) : Bytes := path.toList.flatMap String.utf8EncodeChar

inductive LocalOp where
  /-- `create_unit_inner`, with the uuid it draws -/
  | createUnit (path : String) (u : Uuid) (content : Bool) (db : Option DbHead)
    (metadata : Option Bytes)
  | content (path : String) (op : ContentOp)
  | writeMeta (path : String) (plain : Bytes)
  | rename (old new : String)
  | link (existing new : String)
  | remove (path : String)

/-- What a call does when it does not find its path or its record. -/
def missingPath (path : String) : ContentOp → Error
  | .resolveConflict _ => .notFound "resolve_conflict: key not found"
  | .writeRawKey _ _ => .notFound "uuid_for_raw_key: key not found"
  | _ => .notFound ("path not found: " ++ path)

def missingRecord (path : String) : ContentOp → Error
  | .resolveConflict _ => .notFound "resolve_conflict: no record for uuid"
  | .writeRawKey _ _ => .notFound "write_raw_key: no record for key"
  | .truncate _ => .notFound ("truncate: no record for path: " ++ path)
  | .extend _ => .notFound ("extend: no record for path: " ++ path)
  | .write _ _ => .notFound ("no record for path: " ++ path)

/-- The record of a new unit. -/
def newRecord (host : HostAlias) (content : Bool) (db : Option DbHead) (metadata : Option Bytes) :
    Record Bytes where
  content := if content then some .empty else none
  metadata := match metadata with
    | some plain => some (stageMetaStream host .new plain)
    | none => if content then none else some .empty
  strains := []
  db := db
  signature := none

namespace Namespace

variable (scheme : SignatureScheme) (signer : Signer) (padBlocks : Bool) (suite : Suite)
  (host : HostAlias)

/-- Bind `key`, which may be bound already. -/
def bind (s : Namespace) (key : Bytes) (u : Uuid) : Namespace := { s with keys := s.keys.put key u }

def unbind (s : Namespace) (key : Bytes) : Namespace := { s with keys := s.keys.erase key }

/-- The unit and the record at `path`. -/
def unitAt (s : Namespace) (path : String) (noPath noRecord : Error) : Result (Uuid × Chain) :=
  match s.keys.get (pathBytes path) with
  | none => .error noPath
  | some u =>
    match s.units u with
    | none => .error noRecord
    | some ch => .ok (u, ch)

def createUnit (s : Namespace) (path : String) (u : Uuid) (content : Bool) (db : Option DbHead)
    (metadata : Option Bytes) : Result Namespace :=
  match s.keys.get (pathBytes path) with
  | some _ => .error (.integrity ("unit already exists: " ++ path))
  | none => do
    let r ← writeUnitRecord scheme signer u (newRecord host content db metadata) .fresh
    return { s with units := fun v => if v = u then some ⟨r, [], fun _ => 0⟩ else s.units v }.bind
      (pathBytes path) u

/-- A call over the head record; one that has nothing to do leaves everything. -/
def supersede (s : Namespace) (u : Uuid) (call : Result (Option (Record Bytes))) :
    Result Namespace := do
  match ← call with
  | none => return s
  | some r => return s.install u ⟨r, true⟩

def rename (s : Namespace) (old new : String) : Result Namespace :=
  match s.keys.get (pathBytes old) with
  | none => .error (.notFound ("rename source missing: " ++ old))
  | some u =>
    match s.keys.get (pathBytes new) with
    | some _ => .error (.integrity ("rename target exists: " ++ new))
    | none => .ok ((s.bind (pathBytes new) u).unbind (pathBytes old))

def link (s : Namespace) (existing new : String) : Result Namespace :=
  match s.keys.get (pathBytes existing) with
  | none => .error (.notFound ("link source missing: " ++ existing))
  | some u =>
    match s.keys.get (pathBytes new) with
    | some _ => .error (.integrity ("link target exists: " ++ new))
    | none => .ok (s.bind (pathBytes new) u)

def remove (s : Namespace) (path : String) : Result Namespace :=
  match s.keys.get (pathBytes path) with
  | none => .error (.notFound ("remove: path not found: " ++ path))
  | some _ => .ok (s.unbind (pathBytes path))

def call (s : Namespace) : LocalOp → Result Namespace
  | .createUnit path u content db metadata =>
    s.createUnit scheme signer host path u content db metadata
  | .content path op => do
    let (u, ch) ← s.unitAt path (missingPath path op) (missingRecord path op)
    s.supersede u (contentOp scheme signer u padBlocks suite host ch.head op)
  | .writeMeta path plain => do
    let (u, ch) ← s.unitAt path (.notFound ("path not found: " ++ path))
      (.notFound ("write_meta: no record for path: " ++ path))
    s.supersede u (Sync.writeMeta scheme signer u host ch.head plain)
  | .rename old new => s.rename old new
  | .link existing new => s.link existing new
  | .remove path => s.remove path

/-- A call that fails changes nothing. -/
def perform (s : Namespace) (op : LocalOp) : Namespace :=
  match s.call scheme signer padBlocks suite host op with
  | .ok s' => s'
  | .error _ => s

end Namespace

end Sfs.Sync

import Sfs.Server.Account

/-!
# Accounts in one keyspace

The store of the server (`EngineStore`): the mutable values of all accounts are units of one
container under raw byte keys, the blocks of all accounts are records of one log. What belongs to
an account is told apart by its key alone, `acct/<account>/…`, and listed by prefix.

`Sees a s s'` says that the two stores agree on the keys of the account `a`. Every call of `a` is
answered the same in both and keeps that (`keeps_call`), and a call of another account is not seen
(`Sees.left`).

Names are the bytes of their UTF-8 text. The container is the map its catalog keeps, and storage
does not fail; the nonce a sealing draws is a part of the call.
-/

namespace Sfs.Server

open Sfs.Lib Sfs.Version Sfs.Sync KeyMap
open List hiding Vector
open Sfs.AtRest (SyncError)

/-! ## Texts -/

def text (bs : Bytes) : String := (String.fromUTF8? ⟨bs.toArray⟩).getD ""

def isUtf8 (bs : Bytes) : Bool := (String.fromUTF8? ⟨bs.toArray⟩).isSome

def slash : UInt8 := 47

def uuidHex (u : Uuid) : Bytes := hexOf (uuidBytes u)

def parseUuidHex (hex : Bytes) : Option Uuid :=
  if hex.length ≠ 32 then none else (unhex hex).map uuidOf

/-! ## Keys -/

/-- `acct/<account>/<rest>`, as all keys of an account are built. -/
def acctKey (account rest : Bytes) : Bytes := ascii "acct/" ++ (account ++ slash :: rest)

def blockKey (account : Bytes) (u : Uuid) (frag version : Nat) : Bytes :=
  acctKey account (ascii "blk/" ++ uuidHex u ++ slash :: ascii (toString frag) ++
    slash :: ascii (toString version))

def vvPrefix (account : Bytes) : Bytes := acctKey account (ascii "vv/")
def vvKey (account : Bytes) (u : Uuid) : Bytes := acctKey account (ascii "vv/" ++ uuidHex u)
def recPrefix (account : Bytes) : Bytes := acctKey account (ascii "rec/")
def recKey (account : Bytes) (u : Uuid) : Bytes := acctKey account (ascii "rec/" ++ uuidHex u)
def blkPrefix (account : Bytes) : Bytes := acctKey account (ascii "blk/")
def srpKey (account : Bytes) : Bytes := acctKey account (ascii "srp")
def recsrpKey (account : Bytes) : Bytes := acctKey account (ascii "recsrp")
def wrappedKeyKey (account : Bytes) : Bytes := acctKey account (ascii "wrapped")
def recblobKey (account : Bytes) : Bytes := acctKey account (ascii "recblob")
def wsetKey (account : Bytes) : Bytes := acctKey account (ascii "wset")
def grantKey (account : Bytes) (grantee : PubKey) : Bytes :=
  acctKey account (ascii "grant/" ++ hexOf grantee.toList)
def capsPrefix (account : Bytes) : Bytes := acctKey account (ascii "caps/")
def capsKey (account peer : Bytes) : Bytes := acctKey account (ascii "caps/" ++ peer)

/-! ## Errors and names -/

inductive StoreError where
  | notFound
  | sync (e : SyncError)

def StoreError.io (msg : String) : StoreError := .sync (.io msg)

/-- `validate_account` and `validate_peer_id` differ in what their messages call the name. -/
def validateName (what : String) (name : Bytes) : Except StoreError Unit :=
  if name = [] then .error (.io ("invalid " ++ what ++ ": empty"))
  else if 256 < name.length then .error (.io ("invalid " ++ what ++ ": exceeds 256 bytes"))
  else if slash ∈ name ∨ 92 ∈ name then .error
    (.io ("invalid " ++ what ++ ": contains path separator"))
  else if [46, 46] <:+: name then .error (.io ("invalid " ++ what ++ ": contains '..'"))
  else if ∃ b ∈ name, b < 0x20 ∨ b = 0x7f then .error
    (.io ("invalid " ++ what ++ ": contains ASCII control character"))
  else .ok ()

def validateAccount (account : Bytes) : Except StoreError Unit := validateName "account name" account

def validatePeerId (peer : Bytes) : Except StoreError Unit := validateName "peer_id" peer

/-! ## What the values hold -/

def coreText : Error → String
  | .notFound what => "not found: " ++ what
  | .integrity what => "integrity error: " ++ what
  | .crypto what => "crypto error: " ++ what
  | .io what => "I/O error: " ++ what
  | .unsupportedVersion v => "unsupported format version: " ++ toString v

abbrev Frontier := List (VersionVector × Bytes)

def encodeFrontier (entries : Frontier) : Bytes :=
  leBytes 4 entries.length ++ entries.flatMap fun e =>
    leBytes 4 e.1.toBytes.length ++ e.1.toBytes ++ leBytes 4 e.2.length ++ e.2

def frontierErr {α : Type} (msg : String) : Except StoreError α :=
  .error (.io ("frontier decode error: " ++ msg))

/-- The entries from number `i` on, and what stands behind them. -/
def decodeEntries : (n i : Nat) → Bytes → Except StoreError (Frontier × Bytes)
  | 0, _, rest => .ok ([], rest)
  | n + 1, i, rest =>
    let entry := "entry " ++ toString i ++ ": "
    if rest.length < 4 then frontierErr (entry ++ "buffer too short for vv_len")
    else
      let vvLen := leNat (rest.take 4)
      let rest := rest.drop 4
      if rest.length < vvLen then frontierErr
        (entry ++ "buffer too short for vv bytes (" ++ toString vvLen ++ " bytes)")
      else
        match VersionVector.fromBytes (rest.take vvLen) with
        | .error e => frontierErr (entry ++ "vv parse failed: " ++ coreText e)
        | .ok vv =>
          let rest := rest.drop vvLen
          if rest.length < 4 then frontierErr (entry ++ "buffer too short for blob_len")
          else
            let blobLen := leNat (rest.take 4)
            let rest := rest.drop 4
            if rest.length < blobLen then
              frontierErr (entry ++ "buffer too short for blob (" ++ toString blobLen ++ " bytes)")
            else (decodeEntries n (i + 1) (rest.drop blobLen)).map fun r =>
              ((vv, rest.take blobLen) :: r.1, r.2)

def decodeFrontier (buf : Bytes) : Except StoreError Frontier :=
  if buf.length < 4 then frontierErr "buffer too short for count field"
  else
    let count := leNat (buf.take 4)
    match decodeEntries count 0 (buf.drop 4) with
    | .error e => .error e
    | .ok (entries, rest) =>
      if rest ≠ [] then
        frontierErr ("trailing bytes after " ++ toString count ++ " entries: " ++
          toString rest.length ++ " extra byte(s)")
      else .ok entries

structure RankedCap where
  suite : UInt16
  rank : UInt8

def encodeRankedCaps (caps : List RankedCap) : Bytes :=
  leBytes 4 caps.length ++ caps.flatMap fun cap => leU16 cap.suite ++ [cap.rank]

def decodeCaps : Nat → Bytes → List RankedCap
  | 0, _ => []
  | n + 1, bs => ⟨ofLeU16 (bs.take 2), bs.getD 2 0⟩ :: decodeCaps n (bs.drop 3)

def decodeRankedCaps (buf : Bytes) : Except StoreError (List RankedCap) :=
  if buf.length < 4 then .error (.io "caps decode error: buffer too short for count field")
  else
    let n := leNat (buf.take 4)
    if buf.length ≠ n * 3 + 4 then
      .error (.io ("caps decode error: expected " ++ toString (n * 3 + 4) ++ " bytes for " ++
        toString n ++ " entries but got " ++
        toString buf.length))
    else .ok (decodeCaps n (buf.drop 4))

def encodeCredentials (salt verifier : Bytes) : Bytes :=
  leBytes 4 salt.length ++ salt ++ leBytes 4 verifier.length ++ verifier

def decodeCredentials (buf : Bytes) : Except StoreError (Bytes × Bytes) :=
  let err := fun msg : String => Except.error (StoreError.io ("credential decode error: " ++ msg))
  if buf.length < 4 then err "buffer too short for salt_len"
  else
    let saltLen := leNat (buf.take 4)
    if buf.length < 4 + saltLen then err "buffer too short for salt bytes"
    else
      let salt := slice 4 saltLen buf
      if ¬ isUtf8 salt then err "salt is not valid UTF-8"
      else if buf.length < 4 + saltLen + 4 then err "buffer too short for ver_len"
      else
        let verLen := leNat (slice (4 + saltLen) 4 buf)
        if buf.length < 4 + saltLen + 4 + verLen then err "buffer too short for verifier bytes"
        else
          let verifier := slice (4 + saltLen + 4) verLen buf
          if ¬ isUtf8 verifier then err "verifier is not valid UTF-8"
          else if 4 + saltLen + 4 + verLen ≠ buf.length then err "trailing bytes"
          else .ok (salt, verifier)

/-! ## At rest -/

abbrev Nonce := Vector UInt8 12

/-- An AEAD under one key: nonce, then text. -/
structure Wrap where
  encrypt : Bytes → Bytes → Bytes
  decrypt : Bytes → Bytes → Option Bytes

/-- The keys derived from the container's root key, and the check of writer signatures. -/
structure StoreEnv where
  vvWrap : Wrap
  blobWrap : Wrap
  scheme : SignatureScheme

def sealVv (w : Wrap) (nonce : Nonce) (plain : Bytes) : Bytes :=
  nonce.toList ++ w.encrypt nonce.toList plain

def openVv (w : Wrap) (blob : Bytes) : Except StoreError Bytes :=
  if blob.length < 12 then .error
    (.io ("vv open: sealed blob too short (" ++ toString blob.length ++ " bytes)"))
  else
    match w.decrypt (blob.take 12) (blob.drop 12) with
    | some plain => .ok plain
    | none => .error (.io "vv open: AEAD authentication failed")

def blockSealOverhead : Nat := 28

/-! ## The store -/

structure EngineStore where
  /-- the content of the container's units, by raw key -/
  units : KeyMap Bytes Bytes
  /-- the newest record of the block log for each key -/
  blocks : KeyMap Bytes Bytes

namespace EngineStore

def empty : EngineStore := ⟨.empty, .empty⟩

def createUnitRawKey (s : EngineStore) (key : Bytes) : EngineStore :=
  { s with units := s.units.put key [] }

/-- A write at offset 0: what is longer than `data` keeps its end. -/
def writeRawKey (s : EngineStore) (key data : Bytes) : EngineStore :=
  { s with units := s.units.put key (data ++ ((s.units.get key).getD []).drop data.length) }

/-- `Engine::list` -/
def list (s : EngineStore) (pre : Bytes) : List Bytes :=
  (s.units.entries.filter fun e => pre.isPrefixOf e.1).map Prod.fst

def putValue (s : EngineStore) (key payload : Bytes) : EngineStore :=
  let framed := leBytes 4 payload.length ++ payload
  match s.units.get key with
  | some _ => s.writeRawKey key framed
  | none => (s.createUnitRawKey key).writeRawKey key framed

def getValue (s : EngineStore) (key : Bytes) : Except StoreError (Option Bytes) :=
  match s.units.get key with
  | none => .ok none
  | some raw =>
    if raw.length < 4 then
      .error (.io ("get_value(" ++ text key ++ "): stored bytes too short for length prefix (" ++
        toString raw.length ++ " bytes)"))
    else
      let totalLen := leNat (raw.take 4)
      if raw.length < 4 + totalLen then
        .error (.io ("get_value(" ++ text key ++ "): stored length prefix (" ++ toString totalLen ++
          ") exceeds available bytes (" ++
          toString (raw.length - 4) ++ ")"))
      else .ok (some (slice 4 totalLen raw))

/-! ### Blocks -/

/-- `BlobStore::put` -/
def blobPut (s : EngineStore) (what : String) (key value : Bytes) : Except StoreError EngineStore :=
  if 65536 ≤ key.length then .error (.io (what ++ ": key too long"))
  else if 2 ^ 32 ≤ 2 + key.length + value.length then .error (.io (what ++ ": record too large"))
  else .ok { s with blocks := s.blocks.put key value }

variable (env : StoreEnv) (s : EngineStore) (account : Bytes)

def overwriteBlock (u : Uuid) (frag version : Nat) (ciphertext : Bytes) (nonce : Nonce) :
    Except StoreError EngineStore := do
  validateAccount account
  s.blobPut "block overwrite" (blockKey account u frag version) (sealVv env.blobWrap nonce ciphertext)

def putBlock (u : Uuid) (frag version : Nat) (ciphertext : Bytes) (nonce : Nonce) :
    Except StoreError EngineStore := do
  validateAccount account
  match s.blocks.get (blockKey account u frag version) with
  | some _ => .ok s
  | none =>
    s.blobPut "block put" (blockKey account u frag version) (sealVv env.blobWrap nonce ciphertext)

def getBlock (u : Uuid) (frag version : Nat) : Except StoreError Bytes :=
  match s.blocks.get (blockKey account u frag version) with
  | none => .error .notFound
  | some sealed => openVv env.blobWrap sealed

/-! ### Version vectors and records -/

def openVector (sealed : Bytes) : Except StoreError VersionVector := do
  match VersionVector.fromBytes (← openVv env.vvWrap sealed) with
  | .error e => .error (.io (coreText e))
  | .ok vv => .ok vv

def have_ (u : Uuid) : Except StoreError VersionVector := do
  match ← s.getValue (vvKey account u) with
  | none => .error .notFound
  | some sealed => openVector env sealed

def setVv (u : Uuid) (vv : VersionVector) (nonce : Nonce) : Except StoreError EngineStore := do
  validateAccount account
  let joined ← match ← s.getValue (vvKey account u) with
    | some sealed => (openVector env sealed).map fun existing => existing.join vv
    | none => .ok vv
  return s.putValue (vvKey account u) (sealVv env.vvWrap nonce joined.toBytes)

/-- The frontier kept for a unit. -/
def frontier (u : Uuid) : Except StoreError Frontier := do
  match ← s.getValue (recKey account u) with
  | some bytes => decodeFrontier bytes
  | none => .ok []

def putRecord (u : Uuid) (vv : VersionVector) (blob : Bytes) : Except StoreError EngineStore := do
  validateAccount account
  let frontier ← s.frontier account u
  if Stale frontier vv then return s
  return s.putValue (recKey account u) (encodeFrontier (addNewest frontier vv blob))

def getRecords (u : Uuid) : Except StoreError (List Bytes) := (s.frontier account u).map (map Prod.snd)

/-- The unit a listed key is about; deeper and malformed keys are skipped. -/
def listedUuid (pre key : Bytes) : Option Uuid :=
  let rest := key.drop pre.length
  if slash ∈ rest then none else parseUuidHex rest

def listRecords : List Uuid := (s.list (recPrefix account)).filterMap (listedUuid (recPrefix account))

/-! ### Credentials, wrapped keys, grants and the Writer-Set -/

def accountExists : Except StoreError Bool := (s.getValue (srpKey account)).map Option.isSome

def register (salt verifier : Bytes) : Except StoreError (Bool × EngineStore) := do
  validateAccount account
  if ← s.accountExists account then return (false, s)
  return (true, s.putValue (srpKey account) (encodeCredentials salt verifier))

/-- A value is replaced, whatever it was. -/
def upsert (key payload : Bytes) : Except StoreError EngineStore := do
  validateAccount account
  return s.putValue key payload

def credentialsAt (key : Bytes) : Except StoreError (Option (Bytes × Bytes)) := do
  match ← s.getValue key with
  | none => return none
  | some bytes => return some (← decodeCredentials bytes)

def updateCredentials (salt verifier : Bytes) : Except StoreError EngineStore :=
  s.upsert account (srpKey account) (encodeCredentials salt verifier)

def getCredentials : Except StoreError (Option (Bytes × Bytes)) := s.credentialsAt (srpKey account)

def putRecoveryCredentials (salt verifier : Bytes) : Except StoreError EngineStore :=
  s.upsert account (recsrpKey account) (encodeCredentials salt verifier)

def getRecoveryCredentials : Except StoreError (Option (Bytes × Bytes)) :=
  s.credentialsAt (recsrpKey account)

def putWrappedKey (blob : Bytes) : Except StoreError EngineStore :=
  s.upsert account (wrappedKeyKey account) blob

def getWrappedKey : Except StoreError (Option Bytes) := s.getValue (wrappedKeyKey account)

def putRecoveryBlob (blob : Bytes) : Except StoreError EngineStore :=
  s.upsert account (recblobKey account) blob

def getRecoveryBlob : Except StoreError (Option Bytes) := s.getValue (recblobKey account)

def putWriterSet (blob : Bytes) : Except StoreError EngineStore := do
  validateAccount account
  match AtRest.openBlob env.scheme blob with
  | .error _ => .error (.sync
    (.writerSetDowngrade "incoming writer-set blob failed signature verification — rejected"))
  | .ok _ =>
    match AtRest.putWriterSet env.scheme (← s.getValue (wsetKey account)) blob with
    | .error e => .error (.sync e)
    | .ok kept => .ok (s.putValue (wsetKey account) kept)

def getWriterSet : Except StoreError (Option Bytes) := s.getValue (wsetKey account)

def putKeyGrant (grantee : PubKey) (blob : Bytes) : Except StoreError EngineStore :=
  s.upsert account (grantKey account grantee) blob

def getKeyGrant (grantee : PubKey) : Except StoreError (Option Bytes) :=
  s.getValue (grantKey account grantee)

/-! ### Listings -/

def putCaps (peer : Bytes) (ranked : List RankedCap) : Except StoreError EngineStore := do
  validateAccount account
  validatePeerId peer
  return s.putValue (capsKey account peer) (encodeRankedCaps ranked)

/-- The capabilities under the keys, by peer. -/
def capsUnder (pre : Bytes) : List Bytes → Except StoreError (List (Bytes × List RankedCap))
  | [] => .ok []
  | key :: keys =>
    let peer := key.drop pre.length
    if slash ∈ peer then capsUnder pre keys
    else do
      match ← s.getValue key with
      | none => capsUnder pre keys
      | some payload => return (peer, ← decodeRankedCaps payload) :: (← capsUnder pre keys)

def getCaps : Except StoreError (List (Bytes × List RankedCap)) :=
  s.capsUnder (capsPrefix account) (s.list (capsPrefix account))

/-- The blobs of one frontier; what cannot be read counts nothing. -/
def recordBytes (key : Bytes) : Nat :=
  match s.getValue key with
  | .ok (some bytes) =>
    match decodeFrontier bytes with
    | .ok frontier => (frontier.map fun stored => stored.2.length).sum
    | .error _ => 0
  | _ => 0

def sumLenWithPrefix (pre : Bytes) : Nat × Nat :=
  let found := s.blocks.entries.filter fun e => pre.isPrefixOf e.1
  ((found.map fun e => e.2.length).sum, found.length)

def accountBytes : Nat :=
  let (sealedBytes, count) := s.sumLenWithPrefix (blkPrefix account)
  (sealedBytes - count * blockSealOverhead) + ((s.list (recPrefix account)).map s.recordBytes).sum

def unitsUnder (pre : Bytes) : List Bytes → Except StoreError (List (Uuid × VersionVector))
  | [] => .ok []
  | key :: keys =>
    match listedUuid pre key with
    | none => unitsUnder pre keys
    | some u => do
      match ← s.getValue key with
      | none => .error .notFound
      | some sealed => return (u, ← openVector env sealed) :: (← unitsUnder pre keys)

def listUnits : Except StoreError (List (Uuid × VersionVector)) :=
  s.unitsUnder env (vvPrefix account) (s.list (vvPrefix account))

end EngineStore

/-! ## Calls -/

open EngineStore

inductive StoreCall where
  | putBlock (u : Uuid) (frag version : Nat) (ciphertext : Bytes) (nonce : Nonce)
  | overwriteBlock (u : Uuid) (frag version : Nat) (ciphertext : Bytes) (nonce : Nonce)
  | getBlock (u : Uuid) (frag version : Nat)
  | have_ (u : Uuid)
  | setVv (u : Uuid) (vv : VersionVector) (nonce : Nonce)
  | putRecord (u : Uuid) (vv : VersionVector) (blob : Bytes)
  | getRecords (u : Uuid)
  | listRecords
  | register (salt verifier : Bytes)
  | accountExists
  | updateCredentials (salt verifier : Bytes)
  | getCredentials
  | putRecoveryCredentials (salt verifier : Bytes)
  | getRecoveryCredentials
  | putWrappedKey (blob : Bytes)
  | getWrappedKey
  | putRecoveryBlob (blob : Bytes)
  | getRecoveryBlob
  | putWriterSet (blob : Bytes)
  | getWriterSet
  | putKeyGrant (grantee : PubKey) (blob : Bytes)
  | getKeyGrant (grantee : PubKey)
  | putCaps (peer : Bytes) (ranked : List RankedCap)
  | getCaps
  | accountBytes
  | listUnits

inductive StoreReply where
  | done
  | flag (b : Bool)
  | bytes (bs : Bytes)
  | value (bs : Option Bytes)
  | vector (vv : VersionVector)
  | blobs (bs : List Bytes)
  | uuids (us : List Uuid)
  | credentials (c : Option (Bytes × Bytes))
  | caps (cs : List (Bytes × List RankedCap))
  | count (n : Nat)
  | units (us : List (Uuid × VersionVector))
  | failed (e : StoreError)

/-- A query leaves the store. -/
def StoreReply.of {α : Type} (f : α → StoreReply) : Except StoreError α → StoreReply
  | .ok a => f a
  | .error e => .failed e

namespace EngineStore

/-- A call that stores something: an error leaves the store. -/
def stored (s : EngineStore) : Except StoreError EngineStore → EngineStore × StoreReply
  | .ok s' => (s', .done)
  | .error e => (s, .failed e)

def call (env : StoreEnv) (s : EngineStore) (account : Bytes) : StoreCall → EngineStore × StoreReply
  | .putBlock u frag version ciphertext nonce =>
    s.stored (s.putBlock env account u frag version ciphertext nonce)
  | .overwriteBlock u frag version ciphertext nonce =>
    s.stored (s.overwriteBlock env account u frag version ciphertext nonce)
  | .getBlock u frag version => (s, .of .bytes (s.getBlock env account u frag version))
  | .have_ u => (s, .of .vector (s.have_ env account u))
  | .setVv u vv nonce => s.stored (s.setVv env account u vv nonce)
  | .putRecord u vv blob => s.stored (s.putRecord account u vv blob)
  | .getRecords u => (s, .of .blobs (s.getRecords account u))
  | .listRecords => (s, .uuids (s.listRecords account))
  | .register salt verifier =>
    match s.register account salt verifier with
    | .ok (created, s') => (s', .flag created)
    | .error e => (s, .failed e)
  | .accountExists => (s, .of .flag (s.accountExists account))
  | .updateCredentials salt verifier => s.stored (s.updateCredentials account salt verifier)
  | .getCredentials => (s, .of .credentials (s.getCredentials account))
  | .putRecoveryCredentials salt verifier => s.stored (s.putRecoveryCredentials account salt verifier)
  | .getRecoveryCredentials => (s, .of .credentials (s.getRecoveryCredentials account))
  | .putWrappedKey blob => s.stored (s.putWrappedKey account blob)
  | .getWrappedKey => (s, .of .value (s.getWrappedKey account))
  | .putRecoveryBlob blob => s.stored (s.putRecoveryBlob account blob)
  | .getRecoveryBlob => (s, .of .value (s.getRecoveryBlob account))
  | .putWriterSet blob => s.stored (s.putWriterSet env account blob)
  | .getWriterSet => (s, .of .value (s.getWriterSet account))
  | .putKeyGrant grantee blob => s.stored (s.putKeyGrant account grantee blob)
  | .getKeyGrant grantee => (s, .of .value (s.getKeyGrant account grantee))
  | .putCaps peer ranked => s.stored (s.putCaps account peer ranked)
  | .getCaps => (s, .of .caps (s.getCaps account))
  | .accountBytes => (s, .count (s.accountBytes account))
  | .listUnits => (s, .of .units (s.listUnits env account))

/-- What `account` is answered in a run of calls of all accounts. -/
def replies (env : StoreEnv) (account : Bytes) :
    EngineStore → List (Bytes × StoreCall) → List StoreReply
  | _, [] => []
  | s, (caller, c) :: calls =>
    let (s', reply) := s.call env caller c
    if caller = account then reply :: replies env account s' calls else replies env account s' calls

end EngineStore

/-! ## Whose key it is -/

/-- The key belongs to the account. -/
def Under (account key : Bytes) : Prop := acctKey account [] <+: key

theorem acctKey_append (account rest more : Bytes) :
    acctKey account rest ++ more = acctKey account (rest ++ more) := by
  simp only [acctKey, append_assoc, cons_append]

theorem under_acctKey (account rest : Bytes) : Under account (acctKey account rest) :=
  ⟨rest, acctKey_append account [] rest⟩

theorem Under.of_isPrefix {account rest key : Bytes} (h : acctKey account rest <+: key) :
    Under account key :=
  (under_acctKey account rest).trans h

/-- What stands before the first slash is the same in both. -/
theorem name_eq_of_slash {a b r : Bytes} (ha : slash ∉ a) (hb : slash ∉ b)
    (h : a ++ [slash] <+: b ++ slash :: r) : a = b := by
  induction a generalizing b with
  | nil =>
    cases b with
    | nil => rfl
    | cons y b =>
      have hy := (cons_prefix_cons.mp h).1
      exact absurd (hy ▸ mem_cons_self) hb
  | cons x a ih =>
    cases b with
    | nil =>
      have hx := (cons_prefix_cons.mp h).1
      exact absurd (hx ▸ mem_cons_self) ha
    | cons y b =>
      obtain ⟨rfl, htail⟩ := cons_prefix_cons.mp h
      rw [ih (fun hm => ha (mem_cons_of_mem _ hm)) (fun hm => hb (mem_cons_of_mem _ hm)) htail]

/-- A key of one account belongs to no other. -/
theorem not_under_acctKey {a b rest : Bytes} (ha : slash ∉ a) (hb : slash ∉ b) (hne : b ≠ a) :
    ¬ Under a (acctKey b rest) := by
  intro h
  have hp : a ++ [slash] <+: b ++ slash :: rest := (prefix_append_right_inj _).mp h
  exact hne (name_eq_of_slash ha hb hp).symm

theorem slash_notMem_of_valid {what : String} {name : Bytes} (h : validateName what name = .ok ()) :
    slash ∉ name := by
  intro hm
  unfold validateName at h
  split at h
  · cases h
  split at h
  · cases h
  rw [if_pos (.inl hm)] at h
  cases h

theorem length_le_of_valid {what : String} {name : Bytes} (h : validateName what name = .ok ()) :
    name.length ≤ 256 := by
  unfold validateName at h
  split at h
  · cases h
  split at h
  · cases h
  · rename_i hlen
    exact not_lt.mp hlen

/-! ## What a call stores -/

structure EngineStore.Sorted (s : EngineStore) : Prop where
  units : s.units.Sorted
  blocks : s.blocks.Sorted

theorem EngineStore.sorted_empty : EngineStore.empty.Sorted :=
  ⟨KeyMap.sorted_empty, KeyMap.sorted_empty⟩

namespace EngineStore

theorem get_putValue (s : EngineStore) (key payload k : Bytes) :
    (s.putValue key payload).units.get k =
      if k = key then
        some ((leBytes 4 payload.length ++ payload) ++ ((s.units.get key).getD []).drop
          (leBytes 4 payload.length ++ payload).length)
      else s.units.get k := by
  unfold putValue
  split
  · split
    · rename_i hk
      rw [hk]
      exact get_put_self ..
    · rename_i hk
      exact get_put_of_ne _ _ hk
  · rename_i hnone
    unfold writeRawKey createUnitRawKey
    split
    · rename_i hk
      subst hk
      rw [get_put_self, get_put_self, hnone]
      rfl
    · rename_i hk
      rw [get_put_of_ne _ _ hk, get_put_of_ne _ _ hk]

theorem blocks_putValue (s : EngineStore) (key payload : Bytes) :
    (s.putValue key payload).blocks = s.blocks := by
  unfold putValue
  split <;> rfl

theorem Sorted.putValue {s : EngineStore} (h : s.Sorted) (key payload : Bytes) :
    (s.putValue key payload).Sorted := by
  refine ⟨?_, blocks_putValue s key payload ▸ h.blocks⟩
  unfold EngineStore.putValue
  split
  · exact h.units.put _ _
  · exact (h.units.put _ _).put _ _

/-- Nothing, or one write under a key of the caller, who has a valid name. -/
inductive Writes (account : Bytes) (s : EngineStore) : EngineStore → Prop where
  | nothing : Writes account s s
  | value (hvalid : validateAccount account = .ok ()) (rest payload : Bytes) :
    Writes account s (s.putValue (acctKey account rest) payload)
  | block (hvalid : validateAccount account = .ok ()) (rest sealed : Bytes) :
      Writes account s { s with blocks := s.blocks.put (acctKey account rest) sealed }

theorem Writes.sorted {account : Bytes} {s s' : EngineStore} (h : Writes account s s')
    (hs : s.Sorted) : s'.Sorted := by
  cases h with
  | nothing => exact hs
  | value _ rest payload => exact hs.putValue _ _
  | block _ rest sealed => exact ⟨hs.units, hs.blocks.put _ _⟩

end EngineStore

/-! ## Agreement of two stores on an account -/

/-- The two stores hold the same under the keys of the account. -/
structure Sees (account : Bytes) (s s' : EngineStore) : Prop where
  sorted : s.Sorted
  sorted' : s'.Sorted
  units : ∀ key, Under account key → s.units.get key = s'.units.get key
  blocks : ∀ key, Under account key → s.blocks.get key = s'.blocks.get key

variable {a b : Bytes} {s s' : EngineStore}

theorem Sees.refl (hs : s.Sorted) (a : Bytes) : Sees a s s := ⟨hs, hs, fun _ _ => rfl, fun _ _ => rfl⟩

/-- A write of another account is not seen. -/
theorem Sees.left (h : Sees a s s') {t : EngineStore} (hw : EngineStore.Writes b s t)
    (ha : slash ∉ a) (hne : b ≠ a) : Sees a t s' := by
  refine ⟨hw.sorted h.sorted, h.sorted', fun k hk => ?_, fun k hk => ?_⟩
  · rw [← h.units k hk]
    cases hw with
    | nothing => rfl
    | value hvalid rest payload =>
      have hk' : k ≠ acctKey b rest :=
        fun he => not_under_acctKey ha (slash_notMem_of_valid hvalid) hne (he ▸ hk)
      rw [get_putValue, if_neg hk']
    | block => rfl
  · rw [← h.blocks k hk]
    cases hw with
    | nothing => rfl
    | value => rw [blocks_putValue]
    | block hvalid rest sealed =>
      have hk' : k ≠ acctKey b rest :=
        fun he => not_under_acctKey ha (slash_notMem_of_valid hvalid) hne (he ▸ hk)
      exact get_put_of_ne _ _ hk'

theorem Sees.putValue (h : Sees a s s') (rest payload : Bytes) :
    Sees a (s.putValue (acctKey a rest) payload) (s'.putValue (acctKey a rest) payload) := by
  refine ⟨h.sorted.putValue _ _, h.sorted'.putValue _ _, fun k hk => ?_, fun k hk => ?_⟩
  · rw [get_putValue, get_putValue, h.units _ (under_acctKey a rest), h.units k hk]
  · rw [blocks_putValue, blocks_putValue, h.blocks k hk]

theorem Sees.putBlock (h : Sees a s s') (key sealed : Bytes) :
    Sees a { s with blocks := s.blocks.put key sealed }
      { s' with blocks := s'.blocks.put key sealed } := by
  refine ⟨⟨h.sorted.units, h.sorted.blocks.put _ _⟩, ⟨h.sorted'.units, h.sorted'.blocks.put _ _⟩,
    h.units, fun k hk => ?_⟩
  by_cases he : k = key
  · rw [he, get_put_self, get_put_self]
  · rw [get_put_of_ne _ _ he, get_put_of_ne _ _ he, h.blocks k hk]

/-! ### Queries -/

/-- The answer depends on what the account sees. -/
def Answers {α : Type} (a : Bytes) (q : EngineStore → α) : Prop := ∀ ⦃s s'⦄, Sees a s s' → q s = q s'

theorem getValue_congr (h : Sees a s s') {key : Bytes} (hkey : Under a key) :
    s.getValue key = s'.getValue key := by
  unfold getValue
  rw [h.units key hkey]

theorem answers_getValue (rest : Bytes) : Answers a fun s => s.getValue (acctKey a rest) :=
  fun _ _ h => getValue_congr h (under_acctKey a rest)

theorem answers_list (rest : Bytes) : Answers a fun s => s.list (acctKey a rest) := by
  intro s s' h
  have hscan :=
      h.sorted.units.filter_congr h.sorted'.units (p := (acctKey a rest).isPrefixOf) fun k hk =>
    h.units k (.of_isPrefix (List.isPrefixOf_iff_prefix.mp hk))
  exact congrArg (map Prod.fst) hscan

/-- What is listed under a prefix of the account belongs to it. -/
theorem under_of_mem_list {rest key : Bytes} (h : key ∈ s.list (acctKey a rest)) : Under a key := by
  obtain ⟨e, he, rfl⟩ := mem_map.mp h
  exact .of_isPrefix (List.isPrefixOf_iff_prefix.mp (mem_filter.mp he).2)

theorem Answers.bind {α β : Type} {q : EngineStore → Except StoreError α}
    {f : α → EngineStore → Except StoreError β} (hq : Answers a q) (hf : ∀ x, Answers a (f x)) :
    Answers a fun s => q s >>= fun x => f x s := by
  intro s s' h
  dsimp only
  rw [hq h]
  exact bind_congr fun x => hf x h

theorem Answers.const {α : Type} (x : α) : Answers a fun _ => x := fun _ _ _ => rfl

theorem Answers.map {α β : Type} {q : EngineStore → α} (hq : Answers a q) (f : α → β) :
    Answers a fun s => f (q s) :=
  fun _ _ h => congrArg f (hq h)

section Queries

variable (env : StoreEnv) (u : Uuid)

theorem answers_getBlock (frag version : Nat) :
    Answers a fun s => s.getBlock env a u frag version := by
  intro s s' h
  unfold getBlock blockKey
  dsimp only
  rw [h.blocks _ (under_acctKey a _)]

theorem answers_have : Answers a fun s => s.have_ env a u :=
  (answers_getValue _).bind fun _ => .const _

theorem answers_frontier : Answers a fun s => s.frontier a u :=
  (answers_getValue _).bind fun _ => .const _

theorem answers_credentialsAt (rest : Bytes) : Answers a fun s => s.credentialsAt (acctKey a rest) :=
  (answers_getValue _).bind fun _ => .const _

/-- The loops over listed keys read keys of the account only. -/
theorem capsUnder_congr (h : Sees a s s') (pre : Bytes) {keys : List Bytes}
    (hkeys : ∀ key ∈ keys, Under a key) : s.capsUnder pre keys = s'.capsUnder pre keys := by
  induction keys with
  | nil => rfl
  | cons key keys ih =>
    have htail := ih fun k hk => hkeys k (mem_cons_of_mem key hk)
    unfold capsUnder
    rw [getValue_congr h (hkeys key mem_cons_self), htail]

theorem unitsUnder_congr (h : Sees a s s') (pre : Bytes) {keys : List Bytes}
    (hkeys : ∀ key ∈ keys, Under a key) :
    s.unitsUnder env pre keys = s'.unitsUnder env pre keys := by
  induction keys with
  | nil => rfl
  | cons key keys ih =>
    have htail := ih fun k hk => hkeys k (mem_cons_of_mem key hk)
    unfold unitsUnder
    rw [getValue_congr h (hkeys key mem_cons_self), htail]

theorem answers_getCaps : Answers a fun s => s.getCaps a := by
  intro s s' h
  have hlist : s.list (capsPrefix a) = s'.list (capsPrefix a) := answers_list _ h
  unfold getCaps
  dsimp only
  rw [hlist]
  exact capsUnder_congr h _ fun key hkey => under_of_mem_list hkey

theorem answers_listUnits : Answers a fun s => s.listUnits env a := by
  intro s s' h
  have hlist : s.list (vvPrefix a) = s'.list (vvPrefix a) := answers_list _ h
  unfold listUnits
  dsimp only
  rw [hlist]
  exact unitsUnder_congr env h _ fun key hkey => under_of_mem_list hkey

/-- The byte count reads the listed records and the blocks under the account's prefix. -/
theorem answers_accountBytes : Answers a fun s => s.accountBytes a := by
  intro s s' h
  have hblocks : s.sumLenWithPrefix (blkPrefix a) = s'.sumLenWithPrefix (blkPrefix a) := by
    have hscan :=
        h.sorted.blocks.filter_congr h.sorted'.blocks (p := (blkPrefix a).isPrefixOf) fun k hk =>
      h.blocks k (.of_isPrefix (List.isPrefixOf_iff_prefix.mp hk))
    unfold sumLenWithPrefix
    rw [hscan]
  have hlist : s.list (recPrefix a) = s'.list (recPrefix a) := answers_list _ h
  have hrecs : (s.list (recPrefix a)).map s.recordBytes =
      (s.list (recPrefix a)).map s'.recordBytes := by
    refine map_congr_left fun key hkey => ?_
    unfold recordBytes getValue
    rw [h.units key (under_of_mem_list hkey)]
  unfold accountBytes
  dsimp only
  rw [hblocks, hrecs, hlist]

end Queries

/-! ### Calls that store -/

/-- Both fail alike, or both store and the results agree on the account. -/
def SameFor (a : Bytes) : Except StoreError EngineStore → Except StoreError EngineStore → Prop
  | .ok t, .ok t' => Sees a t t'
  | .error e, .error e' => e = e'
  | _, _ => False

/-- The call writes under the keys of the account, from what the account sees. -/
structure Confined (a : Bytes) (f : EngineStore → Except StoreError EngineStore) : Prop where
  writes : ∀ {s t}, f s = .ok t → EngineStore.Writes a s t
  same : ∀ {s s'}, Sees a s s' → SameFor a (f s) (f s')

theorem Confined.error (e : StoreError) : Confined a fun _ => .error e :=
  ⟨fun h => (nomatch h), fun _ => rfl⟩

theorem Confined.keep : Confined a fun s => .ok s :=
  ⟨fun h => by cases h; exact .nothing, fun h => h⟩

theorem Confined.value (hvalid : validateAccount a = .ok ()) (rest payload : Bytes) :
    Confined a fun s => .ok (s.putValue (acctKey a rest) payload) :=
  ⟨fun h => by cases h; exact .value hvalid rest payload, fun h => h.putValue rest payload⟩

theorem Confined.blobPut (hvalid : validateAccount a = .ok ()) (what : String) (rest sealed : Bytes) :
    Confined a fun s => s.blobPut what (acctKey a rest) sealed := by
  constructor
  · intro s t h
    unfold EngineStore.blobPut at h
    split at h
    · cases h
    split at h
    · cases h
    · cases h
      exact .block hvalid rest sealed
  · intro s s' h
    unfold EngineStore.blobPut
    split
    · rfl
    split
    · rfl
    · exact h.putBlock _ _

theorem Confined.bind {α : Type} {q : EngineStore → Except StoreError α}
    {f : α → EngineStore → Except StoreError EngineStore} (hq : Answers a q)
    (hf : ∀ x, Confined a (f x)) : Confined a fun s => q s >>= fun x => f x s := by
  constructor
  · intro s t h
    cases hx : q s with
    | error e =>
      rw [hx] at h
      cases h
    | ok x =>
      rw [hx] at h
      exact (hf x).writes h
  · intro s s' h
    rw [← hq h]
    cases q s with
    | error e => exact rfl
    | ok x => exact (hf x).same h

/-- What follows the check of the name may use that it passed. -/
theorem Confined.validated {f : EngineStore → Except StoreError EngineStore}
    (hf : validateAccount a = .ok () → Confined a f) :
    Confined a fun s => validateAccount a >>= fun _ => f s := by
  cases hv : validateAccount a with
  | error e => exact .error e
  | ok x => exact hf hv

section StoringCalls

variable (env : StoreEnv) (u : Uuid) (vv : VersionVector) (blob : Bytes) (nonce : Nonce)

theorem confined_overwriteBlock (frag version : Nat) :
    Confined a fun s => s.overwriteBlock env a u frag version blob nonce :=
  .validated fun hvalid => .blobPut hvalid _ _ _

theorem confined_putBlock (frag version : Nat) :
    Confined a fun s => s.putBlock env a u frag version blob nonce := by
  refine .validated fun hvalid => ?_
  have hput := Confined.blobPut hvalid "block put"
    (ascii "blk/" ++ uuidHex u ++ slash :: ascii (toString frag) ++ slash :: ascii (toString version))
    (sealVv env.blobWrap nonce blob)
  constructor
  · intro s t h
    split at h
    · cases h
      exact .nothing
    · exact hput.writes h
  · intro s s' h
    have hget := h.blocks _ (under_acctKey a (ascii "blk/" ++ uuidHex u ++
      slash :: ascii (toString frag) ++ slash :: ascii (toString version)))
    unfold blockKey
    rw [hget]
    split
    · exact h
    · exact hput.same h

theorem confined_setVv : Confined a fun s => s.setVv env a u vv nonce := by
  refine .validated fun hvalid => ?_
  refine .bind (answers_getValue _) fun found => ?_
  cases found with
  | none => exact .value hvalid _ _
  | some sealed => exact .bind (.const _) fun joined => .value hvalid _ _

theorem confined_putRecord : Confined a fun s => s.putRecord a u vv blob := by
  refine .validated fun hvalid => .bind (answers_frontier u) fun frontier => ?_
  split
  · exact .keep
  · exact .value hvalid _ _

theorem confined_upsert (rest payload : Bytes) :
    Confined a fun s => s.upsert a (acctKey a rest) payload :=
  .validated fun hvalid => .value hvalid rest payload

theorem confined_putWriterSet : Confined a fun s => s.putWriterSet env a blob := by
  refine .validated fun hvalid => ?_
  cases AtRest.openBlob env.scheme blob with
  | error e => exact .error _
  | ok incoming =>
    refine .bind (answers_getValue _) fun held => ?_
    cases AtRest.putWriterSet env.scheme held blob with
    | error e => exact .error _
    | ok kept => exact .value hvalid _ _

theorem confined_putCaps (peer : Bytes) (ranked : List RankedCap) :
    Confined a fun s => s.putCaps a peer ranked :=
  .validated fun hvalid => .bind (.const _) fun _ => .value hvalid _ _

end StoringCalls

/-! ## Runs -/

/-- One call of the account from two stores that agree on it: the same reply, and they still
agree. -/
def Keeps (a : Bytes) (f : EngineStore → EngineStore × StoreReply) : Prop :=
  (∀ s, EngineStore.Writes a s (f s).1) ∧ ∀ ⦃s s'⦄,
    Sees a s s' → (f s).2 = (f s').2 ∧ Sees a (f s).1 (f s').1

theorem Answers.keeps {q : EngineStore → StoreReply} (hq : Answers a q) : Keeps a fun s => (s, q s) :=
  ⟨fun _ => .nothing, fun _ _ h => ⟨hq h, h⟩⟩

theorem Confined.keeps {f : EngineStore → Except StoreError EngineStore} (hf : Confined a f) :
    Keeps a fun s => s.stored (f s) := by
  constructor
  · intro s
    dsimp only
    cases h : f s with
    | error e => exact .nothing
    | ok t => exact hf.writes h
  intro s s' h
  have hsame := hf.same h
  dsimp only
  generalize f s = x, f s' = x' at hsame
  cases x with
  | error e =>
    cases x' with
    | error e' => exact ⟨congrArg StoreReply.failed hsame, h⟩
    | ok t' => exact hsame.elim
  | ok t =>
    cases x' with
    | error e' => exact hsame.elim
    | ok t' => exact ⟨rfl, hsame⟩

theorem keeps_register (env : StoreEnv) (salt verifier : Bytes) :
    Keeps a fun s => s.call env a (.register salt verifier) := by
  have hexists : Answers a fun s => s.accountExists a := (answers_getValue _).map _
  constructor
  · intro s
    dsimp only [call, register]
    cases hv : validateAccount a with
    | error e => exact .nothing
    | ok x =>
      cases s.accountExists a with
      | error e => exact .nothing
      | ok found =>
        cases found with
        | true => exact .nothing
        | false => exact .value hv _ _
  · intro s s' h
    dsimp only [call, register]
    rw [show s'.accountExists a = s.accountExists a from (hexists h).symm]
    cases validateAccount a with
    | error e => exact ⟨rfl, h⟩
    | ok x =>
      cases s.accountExists a with
      | error e => exact ⟨rfl, h⟩
      | ok found =>
        cases found with
        | true => exact ⟨rfl, h⟩
        | false => exact ⟨rfl, h.putValue _ _⟩

theorem keeps_call (env : StoreEnv) (a : Bytes) (c : StoreCall) : Keeps a fun s => s.call env a c := by
  cases c with
  | putBlock u frag version ciphertext nonce =>
    exact (confined_putBlock env u ciphertext nonce frag version).keeps
  | overwriteBlock u frag version ciphertext nonce =>
    exact (confined_overwriteBlock env u ciphertext nonce frag version).keeps
  | getBlock u frag version => exact ((answers_getBlock env u frag version).map _).keeps
  | have_ u => exact ((answers_have env u).map _).keeps
  | setVv u vv nonce => exact (confined_setVv env u vv nonce).keeps
  | putRecord u vv blob => exact (confined_putRecord u vv blob).keeps
  | getRecords u =>
    exact ((answers_frontier u).map fun r => StoreReply.of .blobs (r.map (map Prod.snd))).keeps
  | listRecords => exact ((answers_list _).map fun l =>
    StoreReply.uuids (l.filterMap (listedUuid (recPrefix a)))).keeps
  | register salt verifier => exact keeps_register env salt verifier
  | accountExists =>
    exact ((answers_getValue _).map fun r => StoreReply.of .flag (r.map Option.isSome)).keeps
  | updateCredentials salt verifier => exact (confined_upsert _ _).keeps
  | getCredentials => exact ((answers_credentialsAt _).map _).keeps
  | putRecoveryCredentials salt verifier => exact (confined_upsert _ _).keeps
  | getRecoveryCredentials => exact ((answers_credentialsAt _).map _).keeps
  | putWrappedKey blob => exact (confined_upsert _ _).keeps
  | getWrappedKey => exact ((answers_getValue _).map _).keeps
  | putRecoveryBlob blob => exact (confined_upsert _ _).keeps
  | getRecoveryBlob => exact ((answers_getValue _).map _).keeps
  | putWriterSet blob => exact (confined_putWriterSet env blob).keeps
  | getWriterSet => exact ((answers_getValue _).map _).keeps
  | putKeyGrant grantee blob => exact (confined_upsert _ _).keeps
  | getKeyGrant grantee => exact ((answers_getValue _).map _).keeps
  | putCaps peer ranked => exact (confined_putCaps peer ranked).keeps
  | getCaps => exact (answers_getCaps.map _).keeps
  | accountBytes => exact (answers_accountBytes.map _).keeps
  | listUnits => exact ((answers_listUnits env).map _).keeps

/-- From stores that agree on the account, it is answered the same with and without the others'
calls. -/
theorem replies_filter (env : StoreEnv) (ha : slash ∉ a) (h : Sees a s s')
    (calls : List (Bytes × StoreCall)) :
    s.replies env a calls = s'.replies env a (calls.filter fun c => c.1 = a) := by
  induction calls generalizing s s' with
  | nil => rfl
  | cons c calls ih =>
    obtain ⟨caller, c⟩ := c
    obtain ⟨hwrites, -⟩ := keeps_call env caller c
    by_cases hc : caller = a
    · subst hc
      obtain ⟨hreply, hsees⟩ := (keeps_call env caller c).2 h
      rw [filter_cons_of_pos (by simp)]
      simp only [replies, if_true]
      rw [hreply, ih hsees]
    · rw [filter_cons_of_neg (by simpa using hc)]
      simp only [replies, if_neg hc]
      exact ih (h.left (hwrites s) ha hc)

/-- Accounts are isolated: whatever the others call, an account with a valid name is answered as if
it were alone on the store. -/
theorem account_isolated (env : StoreEnv) (account : Bytes)
    (hvalid : validateAccount account = .ok ()) (calls : List (Bytes × StoreCall)) :
    EngineStore.empty.replies env account calls =
      EngineStore.empty.replies env account (calls.filter fun c => c.1 = account) :=
  replies_filter env (slash_notMem_of_valid hvalid) (.refl sorted_empty account) calls

/-- A store without encryption at rest. -/
def plainEnv : StoreEnv where
  vvWrap := ⟨fun _ plain => plain, fun _ ct => some ct⟩
  blobWrap := ⟨fun _ plain => plain, fun _ ct => some ct⟩
  scheme := ⟨id, fun _ _ => Vector.replicate 64 0, fun _ _ _ => true⟩

/-- Two accounts, `a` and `b`, store and read their wrapped keys. -/
def pairCalls : List (Bytes × StoreCall) :=
  [([97], .putWrappedKey [1]), ([98], .putWrappedKey [2]), ([98], .getWrappedKey),
    ([97], .getWrappedKey)]

theorem account_isolated_pair :
    validateAccount [97] = .ok () ∧
      EngineStore.empty.replies plainEnv [97] pairCalls = [.done, .value (some [1])] :=
  ⟨rfl, account_isolated plainEnv [97] rfl pairCalls⟩

end Sfs.Server

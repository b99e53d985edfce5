import Sfs.Container.Header
import Sfs.Version.ImportRecord
import Sfs.Version.VectorCodec

/-!
# Unit records and their signatures

The head record of a unit as sync sees it: two streams, the concurrent strains, the database
head and the author's signature. `writeUnitRecord` and `readUnitRecord` are the two gates every
record passes: a record is signed anew or its signature is checked again when it is written,
and the decoder's checks and the signature are made when it is read.

A record is generic in what its streams point at. A strain head is its content stream: the
record of a strain has nothing else but its signature.
-/

namespace Sfs.Sync

open Sfs.Lib Sfs.Version
open Sfs.Container (SignMode)

inductive UnitKind where
  | blob
  | kvRecord
  deriving DecidableEq, Repr

structure DbHead where
  store : Uuid
  pk : Uuid
  kind : UnitKind
  deriving DecidableEq, Repr

abbrev PubKey := Vector UInt8 32

instance lawfulBEq_pubKey : LawfulBEq PubKey := inferInstance
abbrev SigningKey := Vector UInt8 32
abbrev Signature := Vector UInt8 64

/-- A unit record without its addresses: `parent` and the strain addresses stand for what they
point at. -/
structure Record (β : Type) where
  content : Option (StreamMeta β)
  metadata : Option (StreamMeta β)
  strains : List (StreamMeta β)
  db : Option DbHead
  signature : Option Signature
  deriving DecidableEq

variable {β : Type}

def Record.stream (r : Record β) : StreamMeta β := r.content.getD .empty

def Record.vv (r : Record β) : VersionVector := r.stream.vv

/-! ## What is signed -/

def ascii (s : String) : Bytes := s.toList.map fun c => UInt8.ofNat c.toNat

/-- The signed fields of one stream. -/
def streamSig (s : StreamMeta β) : Bytes :=
  leBytes 4 s.frags.length ++ s.frags.flatMap (fun fr => leBytes 8 fr.version) ++
    leBytes 4 s.vv.toBytes.length ++ s.vv.toBytes ++ [UInt8.ofNat s.fragsizeExp] ++
    leBytes 4 s.lastFragLength

def UnitKind.toByte : UnitKind → UInt8
  | .blob => 0
  | .kvRecord => 1

def streamFlags (r : Record β) : UInt8 :=
  (if r.content.isSome then 1 else 0) + (if r.metadata.isSome then 2 else 0)

def dbSig (db : DbHead) : Bytes :=
  ascii "sfsu-db" ++ uuidBytes db.store ++ uuidBytes db.pk ++ [db.kind.toByte]

/-- The identity of a write that holds on every replica: no addresses, strains or suites. -/
def signingPayload (u : Uuid) (r : Record β) : Bytes :=
  ascii "sfsu-sig" ++ uuidBytes u ++ [streamFlags r] ++ (r.content.elim [] streamSig) ++
    (r.metadata.elim [] streamSig) ++ r.db.elim [] dbSig

/-! ## Signing -/

/-- Ed25519. -/
structure SignatureScheme where
  pubkey : SigningKey → PubKey
  sign : SigningKey → Bytes → Signature
  verify : PubKey → Bytes → Signature → Bool

/-- A signature verifies under the key it was made with. -/
def SignatureScheme.Complete (scheme : SignatureScheme) : Prop :=
  ∀ sk msg, scheme.verify (scheme.pubkey sk) msg (scheme.sign sk msg) = true

/-- A scheme to evaluate examples with: anyone can sign, but a changed payload is noticed. -/
def checksumScheme : SignatureScheme where
  pubkey := id
  sign k m := arr 64 (leU32 (crc32 (k.toList ++ m)))
  verify k m s := s = arr 64 (leU32 (crc32 (k.toList ++ m)))

structure WriterSet where
  writers : List PubKey
  removed : List PubKey
  deriving DecidableEq

/-- What a replica holds to sign records and to check them. -/
structure Signer where
  mode : SignMode
  writerPubkey : PubKey
  writerSet : Option WriterSet
  signingKey : Option SigningKey

/-- An unsigned container holds no keys. -/
def Signer.unsigned : Signer := ⟨.unsigned, .replicate 32 0, none, none⟩

inductive MembershipScope where
  | current
  | currentOrRemoved
  deriving DecidableEq, Repr

/-- A new write is signed by the engine; a record that is moved or imported keeps the
signature of its author. -/
inductive RecordSignIntent where
  | fresh
  | preserve
  deriving DecidableEq, Repr

/-- The exponents `UnitRecord::decode` accepts on a content stream. -/
def minFragsizeExp : Nat := 12
def maxFragsizeExp : Nat := 25

/-- The decoder accepts the vector: its `u16` entry count did not wrap. -/
def vvDecodes (vv : VersionVector) : Bool := vv.entries.length < 65536

/-- The decoder accepts `s` as a content stream. -/
def contentDecodes (s : StreamMeta β) : Bool :=
  minFragsizeExp ≤ s.fragsizeExp && s.fragsizeExp ≤ maxFragsizeExp && vvDecodes s.vv

section

variable (scheme : SignatureScheme) (signer : Signer)

def writersetVerifyingMember (ws : WriterSet) (payload : Bytes) (sig : Signature) :
    MembershipScope → Option PubKey
  | .current => ws.writers.find? fun m => scheme.verify m payload sig
  | .currentOrRemoved => (ws.writers ++ ws.removed).find? fun m => scheme.verify m payload sig

/-- The members whose signatures count. -/
def WriterSet.members (ws : WriterSet) : MembershipScope → List PubKey
  | .current => ws.writers
  | .currentOrRemoved => ws.writers ++ ws.removed

def verifyRecordSignature (u : Uuid) (r : Record β) (scope : MembershipScope) :
    Result (Option PubKey) :=
  match signer.mode with
  | .unsigned => .ok none
  | .signed =>
    match r.signature with
    | none => .error (.integrity "unit record: signature missing in Signed container")
    | some sig =>
      if scheme.verify signer.writerPubkey (signingPayload u r) sig then .ok (some signer.writerPubkey)
      else .error (.integrity "unit record: signature verification failed")
  | .writerSet =>
    match signer.writerSet with
    | none => .error
      (.integrity "unit record: WriterSet verification requested but no Writer-Set loaded")
    | some ws =>
      match r.signature with
      | none => .error (.integrity "unit record: signature missing in WriterSet container")
      | some sig =>
        match writersetVerifyingMember scheme ws (signingPayload u r) sig scope with
        | some m => .ok (some m)
        | none => .error
          (.integrity "unit record: no authorized writer signature (WriterSet fail-closed)")

/-- The checks of `UnitRecord::decode` that a record written by the engine can fail. -/
def decodeRecord (r : Record β) : Result (Record β) :=
  if (r.content.all fun s => vvDecodes s.vv) && (r.metadata.all fun s => vvDecodes s.vv) then
    match r.content with
    | none => .ok r
    | some s =>
      if minFragsizeExp ≤ s.fragsizeExp && s.fragsizeExp ≤ maxFragsizeExp then .ok r
      else .error (.integrity ("content stream fragsize_exp " ++ toString s.fragsizeExp ++
        " out of range [12, 25]"))
  else .error (.integrity "version vector buffer length mismatch")

def readUnitRecord (u : Uuid) (r : Record β) : Result (Record β) :=
  match decodeRecord r with
  | .error e => .error e
  | .ok r =>
    match verifyRecordSignature scheme signer u r .currentOrRemoved with
    | .error e => .error e
    | .ok _ => .ok r

/-- The record as it is stored. -/
def writeUnitRecord (u : Uuid) (r : Record β) : RecordSignIntent → Result (Record β)
  | .fresh =>
    match signer.mode with
    | .unsigned => .ok r
    | .signed =>
      match signer.signingKey with
      | none => .error
        (.integrity ("write_unit_record: container is Signed but no signing key present " ++
          "(verify-only engine cannot write)"))
      | some sk => .ok { r with signature := some (scheme.sign sk (signingPayload u r)) }
    | .writerSet =>
      match signer.signingKey with
      | none => .error
        (.integrity ("write_unit_record: container is WriterSet but no signing key present " ++
          "(verify-only engine cannot write)"))
      | some sk =>
        match signer.writerSet with
        | none => .error (.integrity "write_unit_record: WriterSet mode but no Writer-Set loaded")
        | some ws =>
          if scheme.pubkey sk ∈ ws.writers then
            .ok { r with signature := some (scheme.sign sk (signingPayload u r)) }
          else .error (.integrity
            ("write_unit_record: signing key is not a member of the Writer-Set " ++
            "(non-member write rejected)"))
  | .preserve =>
    match signer.mode with
    | .unsigned => .ok r
    | .signed =>
      match r.signature with
      | none => .error
        (.integrity ("write_unit_record: Preserve in Signed container but record has no " ++
          "signature (fail-closed)"))
      | some sig =>
        if scheme.verify signer.writerPubkey (signingPayload u r) sig then .ok r
        else .error (.integrity ("write_unit_record: Preserve signature does not verify under " ++
          "writer_pubkey (fail-closed)"))
    | .writerSet =>
      match r.signature with
      | none => .error
        (.integrity ("write_unit_record: Preserve in WriterSet container but record has no " ++
          "signature (fail-closed)"))
      | some sig =>
        match signer.writerSet with
        | none => .error (.integrity "write_unit_record: WriterSet mode but no Writer-Set loaded")
        | some ws =>
          match writersetVerifyingMember scheme ws (signingPayload u r) sig .currentOrRemoved with
          | some _ => .ok r
          | none => .error (.integrity ("write_unit_record: Preserve signature not verified by any " ++
              "Writer-Set member or removed-tombstone key (fail-closed)"))

/-! ## What the gates let through -/

variable {scheme signer} {u : Uuid} {r r' : Record β}

/-- Two records with the same data; the signatures may differ. -/
def Record.SameData (r r' : Record β) : Prop :=
  r'.content = r.content ∧ r'.metadata = r.metadata ∧ r'.strains = r.strains ∧ r'.db = r.db

theorem Record.SameData.refl (r : Record β) : r.SameData r := ⟨rfl, rfl, rfl, rfl⟩

theorem decodeRecord_ok_iff :
    decodeRecord r = .ok r' ↔ r' = r ∧ (∀ s, r.content = some s → contentDecodes s = true) ∧
      ∀ s, r.metadata = some s → vvDecodes s.vv = true := by
  unfold decodeRecord
  by_cases hvv :
    ((r.content.all fun s => vvDecodes s.vv) && r.metadata.all fun s => vvDecodes s.vv) = true
  · rw [if_pos hvv]
    rw [Bool.and_eq_true, Option.all_eq_true, Option.all_eq_true] at hvv
    cases hc : r.content with
    | none => exact ⟨fun h => ⟨(Except.ok.inj h).symm, fun s hs => (nomatch hs), hvv.2⟩,
      fun h => h.1 ▸ rfl⟩
    | some s =>
      have hcd : contentDecodes s = (decide (minFragsizeExp ≤ s.fragsizeExp) &&
          decide (s.fragsizeExp ≤ maxFragsizeExp)) := by
        rw [contentDecodes, hvv.1 s hc, Bool.and_true]
      simp only [← hcd]
      split
      · rename_i hr
        exact ⟨fun h => ⟨(Except.ok.inj h).symm, fun s' hs => by cases hs; exact hr, hvv.2⟩,
          fun h => h.1 ▸ rfl⟩
      · rename_i hr
        exact iff_of_false (fun h => (nomatch h)) fun h => hr (h.2.1 s rfl)
  · rw [if_neg hvv]
    refine iff_of_false (fun h => (nomatch h)) fun ⟨_, h1, h2⟩ => hvv ?_
    rw [Bool.and_eq_true, Option.all_eq_true, Option.all_eq_true]
    exact ⟨fun s hs => (Bool.and_eq_true_iff.mp (h1 s hs)).2, h2⟩

/-- One of `members` signed the record. -/
def SignedBy (scheme : SignatureScheme) (members : List PubKey) (u : Uuid) (r : Record β) : Prop :=
  ∃ m ∈ members, ∃ sig, r.signature = some sig ∧ scheme.verify m (signingPayload u r) sig = true

theorem writersetVerifyingMember_isSome {ws : WriterSet} {payload : Bytes} {sig : Signature}
    {scope : MembershipScope} :
    (writersetVerifyingMember scheme ws payload sig scope).isSome = true ↔
      ∃ m ∈ ws.members scope, scheme.verify m payload sig = true := by
  cases scope <;> exact List.find?_isSome

theorem verifyRecordSignature_writerSet {ws : WriterSet} {scope : MembershipScope}
    (hmode : signer.mode = .writerSet) (hws : signer.writerSet = some ws) :
    (∃ k, verifyRecordSignature scheme signer u r scope = .ok k) ↔
      SignedBy scheme (ws.members scope) u r := by
  unfold verifyRecordSignature SignedBy
  simp only [hmode, hws]
  cases hs : r.signature with
  | none => exact iff_of_false (fun ⟨_, h⟩ => (nomatch h)) fun ⟨_, _, _, h, _⟩ => (nomatch h)
  | some sig =>
    have hfind : (writersetVerifyingMember scheme ws (signingPayload u r) sig scope).isSome = true ↔
        _ :=
      writersetVerifyingMember_isSome
    dsimp only
    constructor
    · rintro ⟨k, hk⟩
      split at hk
      · rename_i m hm
        obtain ⟨m', hmem, hver⟩ := hfind.mp (by rw [hm]; rfl)
        exact ⟨m', hmem, sig, rfl, hver⟩
      · cases hk
    · rintro ⟨m, hmem, sig', hsig, hver⟩
      cases hsig
      obtain ⟨m', hm'⟩ := Option.isSome_iff_exists.mp (hfind.mpr ⟨m, hmem, hver⟩)
      exact ⟨some m', by rw [hm']⟩

/-- A record is read if the decoder allows it and its signature is verified. -/
theorem readUnitRecord_ok_iff :
    readUnitRecord scheme signer u r = .ok r' ↔ r' = r ∧ decodeRecord r = .ok r ∧
      ∃ k, verifyRecordSignature scheme signer u r .currentOrRemoved = .ok k := by
  unfold readUnitRecord
  constructor
  · intro h
    split at h
    · cases h
    rename_i r₁ hr
    obtain rfl := (decodeRecord_ok_iff.mp hr).1
    split at h
    · cases h
    · rename_i k hk
      cases h
      exact ⟨rfl, hr, k, hk⟩
  · rintro ⟨rfl, hd, k, hk⟩
    rw [hd]
    simp only [hk]

theorem readUnitRecord_eq (h : readUnitRecord scheme signer u r = .ok r') : r' = r :=
  (readUnitRecord_ok_iff.mp h).1

/-- A record that keeps its signature is stored as it is, if it could be read. -/
theorem writeUnitRecord_preserve_iff : writeUnitRecord scheme signer u r .preserve = .ok r' ↔
    r' = r ∧ ∃ k, verifyRecordSignature scheme signer u r .currentOrRemoved = .ok k := by
  unfold writeUnitRecord verifyRecordSignature
  cases signer.mode with
  | unsigned => simp [eq_comm]
  | signed =>
    cases r.signature with
    | none => simp
    | some sig =>
      by_cases hv : scheme.verify signer.writerPubkey (signingPayload u r) sig = true <;>
        simp [hv, eq_comm]
  | writerSet =>
    cases r.signature with
    | none => cases signer.writerSet <;> simp
    | some sig =>
      cases signer.writerSet with
      | none => simp
      | some ws =>
        cases h : writersetVerifyingMember scheme ws (signingPayload u r) sig .currentOrRemoved <;>
          simp [h, eq_comm]

/-- A record is stored as it is, up to a new signature. -/
theorem writeUnitRecord_sameData {intent : RecordSignIntent}
    (h : writeUnitRecord scheme signer u r intent = .ok r') : r.SameData r' := by
  cases intent with
  | fresh =>
    simp only [writeUnitRecord] at h
    split at h
    · cases h
      exact .refl r
    · split at h
      · cases h
      · cases h
        exact ⟨rfl, rfl, rfl, rfl⟩
    · split at h
      · cases h
      split at h
      · cases h
      · split at h
        · cases h
          exact ⟨rfl, rfl, rfl, rfl⟩
        · cases h
  | preserve =>
    rw [(writeUnitRecord_preserve_iff.mp h).1]
    exact .refl r

end

end Sfs.Sync

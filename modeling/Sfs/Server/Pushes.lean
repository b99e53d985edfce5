import Sfs.Server.Enforcement
import Sfs.Sync.Replica

/-!
# What members push

`export_record_verifiable` frames the projection of a unit with the key, the signature and the
signed payload of its head record; an enforced round sends it with the vector of the manifest. The
exporter takes a signature of any writer, removed ones included, and the vector of a unit without
content is that of its Meta stream. The server wants a current writer, a payload that parses to its
end and has a content stream, and the vector of that stream. `honest_push_accepted_iff` says which
of the records that a replica can read pass.
-/

namespace Sfs.Server

open Sfs.Lib Sfs.Version Sfs.Sync

variable {sig : Signature} {k : PubKey} {m : Option IncomingMeta}
open Sfs.AtRest (SealedWriterSet)

variable (scheme : SignatureScheme) (signer : Signer) (transport : Transport)
  (openMeta : OpenMeta Bytes)

/-- The key in the trailer. -/
def trailerKey (payload : Bytes) (sig : Signature) : Result PubKey :=
  match signer.mode with
  | .unsigned => .error (.integrity "export_record_verifiable: Unsigned container has no signer")
  | .signed => .ok signer.writerPubkey
  | .writerSet =>
    match signer.writerSet with
    | none => .error (.integrity "export_record_verifiable: WriterSet mode but no Writer-Set loaded")
    | some ws =>
      match writersetVerifyingMember scheme ws payload sig .currentOrRemoved with
      | none => .error (.integrity "export_record_verifiable: no authorized writer signature found")
      | some k => .ok k

/-- `export_record_verifiable` of the unit that `key` is bound to. -/
def exportRecordVerifiable (key : Bytes) (u : Uuid) (r : Record Bytes) : Result Bytes := do
  let projection ← exportRecord scheme signer transport openMeta key u r
  let r ← readUnitRecord scheme signer u r
  match r.signature with
  | none =>
    .error (.integrity "export_record_verifiable: record has no signature (unsigned container)")
  | some sig => do
    let k ← trailerKey scheme signer (signingPayload u r) sig
    .ok (frame ⟨projection, k, sig, signingPayload u r⟩)

/-- The push of a unit goes through: it is exported, and the server takes it with the vector of the
manifest. -/
def Accepted (a : Account) (key : Bytes) (u : Uuid) (r : Record Bytes) : Prop :=
  ∃ body, exportRecordVerifiable scheme signer transport openMeta key u r = .ok body ∧
    (a.handle scheme (.putRecord u (syncState key u r).vv.toBytes body)).1 = .ok

/-- What the server takes: content without a database head, signed by a current writer, in a body
that is not too long. -/
structure Enforceable (ws : WriterSet) (u : Uuid) (r : Record Bytes) (projection : Bytes) : Prop where
  content : r.content.isSome = true
  db : r.db = none
  writer : SignedBy scheme ws.writers u r
  size : 104 + projection.length + (signingPayload u r).length ≤ maxBodyBytes

section

variable {scheme signer transport openMeta} {a : Account} {ws : SealedWriterSet} {key : Bytes}
  {u : Uuid} {r : Record Bytes}

theorem length_of_checkRecord {stored : Option (Result SealedWriterSet)} {vvHeader body : Bytes}
    {p : VersionVector × Bytes} (h : checkRecord scheme stored u vvHeader body = .ok p) :
    body.length ≤ maxBodyBytes := by
  unfold checkRecord at h
  split at h
  · cases h
  · split at h
    · cases h
    · omega

theorem reply_putRecord_eq_ok_iff {vvHeader body : Bytes} (hpos : 0 < a.tokens) :
    (a.handle scheme (.putRecord u vvHeader body)).1 = .ok ↔
      ∃ p, checkRecord scheme (a.storedSet scheme) u vvHeader body = .ok p := by
  rw [handle_of_pos hpos]
  cases hc : checkRecord scheme (a.storedSet scheme) u vvHeader body with
  | error reply =>
    rw [serve_putRecord_error (a := { a with tokens := a.tokens - 1 }) hc]
    refine iff_of_false (checkRecord_error hc) ?_
    rintro ⟨_, ⟨⟩⟩
  | ok p =>
    rw [serve_putRecord_ok (a := { a with tokens := a.tokens - 1 }) hc]
    exact iff_of_true rfl ⟨p, rfl⟩

/-- The first writer that verifies is a current one if there is one. -/
theorem trailerKey_mem_iff {payload : Bytes} (hmode : signer.mode = .writerSet)
    (hset : signer.writerSet = some ws.set) (h : trailerKey scheme signer payload sig = .ok k) :
    scheme.verify k payload sig = true ∧
      ((∃ m ∈ ws.set.writers, scheme.verify m payload sig = true) → k ∈ ws.set.writers) := by
  unfold trailerKey at h
  rw [hmode, hset] at h
  dsimp only at h
  split at h
  · cases h
  rename_i k' hk
  cases h
  unfold writersetVerifyingMember at hk
  rw [List.find?_append] at hk
  cases hw : ws.set.writers.find? fun m => scheme.verify m payload sig with
  | none =>
    rw [hw] at hk
    refine ⟨List.find?_some (p := fun m => scheme.verify m payload sig) hk, ?_⟩
    rintro ⟨m, hm, hv⟩
    exact absurd hv (List.find?_eq_none.mp hw m hm)
  | some w =>
    rw [hw] at hk
    cases hk
    exact ⟨List.find?_some (p := fun m => scheme.verify m payload sig) hw,
      fun _ => List.mem_of_find?_eq_some hw⟩

variable (transport key) in
/-- A record that the replica can read is exported. -/
theorem exportRecordVerifiable_eq (hmode : signer.mode = .writerSet)
    (hset : signer.writerSet = some ws.set) (hread : readUnitRecord scheme signer u r = .ok r)
    (hm : exportMeta openMeta u r = .ok m) :
    ∃ sig k, r.signature = some sig ∧ trailerKey scheme signer (signingPayload u r) sig = .ok k ∧
      exportRecordVerifiable scheme signer transport openMeta key u r =
        .ok (frame ⟨transport.wrap u (exportedBytes .writerSet key u r m), k, sig,
          signingPayload u r⟩) := by
  obtain ⟨-, -, hver⟩ := readUnitRecord_ok_iff.mp hread
  obtain ⟨w, hw, sig, hsig, hv⟩ := (verifyRecordSignature_writerSet hmode hset).mp hver
  obtain ⟨k, hk⟩ := Option.isSome_iff_exists.mp (writersetVerifyingMember_isSome.mpr ⟨w, hw, hv⟩)
  have htrailer : trailerKey scheme signer (signingPayload u r) sig = .ok k := by
    unfold trailerKey
    rw [hmode, hset]
    dsimp only
    rw [hk]
  refine ⟨sig, k, hsig, htrailer, ?_⟩
  unfold exportRecordVerifiable
  rw [exportRecord_eq hread hm, hread, hmode]
  simp only [bind, Except.bind, hsig, htrailer]

theorem parseSigningPayload_ok_iff (ht : RecordTravels r) {parsed : ParsedSigningPayload} :
    parseSigningPayload (signingPayload u r) = .ok parsed ↔
      r.db = none ∧ parsed = ⟨u, r.content.map sigOf, r.metadata.map sigOf⟩ := by
  rw [parseSigningPayload_eq ht]
  cases hdb : r.db with
  | none =>
    simp [eq_comm]
  | some db =>
    refine iff_of_false (fun h => by cases h) fun h => ?_
    cases h.1

/-- The framed export of a record. -/
def framed (transport : Transport) (key : Bytes) (u : Uuid) (r : Record Bytes)
    (m : Option IncomingMeta) (k : PubKey) (sig : Signature) : FramedBlob :=
  ⟨transport.wrap u (exportedBytes .writerSet key u r m), k, sig, signingPayload u r⟩

theorem framed_fits (h : (frame (framed transport key u r m k sig)).length ≤ maxBodyBytes) :
    (framed transport key u r m k sig).Fits := by
  rw [length_frame] at h
  have : maxBodyBytes < 256 ^ 4 := by decide
  exact ⟨by omega, by omega⟩

theorem framed_uuid (hwrap : ∀ u p, ∃ rest, transport.wrap u p = uuidBytes u ++ rest) :
    16 ≤ (framed transport key u r m k sig).projection.length ∧
      uuidOf (framed transport key u r m k sig).projection = u := by
  obtain ⟨rest, hrest⟩ := hwrap u (exportedBytes .writerSet key u r m)
  unfold framed
  rw [hrest]
  refine ⟨?_, uuidOf_uuidBytes u rest⟩
  rw [List.length_append, uuidBytes, length_leBytes]
  omega

section

variable {m : Option IncomingMeta} (hmode : signer.mode = .writerSet)
  (hset : signer.writerSet = some ws.set)
  (hstored : a.storedSet scheme = some (.ok ws)) (hpos : 0 < a.tokens)
    (hread : readUnitRecord scheme signer u r = .ok r)
  (hm : exportMeta openMeta u r = .ok m)

include hmode hset hstored hpos hread hm

variable (transport key) in
theorem accepted_iff_checkRecord :
    ∃ sig k, r.signature = some sig ∧ trailerKey scheme signer (signingPayload u r) sig = .ok k ∧
    (Accepted scheme signer transport openMeta a key u r ↔
      ∃ p, checkRecord scheme (some (.ok ws)) u (syncState key u r).vv.toBytes
        (frame (framed transport key u r m k sig)) = .ok p) := by
  obtain ⟨sig, k, hsig, hk, hexport⟩ := exportRecordVerifiable_eq transport key hmode hset hread hm
  refine ⟨sig, k, hsig, hk, ?_⟩
  rw [← hstored, ← reply_putRecord_eq_ok_iff hpos]
  unfold Accepted
  rw [hexport]
  constructor
  · rintro ⟨body, hbody, h⟩
    cases hbody
    exact h
  · exact fun h => ⟨_, rfl, h⟩

variable (hwrap : ∀ u p, ∃ rest, transport.wrap u p = uuidBytes u ++ rest) (ht : RecordTravels r)

include hwrap ht

theorem enforceable_of_accepted (h : Accepted scheme signer transport openMeta a key u r) :
    Enforceable scheme ws.set u r (transport.wrap u (exportedBytes .writerSet key u r m)) := by
  obtain ⟨sig, k, hsig, hk, haccept⟩ :=
    accepted_iff_checkRecord transport key hmode hset hstored hpos hread hm
  obtain ⟨⟨vv, projection⟩, hp⟩ := haccept.mp h
  have hsize := length_of_checkRecord hp
  obtain ⟨-, ws', g, hws', hfg, hg, -, -, hchecked, -⟩ := checkRecord_eq_ok hp
  cases hws'
  cases frame_injective (framed_fits hsize) hg (framed_uuid hwrap).1 hfg
  obtain ⟨parsed, content, hparsed, -, hcontent, -⟩ := hchecked.payload
  obtain ⟨hdb, rfl⟩ := (parseSigningPayload_ok_iff ht).mp hparsed
  refine ⟨?_, hdb, ⟨k, hchecked.member, sig, hsig, hchecked.signed⟩, ?_⟩
  · obtain ⟨s, hs, -⟩ := Option.map_eq_some_iff.mp hcontent
    rw [hs]
    rfl
  · rw [length_frame] at hsize
    exact hsize

theorem accepted_of_enforceable
    (h : Enforceable scheme ws.set u r (transport.wrap u (exportedBytes .writerSet key u r m))) :
    Accepted scheme signer transport openMeta a key u r := by
  obtain ⟨sig, k, hsig, hk, haccept⟩ :=
    accepted_iff_checkRecord transport key hmode hset hstored hpos hread hm
  obtain ⟨hver, hcur⟩ := trailerKey_mem_iff hmode hset hk
  obtain ⟨s, hs⟩ := Option.isSome_iff_exists.mp h.content
  obtain ⟨w, hw, sig', hsig', hv⟩ := h.writer
  cases hsig.symm.trans hsig'
  have hsize : (frame (framed transport key u r m k sig)).length ≤ maxBodyBytes := by
    rw [length_frame]
    exact h.size
  have hvv : (syncState key u r).vv = s.vv := by
    unfold syncState
    rw [hs]
  refine haccept.mpr ⟨_, checkRecord_frame ⟨hcur ⟨w, hw, hv⟩, hver, ?_⟩ (hvv ▸ (ht.content s hs).vv)
    (framed_fits hsize)
    (framed_uuid hwrap).1 (framed_uuid hwrap).2 hsize⟩
  refine ⟨_, sigOf s, (parseSigningPayload_ok_iff ht).mpr ⟨h.db, rfl⟩, rfl, ?_, ?_⟩
  · simp [hs]
  · rw [hvv]
    rfl

end

/-- A member's push goes through exactly if the record is one the server takes. -/
theorem honest_push_accepted_iff (scheme : SignatureScheme) (signer : Signer)
    (transport : Transport) (openMeta : OpenMeta Bytes) (a : Account) (ws : SealedWriterSet)
    (key : Bytes) (u : Uuid) (r : Record Bytes) (m : Option IncomingMeta)
    (hmode : signer.mode = .writerSet) (hset : signer.writerSet = some ws.set)
    (hstored : a.storedSet scheme = some (.ok ws)) (hpos : 0 < a.tokens)
    (hwrap : ∀ u p, ∃ rest, transport.wrap u p = uuidBytes u ++ rest)
    (hread : readUnitRecord scheme signer u r = .ok r) (ht : RecordTravels r)
    (hm : exportMeta openMeta u r = .ok m) :
    Accepted scheme signer transport openMeta a key u r ↔
      Enforceable scheme ws.set u r (transport.wrap u (exportedBytes .writerSet key u r m)) :=
  ⟨enforceable_of_accepted hmode hset hstored hpos hread hm hwrap ht,
    accepted_of_enforceable hmode hset hstored hpos hread hm hwrap ht⟩

section

open AtRest (keyScheme keyOf sampleSet)

/-- The replica of the writer with key 9. -/
def member9 : Signer := ⟨.writerSet, keyOf 8, some sampleSet.set, some (keyOf 9)⟩

def signedBy9 (r : Record Bytes) : Record Bytes :=
  { r with signature := some (arr 64 (keyOf 9).toList) }

theorem readable_signedBy9 {u : Uuid} {r : Record Bytes}
    (h : decodeRecord (signedBy9 r) = .ok (signedBy9 r)) :
    readUnitRecord keyScheme member9 u (signedBy9 r) = .ok (signedBy9 r) :=
  readUnitRecord_ok_iff.mpr ⟨rfl, h, (verifyRecordSignature_writerSet rfl rfl).mpr
    ⟨keyOf 9, by decide, arr 64 (keyOf 9).toList, rfl, by simp [keyScheme]⟩⟩

theorem clearTransport_wrap (u : Uuid) (p : Bytes) :
    ∃ rest, clearTransport.wrap u p = uuidBytes u ++ rest :=
  ⟨p, rfl⟩

theorem honest_push_accepted_file :
    Accepted keyScheme member9 clearTransport openPlain (governed 9) [97] 5 (signedBy9 file) := by
  refine (honest_push_accepted_iff keyScheme member9 clearTransport openPlain
    (governed 9) sampleSet [97] 5 (signedBy9 file) none rfl rfl
    (governed_storedSet 9) (by decide) clearTransport_wrap (readable_signedBy9 rfl) ?_ rfl).mpr
      ⟨rfl, rfl, ?_, by decide +kernel⟩
  · exact ⟨file_travels.content, file_travels.metadata⟩
  · exact ⟨keyOf 9, by decide, arr 64 (keyOf 9).toList, rfl, by simp [keyScheme]⟩

/-- A directory of the writer with key 9. -/
def directory : Record Bytes := newRecord 2 false none (some [1])

/-- `create_unit` makes it, the replica reads it, and the server does not take it. -/
theorem directory_push_refused :
    ((Namespace.perform keyScheme member9 false .none 2 .new
      (.createUnit "d" 5 false none (some [1]))).units 5).map Chain.head =
        some (signedBy9 directory) ∧
      ¬ Accepted keyScheme member9 clearTransport openPlain (governed 9) (pathBytes "d") 5
        (signedBy9 directory) := by
  refine ⟨rfl, fun h => ?_⟩
  have henf := enforceable_of_accepted (m := some ⟨packDot 2 1, VersionVector.new.bump 2, [1]⟩) rfl
    rfl (governed_storedSet 9) (by decide)
    (readable_signedBy9 rfl) rfl clearTransport_wrap ?_ h
  · exact absurd henf.content (by decide)
  · refine ⟨fun _ => nofun, ?_⟩
    rintro s ⟨⟩
    exact ⟨by decide, by decide, ⟨by decide, by decide⟩, by decide, by decide⟩

end

end

end Sfs.Server

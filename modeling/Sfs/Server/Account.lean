import Sfs.Lib.KeyMap
import Sfs.Lib.Newest
import Sfs.Server.WriterSetStore
import Sfs.Sync.Wire

/-!
# An account on the server

What the sync server keeps for an account and what its requests do to it, with enforcement of
writer signatures on. A record is put as a framed blob: the projection, and behind it the key,
the signature and the signed payload of the head record. The server verifies the trailer against
the account's Writer-Set and stores the projection alone.

All devices of an account share its token and its rate limit. Storage does not fail.
-/

namespace Sfs.Server

open Sfs.Lib Sfs.Version Sfs.Sync List

variable {u : Uuid} {vvHeader projection : Bytes} {reply : Reply} {vv : VersionVector}
open Sfs.AtRest (SealedWriterSet openBlob SyncError)

/-! ## Framed blobs -/

/-- `ParsedFramedBlob`, with the projection. -/
structure FramedBlob where
  projection : Bytes
  writerPubkey : PubKey
  signature : Signature
  signingPayload : Bytes

def frame (f : FramedBlob) : Bytes :=
  leBytes 4 f.projection.length ++ (f.projection ++ (f.writerPubkey.toList ++ (f.signature.toList ++
    (leBytes 4 f.signingPayload.length ++ f.signingPayload))))

def parseFramedBlob (blob : Bytes) : Result FramedBlob :=
  let projLen := leNat (slice 0 4 blob)
  if blob.length < 104 then .error
    (.integrity "verify_record_trailer: blob too short for framing header")
  else if blob.length < 4 + projLen + 100 then .error
    (.integrity "verify_record_trailer: proj_len overflows blob bounds")
  else if projLen < 16 then .error
    (.integrity "verify_record_trailer: projection too short to contain uuid")
  else if 4 + projLen + 100 + leNat (slice (4 + projLen + 96) 4 blob) ≠ blob.length then
    .error (.integrity "verify_record_trailer: payload_len does not match blob end")
  else .ok ⟨slice 4 projLen blob, arr 32 (slice (4 + projLen) 32 blob),
    arr 64 (slice (4 + projLen + 32) 64 blob), blob.drop (4 + projLen + 100)⟩

def verifySigAndUuid (scheme : SignatureScheme) (f : FramedBlob) : Outcome Error Unit :=
  if scheme.verify f.writerPubkey f.signingPayload f.signature then
    match parseSigningPayload f.signingPayload with
    | .panic => .panic
    | .err e => .err e
    | .ok parsed =>
      if parsed.uuid ≠ uuidOf f.projection then
        .err (.integrity "verify_record_trailer: uuid mismatch between trailer and projection")
      else .ok ()
  else .err (.integrity "verify_record_trailer: signature verification failed")

def verifyRecordTrailer (scheme : SignatureScheme) (ws : WriterSet) (blob : Bytes) :
    Outcome Error PubKey :=
  match parseFramedBlob blob with
  | .error e => .err e
  | .ok f =>
    if f.writerPubkey ∉ ws.writers then .err
      (.integrity "verify_record_trailer: writer not in current WriterSet")
    else
      match verifySigAndUuid scheme f with
      | .panic => .panic
      | .err e => .err e
      | .ok () => .ok f.writerPubkey

/-! ## The account -/

structure Reply where
  status : Nat
  message : String
  deriving DecidableEq

def Reply.ok : Reply := ⟨200, ""⟩

structure Account where
  writerSet : Option Bytes
  vvs : KeyMap Uuid VersionVector
  records : KeyMap Uuid (List (VersionVector × Bytes))
  /-- requests left in the token bucket, and its size -/
  tokens : Nat
  burst : Nat

def Account.fresh (tokens burst : Nat) : Account := ⟨none, .empty, .empty, tokens, burst⟩

/-- The records kept for a unit. -/
def Account.frontier (a : Account) (u : Uuid) : List (VersionVector × Bytes) :=
  (a.records.get u).getD []

/-- `have`, as the push takes it: a unit that is not there has the empty vector. -/
def Account.have_ (a : Account) (u : Uuid) : VersionVector := (a.vvs.get u).getD .new

def Account.storedSet (scheme : SignatureScheme) (a : Account) : Option (Result SealedWriterSet) :=
  a.writerSet.map (openBlob scheme)

/-- `EngineStore::put_record` -/
def Account.storeRecord (a : Account) (u : Uuid) (vv : VersionVector) (blob : Bytes) : Account :=
  { a with records := a.records.put u (addNewest (a.frontier u) vv blob) }

/-- `EngineStore::set_vv` -/
def Account.setVv (a : Account) (u : Uuid) (vv : VersionVector) : Account :=
  { a with vvs := a.vvs.put u (match a.vvs.get u with
    | some existing => existing.join vv
    | none => vv) }

/-! ## Requests -/

/-- The requests with a body that change the account; `other` stands for those that read it or are
about blocks, capabilities and grants. -/
inductive Request where
  | putRecord (uuid : Uuid) (vvHeader body : Bytes)
  | putVv (uuid : Uuid) (body : Bytes)
  | putWriterSet (body : Bytes)
  | other

def maxBodyBytes : Nat := 16 * 1024 * 1024

/-- The signed payload, cut out of a blob that was verified. -/
def signedPart (body : Bytes) : Option Bytes :=
  let off := 4 + leNat (slice 0 4 body) + 96
  if body.length < off + 4 then none
  else
    let len := leNat (slice off 4 body)
    if body.length < off + 4 + len then none else some (slice (off + 4) len body)

/-- What binds a verified blob to the request: the projection to store. -/
def bindRequest (u : Uuid) (vv : VersionVector) (body : Bytes) : Except Reply Bytes :=
  let projection := slice 4 (leNat (slice 0 4 body)) body
  if projection.length < 16 ∨ uuidOf projection ≠ u then .error
    ⟨403, "record uuid does not match request path"⟩
  else
    match signedPart body with
    | none => .error ⟨403, "record VV does not match signed payload"⟩
    | some payload =>
      match parseSigningPayload payload with
      | .ok parsed =>
        match parsed.content with
        | none => .error ⟨403, "enforced record must carry a Content stream"⟩
        | some content =>
          if vv.toBytes ≠ content.vvBytes then .error
            ⟨403, "record VV does not match signed payload"⟩ else .ok projection
      | _ => .error ⟨403, "record VV does not match signed payload"⟩

/-- The checks of `PUT record`: the vector and the projection to store. -/
def checkRecord (scheme : SignatureScheme) (stored : Option (Result SealedWriterSet)) (u : Uuid)
    (vvHeader body : Bytes) : Except Reply (VersionVector × Bytes) :=
  match VersionVector.fromBytes vvHeader with
  | .error _ => .error ⟨400, "missing/invalid X-Sfs-VV header"⟩
  | .ok vv =>
    if maxBodyBytes < body.length then .error ⟨413, "body too large"⟩
    else
      match stored with
      | none => .error ⟨403, "enforcement on but no writer set stored for this account"⟩
      | some (.error _) => .error ⟨500, "stored writer set is invalid"⟩
      | some (.ok ws) =>
        match verifyRecordTrailer scheme ws.set body with
        | .ok _ => (bindRequest u vv body).map fun projection => (vv, projection)
        | _ => .error ⟨403, "record signature verification failed"⟩

def syncErr : SyncError → Reply
  | .writerSetDowngrade msg => ⟨409, msg⟩
  | .io msg => ⟨500, msg⟩

/-- A request that the rate limit lets through. -/
def Account.serve (scheme : SignatureScheme) (a : Account) : Request → Reply × Account
  | .putRecord u vvHeader body =>
    match checkRecord scheme (a.storedSet scheme) u vvHeader body with
    | .error reply => (reply, a)
    | .ok (vv, projection) => (.ok, a.storeRecord u vv projection)
  | .putVv u body =>
    match VersionVector.fromBytes body with
    | .error _ => (⟨400, "bad vv body"⟩, a)
    | .ok vv => (.ok, a.setVv u vv)
  | .putWriterSet body =>
    if maxBodyBytes < body.length then (⟨413, "body too large"⟩, a)
    else
      match AtRest.putWriterSet scheme a.writerSet body with
      | .error e => (syncErr e, a)
      | .ok blob => (.ok, { a with writerSet := some blob })
  | .other => (.ok, a)

theorem serve_putRecord_error {scheme : SignatureScheme} {a : Account} {body : Bytes}
    (h : checkRecord scheme (a.storedSet scheme) u vvHeader body = .error reply) :
    a.serve scheme (.putRecord u vvHeader body) = (reply, a) := by
  rw [Account.serve, h]

theorem serve_putRecord_ok {scheme : SignatureScheme} {a : Account} {body : Bytes}
    (h : checkRecord scheme (a.storedSet scheme) u vvHeader body = .ok (vv, projection)) :
    a.serve scheme (.putRecord u vvHeader body) = (.ok, a.storeRecord u vv projection) := by
  rw [Account.serve, h]

def Account.handle (scheme : SignatureScheme) (a : Account) (r : Request) : Reply × Account :=
  if a.tokens = 0 then (⟨429, "rate limit exceeded"⟩, a)
    else Account.serve scheme { a with tokens := a.tokens - 1 } r

def Account.refill (n : Nat) (a : Account) : Account := { a with tokens := min a.burst (a.tokens + n) }

/-! ## What a framed blob says -/

section

variable {scheme : SignatureScheme} {f : FramedBlob} {body : Bytes}

theorem length_frame (f : FramedBlob) :
    (frame f).length = 104 + f.projection.length + f.signingPayload.length := by
  simp only [frame, length_append, length_leBytes, Vector.length_toList]
  omega

structure FramedBlob.Fits (f : FramedBlob) : Prop where
  projection : f.projection.length < 256 ^ 4
  payload : f.signingPayload.length < 256 ^ 4

theorem parseFramedBlob_frame (hfit : f.Fits) :
    leNat (slice 0 4 (frame f)) = f.projection.length ∧
      leNat (slice (4 + f.projection.length + 96) 4 (frame f)) = f.signingPayload.length ∧
      (16 ≤ f.projection.length → parseFramedBlob (frame f) = .ok f) := by
  have hlen := length_frame f
  let fields :=
    [leBytes 4 f.projection.length, f.projection, f.writerPubkey.toList, f.signature.toList,
      leBytes 4 f.signingPayload.length, f.signingPayload]
  have hframe : frame f = fields.flatten := by simp [frame, fields]
  have hfield := fun i => slice_flatten fields [] (i := i)
  have hrest := drop_flatten fields [] 5
  rw [append_nil, ← hframe] at hfield hrest
  have hn := hfield 0 (by simp [fields])
  have hproj := hfield 1 (by simp [fields])
  have hkey := hfield 2 (by simp [fields])
  have hsig := hfield 3 (by simp [fields])
  have hplen := hfield 4 (by simp [fields])
  simp [fields, ← add_assoc] at hn hproj hkey hsig hplen hrest
  have hn' : leNat (slice 0 4 (frame f)) = f.projection.length := by
    rw [hn]
    exact leNat_leBytes_of_lt hfit.projection
  have hplen' : leNat (slice (4 + f.projection.length + 96) 4 (frame f)) =
      f.signingPayload.length := by
    rw [hplen]
    exact leNat_leBytes_of_lt hfit.payload
  refine ⟨hn', hplen', fun h16 => ?_⟩
  unfold parseFramedBlob
  dsimp only
  rw [hn', if_neg (by omega), if_neg (by omega), if_neg (by omega), hplen', if_neg (by omega),
    hproj, hkey, hsig, hrest, arr_toList, arr_toList]

/-- A blob that parses is the frame of what it parses to. -/
theorem parseFramedBlob_eq_ok (h : parseFramedBlob body = .ok f) :
    body = frame f ∧ f.Fits ∧ 16 ≤ f.projection.length := by
  unfold parseFramedBlob at h
  dsimp only at h
  generalize hn : leNat (slice 0 4 body) = n at h
  split at h
  · cases h
  rename_i hmin
  split at h
  · cases h
  rename_i hfits
  split at h
  · cases h
  rename_i h16
  generalize hm : leNat (slice (4 + n + 96) 4 body) = m at h
  split_ifs at h with hend
  cases h
  have hend : 4 + n + 100 + m = body.length := not_ne_iff.mp hend
  have hnlen : (slice 4 n body).length = n := length_slice (by omega)
  have hmlen : (body.drop (4 + n + 100)).length = m := by
    rw [length_drop]
    omega
  have hcut : ∀ off k, slice off k body ++ body.drop (off + k) = body.drop off := by
    intro off k
    rw [slice, ← drop_drop]
    exact take_append_drop k (body.drop off)
  refine ⟨?_, ⟨?_, ?_⟩, by dsimp only; omega⟩
  · unfold frame
    dsimp only
    rw [hnlen, hmlen, ← hn, leBytes_slice (by omega), hn, ← hm, leBytes_slice (by omega),
      toList_arr (length_slice (by omega)), toList_arr (length_slice (by omega)),
      show 4 + n + 100 = 4 + n + 96 + 4 from rfl, hcut (4 + n + 96) 4,
      show 4 + n + 96 = 4 + n + 32 + 64 from rfl, hcut (4 + n + 32) 64, hcut (4 + n) 32, hcut 4 n]
    exact (hcut 0 4).symm
  · dsimp only
    rw [hnlen, ← hn]
    exact leNat_slice_lt (by omega)
  · dsimp only
    rw [hmlen, ← hm]
    exact leNat_slice_lt (by omega)

/-- What is accepted is a frame, and every frame that can hold a uuid is accepted as what it
frames. -/
theorem framed_blob_iff (body : Bytes) (f : FramedBlob) :
    parseFramedBlob body = .ok f ↔ body = frame f ∧ f.Fits ∧ 16 ≤ f.projection.length :=
  ⟨parseFramedBlob_eq_ok, fun ⟨h, hfit, h16⟩ => h ▸ (parseFramedBlob_frame hfit).2.2 h16⟩

theorem frame_injective {g : FramedBlob} (hf : f.Fits) (hg : g.Fits)
    (h16 : 16 ≤ f.projection.length) (h : frame f = frame g) : f = g := by
  obtain ⟨hn, -, hparse⟩ := parseFramedBlob_frame hf
  obtain ⟨hn', -, hparse'⟩ := parseFramedBlob_frame hg
  have hlen : f.projection.length = g.projection.length := by rw [← hn, ← hn', h]
  have hok := hparse h16
  rw [h, hparse' (hlen ▸ h16)] at hok
  exact (Except.ok.inj hok).symm

/-- What the server has checked about a record that it stores. -/
structure Checked (scheme : SignatureScheme) (ws : SealedWriterSet) (u : Uuid) (vv : VersionVector)
    (f : FramedBlob) : Prop where
  member : f.writerPubkey ∈ ws.set.writers
  signed : scheme.verify f.writerPubkey f.signingPayload f.signature = true
  payload : ∃ parsed content, parseSigningPayload f.signingPayload = .ok parsed ∧ parsed.uuid = u ∧
    parsed.content = some content ∧
    content.vvBytes = vv.toBytes

theorem verifyRecordTrailer_eq_ok {ws : WriterSet} {key : PubKey}
    (h : verifyRecordTrailer scheme ws body = .ok key) :
    ∃ f, parseFramedBlob body = .ok f ∧ f.writerPubkey ∈ ws.writers ∧
      scheme.verify f.writerPubkey f.signingPayload f.signature = true ∧
      ∃ parsed, parseSigningPayload f.signingPayload = .ok parsed ∧
        parsed.uuid = uuidOf f.projection := by
  unfold verifyRecordTrailer at h
  split at h
  · cases h
  rename_i f hf
  split at h
  · cases h
  rename_i hmem
  split at h
  · cases h
  · cases h
  rename_i hver
  refine ⟨f, hf, not_not.mp hmem, ?_⟩
  unfold verifySigAndUuid at hver
  split at hver
  · rename_i hsig
    split at hver
    · cases hver
    · cases hver
    rename_i parsed hparsed
    split at hver
    · cases hver
    · rename_i huuid
      exact ⟨hsig, parsed, hparsed, not_ne_iff.mp huuid⟩
  · cases hver

theorem signedPart_frame (hfit : f.Fits) : signedPart (frame f) = some f.signingPayload := by
  have hlen := length_frame f
  obtain ⟨hn, hm, -⟩ := parseFramedBlob_frame hfit
  unfold signedPart
  rw [hn, if_neg (by omega), hm, if_neg (by omega)]
  refine congrArg some ?_
  have : frame f =
    (leBytes 4 f.projection.length ++ f.projection ++ f.writerPubkey.toList ++ f.signature.toList ++
      leBytes 4 f.signingPayload.length) ++ (f.signingPayload ++ []) := by
    simp only [frame, append_assoc, append_nil]
  rw [this]
  exact slice_middle (by simp; omega) rfl

theorem bindRequest_frame_eq_ok (hfit : f.Fits) (h : bindRequest u vv (frame f) = .ok projection) :
    projection = f.projection ∧ uuidOf f.projection = u ∧ ∃ parsed content,
      parseSigningPayload f.signingPayload = .ok parsed ∧
      parsed.content = some content ∧ content.vvBytes = vv.toBytes := by
  obtain ⟨hn, -, -⟩ := parseFramedBlob_frame hfit
  have hproj : slice 4 f.projection.length (frame f) = f.projection :=
    slice_middle (length_leBytes ..) rfl
  unfold bindRequest at h
  rw [hn, hproj, signedPart_frame hfit] at h
  dsimp only at h
  split_ifs at h with hpath
  split at h
  · rename_i parsed hparsed
    split at h
    · cases h
    rename_i content hcontent
    split at h
    · cases h
    · rename_i hvv
      cases h
      exact ⟨rfl, not_not.mp fun hne => hpath (.inr hne), parsed, content, hparsed, hcontent,
        (not_ne_iff.mp hvv).symm⟩
  · cases h

/-- A record that passes is signed by a writer of the stored set, for this unit and this vector. -/
theorem checkRecord_eq_ok {stored : Option (Result SealedWriterSet)}
    (h : checkRecord scheme stored u vvHeader body = .ok (vv, projection)) :
    VersionVector.fromBytes vvHeader = .ok vv ∧ ∃ ws f,
      stored = some (.ok ws) ∧ body = frame f ∧ f.Fits ∧
      16 ≤ f.projection.length ∧ projection = f.projection ∧ Checked scheme ws u vv f ∧
        verifyRecordTrailer scheme ws.set body = .ok f.writerPubkey := by
  unfold checkRecord at h
  split at h
  · cases h
  rename_i vv' hvv
  split at h
  · cases h
  split at h
  · cases h
  · cases h
  rename_i ws
  split at h
  · rename_i key hver
    obtain ⟨f, hf, hmem, hsig, parsed, hparsed, huuid⟩ := verifyRecordTrailer_eq_ok hver
    obtain ⟨rfl, hfit, h16⟩ := parseFramedBlob_eq_ok hf
    cases hb : bindRequest u vv' (frame f) with
    | error reply =>
      rw [hb] at h
      cases h
    | ok p =>
      rw [hb] at h
      cases h
      obtain ⟨rfl, hu, parsed', content, hparsed', hcontent, hbytes⟩ := bindRequest_frame_eq_ok hfit hb
      cases hparsed.symm.trans hparsed'
      have hkey : verifyRecordTrailer scheme ws.set (frame f) = .ok f.writerPubkey := by
        unfold verifyRecordTrailer at hver ⊢
        rw [hf] at hver ⊢
        dsimp only at hver ⊢
        rw [if_neg (not_not.mpr hmem)] at hver ⊢
        split at hver
        · cases hver
        · cases hver
        · rfl
      exact ⟨hvv, ws, f, rfl, rfl, hfit, h16, rfl,
        ⟨hmem, hsig, parsed, content, hparsed, huuid.trans hu, hcontent, hbytes⟩, hkey⟩
  · cases h

/-- A record that a writer signed, for this unit and this vector, passes. -/
theorem checkRecord_frame {ws : SealedWriterSet} (h : Checked scheme ws u vv f) (hvv : vv.Fits)
    (hfit : f.Fits) (h16 : 16 ≤ f.projection.length) (hu : uuidOf f.projection = u)
    (hlen : (frame f).length ≤ maxBodyBytes) :
    checkRecord scheme (some (.ok ws)) u vv.toBytes (frame f) = .ok (vv, f.projection) := by
  obtain ⟨parsed, content, hparsed, hpu, hcontent, hbytes⟩ := h.payload
  obtain ⟨hn, -, hparse⟩ := parseFramedBlob_frame hfit
  have hproj : slice 4 f.projection.length (frame f) = f.projection :=
    slice_middle (length_leBytes ..) rfl
  have hver : verifyRecordTrailer scheme ws.set (frame f) = .ok f.writerPubkey := by
    unfold verifyRecordTrailer verifySigAndUuid
    rw [hparse h16]
    dsimp only
    rw [if_neg (not_not.mpr h.member), if_pos h.signed, hparsed]
    dsimp only
    rw [if_neg (not_ne_iff.mpr (hpu.trans hu.symm))]
  have hbind : bindRequest u vv (frame f) = .ok f.projection := by
    unfold bindRequest
    dsimp only
    rw [hn, hproj, if_neg (not_or.mpr ⟨not_lt.mpr h16, not_ne_iff.mpr hu⟩), signedPart_frame hfit]
    dsimp only
    rw [hparsed]
    dsimp only
    rw [hcontent]
    dsimp only
    rw [if_neg (not_ne_iff.mpr hbytes.symm)]
  unfold checkRecord
  rw [VersionVector.fromBytes_eq_ok_iff.mpr ⟨hvv, rfl⟩]
  dsimp only
  rw [if_neg (not_lt.mpr hlen), hver]
  dsimp only
  rw [hbind]
  rfl

theorem bindRequest_error (h : bindRequest u vv body = .error reply) : reply ≠ .ok := by
  unfold bindRequest at h
  dsimp only at h
  split at h
  · cases h
    decide
  split at h
  · cases h
    decide
  split at h
  · split at h
    · cases h
      decide
    · split at h
      · cases h
        decide
      · cases h
  · cases h
    decide

theorem checkRecord_error {stored : Option (Result SealedWriterSet)}
    (h : checkRecord scheme stored u vvHeader body = .error reply) : reply ≠ .ok := by
  unfold checkRecord at h
  split at h
  · cases h
    decide
  rename_i vv _
  split at h
  · cases h
    decide
  split at h
  · cases h
    decide
  · cases h
    decide
  split at h
  · cases hb : bindRequest u vv body with
    | error r =>
      rw [hb] at h
      cases h
      exact bindRequest_error hb
    | ok p =>
      rw [hb] at h
      cases h
  · cases h
    decide

end

end Sfs.Server

import Sfs.Sync.Import
import Sfs.Sync.RecordCodec

/-!
# Parsing a projection

The plaintext that `import_record` is given, from its first byte to the end of the Meta trailer:
the content section, in the signed modes a signature block, and the trailer. `Says` is the
grammar of projections; the parser accepts exactly its strings (`parseProjection_ok_iff`), and
it panics exactly when the string ends one byte into the trailer (`parseProjection_panic_iff`).
-/

namespace Sfs.Sync

open Sfs.Lib Sfs.Version Reader VersionVector List
open Sfs.Container (SignMode)

/-! ## The signed payload -/

structure ParsedStreamSig where
  unitMap : List Nat
  vvBytes : Bytes
  fragsizeExp : Nat
  lastFragLength : Nat
  deriving DecidableEq

structure ParsedSigningPayload where
  uuid : Uuid
  content : Option ParsedStreamSig
  metadata : Option ParsedStreamSig
  deriving DecidableEq

def readStreamSig : Reader Error ParsedStreamSig := do
  let mapLen ← readU32
  bound mapLen 8 0 (.integrity "signing_payload: unit_map length exceeds buffer")
  let unitMap ← times mapLen readU64
  let vvLen ← readU32
  let vvBytes ← get vvLen fun _ => .integrity "signing_payload: vv_bytes truncated"
  let exp ← get 1 fun _ => .integrity "signing_payload: too short for fragsize_exp"
  let lastFragLength ← readU32
  return ⟨unitMap.map UInt64.toNat, vvBytes, leNat exp, lastFragLength⟩

def readStreamSigIf (present : Bool) : Reader Error (Option ParsedStreamSig) := do
  if present then
    let s ← readStreamSig
    return some s
  else return none

def readSignedFields : Reader Error ParsedSigningPayload := do
  let magic ← get 8 fun _ => .integrity "signing_payload: too short for magic"
  if magic ≠ ascii "sfsu-sig" then fail (.integrity "signing_payload: bad magic")
  else
    let uuid ← readUuid
    let flags ← get 1 fun _ => .integrity "signing_payload: too short for stream_flags"
    if flags.headD 0 &&& 0xfc ≠ 0 then
      fail (.integrity ("signing_payload: unknown stream flags 0x" ++ hex 2 (flags.headD 0).toNat))
    else
      let content ← readStreamSigIf (flags.headD 0 &&& 1 ≠ 0)
      let metadata ← readStreamSigIf (flags.headD 0 &&& 2 ≠ 0)
      return ⟨uuid, content, metadata⟩

/-- A payload is consumed to its end. -/
def readSigningPayload : Reader Error ParsedSigningPayload := do
  let p ← readSignedFields
  let left ← remaining
  if left ≠ 0 then
    fail (.integrity ("signing_payload: " ++ toString left ++ " trailing bytes after parse"))
  else return p

def parseSigningPayload (buf : Bytes) : Outcome Error ParsedSigningPayload :=
  readSigningPayload.run buf

/-! ## The sections of a projection -/

/-- The content section. -/
structure Head where
  key : Bytes
  content : Projection

def short (what : String) : Error :=
  .integrity ("import_record: projection too short (" ++ what ++ ")")

/-- A byte string after its length. -/
def readLenBytes (lenErr bytesErr : Error) : Reader Error Bytes := do
  let len ← num 4 lenErr
  field len bytesErr

def readUnitMap : Reader Error (List Nat) := do
  let nFrags ← num 4 (short "n_frags")
  nums nFrags 8 (short "unit_map")

def readVv : Reader Error VersionVector := do
  let vvBytes ← readLenBytes (short "vv_len") (short "vv_bytes")
  ofExcept (VersionVector.fromBytes vvBytes)

def readProjHead : Reader Error Head := do
  let key ← readLenBytes (short "key_len") (short "key bytes")
  let fragsizeExp ← num 1 (short "fragsize_exp")
  let lastFragLength ← num 4 (short "last_frag_length")
  let unitMap ← readUnitMap
  let vv ← readVv
  return ⟨key, unitMap, vv, fragsizeExp, lastFragLength⟩

/-- Signature and signed payload, as they follow the content section. -/
def readBlock (missing truncated : String) : Reader Error (Signature × Bytes) := do
  need (64 + 4) (.integrity missing)
  let sig ← slice 64
  let len ← slice 4
  need (leNat len) (.integrity truncated)
  let payload ← slice (leNat len)
  return (arr 64 sig, payload)

def tampered (label what : String) : Error :=
  .integrity ("import_record: " ++ label ++ "projection " ++ what ++
    " disagrees with signed payload (tampered)")

/-- The signed fields bind the unsigned copies, and replace them. -/
def bindSigned (label : String) (u : Uuid) (head : Head) (payload : Bytes) : Outcome Error Head :=
  match parseSigningPayload payload with
  | .panic => .panic
  | .err e => .err e
  | .ok parsed =>
    if parsed.uuid ≠ u then
      .err (.integrity
        ("import_record: " ++ label ++ "signing_payload uuid does not match projection uuid"))
    else
      match parsed.content with
      | none => .err
        (.integrity ("import_record: " ++ label ++ "signing_payload has no Content stream"))
      | some c =>
        if c.unitMap ≠ head.content.unitMap then .err (tampered label "unit_map")
        else if c.fragsizeExp ≠ head.content.fragsizeExp then .err (tampered label "fragsize_exp")
        else if c.lastFragLength ≠ head.content.lastFragLength then .err
          (tampered label "last_frag_length")
        else if c.vvBytes ≠ head.content.vv.toBytes then .err (tampered label "vv")
        else
          match VersionVector.fromBytes c.vvBytes with
          | .error e => .err e
          | .ok vv => .ok ⟨head.key, c.unitMap, vv, c.fragsizeExp, c.lastFragLength⟩

section

variable (scheme : SignatureScheme) (signer : Signer) (u : Uuid)

/-- A signature block by an authorized writer. -/
def readAuthored (label missing truncated refused : String) (authorized : Signature → Bytes → Bool)
    (head : Head) : Reader Error (Head × Option Signature) := do
  let (sig, payload) ← readBlock missing truncated
  if authorized sig payload then
    let head ← ofOutcome (bindSigned label u head payload)
    return (head, some sig)
  else fail (.integrity refused)

/-- Step 2b: an incoming record has to be signed by a current writer. -/
def readSigned (head : Head) : Reader Error (Head × Option Signature) :=
  match signer.mode with
  | .unsigned => pure (head, none)
  | .writerSet =>
    match signer.writerSet with
    | none => fail (.integrity "import_record: WriterSet container has no loaded writer set")
    | some ws =>
      readAuthored u "WriterSet " "import_record: WriterSet projection missing signature block"
        "import_record: WriterSet projection: signing_payload truncated"
        "import_record: WriterSet projection signature not verified by any member"
        (fun sig payload => (writersetVerifyingMember scheme ws payload sig .current).isSome) head
  | .signed =>
    readAuthored u "" "import_record: Signed projection missing signature block"
      "import_record: Signed projection: signing_payload truncated"
      "import_record: signature verification failed (forged or tampered projection)"
      (fun sig payload => scheme.verify signer.writerPubkey payload sig) head

def trailerMagic : Bytes := ascii "MSx1"

/-- The Meta stream of the trailer. -/
def readTrailerMeta : Reader Error IncomingMeta := do
  need (8 + 4) (.integrity "import_record: meta trailer truncated (version/vv_len)")
  let version ← slice 8
  let vvLen ← slice 4
  need (leNat vvLen + 4) (.integrity "import_record: meta trailer truncated (vv bytes/meta_len)")
  let vvBytes ← slice (leNat vvLen)
  let vv ← ofExcept (VersionVector.fromBytes vvBytes)
  let metaLen ← slice 4
  need (leNat metaLen) (.integrity "import_record: meta trailer truncated (meta bytes)")
  let plain ← slice (leNat metaLen)
  return ⟨leNat version, vv, plain⟩

/-- `proj.len() >= off + 5` lets the magic and one byte through; the trailer has two. -/
def readTrailer : Reader Error (Bool × Option IncomingMeta) := do
  let rest ← peek
  if 5 ≤ rest.length ∧ rest.take 4 = trailerMagic then
    let _ ← slice 4
    let hasContent ← slice 1
    let metaPresent ← slice 1
    if leNat metaPresent ≠ 0 then
      let m ← readTrailerMeta
      return (leNat hasContent ≠ 0, some m)
    else return (leNat hasContent ≠ 0, none)
  else return (true, none)

def readProjection : Reader Error Incoming := do
  let head ← readProjHead
  let (head, sig) ← readSigned scheme signer u head
  let (hasContent, metadata) ← readTrailer
  return ⟨head.key, head.content, sig, hasContent, metadata⟩

/-- Step 2 of `import_record`: the decrypted projection of unit `u`. -/
def parseProjection (proj : Bytes) : Outcome Error Incoming :=
  (readProjection scheme signer u).run proj

end

/-! ## The grammar -/

/-- The content section is in the ranges of its fields. -/
structure Head.Fits (h : Head) : Prop where
  key : h.key.length < 2 ^ 32
  fragsizeExp : h.content.fragsizeExp < 256
  lastFragLength : h.content.lastFragLength < 2 ^ 32
  frags : h.content.unitMap.length < 2 ^ 32
  dots : ∀ d ∈ h.content.unitMap, d < 2 ^ 64
  vv : h.content.vv.Fits

def lenBytes (bs : Bytes) : Bytes := leBytes 4 bs.length ++ bs

def unitMapBytes (dots : List Nat) : Bytes := leBytes 4 dots.length ++ dots.flatMap (leBytes 8)

def Head.bytes (h : Head) : Bytes :=
  lenBytes h.key ++ (leBytes 1 h.content.fragsizeExp ++ (leBytes 4 h.content.lastFragLength ++
    (unitMapBytes h.content.unitMap ++ lenBytes h.content.vv.toBytes)))

/-- The fields of a signed stream are in the ranges of their types. -/
structure ParsedStreamSig.Fits (s : ParsedStreamSig) : Prop where
  frags : s.unitMap.length < 2 ^ 32
  dots : ∀ d ∈ s.unitMap, d < 2 ^ 64
  vv : s.vvBytes.length < 2 ^ 32
  fragsizeExp : s.fragsizeExp < 256
  lastFragLength : s.lastFragLength < 2 ^ 32

def ParsedStreamSig.bytes (s : ParsedStreamSig) : Bytes :=
  unitMapBytes s.unitMap ++
    (lenBytes s.vvBytes ++ (leBytes 1 s.fragsizeExp ++ leBytes 4 s.lastFragLength))

structure ParsedSigningPayload.Fits (p : ParsedSigningPayload) : Prop where
  content : ∀ s, p.content = some s → s.Fits
  metadata : ∀ s, p.metadata = some s → s.Fits

def ParsedSigningPayload.bytes (p : ParsedSigningPayload) : Bytes :=
  ascii "sfsu-sig" ++ (uuidBytes p.uuid ++
    ([(if p.content.isSome then 1 else 0) + (if p.metadata.isSome then 2 else 0)] ++
      (p.content.elim [] ParsedStreamSig.bytes ++ p.metadata.elim [] ParsedStreamSig.bytes)))

/-- The payload is that of a record of unit `u` with the content stream of the projection. -/
def Binds (u : Uuid) (c : Projection) (payload : Bytes) : Prop :=
  ∃ m, parseSigningPayload payload =
    .ok ⟨u, some ⟨c.unitMap, c.vv.toBytes, c.fragsizeExp, c.lastFragLength⟩, m⟩

def blockBytes (b : Signature × Bytes) : Bytes := b.1.toList ++ lenBytes b.2

/-- The author of an incoming record is a current writer. -/
def Authorized (scheme : SignatureScheme) (signer : Signer) (sig : Signature) (payload : Bytes) :
    Prop :=
  match signer.mode with
  | .unsigned => False
  | .signed => scheme.verify signer.writerPubkey payload sig = true
  | .writerSet => ∃ ws, signer.writerSet = some ws ∧
      (writersetVerifyingMember scheme ws payload sig .current).isSome = true

/-- What stands between the content section and the trailer. -/
inductive SignedBlock (scheme : SignatureScheme) (signer : Signer) (u : Uuid) (c : Projection) :
    Bytes → Option Signature → Prop
  | unsigned (mode : signer.mode = .unsigned) : SignedBlock scheme signer u c [] none
  | authored (sig : Signature) (payload : Bytes) (len : payload.length < 2 ^ 32)
      (authorized : Authorized scheme signer sig payload) (binds : Binds u c payload) :
      SignedBlock scheme signer u c (blockBytes (sig, payload)) (some sig)

structure MetaFits (m : IncomingMeta) : Prop where
  version : m.version < 2 ^ 64
  vv : m.vv.Fits
  plain : m.plain.length < 2 ^ 32

def metaBytes (m : IncomingMeta) : Bytes :=
  leBytes 8 m.version ++ (lenBytes m.vv.toBytes ++ lenBytes m.plain)

/-- The rest of a projection: no trailer, or one with or without a Meta stream. -/
inductive Trailer : Bytes → Bool → Option IncomingMeta → Prop
  | absent (rest : Bytes) (h : ¬ (5 ≤ rest.length ∧ rest.take 4 = trailerMagic)) :
    Trailer rest true none
  | plain (hasContent : UInt8) (rest : Bytes) :
      Trailer (trailerMagic ++ ([hasContent, 0] ++ rest)) (hasContent ≠ 0) none
  | withMeta (hasContent present : UInt8) (m : IncomingMeta) (rest : Bytes) (hp : present ≠ 0)
    (hm : MetaFits m) :
      Trailer (trailerMagic ++ ([hasContent, present] ++ (metaBytes m ++ rest))) (hasContent ≠ 0)
        (some m)

theorem Trailer.metaFits {rest : Bytes} {hasContent : Bool} {o : Option IncomingMeta}
    (h : Trailer rest hasContent o) {m : IncomingMeta} (hm : o = some m) : MetaFits m := by
  cases h with
  | absent => cases hm
  | plain => cases hm
  | withMeta _ _ _ _ _ hf =>
    cases hm
    exact hf

/-- `proj` is a projection of unit `u` that says `inc`. -/
def Says (scheme : SignatureScheme) (signer : Signer) (u : Uuid) (proj : Bytes) (inc : Incoming) :
    Prop :=
  ∃ (h : Head) (block tail : Bytes), h.Fits ∧ SignedBlock scheme signer u h.content block inc.carried ∧
    Trailer tail inc.hasContent inc.metadata ∧ proj = h.bytes ++ (block ++ tail) ∧ inc.key = h.key ∧
    inc.content = h.content

/-- The projection ends after the first byte of its trailer. -/
def CutTrailer (scheme : SignatureScheme) (signer : Signer) (u : Uuid) (proj : Bytes) : Prop :=
  ∃ (h : Head) (block : Bytes) (sig : Option Signature) (hasContent : UInt8), h.Fits ∧
    SignedBlock scheme signer u h.content block sig ∧
      proj = h.bytes ++ (block ++ (trailerMagic ++ [hasContent]))

/-! ## The parser and the grammar -/

/-- Projections are shorter than this; offsets into them do not overflow. -/
def maxLen : Nat := 2 ^ 63

theorem decodes_lenBytes (lenErr bytesErr : Error) :
    Decodes maxLen (readLenBytes lenErr bytesErr) lenBytes (·.length < 2 ^ 32) := by
  refine ((decodes_num (w := 4) lenErr (by decide)).bind List.length
    (fun len hlen => decodes_field bytesErr ?_) ?_).congr ?_ fun _ _ => rfl
  · simp only [maxLen]
    omega
  · exact fun _ _ _ h => h
  · exact fun bs => ⟨fun h => h.1, fun h => ⟨h, rfl⟩⟩

theorem decodes_unitMap :
    Decodes maxLen readUnitMap unitMapBytes (fun ds => ds.length < 2 ^ 32 ∧ ∀ d ∈ ds, d < 2 ^ 64) := by
  refine ((decodes_num (w := 4) _ (by decide)).bind List.length
    (fun n hn => decodes_nums (w := 8) _ ?_) ?_).congr ?_ fun _ _ => rfl
  · simp only [maxLen]
    omega
  · exact fun _ _ _ h => h.1
  · exact fun ds => ⟨fun h => ⟨h.1, h.2.2⟩, fun h => ⟨h.1, rfl, h.2⟩⟩

theorem length_toBytes_lt (vv : VersionVector) : vv.toBytes.length < 2 ^ 32 := by
  have := vv.length_entries_le
  rw [length_toBytes]
  omega

section

variable {N : Nat}

theorem decodes_streamSig : Decodes N readStreamSig ParsedStreamSig.bytes ParsedStreamSig.Fits := by
  refine (decodes_u32.bind (fun s => s.unitMap.length) (fun n _ => Decodes.bound _ (by decide : 0 < 8)
    ((decodes_u64.times n).bind (fun s => s.unitMap.map UInt64.ofNat) (fun dots _ =>
      decodes_u32.bind (fun s => s.vvBytes.length) (fun len _ =>
        (decodes_get len _).bind ParsedStreamSig.vvBytes (fun vv _ =>
          (decodes_get 1 _).bind (fun s => leBytes 1 s.fragsizeExp) (fun exp _ =>
            decodes_u32.map (ParsedStreamSig.mk (dots.map UInt64.toNat) vv (leNat exp))
              (·.lastFragLength)
              fun _ _ => rfl) ?_) ?_) ?_) ?_) ?_) ?_).congr ?_ ?_
  · rintro exp s hexp ⟨-, hs⟩
    rw [← hs]
    exact leBytes_leNat_of_length hexp
  · rintro vv s - ⟨-, -, hs⟩
    rw [← hs]
  · exact fun len s _ h => h.1
  · rintro dots s - ⟨-, -, -, -, hs⟩
    rw [← hs, map_map]
    exact (map_congr_left fun x _ => UInt64.ofNat_toNat).trans (map_id' _)
  · rintro s ⟨⟨rfl, -⟩, -⟩
    have := le_length_flatMap le_length_leU64 (s.unitMap.map UInt64.ofNat)
    rw [length_append]
    omega
  · rintro n s - ⟨⟨hn, -⟩, -⟩
    rwa [length_map] at hn
  · intro s
    constructor
    · rintro ⟨hn, -, hv, -, -, hl, hs⟩
      have hexp : leNat (leBytes 1 s.fragsizeExp) = s.fragsizeExp := congrArg (·.fragsizeExp) hs
      refine ⟨hn, fun d hd => ?_, hv, hexp ▸ leNat_lt_of_length (length_leBytes 1 _), hl⟩
      rw [← hs] at hd
      obtain ⟨x, -, rfl⟩ := mem_map.mp hd
      exact x.toNat_lt
    · intro h
      have hdots : (s.unitMap.map UInt64.ofNat).map UInt64.toNat = s.unitMap := by
        rw [map_map]
        exact (map_congr_left fun d hd => Nat.mod_eq_of_lt (h.dots d hd)).trans (map_id' _)
      refine ⟨h.frags, ⟨length_map _, fun _ _ => trivial⟩, h.vv, rfl, length_leBytes ..,
        h.lastFragLength, ?_⟩
      rw [hdots, leNat_leBytes_of_lt h.fragsizeExp]
  · rintro s ⟨-, -, -, -, -, -, hs⟩
    have hdots : (s.unitMap.map UInt64.ofNat).map UInt64.toNat = s.unitMap := congrArg (·.unitMap) hs
    have hmap : (s.unitMap.map UInt64.ofNat).flatMap leU64 = s.unitMap.flatMap (leBytes 8) := by
      conv_rhs => rw [← hdots, flatMap_map]
      rfl
    simp [ParsedStreamSig.bytes, unitMapBytes, lenBytes, hmap]

theorem decodes_streamSigIf (present : Bool) :
    Decodes N (readStreamSigIf present) (·.elim [] ParsedStreamSig.bytes)
    (fun o => o.isSome = present ∧ ∀ s, o = some s → s.Fits) := by
  cases present with
  | false => exact (Decodes.pure none).congr (fun o => by cases o <;> simp) (by rintro _ rfl; rfl)
  | true =>
    refine (decodes_streamSig.map some (·.getD ⟨[], [], 0, 0⟩) fun _ _ => rfl).congr (fun o => ?_) ?_
    · cases o <;> simp
    · rintro (_ | s) ⟨-, h⟩
      · cases h
      · rfl

theorem flags_known (b : UInt8) (h : ¬ b &&& 0xfc ≠ 0) :
    (if decide (b &&& 1 ≠ 0) then 1 else 0) + (if decide (b &&& 2 ≠ 0) then 2 else 0) = b := by
  obtain ⟨⟨i⟩⟩ := b
  revert i
  decide +kernel

theorem decodes_signedFields :
    Decodes N readSignedFields ParsedSigningPayload.bytes ParsedSigningPayload.Fits := by
  refine ((decodes_get 8 _).bind (fun _ => ascii "sfsu-sig") (fun magic _ => Decodes.unless _ fun _ =>
    decodes_uuid.bind ParsedSigningPayload.uuid (fun uuid _ => (decodes_get 1 _).bind
      (fun p => [(if p.content.isSome then 1 else 0) + (if p.metadata.isSome then 2 else 0)])
      (fun flags _ => Decodes.unless _ fun _ =>
        (decodes_streamSigIf _).bind ParsedSigningPayload.content
        (fun content _ => (decodes_streamSigIf _).map (ParsedSigningPayload.mk uuid content)
          (·.metadata)
          fun _ _ => rfl) ?_) ?_) ?_) ?_).congr ?_ ?_
  · rintro content p - ⟨-, hp⟩
    rw [← hp]
  · rintro flags p hlen ⟨hknown, ⟨hc, -⟩, ⟨hm, -⟩, -⟩
    obtain ⟨b, rfl⟩ := length_eq_one_iff.mp hlen
    rw [hc, hm]
    exact congrArg ([·]) (flags_known b hknown)
  · rintro uuid p - ⟨-, -, -, -, hp⟩
    rw [← hp]
  · exact fun magic p _ h => (not_not.mp h.1).symm
  · intro p
    obtain ⟨hknown, hbit0, hbit1⟩ := flags_spec p.content.isSome p.metadata.isSome
    constructor
    · rintro ⟨-, -, -, -, -, ⟨-, hc⟩, ⟨-, hm⟩, -⟩
      exact ⟨hc, hm⟩
    · exact fun h => ⟨rfl, not_not.mpr rfl, trivial, rfl, hknown, ⟨hbit0.symm, h.content⟩,
        ⟨hbit1.symm, h.metadata⟩, rfl⟩
  · exact fun p _ => rfl

/-- Off the layout of its fields and what follows. -/
theorem parseSigningPayload_append {p : ParsedSigningPayload} (h : p.Fits) (ys : Bytes) :
    parseSigningPayload (p.bytes ++ ys) = if ys.length ≠ 0 then
        .err (.integrity ("signing_payload: " ++ toString ys.length ++ " trailing bytes after parse"))
      else .ok p := by
  rw [parseSigningPayload, Reader.run, readSigningPayload,
    bind_ok (decodes_signedFields.append h (zero_add _).le)]
  cases ys <;> rfl

theorem parseSigningPayload_cases (buf : Bytes) :
    (∃ e, parseSigningPayload buf = .err e) ∨
      ∃ (p : ParsedSigningPayload) (ys : Bytes), p.Fits ∧ buf = p.bytes ++ ys := by
  have hN : Within buf.length ⟨0, buf⟩ := (zero_add _).le
  cases hr : readSignedFields ⟨0, buf⟩ with
  | panic => exact absurd hr (decodes_signedFields.safe _ hN)
  | err e =>
    refine .inl ⟨e, ?_⟩
    rw [parseSigningPayload, Reader.run, readSigningPayload, bind_err hr]
  | ok x =>
    obtain ⟨hf, hbuf, -⟩ := (decodes_signedFields.ok_iff _ hN x.1 x.2).mp hr
    exact .inr ⟨x.1, x.2.rest, hf, hbuf⟩

/-- What is accepted is laid out as its fields say. -/
theorem parseSigningPayload_eq_ok_iff {buf : Bytes} {p : ParsedSigningPayload} :
    parseSigningPayload buf = .ok p ↔ p.Fits ∧ buf = p.bytes := by
  constructor
  · intro h
    rcases parseSigningPayload_cases buf with ⟨e, he⟩ | ⟨q, ys, hf, rfl⟩
    · rw [he] at h
      cases h
    · rw [parseSigningPayload_append hf] at h
      cases ys <;> cases h
      exact ⟨hf, append_nil _⟩
  · rintro ⟨hf, rfl⟩
    simpa using parseSigningPayload_append hf []

theorem parseSigningPayload_ne_panic (buf : Bytes) : parseSigningPayload buf ≠ .panic := by
  rcases parseSigningPayload_cases buf with ⟨e, he⟩ | ⟨q, ys, hf, rfl⟩
  · rw [he]
    nofun
  · rw [parseSigningPayload_append hf]
    cases ys <;> nofun

end

theorem decodes_vv : Decodes maxLen readVv (fun vv => lenBytes vv.toBytes) VersionVector.Fits := by
  refine ((decodes_lenBytes _ _).bind VersionVector.toBytes (fun bs _ => Decodes.ofExcept) ?_).congr
    ?_ ?_
  · exact fun bs vv _ h => (fromBytes_eq_ok_iff.mp h).2.symm
  · intro vv
    constructor
    · exact fun h => (fromBytes_eq_ok_iff.mp h.2).1
    · exact fun h => ⟨length_toBytes_lt vv, fromBytes_eq_ok_iff.mpr ⟨h, rfl⟩⟩
  · exact fun vv _ => append_nil _

theorem decodes_projHead : Decodes maxLen readProjHead Head.bytes Head.Fits := by
  refine ((decodes_lenBytes _ _).bind Head.key (fun key _ =>
    (decodes_num (w := 1) _ (by decide)).bind (fun h : Head => h.content.fragsizeExp) (fun exp _ =>
      (decodes_num (w := 4) _ (by decide)).bind (fun h : Head => h.content.lastFragLength)
        (fun len _ =>
        decodes_unitMap.bind (fun h : Head => h.content.unitMap) (fun dots _ =>
          decodes_vv.bind (fun h : Head => h.content.vv) (fun vv _ => Decodes.pure _)
            ?_) ?_) ?_) ?_) ?_).congr ?_ ?_
  · rintro vv _ _ rfl
    rfl
  · rintro dots _ _ ⟨-, h⟩
    rw [h]
  · rintro len _ _ ⟨-, -, h⟩
    rw [h]
  · rintro exp _ _ ⟨-, -, -, h⟩
    rw [h]
  · rintro key _ _ ⟨-, -, -, -, h⟩
    rw [h]
  · intro h
    constructor
    · rintro ⟨h1, h2, h3, ⟨h4, h5⟩, h6, -⟩
      exact ⟨h1, h2, h3, h4, h5, h6⟩
    · rintro ⟨h1, h2, h3, h4, h5, h6⟩
      exact ⟨h1, h2, h3, ⟨h4, h5⟩, h6, rfl⟩
  · simp [Head.bytes]

theorem decodes_block (missing truncated : String) :
    Decodes maxLen (readBlock missing truncated) blockBytes (fun b => b.2.length < 2 ^ 32) := by
  have heq : readBlock missing truncated = (do
      let z ← field (64 + 4) (.integrity missing)
      let payload ← field (leNat (z.drop 64)) (.integrity truncated)
      return (arr 64 (z.take 64), payload)) := by
    have hpair := slice_slice 64 4 fun sig len => (do
      need (leNat len) (.integrity truncated)
      let payload ← slice (leNat len)
      return (arr 64 sig, payload) : Reader Error (Signature × Bytes))
    simp only [field_bind]
    rw [readBlock, hpair]
  rw [heq]
  have hlen : ∀ z : Bytes, z.length = 64 + 4 → (z.drop 64).length = 4 := fun z hz => by
    rw [length_drop]
    omega
  have hnum : ∀ z : Bytes, z.length = 64 + 4 → leNat (z.drop 64) < 2 ^ 32 := fun z hz => by
    exact leNat_lt_of_length (hlen z hz)
  refine ((decodes_field _ (by decide)).bind
    (fun b : Signature × Bytes => b.1.toList ++ leBytes 4 b.2.length)
    (fun z hz => (decodes_field _ ?_).map (fun payload => (arr 64 (z.take 64), payload)) Prod.snd
      fun _ _ => rfl) ?_).congr ?_ ?_
  · exact (Nat.add_lt_add_left (hnum z hz) maxLen).trans (by decide)
  · rintro z ⟨sig, payload⟩ hz ⟨hp, heq⟩
    rw [Prod.mk.injEq] at heq
    obtain ⟨rfl, -⟩ := heq
    have h4 := leBytes_leNat_of_length (hlen z hz)
    have htake : (z.take 64).length = 64 := by rw [length_take]; omega
    simp only [hp, h4, toList_arr htake, take_append_drop]
  · rintro ⟨sig, payload⟩
    have hdrop : (sig.toList ++ leBytes 4 payload.length).drop 64 = leBytes 4 payload.length :=
      drop_left' (by simp)
    have htake : (sig.toList ++ leBytes 4 payload.length).take 64 = sig.toList := take_left' (by simp)
    simp only [hdrop, htake, arr_toList, and_true]
    rw [leNat_leBytes]
    constructor
    · rintro ⟨-, h⟩
      rw [h]
      exact Nat.mod_lt _ (by decide)
    · intro h
      exact ⟨by simp, (Nat.mod_eq_of_lt h).symm⟩
  · simp [blockBytes, lenBytes]

theorem bindSigned_ne_panic (label : String) (u : Uuid) (head : Head) (payload : Bytes) :
    bindSigned label u head payload ≠ .panic := by
  intro h
  unfold bindSigned at h
  split at h
  · rename_i hp
    exact parseSigningPayload_ne_panic payload hp
  · cases h
  split_ifs at h
  split at h
  · cases h
  · split_ifs at h
    split at h <;> cases h

/-- The bound fields are those of the projection. -/
theorem bindSigned_ok_iff {label : String} {u : Uuid} {head head' : Head} {payload : Bytes}
    (hv : head.content.vv.Fits) :
    bindSigned label u head payload = .ok head' ↔ head' = head ∧ Binds u head.content payload := by
  constructor
  · intro h
    unfold bindSigned at h
    split at h
    · cases h
    · cases h
    rename_i parsed hp
    split_ifs at h with hu
    push Not at hu
    split at h
    · cases h
    rename_i c hc
    split_ifs at h with h1 h2 h3 h4
    push Not at h1 h2 h3 h4
    obtain ⟨uuid, content, metadata⟩ := parsed
    obtain ⟨unitMap, vvBytes, exp, lfl⟩ := c
    subst hu hc h1 h2 h3 h4
    simp only [fromBytes_eq_ok_iff.mpr ⟨hv, rfl⟩] at h
    cases h
    exact ⟨rfl, metadata, hp⟩
  · rintro ⟨rfl, m, hp⟩
    unfold bindSigned
    rw [hp]
    simp only [ne_eq, not_true_eq_false, if_false, fromBytes_eq_ok_iff.mpr ⟨hv, rfl⟩]

section

variable {scheme : SignatureScheme} {signer : Signer} {u : Uuid} {head head' : Head}
  {sig : Option Signature}
  {c c' : Cursor}

theorem readAuthored_ok_iff {label missing truncated refused : String}
    {authorized : Signature → Bytes → Bool} (hv : head.content.vv.Fits) (hc : Within maxLen c) :
    readAuthored u label missing truncated refused authorized head c = .ok ((head', sig), c') ↔
      head' = head ∧ ∃ s payload, sig = some s ∧ payload.length < 2 ^ 32 ∧
        authorized s payload = true ∧
        Binds u head.content payload ∧ c.rest = blockBytes (s, payload) ++ c'.rest ∧
        c'.off = c.off + (blockBytes (s, payload)).length := by
  have hblock := (decodes_block missing truncated).ok_iff c hc
  unfold readAuthored
  rw [Reader.bind_eq_ok_iff]
  constructor
  · rintro ⟨⟨s, payload⟩, c₁, hb, h⟩
    obtain ⟨hlen, hrest, hoff⟩ := (hblock _ _).mp hb
    simp only at h
    split at h
    · rename_i ha
      obtain ⟨h₁, c₂, ho, hp⟩ := Reader.bind_eq_ok_iff.mp h
      obtain ⟨hbind, rfl⟩ := ofOutcome_eq_ok_iff.mp ho
      obtain ⟨rfl, hbs⟩ := (bindSigned_ok_iff hv).mp hbind
      cases hp
      exact ⟨rfl, s, payload, rfl, hlen, ha, hbs, hrest, hoff⟩
    · cases h
  · rintro ⟨rfl, s, payload, rfl, hlen, ha, hbs, hrest, hoff⟩
    refine ⟨(s, payload), c', (hblock _ _).mpr ⟨hlen, hrest, hoff⟩, ?_⟩
    simp only [ha, if_true]
    exact Reader.bind_eq_ok_iff.mpr
      ⟨head', c', ofOutcome_eq_ok_iff.mpr ⟨(bindSigned_ok_iff hv).mpr ⟨rfl, hbs⟩, rfl⟩, rfl⟩

theorem readAuthored_ne_panic {label missing truncated refused : String}
    {authorized : Signature → Bytes → Bool} (hc : Within maxLen c) :
    readAuthored u label missing truncated refused authorized head c ≠ .panic := by
  intro h
  rcases bind_eq_panic_iff.mp h with h | ⟨⟨s, payload⟩, c₁, -, h⟩
  · exact (decodes_block missing truncated).safe c hc h
  simp only at h
  split at h
  · rcases bind_eq_panic_iff.mp h with h | ⟨h₁, c₂, -, h⟩
    · unfold ofOutcome at h
      split at h
      · cases h
      · cases h
      · rename_i hp
        exact bindSigned_ne_panic label u head payload hp
    · cases h
  · cases h

theorem readSigned_ne_panic (hc : Within maxLen c) : readSigned scheme signer u head c ≠ .panic := by
  unfold readSigned
  cases signer.mode with
  | unsigned => exact fun h => (nomatch h)
  | signed => exact readAuthored_ne_panic hc
  | writerSet =>
    cases signer.writerSet with
    | none => exact fun h => (nomatch h)
    | some ws => exact readAuthored_ne_panic hc

theorem readSigned_ok_iff (hv : head.content.vv.Fits) (hc : Within maxLen c) :
    readSigned scheme signer u head c = .ok ((head', sig), c') ↔
      head' = head ∧ ∃ block, SignedBlock scheme signer u head.content block sig ∧
        c.rest = block ++ c'.rest ∧
        c'.off = c.off + block.length := by
  constructor
  · intro h
    unfold readSigned at h
    cases hmode : signer.mode with
    | unsigned =>
      simp only [hmode] at h
      cases h
      exact ⟨rfl, [], .unsigned hmode, rfl, rfl⟩
    | writerSet =>
      simp only [hmode] at h
      cases hws : signer.writerSet with
      | none =>
        simp only [hws] at h
        cases h
      | some ws =>
        simp only [hws] at h
        obtain ⟨rfl, s, payload, rfl, hlen, ha, hb, hrest, hoff⟩ := (readAuthored_ok_iff hv hc).mp h
        refine ⟨rfl, _, .authored s payload hlen ?_ hb, hrest, hoff⟩
        simp only [Authorized, hmode]
        exact ⟨ws, hws, ha⟩
    | signed =>
      simp only [hmode] at h
      obtain ⟨rfl, s, payload, rfl, hlen, ha, hb, hrest, hoff⟩ := (readAuthored_ok_iff hv hc).mp h
      refine ⟨rfl, _, .authored s payload hlen ?_ hb, hrest, hoff⟩
      simp only [Authorized, hmode]
      exact ha
  · rintro ⟨rfl, block, hb, hrest, hoff⟩
    cases hb with
    | unsigned hmode =>
      have : c' = c := Cursor.ext (by simpa using hoff) (by simpa using hrest.symm)
      simp only [readSigned, hmode, this]
      rfl
    | authored s payload hlen ha hb =>
      unfold readSigned
      unfold Authorized at ha
      split at ha
      · exact ha.elim
      · rename_i hmode
        simp only [hmode]
        exact (readAuthored_ok_iff hv hc).mpr ⟨rfl, s, payload, rfl, hlen, ha, hb, hrest, hoff⟩
      · rename_i hmode
        obtain ⟨ws, hws, hm⟩ := ha
        simp only [hmode, hws]
        exact (readAuthored_ok_iff hv hc).mpr ⟨rfl, s, payload, rfl, hlen, hm, hb, hrest, hoff⟩

end

/-! ### The trailer -/

/-- The trailer's Meta stream field by field, each under its own guard. -/
theorem readTrailerMeta_eq : readTrailerMeta = (do
    let z ← field (8 + 4) (.integrity "import_record: meta trailer truncated (version/vv_len)")
    let y ← field (leNat (z.drop 8) + 4)
      (.integrity "import_record: meta trailer truncated (vv bytes/meta_len)")
    let vv ← ofExcept (VersionVector.fromBytes (y.take (leNat (z.drop 8))))
    let plain ← field (leNat (y.drop (leNat (z.drop 8))))
      (.integrity "import_record: meta trailer truncated (meta bytes)")
    return ⟨leNat (z.take 8), vv, plain⟩) := by
  have hfirst := slice_slice 8 4 fun version vvLen => (do
    need (leNat vvLen + 4) (.integrity "import_record: meta trailer truncated (vv bytes/meta_len)")
    let vvBytes ← slice (leNat vvLen)
    let vv ← ofExcept (VersionVector.fromBytes vvBytes)
    let metaLen ← slice 4
    need (leNat metaLen) (.integrity "import_record: meta trailer truncated (meta bytes)")
    let plain ← slice (leNat metaLen)
    return ⟨leNat version, vv, plain⟩ : Reader Error IncomingMeta)
  rw [readTrailerMeta, hfirst, field_bind]
  congr 1
  funext _
  congr 1
  funext z
  rw [field_check (leNat (z.drop 8)) 4 _ VersionVector.fromBytes fun vv metaLen => (do
    need (leNat metaLen) (.integrity "import_record: meta trailer truncated (meta bytes)")
    let plain ← slice (leNat metaLen)
    return ⟨leNat (z.take 8), vv, plain⟩ : Reader Error IncomingMeta)]
  simp only [field_bind]

theorem decodes_trailerMeta : Decodes maxLen readTrailerMeta metaBytes MetaFits := by
  have hlt : ∀ bs : Bytes, bs.length = 4 → maxLen + (leNat bs + 4) < 2 ^ 64 := fun bs h => by
    have := leNat_lt_of_length h
    have h4 : leNat bs + 4 ≤ 2 ^ 33 := by omega
    exact (Nat.add_le_add_left h4 maxLen).trans_lt (by decide)
  have hvvLen : ∀ z : Bytes, z.length = 8 + 4 → (z.drop 8).length = 4 := fun z hz => by
    rw [length_drop]
    omega
  have hplainLen : ∀ (n : Nat) (y : Bytes), y.length = n + 4 → (y.drop n).length = 4 :=
      fun n y hy => by
    rw [length_drop]
    omega
  rw [readTrailerMeta_eq]
  refine ((decodes_field _ (by decide)).bind
    (fun m : IncomingMeta => leBytes 8 m.version ++ leBytes 4 m.vv.toBytes.length) (fun z hz =>
      (decodes_field _ (hlt _ (hvvLen z hz))).bind
        (fun m : IncomingMeta => m.vv.toBytes ++ leBytes 4 m.plain.length) (fun y hy =>
          Decodes.ofExcept.bind (fun m : IncomingMeta => m.vv) (fun vv hvv =>
            (decodes_field _ ?_).map (fun plain => IncomingMeta.mk (leNat (z.take 8)) vv plain)
              IncomingMeta.plain fun _ _ => rfl) ?_) ?_) ?_).congr ?_ ?_
  · have := hlt _ (hplainLen _ y hy)
    omega
  · rintro vv m hvv ⟨-, hm⟩
    rw [← hm]
  · rintro y m hy ⟨hvv, hlen, -⟩
    have h4 := leBytes_leNat_of_length (hplainLen _ y hy)
    rw [hlen, h4, ← (fromBytes_eq_ok_iff.mp hvv).2, take_append_drop]
  · rintro z m hz ⟨hy, -, -, hm⟩
    have h4 := leBytes_leNat_of_length (hvvLen z hz)
    have h8 := leBytes_leNat_of_length (show (z.take 8).length = 8 by rw [length_take]; omega)
    rw [length_append, length_leBytes] at hy
    have hv : m.vv.toBytes.length = leNat (z.drop 8) := by omega
    have hver : m.version = leNat (z.take 8) := by rw [← hm]
    rw [hv, hver, h4, h8, take_append_drop]
  · intro m
    have hdrop : (leBytes 8 m.version ++ leBytes 4 m.vv.toBytes.length).drop 8 =
        leBytes 4 m.vv.toBytes.length :=
      drop_left' (length_leBytes ..)
    have htake : (leBytes 8 m.version ++ leBytes 4 m.vv.toBytes.length).take 8 = leBytes 8 m.version :=
      take_left' (length_leBytes ..)
    have hvv : leNat (leBytes 4 m.vv.toBytes.length) = m.vv.toBytes.length :=
      leNat_leBytes_of_lt (length_toBytes_lt m.vv)
    simp only [hdrop, htake, hvv, take_left, drop_left, fromBytes_eq_ok_iff]
    constructor
    · rintro ⟨-, -, ⟨hf, -⟩, hp, hm⟩
      refine ⟨?_, hf, hp ▸ leNat_lt_of_length (length_leBytes ..)⟩
      rw [← hm]
      exact leNat_lt_of_length (length_leBytes ..)
    · rintro ⟨hver, hf, hp⟩
      refine ⟨by simp, by simp, ⟨hf, trivial⟩, (leNat_leBytes_of_lt hp).symm, ?_⟩
      rw [leNat_leBytes_of_lt hver]
  · simp [metaBytes, lenBytes]

section

variable {c : Cursor}

/-- Up to the byte `meta_present`, which is read without a guard of its own. -/
theorem readTrailer_magic {off : Nat} (hasContent : UInt8) (rest : Bytes) :
    readTrailer ⟨off, trailerMagic ++ hasContent :: rest⟩ =
      (do
        let metaPresent ← slice 1
        if leNat metaPresent ≠ 0 then
          let m ← readTrailerMeta
          return (decide (leNat [hasContent] ≠ 0), some m)
        else return (decide (leNat [hasContent] ≠ 0), none) :
          Reader Error (Bool × Option IncomingMeta))
        ⟨off + 4 + 1, rest⟩ := rfl

theorem leNat_singleton_ne_zero (b : UInt8) : leNat [b] ≠ 0 ↔ b ≠ 0 := by
  have : leNat [b] = b.toNat := by simp [leNat]
  rw [this, Ne, Ne, ← UInt8.toNat_inj]
  rfl

theorem readTrailer_one {off : Nat} (hasContent : UInt8) :
    readTrailer ⟨off, trailerMagic ++ [hasContent]⟩ = .panic := by
  rfl

theorem readTrailer_two {off : Nat} (hasContent present : UInt8) (rest : Bytes) :
    readTrailer ⟨off, trailerMagic ++ ([hasContent, present] ++ rest)⟩ =
      (if present ≠ 0 then (do
          let m ← readTrailerMeta
          return (decide (hasContent ≠ 0), some m))
        else return (decide (hasContent ≠ 0), none) : Reader Error (Bool × Option IncomingMeta))
        ⟨off + 4 + 1 + 1, rest⟩ := by
  have hbyte : (slice 1 : Reader Error Bytes) ⟨off + 4 + 1, present :: rest⟩ =
      .ok ([present], ⟨off + 4 + 1 + 1, rest⟩) := slice_eq_ok_iff.mpr ⟨rfl, rfl, rfl⟩
  show readTrailer ⟨off, trailerMagic ++ hasContent :: present :: rest⟩ = _
  rw [readTrailer_magic, bind_ok hbyte]
  simp only [leNat_singleton_ne_zero]

theorem readTrailer_absent (h : ¬ (5 ≤ c.rest.length ∧ c.rest.take 4 = trailerMagic)) :
    readTrailer c = .ok ((true, none), c) := by
  have hpeek : (peek : Reader Error Bytes) c = .ok (c.rest, c) := rfl
  rw [readTrailer, bind_ok hpeek, if_neg h]
  rfl

/-- What is left is no trailer, one that is cut, or one with both bytes. -/
theorem trailer_cases (rest : Bytes) :
    (¬ (5 ≤ rest.length ∧ rest.take 4 = trailerMagic)) ∨ (∃ b, rest = trailerMagic ++ [b]) ∨
      ∃ b p rest', rest = trailerMagic ++ ([b, p] ++ rest') := by
  by_cases h : 5 ≤ rest.length ∧ rest.take 4 = trailerMagic
  · obtain ⟨hlen, hmagic⟩ := h
    have hsplit : rest = trailerMagic ++ rest.drop 4 := by rw [← hmagic, take_append_drop]
    right
    cases hd : rest.drop 4 with
    | nil =>
      have := congrArg List.length hd
      rw [length_drop, length_nil] at this
      omega
    | cons b tl =>
      rw [hd] at hsplit
      cases tl with
      | nil => exact .inl ⟨b, hsplit⟩
      | cons p rest' => exact .inr ⟨b, p, rest', hsplit⟩
  · exact .inl h

theorem within_trailer {off : Nat} {b p : UInt8} {rest : Bytes}
    (h : Within maxLen ⟨off, trailerMagic ++ ([b, p] ++ rest)⟩) :
    Within maxLen ⟨off + 4 + 1 + 1, rest⟩ := by
  unfold Within at *
  have hlen : trailerMagic.length = 4 := rfl
  simp only [length_append, length_cons, length_nil, hlen] at h ⊢
  omega

theorem readTrailer_panic_iff (hc : Within maxLen c) :
    readTrailer c = .panic ↔ ∃ b, c.rest = trailerMagic ++ [b] := by
  obtain ⟨off, rest⟩ := c
  rcases trailer_cases rest with h | ⟨b, rfl⟩ | ⟨b, p, rest', rfl⟩
  · rw [readTrailer_absent h]
    refine iff_of_false (fun h => (nomatch h)) ?_
    rintro ⟨b, hb⟩
    subst hb
    exact h ⟨le_of_eq rfl, take_left' rfl⟩
  · exact iff_of_true (readTrailer_one b) ⟨b, rfl⟩
  rw [readTrailer_two]
  refine iff_of_false ?_ ?_
  · split
    · intro h
      rcases bind_eq_panic_iff.mp h with h | ⟨m, c', -, h⟩
      · exact decodes_trailerMeta.safe _ (within_trailer hc) h
      · cases h
    · exact fun h => (nomatch h)
  · rintro ⟨b', hb⟩
    have := congrArg List.length hb
    simp at this

theorem readTrailer_ok_iff (hc : Within maxLen c) {hasContent : Bool} {m : Option IncomingMeta} :
    (∃ c', readTrailer c = .ok ((hasContent, m), c')) ↔ Trailer c.rest hasContent m := by
  obtain ⟨off, rest⟩ := c
  constructor
  · rintro ⟨c', h⟩
    rcases trailer_cases rest with hn | ⟨b, rfl⟩ | ⟨b, p, rest', rfl⟩
    · rw [readTrailer_absent hn] at h
      cases h
      exact .absent rest hn
    · cases h
    rw [readTrailer_two] at h
    split at h
    · rename_i hp
      obtain ⟨m', c₁, hm, h⟩ := Reader.bind_eq_ok_iff.mp h
      cases h
      obtain ⟨hf, hrest, -⟩ := (decodes_trailerMeta.ok_iff _ (within_trailer hc) m' c').mp hm
      simp only at hrest
      rw [hrest]
      exact .withMeta b p m' c'.rest hp hf
    · rename_i hp
      cases h
      obtain rfl : p = 0 := not_not.mp hp
      exact .plain b rest'
  · intro h
    simp only at h
    cases h with
    | absent _ hn => exact ⟨_, readTrailer_absent hn⟩
    | plain b rest' => exact ⟨⟨off + 4 + 1 + 1, rest'⟩, by rw [readTrailer_two]; rfl⟩
    | withMeta b p m' rest' hp hf =>
      have hm := decodes_trailerMeta.append hf (within_trailer hc)
      exact ⟨_, by rw [readTrailer_two, if_pos hp, bind_ok hm]; rfl⟩

end

/-! ### The whole projection -/

section

variable {scheme : SignatureScheme} {signer : Signer} {u : Uuid} {proj : Bytes}

theorem within_start (hlen : proj.length ≤ maxLen) : Within maxLen ⟨0, proj⟩ := by
  unfold Within
  simpa using hlen

theorem within_block {c c' : Cursor} {block : Bytes} (hc : Within maxLen c)
    (hrest : c.rest = block ++ c'.rest) (hoff : c'.off = c.off + block.length) :
    Within maxLen c' := by
  unfold Within at *
  rw [hrest, length_append] at hc
  omega

/-- The parser accepts exactly the projections of the grammar. -/
theorem parseProjection_ok_iff {inc : Incoming} (hlen : proj.length ≤ maxLen) :
    parseProjection scheme signer u proj = .ok inc ↔ Says scheme signer u proj inc := by
  have h0 := within_start hlen
  have hrun : parseProjection scheme signer u proj = .ok inc ↔
      ∃ c', readProjection scheme signer u ⟨0, proj⟩ = .ok (inc, c') := by
    unfold parseProjection Reader.run
    cases readProjection scheme signer u ⟨0, proj⟩ with
    | ok p => simp [Prod.ext_iff]
    | err e => simp
    | panic => simp
  rw [hrun]
  constructor
  · rintro ⟨c', h⟩
    obtain ⟨head, c₁, hh, h⟩ := Reader.bind_eq_ok_iff.mp h
    have hc₁ := decodes_projHead.within h0 hh
    obtain ⟨hf, hrest, -⟩ := (decodes_projHead.ok_iff _ h0 head c₁).mp hh
    obtain ⟨⟨head', sig⟩, c₂, hs, h₂⟩ := Reader.bind_eq_ok_iff.mp h
    obtain ⟨rfl, block, hb, hrest₂, hoff₂⟩ := (readSigned_ok_iff hf.vv hc₁).mp hs
    have hc₂ := within_block hc₁ hrest₂ hoff₂
    obtain ⟨⟨hasContent, m⟩, c₃, ht, h₃⟩ := Reader.bind_eq_ok_iff.mp h₂
    cases h₃
    refine ⟨head', block, c₂.rest, hf, hb, (readTrailer_ok_iff hc₂).mp ⟨_, ht⟩, ?_, rfl, rfl⟩
    rw [← hrest₂, ← hrest]
  · rintro ⟨head, block, tail, hf, hb, ht, rfl, hkey, hcont⟩
    have hh : readProjHead ⟨0, head.bytes ++ (block ++ tail)⟩ =
        .ok (head, ⟨0 + head.bytes.length, block ++ tail⟩) := decodes_projHead.append hf (by omega)
    have hc₁ := decodes_projHead.within h0 hh
    have hs : readSigned scheme signer u head ⟨0 + head.bytes.length, block ++ tail⟩ =
        .ok ((head, inc.carried), ⟨0 + head.bytes.length + block.length, tail⟩) :=
      (readSigned_ok_iff hf.vv hc₁).mpr ⟨rfl, block, hb, rfl, rfl⟩
    have hc₂ : Within maxLen ⟨0 + head.bytes.length + block.length, tail⟩ := within_block hc₁ rfl rfl
    obtain ⟨c₃, ht⟩ := (readTrailer_ok_iff hc₂).mpr ht
    refine ⟨c₃, ?_⟩
    rw [readProjection, bind_ok hh, bind_ok hs]
    simp only
    rw [bind_ok ht]
    obtain ⟨key, content, carried, hasContent, metadata⟩ := inc
    simp only at hkey hcont
    rw [hkey, hcont]
    rfl

/-- The parser panics exactly on a projection that is cut after the first byte of its trailer. -/
theorem parseProjection_panic_iff (hlen : proj.length ≤ maxLen) :
    parseProjection scheme signer u proj = .panic ↔ CutTrailer scheme signer u proj := by
  have h0 := within_start hlen
  have hrun : parseProjection scheme signer u proj = .panic ↔
      readProjection scheme signer u ⟨0, proj⟩ = .panic := by
    unfold parseProjection Reader.run
    cases readProjection scheme signer u ⟨0, proj⟩ <;> simp
  rw [hrun]
  constructor
  · intro h
    rcases bind_eq_panic_iff.mp h with h | ⟨head, c₁, hh, h⟩
    · exact absurd h (decodes_projHead.safe _ h0)
    have hc₁ := decodes_projHead.within h0 hh
    obtain ⟨hf, hrest, -⟩ := (decodes_projHead.ok_iff _ h0 head c₁).mp hh
    rcases bind_eq_panic_iff.mp h with h | ⟨⟨head', sig⟩, c₂, hs, h₂⟩
    · exact absurd h (readSigned_ne_panic hc₁)
    obtain ⟨rfl, block, hb, hrest₂, hoff₂⟩ := (readSigned_ok_iff hf.vv hc₁).mp hs
    have hc₂ := within_block hc₁ hrest₂ hoff₂
    rcases bind_eq_panic_iff.mp h₂ with h₃ | ⟨_, c₃, -, h₃⟩
    · obtain ⟨b, hcut⟩ := (readTrailer_panic_iff hc₂).mp h₃
      refine ⟨head', block, sig, b, hf, hb, ?_⟩
      rw [← hcut, ← hrest₂, ← hrest]
    · cases h₃
  · rintro ⟨head, block, sig, b, hf, hb, rfl⟩
    have hh : readProjHead ⟨0, head.bytes ++ (block ++ (trailerMagic ++ [b]))⟩ =
        .ok (head, ⟨0 + head.bytes.length, block ++ (trailerMagic ++ [b])⟩) :=
      decodes_projHead.append hf (by omega)
    have hc₁ := decodes_projHead.within h0 hh
    have hs : readSigned scheme signer u head ⟨0 + head.bytes.length, block ++ (trailerMagic ++ [b])⟩ =
        .ok ((head, sig), ⟨0 + head.bytes.length + block.length, trailerMagic ++ [b]⟩) :=
      (readSigned_ok_iff hf.vv hc₁).mpr ⟨rfl, block, hb, rfl, rfl⟩
    rw [readProjection, bind_ok hh, bind_ok hs]
    simp only
    rw [bind_apply, readTrailer_one]

/-- What is accepted in a signed mode binds the payload of its block. -/
theorem binds_of_parse {head : Head} {sig : Signature} {payload tail : Bytes} {inc : Incoming}
    (hlen : (head.bytes ++ (blockBytes (sig, payload) ++ tail)).length ≤ maxLen) (hf : head.Fits)
    (hp : payload.length < 2 ^ 32) (hmode : signer.mode ≠ .unsigned)
    (h : parseProjection scheme signer u (head.bytes ++ (blockBytes (sig, payload) ++ tail)) =
      .ok inc) :
    Binds u head.content payload := by
  obtain ⟨head', block, tail', hf', hb, -, heq, -, -⟩ := (parseProjection_ok_iff hlen).mp h
  obtain ⟨rfl, hrest⟩ := decodes_projHead.append_inj hf hf' heq hlen
  generalize inc.carried = carried at hb
  cases hb with
  | unsigned mode => exact absurd mode hmode
  | authored sig' payload' hp' _ binds =>
    have hle : (blockBytes (sig, payload) ++ tail).length ≤ maxLen := by
      rw [length_append] at hlen
      omega
    obtain ⟨hpair, -⟩ := (decodes_block "" "").append_inj hp hp' hrest hle
    cases hpair
    exact binds

end

end Sfs.Sync

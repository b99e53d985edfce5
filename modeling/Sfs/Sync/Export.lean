import Sfs.Sync.Wire

/-!
# Exporting a record and importing it elsewhere

`project_record` lays a head record out as a projection; an empty replica with the same key and
writers imports it. What is signed, what travels and what is built again are three sets of
fields: the payload covers the Meta stream and the database head, the record built on import has
neither. So in the signed modes only a record with a content stream and nothing else makes the
trip (`export_import_iff`).
-/

namespace Sfs.Sync

open Sfs.Lib Sfs.Version List Reader UInt64

variable {inc : Incoming} {sig : Signature}
open Sfs.Container (SignMode)

variable {β : Type}

/-- The AEAD envelope of a projection, with the uuid in front. -/
structure Transport where
  wrap : Uuid → Bytes → Bytes
  unwrap : Bytes → Result (Uuid × Bytes)

/-- The plaintext of a sealed Meta block: the seal is bound to the unit and the dot. -/
abbrev OpenMeta (β : Type) := Uuid → BlockVersion → Option β → Result Bytes

/-- `read_meta` of a head record. -/
def readMeta (openMeta : OpenMeta β) (u : Uuid) (r : Record β) : Result (Option Bytes) :=
  match r.metadata with
  | none => .ok none
  | some s =>
    match s.frags with
    | [] => .ok none
    | fr :: _ => (openMeta u fr.version fr.block).map some

/-- The content section; a unit without content has an empty one. -/
def exportHead (key : Bytes) (r : Record β) : Head :=
  ⟨key, (r.content.map Version.projectRecord).getD ⟨[], .new, 0, 0⟩⟩

/-- The signature and what it signs; a record without a signature has no block. -/
def exportBlock (mode : SignMode) (u : Uuid) (r : Record β) : Bytes :=
  match mode, r.signature with
  | .unsigned, _ => []
  | _, none => []
  | _, some sig => blockBytes (sig, signingPayload u r)

/-- The Meta stream as it travels. -/
def exportMeta (openMeta : OpenMeta β) (u : Uuid) (r : Record β) : Result (Option IncomingMeta) :=
  match r.metadata with
  | none => .ok none
  | some s =>
    match s.frags with
    | [] => .ok none
    | fr :: _ => (openMeta u fr.version fr.block).map fun plain => some ⟨fr.version, s.vv, plain⟩

def metaTail (m : Option IncomingMeta) : Bytes :=
  match m with
  | none => [0]
  | some m => 1 :: metaBytes m

/-- The bytes of a projection. -/
def exportedBytes (mode : SignMode) (key : Bytes) (u : Uuid) (r : Record β)
    (m : Option IncomingMeta) : Bytes :=
  (exportHead key r).bytes ++ (exportBlock mode u r ++
    (trailerMagic ++ ((if r.content.isSome then 1 else 0) :: metaTail m)))

/-- `project_record` up to its envelope. -/
def projectRecord (mode : SignMode) (openMeta : OpenMeta β) (key : Bytes) (u : Uuid) (r : Record β) :
    Result Bytes := do
  let m ← exportMeta openMeta u r
  .ok (exportedBytes mode key u r m)

section

variable (scheme : SignatureScheme) (signer : Signer) (transport : Transport)
  (openMeta : OpenMeta β) (place : Bytes → β)

/-- `export_record` of the unit that `key` is bound to. -/
def exportRecord (key : Bytes) (u : Uuid) (r : Record β) : Result Bytes := do
  let r ← readUnitRecord scheme signer u r
  let proj ← projectRecord signer.mode openMeta key u r
  .ok (transport.wrap u proj)

/-- `import_record` on an empty replica: the name, the uuid and the record that are stored. -/
def importFresh (blob : Bytes) : Outcome Error (Option (Bytes × Uuid × Record β)) :=
  match transport.unwrap blob with
  | .error e => .err e
  | .ok (u, proj) =>
    match parseProjection scheme signer u proj with
    | .panic => .panic
    | .err e => .err e
    | .ok inc =>
      match importRecord scheme signer place u none inc with
      | .error e => .err e
      | .ok none => .ok none
      | .ok (some imp) => .ok (some (inc.key, u, imp.record))

/-- The exported record is imported, can be read there, and says the same. -/
def Transported (key : Bytes) (u : Uuid) (r : Record β) : Prop :=
  ∃ bytes stored, exportRecord scheme signer transport openMeta key u r = .ok bytes ∧
    importFresh scheme signer transport place bytes = .ok (some (key, u, stored)) ∧
    readUnitRecord scheme signer u stored = .ok stored ∧
    stored.content.map Version.projectRecord = r.content.map Version.projectRecord ∧
    readMeta openMeta u stored = readMeta openMeta u r

/-- The keys a container accepts signatures of. -/
def Signer.keys : List PubKey :=
  match signer.mode with
  | .unsigned => []
  | .signed => [signer.writerPubkey]
  | .writerSet => (signer.writerSet.map fun ws => ws.writers ++ ws.removed).getD []

end

/-- What makes the trip. -/
def Transportable (mode : SignMode) (r : Record β) : Prop :=
  if mode = .unsigned then r.content.isSome = true ∨ ∃ s, r.metadata = some s ∧ s.frags ≠ []
  else r.content.isSome = true ∧ r.metadata = none ∧ r.db = none

/-! ## The signed payload is read back -/

/-- The numbers of a stream fit the fields they travel in. -/
structure StreamTravels (s : StreamMeta β) : Prop where
  frags : s.frags.length < 2 ^ 32
  dots : ∀ d ∈ s.unitMap, d < 2 ^ 64
  vv : s.vv.Fits
  fragsizeExp : s.fragsizeExp < 256
  lastFragLength : s.lastFragLength < 2 ^ 32

structure RecordTravels (r : Record β) : Prop where
  content : ∀ s, r.content = some s → StreamTravels s
  metadata : ∀ s, r.metadata = some s → StreamTravels s

/-- The signed fields of a stream. -/
def sigOf (s : StreamMeta β) : ParsedStreamSig :=
  ⟨s.unitMap, s.vv.toBytes, s.fragsizeExp, s.lastFragLength⟩

/-- The signed fields of a record but its database head. -/
def payloadFields (u : Uuid) (r : Record β) : ParsedSigningPayload :=
  ⟨u, r.content.map sigOf, r.metadata.map sigOf⟩

/-- The numbers of a stream are in the ranges of their types. -/
structure StreamTyped (s : StreamMeta β) : Prop where
  dots : ∀ d ∈ s.unitMap, d < 2 ^ 64
  counters : ∀ e ∈ s.vv.entries, e.2 < 2 ^ 64
  fragsizeExp : s.fragsizeExp < 256
  lastFragLength : s.lastFragLength < 2 ^ 32

/-- The `u32` in front of the versions counts them. -/
def Counted (s : StreamMeta β) : Prop := s.frags.length < 2 ^ 32

/-- `P` of the signed streams. -/
def Record.Signs (P : StreamMeta β → Prop) (r : Record β) : Prop :=
  ∀ s, r.content = some s ∨ r.metadata = some s → P s

section

variable {s t : StreamMeta β} {u u' : Uuid} {r r' : Record β}

theorem streamSig_sigOf (s : StreamMeta β) : streamSig s = (sigOf s).bytes := by
  simp [streamSig, ParsedStreamSig.bytes, unitMapBytes, lenBytes, sigOf, StreamMeta.unitMap,
    flatMap_map, leBytes]

theorem signingPayload_eq (u : Uuid) (r : Record β) :
    signingPayload u r = (payloadFields u r).bytes ++ r.db.elim [] dbSig := by
  cases hc : r.content <;> cases hm : r.metadata <;>
    simp [signingPayload, ParsedSigningPayload.bytes, payloadFields, streamFlags, hc, hm,
      streamSig_sigOf]

theorem StreamTyped.fits_sigOf (h : StreamTyped s) : (sigOf s).Fits ↔ Counted s := by
  have hlen : s.unitMap.length = s.frags.length := length_map _
  constructor
  · exact fun hf => hlen.symm.trans_lt hf.frags
  · exact fun hc => ⟨hlen.trans_lt hc, h.dots, length_toBytes_lt s.vv, h.fragsizeExp, h.lastFragLength⟩

theorem fits_payloadFields (h : r.Signs StreamTyped) : (payloadFields u r).Fits ↔ r.Signs Counted := by
  constructor
  · rintro hf s (hs | hs)
    · exact (h s (.inl hs)).fits_sigOf.mp (hf.content _ (by rw [payloadFields, hs]; rfl))
    · exact (h s (.inr hs)).fits_sigOf.mp (hf.metadata _ (by rw [payloadFields, hs]; rfl))
  · intro hc
    refine ⟨fun _ hp => ?_, fun _ hp => ?_⟩ <;> obtain ⟨s, hs, rfl⟩ := Option.map_eq_some_iff.mp hp
    · exact (h s (.inl hs)).fits_sigOf.mpr (hc s (.inl hs))
    · exact (h s (.inr hs)).fits_sigOf.mpr (hc s (.inr hs))

theorem RecordTravels.typed (h : RecordTravels r) : r.Signs StreamTyped := fun s hs =>
  have ht := hs.elim (h.content s) (h.metadata s)
  ⟨ht.dots, ht.vv.counters, ht.fragsizeExp, ht.lastFragLength⟩

theorem RecordTravels.counted (h : RecordTravels r) : r.Signs Counted := fun s hs =>
  (hs.elim (h.content s) (h.metadata s)).frags

/-- The payload is parsed to its end only if the record has no database head. -/
theorem parseSigningPayload_eq (h : RecordTravels r) :
    parseSigningPayload (signingPayload u r) =
      if (r.db.elim [] dbSig).length ≠ 0 then
        .err (.integrity ("signing_payload: " ++ toString (r.db.elim [] dbSig).length ++
          " trailing bytes after parse"))
      else .ok ⟨u, r.content.map sigOf, r.metadata.map sigOf⟩ := by
  rw [signingPayload_eq, parseSigningPayload_append ((fits_payloadFields h.typed).mpr h.counted)]
  rfl

/-! ### Equal payloads -/

theorem sigOf_inj (hs : StreamTyped s) (ht : StreamTyped t) (h : sigOf s = sigOf t) :
    Version.projectRecord s = Version.projectRecord t := by
  have hvv := VersionVector.toBytes_inj hs.counters ht.counters (congrArg (·.vvBytes) h)
  simp only [sigOf, ParsedStreamSig.mk.injEq] at h
  simp only [Version.projectRecord, h, hvv]

theorem map_projectRecord_eq {o o' : Option (StreamMeta β)} (ho : ∀ s, o = some s → StreamTyped s)
    (ho' : ∀ s, o' = some s → StreamTyped s) (h : o.map sigOf = o'.map sigOf) :
    o.map Version.projectRecord = o'.map Version.projectRecord := by
  cases o with
  | none => cases o' <;> simp_all
  | some s =>
    obtain ⟨t, rfl, ht⟩ := Option.map_eq_some_iff.mp h.symm
    exact congrArg some (sigOf_inj (ho s rfl) (ho' t rfl) ht.symm)

theorem dbSig_length (db : DbHead) : (dbSig db).length ≠ 0 := by
  simp [dbSig, ascii]

theorem db_inj {a b : Option DbHead} (h : a.elim [] dbSig = b.elim [] dbSig) : a = b := by
  cases a with
  | none =>
    cases b with
    | none => rfl
    | some b => exact absurd (congrArg List.length h).symm (dbSig_length b)
  | some a =>
    cases b with
    | none => exact absurd (congrArg List.length h) (dbSig_length a)
    | some b =>
      have henc : encodeDb a = encodeDb b := by simpa [dbSig, encodeDb] using h
      have ha := reads_db (T := 0) a 0 [] le_rfl
      rw [henc, reads_db (T := 0) b 0 [] le_rfl] at ha
      cases ha
      rfl

/-- The fields are parsed off the payload, and the head is what is left. -/
theorem signingPayload_inj (hr : r.Signs StreamTyped) (hc : r.Signs Counted)
    (hr' : r'.Signs StreamTyped) (hc' : r'.Signs Counted)
    (h : signingPayload u r = signingPayload u' r') :
    u = u' ∧ r.content.map Version.projectRecord = r'.content.map Version.projectRecord ∧
      r.metadata.map Version.projectRecord = r'.metadata.map Version.projectRecord ∧ r.db = r'.db := by
  rw [signingPayload_eq, signingPayload_eq] at h
  obtain ⟨hfields, hdb⟩ := decodes_signedFields.append_inj ((fits_payloadFields hr).mpr hc)
    ((fits_payloadFields hr').mpr hc') h le_rfl
  simp only [payloadFields, ParsedSigningPayload.mk.injEq] at hfields
  exact ⟨hfields.1, map_projectRecord_eq (fun s h => hr s (.inl h))
    (fun s h => hr' s (.inl h)) hfields.2.1, map_projectRecord_eq (fun s h => hr s (.inr h))
      (fun s h => hr' s (.inr h)) hfields.2.2, db_inj hdb⟩

/-- Equal payloads sign the same: the unit, what travels of both streams, and the database head. -/
theorem payload_unambiguous {u u' : Uuid} {r r' : Record β} (hr : RecordTravels r)
    (hr' : RecordTravels r') (h : signingPayload u r = signingPayload u' r') :
    u = u' ∧ r.content.map Version.projectRecord = r'.content.map Version.projectRecord ∧
      r.metadata.map Version.projectRecord = r'.metadata.map Version.projectRecord ∧
      r.db = r'.db :=
  signingPayload_inj hr.typed hr.counted hr'.typed hr'.counted h

/-- A record with both streams, whose blocks may be there. -/
def headed (b : Option Bytes) (db : Option DbHead) : Record Bytes :=
  ⟨some ⟨[⟨packDot 1 1, b⟩, ⟨0, none⟩], VersionVector.new.bump 1, 12, 3, []⟩,
    some ⟨[⟨7, b⟩], .new, 12, 1, []⟩, [], db, none⟩

theorem headed_travels (b : Option Bytes) (db : Option DbHead) : RecordTravels (headed b db) := by
  have hbump : (VersionVector.new.bump 1).Fits := ⟨by decide, by decide⟩
  have hnew : VersionVector.new.Fits := ⟨by decide, by decide⟩
  constructor <;> rintro s ⟨⟩
  · exact ⟨by simp, by simp [StreamMeta.unitMap, packDot], hbump, by simp, by simp⟩
  · exact ⟨by simp, by simp [StreamMeta.unitMap], hnew, by simp, by simp⟩

theorem payload_unambiguous_headed :
    let db : Option DbHead := some ⟨2, 3, .kvRecord⟩
    signingPayload 5 (headed none db) = signingPayload 5 (headed (some [1]) db) ∧
      (headed none db).content.map Version.projectRecord =
        (headed (some [1]) db).content.map Version.projectRecord ∧
      (headed none db).db = (headed (some [1]) db).db := by
  intro db
  obtain ⟨-, hc, -, hdb⟩ := payload_unambiguous (headed_travels none db)
    (headed_travels (some [1]) db) (show signingPayload 5 _ = signingPayload 5 _ from rfl)
  exact ⟨rfl, hc, hdb⟩

/-! ### Payloads and their parser -/

/-- A stream with the given signed fields. -/
theorem exists_stream {o : Option ParsedStreamSig} (ho : ∀ s, o = some s → s.Fits)
    (hvv : ∀ s, o = some s → ∃ vv : VersionVector,
      (∀ e ∈ vv.entries, e.2 < 2 ^ 64) ∧ s.vvBytes = vv.toBytes) :
    ∃ o' : Option (StreamMeta β), o'.map sigOf = o ∧ ∀ s, o' = some s → StreamTyped s ∧ Counted s := by
  cases o with
  | none => exact ⟨none, rfl, nofun⟩
  | some s =>
    have hf := ho s rfl
    obtain ⟨vv, hc, hb⟩ := hvv s rfl
    have hmap : ((s.unitMap.map fun d => (⟨d, none⟩ : Frag β)).map Frag.version) = s.unitMap := by
      rw [map_map]
      exact map_id' _
    refine ⟨some ⟨s.unitMap.map (⟨·, none⟩), vv, s.fragsizeExp, s.lastFragLength, []⟩, ?_, ?_⟩
    · simp [sigOf, StreamMeta.unitMap, hmap, ← hb]
    · rintro _ ⟨⟩
      exact ⟨⟨fun d hd => hf.dots d (hmap ▸ hd), hc, hf.fragsizeExp, hf.lastFragLength⟩,
        (length_map _).trans_lt hf.frags⟩

end

/-- The payload and its parser. A record is read back from its payload exactly if it has no
database head and its fragments fit their count; equal payloads sign the same; the parser does not
look into the version vectors, so it accepts the payloads of records and those with other bytes in
the place of a vector. -/
theorem signing_payload_iff (u : Uuid) {r : Record β} (hr : r.Signs StreamTyped) :
    (parseSigningPayload (signingPayload u r) = .ok (payloadFields u r) ↔
      r.db = none ∧ r.Signs Counted) ∧
      (r.Signs Counted → ∀ (u' : Uuid) (r' : Record β), r'.Signs StreamTyped → r'.Signs Counted →
        signingPayload u r = signingPayload u' r' →
        u = u' ∧ r.content.map Version.projectRecord = r'.content.map Version.projectRecord ∧
          r.metadata.map Version.projectRecord = r'.metadata.map Version.projectRecord ∧
            r.db = r'.db) ∧
      (∀ buf p, parseSigningPayload buf = .ok p ↔ p.Fits ∧ buf = p.bytes) ∧
      ∀ p : ParsedSigningPayload, p.Fits →
        ((∃ (u' : Uuid) (r' : Record β),
          r'.Signs StreamTyped ∧ r'.Signs Counted ∧ signingPayload u' r' = p.bytes) ↔
          ∀ s, p.content = some s ∨ p.metadata = some s →
            ∃ vv : VersionVector, (∀ e ∈ vv.entries, e.2 < 2 ^ 64) ∧ s.vvBytes = vv.toBytes) := by
  refine ⟨⟨fun h => ?_, fun ⟨hdb, hc⟩ => ?_⟩,
    fun hc u' r' hr' hc' h => signingPayload_inj hr hc hr' hc' h,
    fun buf p => parseSigningPayload_eq_ok_iff, fun p hp => ⟨?_, fun h => ?_⟩⟩
  · obtain ⟨hf, hb⟩ := parseSigningPayload_eq_ok_iff.mp h
    rw [signingPayload_eq, append_right_eq_self] at hb
    exact ⟨db_inj hb, (fits_payloadFields hr).mp hf⟩
  · refine parseSigningPayload_eq_ok_iff.mpr ⟨(fits_payloadFields hr).mpr hc, ?_⟩
    rw [signingPayload_eq, hdb]
    exact append_nil _
  · rintro ⟨u', r', hr', hc', h⟩ s hs
    rw [signingPayload_eq, ← append_nil p.bytes] at h
    obtain ⟨rfl, -⟩ := decodes_signedFields.append_inj ((fits_payloadFields hr').mpr hc') hp h le_rfl
    rcases hs with hs | hs <;> obtain ⟨t, ht, rfl⟩ := Option.map_eq_some_iff.mp hs
    · exact ⟨t.vv, (hr' t (.inl ht)).counters, rfl⟩
    · exact ⟨t.vv, (hr' t (.inr ht)).counters, rfl⟩
  · obtain ⟨c, hcon, hc⟩ := exists_stream (β := β) hp.content fun s hs => h s (.inl hs)
    obtain ⟨m, hmet, hm⟩ := exists_stream (β := β) hp.metadata fun s hs => h s (.inr hs)
    have hs : ∀ s, c = some s ∨ m = some s → StreamTyped s ∧ Counted s :=
      fun s hs => hs.elim (hc s) (hm s)
    refine ⟨p.uuid, ⟨c, m, [], none, none⟩, fun s h => (hs s h).1, fun s h => (hs s h).2, ?_⟩
    rw [signingPayload_eq, payloadFields, hcon, hmet]
    exact append_nil _

theorem signing_payload_headed : parseSigningPayload (signingPayload 5 (headed (some [1]) none)) =
    .ok ⟨5, some ⟨[packDot 1 1, 0], (VersionVector.new.bump 1).toBytes, 12, 3⟩,
      some ⟨[7], [0, 0], 12, 1⟩⟩ :=
  (signing_payload_iff 5 (headed_travels (some [1]) none).typed).1.mpr
    ⟨rfl, (headed_travels (some [1]) none).counted⟩

/-- A record with a database head is not read back. A payload with a vector of one byte, which is
none, is. -/
theorem signing_payload_refused :
    parseSigningPayload
      (signingPayload 1 (⟨none, none, [], some ⟨2, 3, .kvRecord⟩, none⟩ : Record Unit)) =
        .err (.integrity "signing_payload: 40 trailing bytes after parse") ∧
      parseSigningPayload
        (ascii "sfsu-sig" ++ uuidBytes 1 ++ [1, 0, 0, 0, 0, 1, 0, 0, 0, 9, 12, 0, 0, 0, 0]) =
        .ok ⟨1, some ⟨[], [9], 12, 0⟩, none⟩ ∧ ∀ vv : VersionVector, vv.toBytes ≠ [9] := by
  refine ⟨rfl, rfl, fun vv h => ?_⟩
  have := congrArg List.length h
  rw [VersionVector.length_toBytes, length_singleton] at this
  omega

/-! ## The trip -/

/-- The unit fits the fields of a projection. -/
structure Travels (openMeta : OpenMeta β) (key : Bytes) (u : Uuid) (r : Record β) : Prop where
  key : key.length < 2 ^ 32
  record : RecordTravels r
  payload : (signingPayload u r).length < 2 ^ 32
  plain : ∀ plain, readMeta openMeta u r = .ok (some plain) → plain.length < 2 ^ 32

section

variable {scheme : SignatureScheme} {signer : Signer} {transport : Transport}
  {openMeta : OpenMeta β} {place : Bytes → β}
  {key : Bytes} {u : Uuid} {r : Record β} {m : Option IncomingMeta}

theorem readMeta_eq (openMeta : OpenMeta β) (u : Uuid) (r : Record β) :
    readMeta openMeta u r = (exportMeta openMeta u r).map (Option.map IncomingMeta.plain) := by
  unfold readMeta exportMeta
  cases r.metadata with
  | none => rfl
  | some s =>
    obtain ⟨frags, vv, exp, len, pins⟩ := s
    cases frags with
    | nil => rfl
    | cons fr frs => cases h : openMeta u fr.version fr.block <;> simp [h, Except.map]

/-- The Meta stream travels if it has a fragment. -/
theorem exportMeta_cases (h : exportMeta openMeta u r = .ok m) :
    (m = none ∧ ∀ s, r.metadata = some s → s.frags = []) ∨
      ∃ s fr frs plain, r.metadata = some s ∧ s.frags = fr :: frs ∧
        openMeta u fr.version fr.block = .ok plain ∧
        m = some ⟨fr.version, s.vv, plain⟩ := by
  unfold exportMeta at h
  split at h
  · rename_i hm
    cases h
    exact .inl ⟨rfl, fun s hs => (nomatch hm.symm.trans hs)⟩
  rename_i s hm
  split at h
  · rename_i hf
    cases h
    refine .inl ⟨rfl, fun s' hs => ?_⟩
    cases hm.symm.trans hs
    exact hf
  · rename_i fr frs hf
    obtain ⟨plain, hp, rfl⟩ := exists_of_map_ok h
    exact .inr ⟨s, fr, frs, plain, hm, hf, hp, rfl⟩

theorem exportHead_fits (ht : Travels openMeta key u r) : (exportHead key r).Fits := by
  cases hc : r.content with
  | none =>
    have heq : exportHead key r = ⟨key, [], .new, 0, 0⟩ := by rw [exportHead, hc]; rfl
    rw [heq]
    exact ⟨ht.key, by simp, by simp, by simp, by simp, by simp [VersionVector.new], by
      simp [VersionVector.new]⟩
  | some s =>
    have heq : exportHead key r = ⟨key, Version.projectRecord s⟩ := by rw [exportHead, hc]; rfl
    have hs := ht.record.content s hc
    rw [heq]
    refine ⟨ht.key, hs.fragsizeExp, hs.lastFragLength, ?_, hs.dots, hs.vv⟩
    simpa [Version.projectRecord, StreamMeta.unitMap] using hs.frags

theorem exportMeta_fits (ht : Travels openMeta key u r) (h : exportMeta openMeta u r = .ok m) :
    ∀ m', m = some m' → MetaFits m' := by
  rintro m' rfl
  have hread := readMeta_eq openMeta u r
  rw [h] at hread
  rcases exportMeta_cases h with ⟨hnone, -⟩ | ⟨s, fr, frs, plain, hs, hf, -, hm⟩
  · cases hnone
  · cases hm
    have hst := ht.record.metadata s hs
    exact ⟨hst.dots _ (by simp [StreamMeta.unitMap, hf]), hst.vv, ht.plain plain hread⟩

theorem trailer_export (hm : ∀ m', m = some m' → MetaFits m') :
    Trailer (trailerMagic ++ ((if r.content.isSome then 1 else 0) :: metaTail m)) r.content.isSome
      m := by
  have hbyte : (decide ((if r.content.isSome then (1 : UInt8) else 0) ≠ 0)) = r.content.isSome := by
    cases r.content.isSome <;> decide
  cases m with
  | none =>
    have h := Trailer.plain (if r.content.isSome then 1 else 0) []
    rwa [hbyte] at h
  | some m' =>
    have h := Trailer.withMeta (if r.content.isSome then 1 else 0) 1 m' [] (by decide) (hm m' rfl)
    rwa [hbyte, append_nil] at h

theorem length_exportedBytes (mode : SignMode) (ht : Travels openMeta key u r)
    (hm : ∀ m', m = some m' → MetaFits m') : (exportedBytes mode key u r m).length ≤ maxLen := by
  have hf := exportHead_fits ht
  have hvv := length_toBytes_lt (exportHead key r).content.vv
  have hhead : (exportHead key r).bytes.length ≤ 2 ^ 40 := by
    have hk := hf.key
    have hn := hf.frags
    simp only [Head.bytes, lenBytes, unitMapBytes, length_append, length_leBytes,
      length_flatMap_leBytes]
    omega
  have hblock : (exportBlock mode u r).length ≤ 2 ^ 40 := by
    have hp := ht.payload
    unfold exportBlock
    split
    · simp
    · simp
    · simp only [blockBytes, lenBytes, length_append, length_leBytes, Vector.length_toList]
      omega
  have htail : (metaTail m).length ≤ 2 ^ 40 := by
    cases m with
    | none => simp [metaTail]
    | some m' =>
      have hp := (hm m' rfl).plain
      have hv := length_toBytes_lt m'.vv
      simp only [metaTail, metaBytes, lenBytes, length_cons, length_append, length_leBytes]
      omega
  have hmagic : trailerMagic.length = 4 := rfl
  simp only [exportedBytes, length_append, length_cons, hmagic, maxLen]
  omega

theorem exportRecord_eq (hread : readUnitRecord scheme signer u r = .ok r)
    (hm : exportMeta openMeta u r = .ok m) :
    exportRecord scheme signer transport openMeta key u r =
      .ok (transport.wrap u (exportedBytes signer.mode key u r m)) := by
  have hp : projectRecord signer.mode openMeta key u r =
      .ok (exportedBytes signer.mode key u r m) := by
    rw [projectRecord, hm]
    rfl
  unfold exportRecord
  rw [hread]
  show (projectRecord signer.mode openMeta key u r >>= fun proj => _) = _
  rw [hp]
  rfl

/-! ### What the replica builds -/

/-- The record a fast-forward from nothing writes. -/
def freshRecord (inc : Incoming) : Record β :=
  ⟨some (fastForwarded .empty inc.content), none, [], none, inc.carried⟩

theorem importContent_fresh (inc : Incoming) :
    importContent scheme signer u (none : Option (Record β)) inc =
      (writeUnitRecord scheme signer u (freshRecord inc) .preserve >>= fun stored =>
        .ok (some ⟨stored, true⟩)) := by
  have hff : Version.importRecord (headStream (none : Option (Record β))) inc.content =
      .fastForward (fastForwarded .empty inc.content) := by
    have ha := new_not_strictlyAhead inc.content.vv
    have hc : VersionVector.new.concurrentWith inc.content.vv = false := by
      cases h : VersionVector.new.concurrentWith inc.content.vv with
      | false => rfl
      | true => exact absurd (VersionVector.new_le _) (VersionVector.incompRel_iff.mpr h).1
    unfold strictlyAhead at ha
    show Version.importRecord (.empty : StreamMeta β) inc.content = _
    unfold Version.importRecord
    rw [if_neg (by rw [StreamMeta.empty, ha]; decide), if_pos (by simp [StreamMeta.empty, hc])]
  unfold importContent
  rw [hff]
  rfl

theorem projectRecord_fastForwarded (p : Projection) :
    Version.projectRecord (fastForwarded (.empty : StreamMeta β) p) = p := by
  obtain ⟨dots, vv, exp, len⟩ := p
  simp only [Version.projectRecord, fastForwarded, StreamMeta.unitMap, Projection.mk.injEq, and_true]
  apply ext_getElem <;> simp

/-- The signed fields of a stream are those that travel. -/
theorem streamSig_eq {s t : StreamMeta β} (h : Version.projectRecord s = Version.projectRecord t) :
    streamSig s = streamSig t := by
  have hsig : ∀ s : StreamMeta β, streamSig s = unitMapBytes s.unitMap ++ (lenBytes s.vv.toBytes ++
      ([UInt8.ofNat s.fragsizeExp] ++ leBytes 4 s.lastFragLength)) := fun s => by
    simp only [streamSig, unitMapBytes, lenBytes, StreamMeta.unitMap, flatMap_map, length_map,
      append_assoc]
  simp only [Version.projectRecord, Projection.mk.injEq] at h
  obtain ⟨h1, h2, h3, h4⟩ := h
  rw [hsig, hsig, h1, h2, h3, h4]

/-- The trip, without the envelope. -/
theorem transported_iff (htransport : ∀ u p, transport.unwrap (transport.wrap u p) = .ok (u, p))
    (hread : readUnitRecord scheme signer u r = .ok r) (hm : exportMeta openMeta u r = .ok m) :
    Transported scheme signer transport openMeta place key u r ↔
      ∃ inc imp, parseProjection scheme signer u (exportedBytes signer.mode key u r m) = .ok inc ∧
        importRecord scheme signer place u none inc = .ok (some imp) ∧ inc.key = key ∧
        readUnitRecord scheme signer u imp.record = .ok imp.record ∧
        imp.record.content.map Version.projectRecord = r.content.map Version.projectRecord ∧
        readMeta openMeta u imp.record = readMeta openMeta u r := by
  unfold Transported
  rw [exportRecord_eq hread hm]
  constructor
  · rintro ⟨bytes, stored, hb, hi, hrest⟩
    cases hb
    unfold importFresh at hi
    rw [htransport] at hi
    simp only at hi
    split at hi
    · cases hi
    · cases hi
    rename_i inc hp
    split at hi
    · cases hi
    · cases hi
    · rename_i imp himp
      cases hi
      exact ⟨inc, imp, hp, himp, rfl, hrest⟩
  · rintro ⟨inc, imp, hp, himp, rfl, hrest⟩
    refine ⟨_, imp.record, rfl, ?_, hrest⟩
    unfold importFresh
    rw [htransport]
    simp only [hp, himp]

/-- What an unsigned replica parses. -/
def exportedIncoming (key : Bytes) (r : Record β) (sig : Option Signature) (m : Option IncomingMeta) :
    Incoming :=
  ⟨key, (exportHead key r).content, sig, r.content.isSome, m⟩

theorem says_exported (ht : Travels openMeta key u r) (hm : exportMeta openMeta u r = .ok m)
    {sig : Option Signature}
    (hb : SignedBlock scheme signer u (exportHead key r).content (exportBlock signer.mode u r) sig) :
    parseProjection scheme signer u (exportedBytes signer.mode key u r m) =
      .ok (exportedIncoming key r sig m) := by
  have hfits := exportMeta_fits ht hm
  refine (parseProjection_ok_iff (length_exportedBytes _ ht hfits)).mpr
    ⟨exportHead key r, exportBlock signer.mode u r, _, exportHead_fits ht, hb, trailer_export hfits,
      rfl, rfl, rfl⟩

theorem contentDecodes_fresh {s : StreamMeta β} (hs : contentDecodes s = true) :
    contentDecodes (fastForwarded (.empty : StreamMeta β) (Version.projectRecord s)) = true := hs

theorem readUnitRecord_unsigned {stored : Record β} (hmode : signer.mode = .unsigned)
    (hc : ∀ s, stored.content = some s → contentDecodes s = true)
    (hmeta : ∀ s, stored.metadata = some s → vvDecodes s.vv = true) :
    readUnitRecord scheme signer u stored = .ok stored :=
  readUnitRecord_ok_iff.mpr ⟨rfl, decodeRecord_ok_iff.mpr ⟨rfl, hc, hmeta⟩, none, by
    rw [verifyRecordSignature, hmode]⟩

/-- An import of content from nothing writes the fresh record and attaches the Meta stream to it. -/
theorem importRecord_fresh (hc : inc.hasContent = true)
    (hw : writeUnitRecord scheme signer u (freshRecord inc : Record β) .preserve =
      .ok (freshRecord inc)) :
    importRecord scheme signer place u (none : Option (Record β)) inc =
      (attachMeta scheme signer place u ⟨freshRecord inc, true⟩ inc).map some := by
  have hcont : importContent scheme signer u (none : Option (Record β)) inc =
      .ok (some ⟨freshRecord inc, true⟩) := by
    rw [importContent_fresh, hw]
    rfl
  unfold importRecord
  rw [if_pos hc]
  show (importContent scheme signer u (none : Option (Record β)) inc >>= _) = _
  rw [hcont]
  rfl

/-- An unsigned import of content from nothing attaches the Meta stream that came with it. -/
theorem importRecord_fresh_unsigned (hmode : signer.mode = .unsigned) (hc : inc.hasContent = true)
    (hd : contentDecodes (fastForwarded (.empty : StreamMeta β) inc.content) = true) :
    importRecord scheme signer place u (none : Option (Record β)) inc =
      .ok (some ⟨{ freshRecord inc with metadata := incomingMeta place inc }, true⟩) := by
  have hw : ∀ (w : Record β) intent, writeUnitRecord scheme signer u w intent = .ok w :=
      fun w intent => by
    cases intent <;> simp [writeUnitRecord, hmode]
  have hread : readUnitRecord scheme signer u (freshRecord inc : Record β) = .ok (freshRecord inc) :=
    readUnitRecord_unsigned hmode (fun s hs => by cases hs; exact hd) (fun s hs => by cases hs)
  have hattach : attachMeta scheme signer place u ⟨freshRecord inc, true⟩ inc =
      .ok ⟨{ freshRecord inc with metadata := incomingMeta place inc }, true⟩ := by
    unfold attachMeta
    rw [if_pos hmode]
    cases hm : inc.metadata with
    | none => simp [incomingMeta, hm, freshRecord]
    | some m =>
      have hahead : ¬ strictlyAhead (headMetaVv (some (freshRecord inc : Record β))) m.vv = true := by
        have := new_not_strictlyAhead m.vv
        simp [headMetaVv, freshRecord, this]
      simp only [hread]
      show (if strictlyAhead (headMetaVv (some (freshRecord inc : Record β))) m.vv = true then _
        else _) = _
      rw [if_neg hahead, hw]
      simp only [incomingMeta, hm]
      rfl
  rw [importRecord_fresh hc (hw _ _), hattach]
  rfl

/-- A meta-only projection of an unsigned container. -/
theorem importRecord_fresh_metaOnly (hmode : signer.mode = .unsigned) (hc : inc.hasContent = false)
    {m : IncomingMeta} (hm : inc.metadata = some m) :
    importRecord scheme signer place u (none : Option (Record β)) inc =
      .ok (some ⟨⟨none, some (stageMetaFromImport place m), [], none, none⟩, true⟩) := by
  have hahead : ¬ strictlyAhead (headMetaVv (none : Option (Record β))) m.vv = true := by
    have := new_not_strictlyAhead m.vv
    simp [headMetaVv, this]
  rw [importRecord_metaOnly hc]
  unfold importMetaOnly
  simp only [hm]
  show (if strictlyAhead (headMetaVv (none : Option (Record β))) m.vv = true then _ else _) = _
  rw [if_neg hahead]
  simp only [writeUnitRecord, hmode]
  rfl

/-- The seal of an imported Meta block opens again. -/
def Opens (openMeta : OpenMeta β) (place : Bytes → β) (u : Uuid) (r : Record β) : Prop :=
  ∀ s fr frs, r.metadata = some s → s.frags = fr :: frs →
    ∀ plain, openMeta u fr.version (some (place plain)) = .ok plain

theorem readMeta_imported (hopen : Opens openMeta place u r) (hm : exportMeta openMeta u r = .ok m)
    {stored : Record β} (hs : stored.metadata = m.map (stageMetaFromImport place)) :
    readMeta openMeta u stored = readMeta openMeta u r := by
  rw [readMeta_eq openMeta u r, hm]
  rcases exportMeta_cases hm with ⟨rfl, -⟩ | ⟨s, fr, frs, plain, hmeta, hf, -, rfl⟩
  · simp only [readMeta, hs, Option.map_none]
    rfl
  · have := hopen s fr frs hmeta hf plain
    simp only [readMeta, hs, Option.map_some, stageMetaFromImport, this]
    rfl

theorem transported_unsigned_iff
    (htransport : ∀ u p, transport.unwrap (transport.wrap u p) = .ok (u, p))
    (hmode : signer.mode = .unsigned) (ht : Travels openMeta key u r)
    (hopen : Opens openMeta place u r) (hread : readUnitRecord scheme signer u r = .ok r)
    (hm : exportMeta openMeta u r = .ok m) :
    Transported scheme signer transport openMeta place key u r ↔
      r.content.isSome = true ∨ ∃ s, r.metadata = some s ∧ s.frags ≠ [] := by
  rw [transported_iff htransport hread hm]
  have hdec := (decodeRecord_ok_iff.mp (readUnitRecord_ok_iff.mp hread).2.1).2
  have hblock : SignedBlock scheme signer u (exportHead key r).content
      (exportBlock signer.mode u r) none := by
    simp only [hmode, exportBlock]
    exact .unsigned hmode
  have hparse := says_exported ht hm hblock
  have hmetaDecodes : ∀ s, m.map (stageMetaFromImport place) = some s → vvDecodes s.vv = true := by
    rintro s hs
    obtain ⟨m', hm', rfl⟩ := Option.map_eq_some_iff.mp hs
    exact decide_eq_true (exportMeta_fits ht hm m' hm').vv.count
  cases hc : r.content with
  | some s =>
    refine iff_of_true ?_ (.inl rfl)
    have hcontent : (exportHead key r).content = Version.projectRecord s := by rw [exportHead, hc]; rfl
    have hd : contentDecodes (fastForwarded (.empty : StreamMeta β) (exportHead key r).content) =
        true := by
      rw [hcontent]
      exact contentDecodes_fresh (hdec.1 s hc)
    have hyes : (exportedIncoming key r none m).hasContent = true := by simp [exportedIncoming, hc]
    have himp : importRecord scheme signer place u none (exportedIncoming key r none m) =
        .ok (some ⟨_, true⟩) :=
      importRecord_fresh_unsigned hmode hyes hd
    refine ⟨_, _, hparse, himp, rfl, ?_, ?_, ?_⟩
    · exact readUnitRecord_unsigned hmode (fun s' hs => by cases hs; exact hd) hmetaDecodes
    · simp only [freshRecord, exportedIncoming, Option.map_some, projectRecord_fastForwarded, hcontent]
    · exact readMeta_imported hopen hm rfl
  | none =>
    have hno : (exportedIncoming key r none m).hasContent = false := by simp [exportedIncoming, hc]
    rcases exportMeta_cases hm with ⟨rfl, hempty⟩ | ⟨s, fr, frs, plain, hmeta, hf, -, rfl⟩
    · -- neither stream: the projection is refused
      refine iff_of_false ?_ ?_
      · rintro ⟨inc, imp, hp, himp, -⟩
        cases hparse.symm.trans hp
        rw [importRecord_metaOnly hno] at himp
        cases himp
      · rintro (h | ⟨s, hs, hne⟩)
        · cases h
        · exact hne (hempty s hs)
    · refine iff_of_true ?_ (.inr ⟨s, hmeta, by simp [hf]⟩)
      have himp : importRecord scheme signer place u none (exportedIncoming key r none _) =
          .ok (some ⟨_, true⟩) :=
        importRecord_fresh_metaOnly hmode hno rfl
      refine ⟨_, _, hparse, himp, rfl, ?_, rfl, ?_⟩
      · exact readUnitRecord_unsigned hmode (fun s' hs => by cases hs) hmetaDecodes
      · exact readMeta_imported hopen hm rfl

/-! ### Signed modes -/

/-- A key of the container verifies the signature. -/
def Verified (scheme : SignatureScheme) (signer : Signer) (payload : Bytes) (sig : Signature) : Prop :=
  ∃ k ∈ signer.keys, scheme.verify k payload sig = true

theorem verified_of_authorized {payload : Bytes} (h : Authorized scheme signer sig payload) :
    Verified scheme signer payload sig := by
  unfold Authorized at h
  unfold Verified Signer.keys
  cases hmode : signer.mode with
  | unsigned =>
    rw [hmode] at h
    exact h.elim
  | signed =>
    rw [hmode] at h
    exact ⟨_, .head _, h⟩
  | writerSet =>
    rw [hmode] at h
    obtain ⟨ws, hws, hm⟩ := h
    rw [writersetVerifyingMember, find?_isSome] at hm
    obtain ⟨k, hk, hv⟩ := hm
    rw [hws]
    exact ⟨k, mem_append_left _ hk, hv⟩

theorem verifyRecordSignature_ok_iff {w : Record β} (hmode : signer.mode ≠ .unsigned) :
    (∃ k, verifyRecordSignature scheme signer u w .currentOrRemoved = .ok k) ↔
      ∃ sig, w.signature = some sig ∧ Verified scheme signer (signingPayload u w) sig := by
  unfold Verified Signer.keys
  cases hm : signer.mode with
  | unsigned => exact absurd hm hmode
  | signed =>
    unfold verifyRecordSignature
    cases w.signature with
    | none => simp [hm]
    | some sig => by_cases hv : scheme.verify signer.writerPubkey (signingPayload u w) sig =
      true <;> simp [hm, hv]
  | writerSet =>
    cases hws : signer.writerSet with
    | none => simp [verifyRecordSignature, hm, hws]
    | some ws =>
      refine (verifyRecordSignature_writerSet hm hws).trans ⟨?_, ?_⟩
      · rintro ⟨k, hk, sig, hs, hv⟩
        exact ⟨sig, hs, k, hk, hv⟩
      · rintro ⟨sig, hs, k, hk, hv⟩
        exact ⟨k, hk, sig, hs, hv⟩

/-- The gate of a record that keeps its author's signature. -/
theorem preserve_ok_iff {w w' : Record β} (hmode : signer.mode ≠ .unsigned) :
    writeUnitRecord scheme signer u w .preserve = .ok w' ↔
      w' = w ∧ ∃ sig, w.signature = some sig ∧ Verified scheme signer (signingPayload u w) sig :=
  writeUnitRecord_preserve_iff.trans (and_congr_right' (verifyRecordSignature_ok_iff hmode))

/-- The payload of the record built on import: the Meta stream and the database head are gone. -/
theorem signingPayload_fresh {s : StreamMeta β} (hc : r.content = some s) (hdb : r.db = none)
    (hinc : inc.content = Version.projectRecord s) :
    signingPayload u (freshRecord inc : Record β) = signingPayload u { r with metadata := none } := by
  have hsig : streamSig (fastForwarded (.empty : StreamMeta β) inc.content) = streamSig s :=
    streamSig_eq (by rw [projectRecord_fastForwarded, hinc])
  simp only [signingPayload, freshRecord, streamFlags, hc, hdb, Option.isSome_some,
    Option.elim_some, hsig]
  rfl

/-- What the payload binds of a record. -/
theorem binds_iff (ht : RecordTravels r) {c : Projection} :
    Binds u c (signingPayload u r) ↔ r.db = none ∧ ∃ s, r.content = some s ∧
      sigOf s = ⟨c.unitMap, c.vv.toBytes, c.fragsizeExp, c.lastFragLength⟩ := by
  unfold Binds
  rw [parseSigningPayload_eq ht]
  cases hdb : r.db with
  | some db =>
    have hne : ((some db).elim [] dbSig).length ≠ 0 := dbSig_length db
    exact iff_of_false (fun ⟨_, h⟩ => (nomatch h)) fun h => (nomatch h.1)
  | none =>
    rw [if_neg (by simp)]
    cases hc : r.content with
    | none => simp
    | some s =>
      simp only [Option.map_some, Outcome.ok.injEq, ParsedSigningPayload.mk.injEq,
        Option.some.injEq, true_and, exists_eq_left']
      exact ⟨fun ⟨_, h, _⟩ => h, fun h => ⟨_, h, rfl⟩⟩

/-- A signed import of content from nothing keeps the author's signature. -/
theorem importRecord_fresh_signed (hmode : signer.mode ≠ .unsigned) (hc : inc.hasContent = true)
    (hver : ∃ sig, (freshRecord inc : Record β).signature = some sig ∧
      Verified scheme signer (signingPayload u (freshRecord inc : Record β)) sig) :
    importRecord scheme signer place u (none : Option (Record β)) inc =
      .ok (some ⟨freshRecord inc, true⟩) := by
  have hw : writeUnitRecord scheme signer u (freshRecord inc : Record β) .preserve =
      .ok (freshRecord inc) :=
    (preserve_ok_iff hmode).mpr ⟨rfl, hver⟩
  rw [importRecord_fresh hc hw, attachMeta, if_neg hmode]
  rfl

theorem transported_signed_iff
    (htransport : ∀ u p, transport.unwrap (transport.wrap u p) = .ok (u, p))
    (hmode : signer.mode ≠ .unsigned) (ht : Travels openMeta key u r)
    (hread : readUnitRecord scheme signer u r = .ok r) (hm : exportMeta openMeta u r = .ok m)
    (hsig : r.signature = some sig) (hauth : Authorized scheme signer sig (signingPayload u r))
    (hforge : r.metadata ≠ none → ¬ Verified scheme signer
      (signingPayload u { r with metadata := none }) sig) :
    Transported scheme signer transport openMeta place key u r ↔
      r.content.isSome = true ∧ r.metadata = none ∧ r.db = none := by
  rw [transported_iff htransport hread hm]
  have hdec := (decodeRecord_ok_iff.mp (readUnitRecord_ok_iff.mp hread).2.1).2
  have hblock : exportBlock signer.mode u r = blockBytes (sig, signingPayload u r) := by
    unfold exportBlock
    rw [hsig]
    cases hm : signer.mode with
    | unsigned => exact absurd hm hmode
    | signed => rfl
    | writerSet => rfl
  have hbytes : Binds u (exportHead key r).content (signingPayload u r) →
      parseProjection scheme signer u (exportedBytes signer.mode key u r m) =
        .ok (exportedIncoming key r (some sig) m) := fun hb => says_exported ht hm (by
    rw [hblock]
    exact .authored sig _ ht.payload hauth hb)
  constructor
  · rintro ⟨inc, imp, hp, himp, -, -, -, -⟩
    -- the payload is bound: there is content and no database head
    have hbinds : Binds u (exportHead key r).content (signingPayload u r) := by
      have hlen := length_exportedBytes signer.mode ht (exportMeta_fits ht hm)
      unfold exportedBytes at hp hlen
      rw [hblock] at hp hlen
      exact binds_of_parse hlen (exportHead_fits ht) ht.payload hmode hp
    obtain ⟨hdb, s, hc, -⟩ := (binds_iff ht.record).mp hbinds
    cases (hbytes hbinds).symm.trans hp
    refine ⟨by rw [hc]; rfl, ?_, hdb⟩
    by_contra hmeta
    -- the record built without the Meta stream does not carry its author's signature
    refine hforge hmeta ?_
    have hcontent : (exportedIncoming key r (some sig) m).content = Version.projectRecord s := by
      rw [exportedIncoming, exportHead, hc]
      rfl
    rw [← signingPayload_fresh hc hdb hcontent]
    unfold importRecord at himp
    rw [if_pos (by simp [exportedIncoming, hc])] at himp
    obtain ⟨cur, hcur, himp⟩ := exists_of_bind_ok himp
    cases hcur
    obtain ⟨res, hres, -⟩ := exists_of_bind_ok himp
    rw [importContent_fresh] at hres
    obtain ⟨stored, hw, -⟩ := exists_of_bind_ok hres
    obtain ⟨-, sig', hs', hv⟩ := (preserve_ok_iff hmode).mp hw
    cases hs'
    exact hv
  · rintro ⟨hsome, hmeta, hdb⟩
    obtain ⟨s, hc⟩ := Option.isSome_iff_exists.mp hsome
    have hcontent : (exportHead key r).content = Version.projectRecord s := by rw [exportHead, hc]; rfl
    have hbinds : Binds u (exportHead key r).content (signingPayload u r) := by
      rw [hcontent]
      exact (binds_iff ht.record).mpr ⟨hdb, s, hc, rfl⟩
    have hsame : ({ r with metadata := none } : Record β) = r := by rw [← hmeta]
    have hpayload : signingPayload u (freshRecord (exportedIncoming key r (some sig) m) : Record β) =
        signingPayload u r := by
      rw [signingPayload_fresh hc hdb hcontent, hsame]
    have hver : ∃ sig', (freshRecord (exportedIncoming key r (some sig) m) : Record β).signature =
      some sig' ∧
        Verified scheme signer
          (signingPayload u (freshRecord (exportedIncoming key r (some sig) m) : Record β)) sig' :=
      ⟨sig, rfl, hpayload ▸ verified_of_authorized hauth⟩
    have himp : importRecord scheme signer place u (none : Option (Record β))
      (exportedIncoming key r (some sig) m) =
        .ok (some ⟨freshRecord (exportedIncoming key r (some sig) m), true⟩) :=
      importRecord_fresh_signed hmode (by simp [exportedIncoming, hc]) hver
    have hd : contentDecodes (fastForwarded (.empty : StreamMeta β) (exportHead key r).content) =
        true := by
      rw [hcontent]
      exact contentDecodes_fresh (hdec.1 s hc)
    refine ⟨_, _, hbytes hbinds, himp, rfl,
      readUnitRecord_ok_iff.mpr ⟨rfl, decodeRecord_ok_iff.mpr ⟨rfl, ?_, ?_⟩,
        (verifyRecordSignature_ok_iff hmode).mpr hver⟩, ?_, ?_⟩
    · rintro s' hs'
      cases hs'
      exact hd
    · rintro s' hs'
      cases hs'
    · simp only [freshRecord, exportedIncoming, Option.map_some, projectRecord_fastForwarded,
        hcontent, hc]
    · simp only [readMeta, freshRecord, hmeta]

/-- The record of every readable unit, in every signing mode, is imported faithfully by an empty
replica exactly if it is `Transportable`. -/
theorem export_import_iff (scheme : SignatureScheme) (signer : Signer) (transport : Transport)
    (openMeta : OpenMeta β) (place : Bytes → β) (key : Bytes) (u : Uuid) (r : Record β)
    (htransport : ∀ u p, transport.unwrap (transport.wrap u p) = .ok (u, p))
    (hopen : Opens openMeta place u r) (ht : Travels openMeta key u r)
    (hread : readUnitRecord scheme signer u r = .ok r)
    (hmeta : ∃ plain, readMeta openMeta u r = .ok plain)
    (hauth : signer.mode ≠ .unsigned →
      ∀ sig, r.signature = some sig → Authorized scheme signer sig (signingPayload u r))
    (hforge : r.metadata ≠ none → ∀ sig, r.signature = some sig →
      ¬ Verified scheme signer (signingPayload u { r with metadata := none }) sig) :
    Transported scheme signer transport openMeta place key u r ↔ Transportable signer.mode r := by
  obtain ⟨m, hm⟩ : ∃ m, exportMeta openMeta u r = .ok m := by
    obtain ⟨plain, hp⟩ := hmeta
    rw [readMeta_eq] at hp
    obtain ⟨m, hm, -⟩ := exists_of_map_ok hp
    exact ⟨m, hm⟩
  unfold Transportable
  by_cases hmode : signer.mode = .unsigned
  · rw [if_pos hmode]
    exact transported_unsigned_iff htransport hmode ht hopen hread hm
  · rw [if_neg hmode]
    obtain ⟨sig, hsig, -⟩ :=
      (verifyRecordSignature_ok_iff hmode).mp (readUnitRecord_ok_iff.mp hread).2.2
    exact transported_signed_iff htransport hmode ht hread hm hsig (hauth hmode sig hsig) fun h =>
      hforge h sig hsig

/-- An envelope to evaluate examples with: the uuid in front and the projection in clear. -/
def clearTransport : Transport where
  wrap u p := uuidBytes u ++ p
  unwrap b := .ok (BitVec.ofNat 128 (leNat (b.take 16)), b.drop 16)

theorem clearTransport_unwrap (u : Uuid) (p : Bytes) :
    clearTransport.unwrap (clearTransport.wrap u p) = .ok (u, p) := by
  have hlen : (uuidBytes u).length = 16 := length_leBytes 16 u.toNat
  have hu : BitVec.ofNat 128 (leNat (uuidBytes u)) = u := by
    rw [uuidBytes, leNat_leBytes_of_lt u.isLt, BitVec.ofNat_toNat, BitVec.setWidth_eq]
  simp [clearTransport, take_left' hlen, drop_left' hlen, hu]

/-- A scheme to evaluate examples with: a payload of another length is noticed. -/
def lengthScheme : SignatureScheme where
  pubkey := id
  sign _ m := .replicate 64 (UInt8.ofNat m.length)
  verify _ m s := s = .replicate 64 (UInt8.ofNat m.length)

theorem lengthScheme_verify_sign {k k' : SigningKey} {m m' : Bytes} :
    lengthScheme.verify k m (lengthScheme.sign k' m') = true ↔
      UInt8.ofNat m'.length = UInt8.ofNat m.length := by
  simp [lengthScheme]

/-- One writer that holds the key of a Signed container. -/
def soleWriter : Signer := ⟨.signed, .replicate 32 7, none, some (.replicate 32 7)⟩

/-- A file of one byte, and the same file after its mode was set. -/
def oneByteRecord (withMeta : Bool) : Record Bytes where
  content := some (fastForwarded .empty ⟨[packDot 2 1], VersionVector.new.bump 2, 12, 1⟩)
  metadata :=
    if withMeta then some (stageMetaFromImport id ⟨packDot 2 1, VersionVector.new.bump 2, [0o64]⟩)
    else none
  strains := []
  db := none
  signature := none

/-- The record as the writer of the container stores it. -/
def signedOneByte (withMeta : Bool) : Record Bytes :=
  { oneByteRecord withMeta with
    signature := some
      (lengthScheme.sign (.replicate 32 7) (signingPayload 5 (oneByteRecord withMeta))) }

section

variable (withMeta : Bool)

theorem authorized_signedOneByte : Authorized lengthScheme soleWriter
    (lengthScheme.sign (.replicate 32 7) (signingPayload 5 (oneByteRecord withMeta)))
    (signingPayload 5 (signedOneByte withMeta)) := lengthScheme_verify_sign.mpr rfl

theorem readable_signedOneByte :
    readUnitRecord lengthScheme soleWriter 5 (signedOneByte withMeta) = .ok (signedOneByte withMeta) :=
  readUnitRecord_ok_iff.mpr ⟨rfl, by cases withMeta <;>
    rfl, (verifyRecordSignature_ok_iff (by decide)).mpr
    ⟨_, rfl, verified_of_authorized (authorized_signedOneByte withMeta)⟩⟩

theorem travels_signedOneByte :
    Travels (fun _ _ b => .ok (b.getD [])) [97] 5 (signedOneByte withMeta) := by
  refine ⟨by decide, ⟨?_, ?_⟩, by cases withMeta <;> decide, ?_⟩
  · rintro s hs
    cases hs
    exact ⟨by decide, by decide, ⟨by decide, by decide⟩, by decide, by decide⟩
  · rintro s hs
    cases withMeta with
    | false => cases hs
    | true =>
      cases hs
      exact ⟨by decide, by decide, ⟨by decide, by decide⟩, by decide, by decide⟩
  · rintro plain hp
    cases withMeta with
    | false => cases hp
    | true =>
      cases hp
      decide

end

theorem export_import_one_byte :
    Transported lengthScheme soleWriter clearTransport (fun _ _ b => .ok (b.getD [])) id [97] 5
      (signedOneByte false) :=
  (export_import_iff lengthScheme soleWriter clearTransport (fun _ _ b => .ok (b.getD [])) id [97] 5
    (signedOneByte false) clearTransport_unwrap (fun _ _ _ h => nomatch h)
      (travels_signedOneByte false)
    (readable_signedOneByte false) ⟨none, rfl⟩
      (fun _ _ hs => Option.some.inj hs ▸ authorized_signedOneByte false)
    (fun h => absurd rfl h)).mpr ⟨rfl, rfl, rfl⟩

/-- The same file is readable with its mode set, and does not make the trip. -/
theorem export_import_mode_set :
    readUnitRecord lengthScheme soleWriter 5 (signedOneByte true) = .ok (signedOneByte true) ∧
      ¬ Transported lengthScheme soleWriter clearTransport (fun _ _ b => .ok (b.getD [])) id [97] 5
        (signedOneByte true) := by
  refine ⟨readable_signedOneByte true, fun h => ?_⟩
  have := (transported_signed_iff clearTransport_unwrap (by decide) (travels_signedOneByte true)
    (readable_signedOneByte true) rfl rfl (authorized_signedOneByte true) ?_).mp h
  · cases this.2.1
  · rintro - ⟨k, -, hv⟩
    exact absurd (lengthScheme_verify_sign.mp hv) (by decide)

end

end Sfs.Sync

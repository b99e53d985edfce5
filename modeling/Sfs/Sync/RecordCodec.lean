import Sfs.Lib.Reader
import Sfs.Sync.Record

/-!
# The stored form of a unit record

`UnitRecord::encode` and `UnitRecord::decode`, byte for byte. A `WireRecord` is the record as the
source has it, with addresses and machine integers; `Record.toWire` is the record of
`Sfs.Sync.Record` at given addresses.

A record is read back as it was written, and refused exactly when its content stream has an
exponent the decoder does not allow or the count of a version vector wrapped
(`decode_encode`, `decode_encode_err`).
-/

namespace Sfs.Sync

open Sfs.Lib Sfs.Version Reader List

structure WireLoc where
  addr : UInt64
  len : UInt32
  deriving DecidableEq

structure WirePin where
  commit : Uuid
  bits : Bytes
  deriving DecidableEq

structure WireStream where
  unitMap : List UInt64
  locations : List WireLoc
  vv : VersionVector
  fragsizeExp : UInt8
  lastFragLength : UInt32
  pins : List WirePin
  deriving DecidableEq

structure WireRecord where
  uuid : Uuid
  parent : Option UInt64
  content : Option WireStream
  metadata : Option WireStream
  concurrentStrains : List UInt64
  contentSuite : Option UInt16
  fragSuites : List UInt16
  signature : Option Signature
  db : Option DbHead
  superseded : List UInt64
  deriving DecidableEq

/-! ## Encoding -/

/-- `b"sfsu\x00r1\x00"`. -/
def unitMagic : Bytes := [115, 102, 115, 117, 0, 114, 49, 0]

def encodeLoc (l : WireLoc) : Bytes := leU64 l.addr ++ leU32 l.len

def encodePin (p : WirePin) : Bytes := uuidBytes p.commit ++ (leBytes 4 p.bits.length ++ p.bits)

def encodeStreamMeta (s : WireStream) : Bytes :=
  leBytes 4 s.unitMap.length ++ (s.unitMap.flatMap leU64 ++
    (leBytes 4 s.locations.length ++ (s.locations.flatMap encodeLoc ++
      (leBytes 4 s.vv.toBytes.length ++ (s.vv.toBytes ++
        ([s.fragsizeExp] ++ (leU32 s.lastFragLength ++
          (leBytes 4 s.pins.length ++ s.pins.flatMap encodePin))))))))

/-- A flag byte, and the field if it is there. -/
def encodeOption {α : Type} (enc : α → Bytes) : Option α → Bytes
  | none => [0]
  | some a => [1] ++ enc a

def encodeDb (db : DbHead) : Bytes := uuidBytes db.store ++ (uuidBytes db.pk ++ [db.kind.toByte])

def presentStream (s : Option WireStream) : Bytes := s.elim [] encodeStreamMeta

def wireFlags (w : WireRecord) : UInt8 :=
  (if w.content.isSome then 1 else 0) + (if w.metadata.isSome then 2 else 0)

/-- What is between the magic and the checksum. -/
def encodeBody (w : WireRecord) : Bytes :=
  uuidBytes w.uuid ++ (encodeOption leU64 w.parent ++ ([wireFlags w] ++
    (presentStream w.content ++ (presentStream w.metadata ++
      ((leBytes 4 w.concurrentStrains.length ++ w.concurrentStrains.flatMap leU64) ++
        (encodeOption leU16 w.contentSuite ++
          ((leBytes 4 w.fragSuites.length ++ w.fragSuites.flatMap leU16) ++
            (encodeOption Vector.toList w.signature ++ (encodeOption encodeDb w.db ++
              (leBytes 4 w.superseded.length ++ w.superseded.flatMap leU64))))))))))

def encode (w : WireRecord) : Bytes :=
  let body := unitMagic ++ encodeBody w
  body ++ leU32 (crc32 body)

/-! ## Decoding -/

/-- Lower-case digits, at least `w` of them. -/
def hex (w n : Nat) : String :=
  let digits := Nat.toDigits 16 n
  String.ofList (replicate (w - digits.length) '0' ++ digits)

def hexBytes (bs : Bytes) : String := "[" ++ ", ".intercalate (bs.map fun b => hex 2 b.toNat) ++ "]"

def tooShort (what : String) (off : Nat) : Error :=
  .integrity ("UnitRecord decode: buffer too short at offset " ++ toString off ++ " " ++ what)

def readU32 : Reader Error Nat := do
  return leNat (← get 4 (tooShort "(need u32)"))

def readU64 : Reader Error UInt64 := do
  return ofLeU64 (← get 8 (tooShort "(need u64)"))

def readBytes (n : Nat) : Reader Error Bytes := get n (tooShort ("(need " ++ toString n ++ " bytes)"))

def readByte (what : String) : Reader Error UInt8 := do
  return (← get 1 (tooShort ("for " ++ what))).headD 0

def readUuid : Reader Error Uuid := do
  return BitVec.ofNat 128 (leNat (← readBytes 16))

def readLoc : Reader Error WireLoc := do
  let addr ← readU64
  let len ← readU32
  return ⟨addr, UInt32.ofNat len⟩

def readPin : Reader Error WirePin := do
  let commit ← readUuid
  let bitsLen ← readU32
  let bits ← get bitsLen (tooShort ("for pin bits (" ++ toString bitsLen ++ " bytes)"))
  return ⟨commit, bits⟩

def lengthMismatch (n m : Nat) : Error :=
  .integrity ("StreamMeta: unit_map (" ++ toString n ++ ") and locations (" ++ toString m ++
    ") length mismatch")

def decodeStreamMeta : Reader Error WireStream := do
  let mapLen ← readU32
  bound mapLen 8 0 (.integrity "unit_map length exceeds buffer")
  let unitMap ← times mapLen readU64
  let locLen ← readU32
  bound locLen 12 0 (.integrity "locations length exceeds buffer")
  let locations ← times locLen readLoc
  if unitMap.length ≠ locations.length then fail (lengthMismatch unitMap.length locations.length)
  else
    let vvLen ← readU32
    let vvBytes ← get vvLen (tooShort ("for vv (" ++ toString vvLen ++ " bytes)"))
    let vv ← ofExcept (VersionVector.fromBytes vvBytes)
    let fragsizeExp ← readByte "fragsize_exp"
    let lastFragLength ← readU32
    let pinsCount ← readU32
    bound pinsCount 20 0 (.integrity "pins_count exceeds buffer")
    let pins ← times pinsCount readPin
    return ⟨unitMap, locations, vv, fragsizeExp, UInt32.ofNat lastFragLength, pins⟩

def invalidFlag (what : String) (flag : UInt8) : Error :=
  .integrity ("UnitRecord decode: invalid " ++ what ++ " " ++ toString flag.toNat ++
    " (expected 0 or 1)")

/-- A flag byte, and the field if it is set. -/
def readOption {α : Type} (what : String) (r : Reader Error α) : Reader Error (Option α) := do
  let flag ← readByte what
  if flag = 0 then return none
  else if flag = 1 then
    let a ← r
    return some a
  else fail (invalidFlag what flag)

/-- The checksum takes the last four bytes. -/
def crcLen : Nat := 4

/-- A list with its count, of entries of `w` bytes; missing in older records. -/
def readCounted {α : Type} (w : Nat) (what : String) (r : Reader Error α) : Reader Error (List α) :=
  optional crcLen [] do
    let count ← readU32
    bound count w crcLen (.integrity ("UnitRecord decode: " ++ what ++ " exceeds buffer"))
    times count r

/-- A stream whose bit is set in the flags. It does not reach into the checksum. -/
def readStream (present : Bool) (kind : Nat) : Reader Error (Option WireStream) := do
  if present then
    if (← remaining) ≤ crcLen then
      fail (.integrity
        ("UnitRecord decode: buffer exhausted before stream " ++ toString kind ++ " data"))
    else
      let s ← Reader.before crcLen decodeStreamMeta
      return some s
  else return none

def readKind : Reader Error UnitKind := do
  let kind ← readByte "db kind"
  if kind = 0 then return .blob
  else if kind = 1 then return .kvRecord
  else fail (invalidFlag "db kind" kind)

def readDb : Reader Error DbHead := do
  let store ← readUuid
  let pk ← readUuid
  let kind ← readKind
  return ⟨store, pk, kind⟩

/-- The range check that the Meta stream, with its exponent 0, does not get. -/
def validateContent (content : Option WireStream) : Reader Error Unit :=
  match content with
  | none => pure ()
  | some s =>
    if minFragsizeExp ≤ s.fragsizeExp.toNat ∧ s.fragsizeExp.toNat ≤ maxFragsizeExp then pure ()
    else fail (.integrity ("content stream fragsize_exp " ++ toString s.fragsizeExp.toNat ++
      " out of range [12, 25]"))

/-- The fields after the streams: each is missing in records written before it was added. -/
def decodeTrailing (uuid : Uuid) (parent : Option UInt64) (content metadata : Option WireStream) :
    Reader Error WireRecord := do
  let strains ← readCounted 8 "strains_count" readU64
  let contentSuite ← optional crcLen none
    (readOption "content_suite_flag" do return ofLeU16 (← readBytes 2))
  let fragSuites ← readCounted 2 "frag_suites count" do return ofLeU16 (← readBytes 2)
  let signature ← optional crcLen none (readOption "sig_flag" do return arr 64 (← readBytes 64))
  let db ← optional crcLen none (readOption "db_flag" readDb)
  let superseded ← readCounted 8 "superseded count" readU64
  return ⟨uuid, parent, content, metadata, strains, contentSuite, fragSuites, signature, db,
    superseded⟩

def decodeBody : Reader Error WireRecord := do
  let uuid ← readUuid
  let parent ← readOption "parent_flag" readU64
  let flags ← readByte "stream_flags"
  if flags &&& 0xfc ≠ 0 then
    fail (.integrity ("UnitRecord decode: unknown stream flags 0x" ++ hex 2 flags.toNat ++
      " (only bits 0-1 are defined)"))
  else
    let content ← readStream (flags &&& 1 ≠ 0) 0
    let metadata ← readStream (flags &&& 2 ≠ 0) 1
    validateContent content
    decodeTrailing uuid parent content metadata

def decode (buf : Bytes) : Outcome Error WireRecord :=
  if buf.length < 30 then
    .err (.integrity
      ("UnitRecord decode: buffer too short (" ++ toString buf.length ++ " bytes, need ≥30)"))
  else if buf.take 8 ≠ unitMagic then
    .err (.integrity ("UnitRecord decode: bad magic " ++ hexBytes (buf.take 8) ++ ", expected " ++
      hexBytes unitMagic))
  else
    let bodyEnd := buf.length - crcLen
    let stored := ofLeU32 (buf.drop bodyEnd)
    let computed := crc32 (buf.take bodyEnd)
    if stored ≠ computed then
      .err (.integrity
        ("UnitRecord decode: CRC mismatch (stored 0x" ++ hex 8 stored.toNat ++ ", computed 0x" ++
        hex 8 computed.toNat ++ ")"))
    else
      match decodeBody ⟨8, buf.drop 8⟩ with
      | .ok (w, _) => .ok w
      | .err e => .err e
      | .panic => .panic

/-! ## Reading back -/

/-- The lengths of a stream fit their fields, and there is a location for each fragment. -/
structure WireStream.Fits (s : WireStream) : Prop where
  unitMap : s.unitMap.length < 2 ^ 32
  locations : s.locations.length = s.unitMap.length
  counters : ∀ e ∈ s.vv.entries, e.2 < 2 ^ 64
  pins : s.pins.length < 2 ^ 32
  bits : ∀ p ∈ s.pins, p.bits.length < 2 ^ 32

structure WireRecord.Fits (w : WireRecord) : Prop where
  content : ∀ s, w.content = some s → s.Fits
  metadata : ∀ s, w.metadata = some s → s.Fits
  strains : w.concurrentStrains.length < 2 ^ 32
  fragSuites : w.fragSuites.length < 2 ^ 32
  superseded : w.superseded.length < 2 ^ 32

/-- The count of the version vector did not wrap. -/
def WireStream.vvOk (s : WireStream) : Bool := s.vv.entries.length < 65536

/-- What the decoder asks of a record beyond its layout. -/
def WireRecord.Valid (w : WireRecord) : Prop :=
  (∀ s, w.content = some s → s.vvOk = true ∧ minFragsizeExp ≤ s.fragsizeExp.toNat ∧
    s.fragsizeExp.toNat ≤ maxFragsizeExp) ∧
  ∀ s, w.metadata = some s → s.vvOk = true

section

variable {T : Nat}

theorem reads_u32 {n : Nat} (h : n < 2 ^ 32) : Reads T readU32 (leBytes 4 n) n := by
  have := (Reads.get (T := T) (tooShort "(need u32)") (length_leBytes 4 n)).map leNat
  rwa [leNat_leBytes_of_lt h] at this

theorem reads_u64 (x : UInt64) : Reads T readU64 (leU64 x) x := by
  have := (Reads.get (T := T) (tooShort "(need u64)") (length_leU64 x)).map ofLeU64
  rwa [ofLeU64_leU64] at this

theorem reads_bytes {n : Nat} {bs : Bytes} (h : bs.length = n) : Reads T (readBytes n) bs bs :=
  Reads.get _ h

theorem reads_u16 (x : UInt16) : Reads T (do return ofLeU16 (← readBytes 2)) (leU16 x) x := by
  have := (reads_bytes (T := T) (length_leU16 x)).map ofLeU16
  rwa [ofLeU16_leU16] at this

theorem reads_byte (what : String) (b : UInt8) : Reads T (readByte what) [b] b := by
  have h : Reads T (get 1 (tooShort ("for " ++ what))) [b] [b] := Reads.get _ rfl
  exact h.map (·.headD 0)

theorem reads_uuid (u : Uuid) : Reads T readUuid (uuidBytes u) u := by
  have := (reads_bytes (T := T) (length_leBytes 16 u.toNat)).map fun bs => BitVec.ofNat 128 (leNat bs)
  have hu : BitVec.ofNat 128 (leNat (leBytes 16 u.toNat)) = u := by
    rw [leNat_leBytes_of_lt u.isLt, BitVec.ofNat_toNat, BitVec.setWidth_eq]
  rwa [hu] at this

theorem reads_loc (l : WireLoc) : Reads T readLoc (encodeLoc l) l := by
  refine (reads_u64 l.addr).bind ?_
  have := (reads_u32 (T := T) l.len.toNat_lt).map fun n => (⟨l.addr, UInt32.ofNat n⟩ : WireLoc)
  rwa [UInt32.ofNat_toNat] at this

theorem reads_get (e : Nat → Error) (bs : Bytes) : Reads T (get bs.length e) bs bs :=
  Reads.get e rfl

theorem reads_pin {p : WirePin} (h : p.bits.length < 2 ^ 32) : Reads T readPin (encodePin p) p :=
  (reads_uuid p.commit).bind
    ((reads_u32 h).bind ((reads_get _ p.bits).map fun bits => WirePin.mk p.commit bits))

theorem checks_vv {vv : VersionVector} (hc : ∀ e ∈ vv.entries, e.2 < 2 ^ 64) :
    Checks T (ofExcept (VersionVector.fromBytes vv.toBytes)) [] vv (vv.entries.length < 65536) := by
  refine ⟨fun h => ?_, fun h off ys _ => ?_⟩
  · rw [VersionVector.fromBytes_eq_ok_iff.mpr ⟨⟨h, hc⟩, rfl⟩]
    exact Reads.pure vv
  rw [← VersionVector.fromBytes_toBytes_isOk_iff hc] at h
  cases hf : VersionVector.fromBytes vv.toBytes with
  | ok v =>
    rw [hf] at h
    exact absurd rfl h
  | error e => exact ⟨e, rfl⟩

theorem le_length_flatMap {α : Type} {enc : α → Bytes} {w : Nat} (h : ∀ a, w ≤ (enc a).length)
    (as : List α) : as.length * w ≤ (as.flatMap enc).length := by
  induction as with
  | nil => simp
  | cons a as ih =>
    have := h a
    rw [flatMap_cons, length_append, length_cons, Nat.succ_mul]
    omega

theorem reads_counted {α : Type} {enc : α → Bytes} {r : Reader Error α} {as : List α} {w t : Nat}
    (e : Error) (hw : 0 < w) (ht : t ≤ T) (hlen : as.length < 2 ^ 32)
    (henc : ∀ a, w ≤ (enc a).length) (hr : ∀ a ∈ as, Reads T r (enc a) a) :
    Reads T (readU32 >>= fun n => bound n w t e >>= fun _ => times n r)
      (leBytes 4 as.length ++ as.flatMap enc) as :=
  (reads_u32 hlen).bind (Reads.bound e hw ht (le_length_flatMap henc as) (Reads.times hr))

theorem length_encodeLoc (l : WireLoc) : 12 ≤ (encodeLoc l).length := by simp [encodeLoc]

theorem length_encodePin (p : WirePin) : 20 ≤ (encodePin p).length := by
  simp only [encodePin, uuidBytes, length_append, length_leBytes]
  omega

theorem le_length_leU64 (x : UInt64) : 8 ≤ (leU64 x).length := by simp

variable {s : WireStream}

theorem length_vvBytes (s : WireStream) : s.vv.toBytes.length < 2 ^ 32 := by
  have := s.vv.length_entries_le
  rw [VersionVector.length_toBytes]
  omega

theorem checks_streamMeta (hf : s.Fits) :
    Checks T decodeStreamMeta (encodeStreamMeta s) s (s.vv.entries.length < 65536) := by
  refine (reads_u32 hf.unitMap).bind_checks (.bound _ (by decide) (Nat.zero_le _) ?_
    ((Reads.times fun x _ => reads_u64 x).bind_checks
      ((reads_u32 (hf.locations ▸ hf.unitMap)).bind_checks
      (.bound _ (by decide) (Nat.zero_le _) ?_
        ((Reads.times fun l _ => reads_loc l).bind_checks ?_)))))
  · have := le_length_flatMap le_length_leU64 s.unitMap
    rw [length_append]
    omega
  · have := le_length_flatMap length_encodeLoc s.locations
    rw [length_append]
    omega
  rw [if_neg (by rw [hf.locations]; exact fun h => h rfl)]
  refine (reads_u32 (length_vvBytes s)).bind_checks ((reads_get _ _).bind_checks ?_)
  rw [← and_true (s.vv.entries.length < 65536)]
  refine (checks_vv hf.counters).bind (Reads.checks ?_)
  refine (reads_byte _ _).bind
    ((reads_u32 s.lastFragLength.toNat_lt).bind ((reads_u32 hf.pins).bind (Reads.bound _ (by decide)
    (Nat.zero_le _) (le_length_flatMap length_encodePin s.pins) ?_)))
  rw [UInt32.ofNat_toNat]
  exact (Reads.times fun p hp => reads_pin (hf.bits p hp)).map fun pins =>
    WireStream.mk s.unitMap s.locations s.vv s.fragsizeExp s.lastFragLength pins

theorem encodeStreamMeta_ne_nil (s : WireStream) : encodeStreamMeta s ≠ [] := by
  intro h
  have := congrArg List.length h
  simp [encodeStreamMeta] at this

theorem reads_option {α : Type} {enc : α → Bytes} {r : Reader Error α} (what : String) {o : Option α}
    (hr : ∀ a, o = some a → Reads T r (enc a) a) :
    Reads T (readOption what r) (encodeOption enc o) o := by
  cases o with
  | none => exact (reads_byte what 0).bind (Reads.pure none)
  | some a => exact (reads_byte what 1).bind ((hr a rfl).map some)

theorem encodeOption_ne_nil {α : Type} (enc : α → Bytes) (o : Option α) : encodeOption enc o ≠ [] := by
  cases o <;> simp [encodeOption]

theorem readStream_stored (kind : Nat) (s : WireStream) (off : Nat) {ys : Bytes}
    (hy : crcLen ≤ ys.length) :
    readStream true kind ⟨off, encodeStreamMeta s ++ ys⟩ =
      (some <$> Reader.before crcLen decodeStreamMeta) ⟨off, encodeStreamMeta s ++ ys⟩ := by
  have hne := length_pos_iff.mpr (encodeStreamMeta_ne_nil s)
  have hrem : (remaining : Reader Error Nat) ⟨off, encodeStreamMeta s ++ ys⟩ =
      .ok ((encodeStreamMeta s ++ ys).length, ⟨off, encodeStreamMeta s ++ ys⟩) := rfl
  unfold readStream
  rw [if_pos rfl, bind_ok hrem, if_neg (by rw [length_append]; omega)]
  rfl

theorem checks_stream {o : Option WireStream} (kind : Nat) (ht : crcLen ≤ T)
    (hf : ∀ s, o = some s → s.Fits) :
    Checks T (readStream o.isSome kind) (presentStream o) o (∀ s, o = some s → s.vvOk = true) := by
  cases o with
  | none => exact ⟨fun _ => Reads.pure none, fun h => absurd (fun s hs => (nomatch hs)) h⟩
  | some s =>
    have hs : Checks 0 decodeStreamMeta (encodeStreamMeta s) s (s.vv.entries.length < 65536) :=
      checks_streamMeta (hf s rfl)
    constructor
    · intro hv off ys hy
      have h := (Reads.before ht (hs.1 (of_decide_eq_true (hv s rfl)))).map some
      exact (readStream_stored kind s off (ht.trans hy)).trans (h off ys hy)
    · intro hv off ys hy
      obtain ⟨e, he⟩ := Fails.before ht
        (hs.2 fun h => hv fun _ hs => Option.some.inj hs ▸ decide_eq_true h) off ys hy
      exact ⟨e, (readStream_stored kind s off (ht.trans hy)).trans (bind_err he)⟩

theorem reads_kind (k : UnitKind) : Reads T readKind [k.toByte] k := by
  cases k with
  | blob => exact (reads_byte _ 0).bind (Reads.pure _)
  | kvRecord => exact (reads_byte _ 1).bind (Reads.pure _)

theorem reads_db (db : DbHead) : Reads T readDb (encodeDb db) db :=
  (reads_uuid db.store).bind
    ((reads_uuid db.pk).bind ((reads_kind db.kind).map fun k => DbHead.mk db.store db.pk k))

theorem reads_list {α : Type} {enc : α → Bytes} {r : Reader Error α} {as : List α} {w : Nat}
    (what : String) (hw : 0 < w) (ht : crcLen ≤ T) (hlen : as.length < 2 ^ 32)
    (henc : ∀ a, w ≤ (enc a).length) (hr : ∀ a, Reads T r (enc a) a) :
    Reads T (readCounted w what r) (leBytes 4 as.length ++ as.flatMap enc) as := by
  refine Reads.optional [] ht ?_ (reads_counted _ hw ht hlen henc fun a _ => hr a)
  intro h
  have := congrArg List.length h
  simp at this

variable {w : WireRecord}

theorem reads_signature (v : Signature) : Reads T (do return arr 64 (← readBytes 64)) v.toList v := by
  have := (reads_bytes (T := T) (n := 64) (by simp : v.toList.length = 64)).map (arr 64)
  rwa [arr_toList] at this

/-- The parts after the streams. -/
def trailingBytes (w : WireRecord) : Bytes :=
  (leBytes 4 w.concurrentStrains.length ++ w.concurrentStrains.flatMap leU64) ++
    (encodeOption leU16 w.contentSuite ++
      ((leBytes 4 w.fragSuites.length ++ w.fragSuites.flatMap leU16) ++
        (encodeOption Vector.toList w.signature ++ (encodeOption encodeDb w.db ++
          (leBytes 4 w.superseded.length ++ w.superseded.flatMap leU64)))))

theorem reads_trailing (ht : crcLen ≤ T) (hf : w.Fits) :
    Reads T (decodeTrailing w.uuid w.parent w.content w.metadata) (trailingBytes w) w := by
  refine (reads_list _ (by decide) ht hf.strains le_length_leU64 reads_u64).bind ?_
  refine (Reads.optional none ht (encodeOption_ne_nil _ _)
    (reads_option _ fun x _ => reads_u16 x)).bind ?_
  refine (reads_list _ (by decide) ht hf.fragSuites (fun x => by simp) reads_u16).bind ?_
  refine (Reads.optional none ht (encodeOption_ne_nil _ _)
    (reads_option _ fun v _ => reads_signature v)).bind ?_
  refine (Reads.optional none ht (encodeOption_ne_nil _ _)
    (reads_option _ fun d _ => reads_db d)).bind ?_
  exact (reads_list _ (by decide) ht hf.superseded le_length_leU64 reads_u64).map fun superseded =>
    WireRecord.mk w.uuid w.parent w.content w.metadata w.concurrentStrains w.contentSuite
      w.fragSuites w.signature
      w.db superseded

theorem flags_spec (content metadata : Bool) :
    let flags : UInt8 := (if content then 1 else 0) + (if metadata then 2 else 0)
    ¬ flags &&& 0xfc ≠ 0 ∧ decide (flags &&& 1 ≠ 0) = content ∧
      decide (flags &&& 2 ≠ 0) = metadata := by
  cases content <;> cases metadata <;> decide

theorem wireFlags_spec (w : WireRecord) : ¬ wireFlags w &&& 0xfc ≠ 0 ∧
    decide (wireFlags w &&& 1 ≠ 0) = w.content.isSome ∧
      decide (wireFlags w &&& 2 ≠ 0) = w.metadata.isSome := flags_spec _ _

theorem checks_content (w : WireRecord) : Checks T (validateContent w.content) [] ()
    (∀ s, w.content = some s → minFragsizeExp ≤ s.fragsizeExp.toNat ∧
      s.fragsizeExp.toNat ≤ maxFragsizeExp) := by
  unfold validateContent
  cases w.content with
  | none => exact ⟨fun _ => Reads.pure (), fun h => absurd (fun s hs => (nomatch hs)) h⟩
  | some s =>
    refine ⟨fun h => ?_, fun h off ys _ => ?_⟩
    · simp only [if_pos (h s rfl)]
      exact Reads.pure ()
    · simp only [if_neg fun hr => h fun _ hs => Option.some.inj hs ▸ hr]
      exact ⟨_, rfl⟩

theorem checks_body (ht : crcLen ≤ T) (hf : w.Fits) :
    Checks T decodeBody (encodeBody w) w w.Valid := by
  have hvalid : w.Valid ↔ (∀ s, w.content = some s → s.vvOk = true) ∧
    (∀ s, w.metadata = some s → s.vvOk = true) ∧
      (∀ s, w.content = some s → minFragsizeExp ≤ s.fragsizeExp.toNat ∧
        s.fragsizeExp.toNat ≤ maxFragsizeExp) ∧ True :=
    ⟨fun h => ⟨fun s hs => (h.1 s hs).1, h.2, fun s hs => (h.1 s hs).2, trivial⟩,
      fun h => ⟨fun s hs => ⟨h.1 s hs, h.2.2.1 s hs⟩, h.2.1⟩⟩
  rw [hvalid]
  refine (reads_uuid w.uuid).bind_checks
    ((reads_option _ fun x _ => reads_u64 x).bind_checks ((reads_byte _ _).bind_checks ?_))
  obtain ⟨hknown, hbit0, hbit1⟩ := wireFlags_spec w
  rw [if_neg hknown, hbit0, hbit1]
  exact (checks_stream 0 ht hf.content).bind ((checks_stream 1 ht hf.metadata).bind
    ((checks_content w).bind (reads_trailing ht hf).checks))

theorem drop_encode (w : WireRecord) :
    (encode w).drop 8 = encodeBody w ++ leU32 (crc32 (unitMagic ++ encodeBody w)) := by
  rw [encode, append_assoc]
  exact drop_left' rfl

/-- Magic, length and checksum of an encoded record pass; the decoder goes on to its body. -/
theorem decode_encode_eq (w : WireRecord) :
    decode (encode w) = match decodeBody
      ⟨8, encodeBody w ++ leU32 (crc32 (unitMagic ++ encodeBody w))⟩ with
      | .ok (w', _) => .ok w'
      | .err e => .err e
      | .panic => .panic := by
  have hlen : (encode w).length = 8 + (encodeBody w).length + 4 := by
    simp only [encode, unitMagic, length_append, length_cons, length_nil, length_leU32]
  have hbody : 18 ≤ (encodeBody w).length := by
    simp only [encodeBody, uuidBytes, length_append, length_leBytes, length_cons, length_nil]
    omega
  have hend : (encode w).length - crcLen = (unitMagic ++ encodeBody w).length := by
    simp [unitMagic, crcLen]
    omega
  have htake : (encode w).take ((encode w).length - crcLen) = unitMagic ++ encodeBody w := by
    rw [hend, encode, take_left' rfl]
  have hdrop : (encode w).drop ((encode w).length - crcLen) =
      leU32 (crc32 (unitMagic ++ encodeBody w)) := by
    rw [hend, encode, drop_left' rfl]
  have hmagic : (encode w).take 8 = unitMagic := by
    rw [encode, append_assoc]
    exact take_left' rfl
  unfold decode
  rw [if_neg (by omega), if_neg (by rw [hmagic]; exact fun h => h rfl)]
  rw [if_neg (by rw [htake, hdrop, ofLeU32_leU32]; exact fun h => h rfl), drop_encode]

/-- A record the decoder allows is read back as it was written. -/
theorem decode_encode (hf : w.Fits) (hv : w.Valid) : decode (encode w) = .ok w := by
  rw [decode_encode_eq, (checks_body (Nat.le_refl crcLen) hf).1 hv 8 _ (by simp [crcLen])]

theorem decode_encode_err (hf : w.Fits) (hv : ¬ w.Valid) : ∃ e, decode (encode w) = .err e := by
  obtain ⟨e, he⟩ :=
    (checks_body (Nat.le_refl crcLen) hf).2 hv 8 (leU32 (crc32 (unitMagic ++ encodeBody w)))
    (by simp [crcLen])
  exact ⟨e, by rw [decode_encode_eq, he]⟩

end

/-! ## Any bytes

What the decoder accepts it reads back; what is left of a stored record that was cut, it refuses or
reads without the parts that are gone. -/

/-- The record with the first `n` of its trailing parts. -/
def WireRecord.trim (w : WireRecord) (n : Nat) : WireRecord :=
  { w with
    concurrentStrains := if 1 ≤ n then w.concurrentStrains else []
    contentSuite := if 2 ≤ n then w.contentSuite else none
    fragSuites := if 3 ≤ n then w.fragSuites else []
    signature := if 4 ≤ n then w.signature else none
    db := if 5 ≤ n then w.db else none
    superseded := if 6 ≤ n then w.superseded else [] }

theorem stable_u32 : Stable readU32 (· < 2 ^ 32) :=
  (Stable.get 4 _).bind fun bs h => Stable.pure (show leNat bs < 256 ^ 4 from h ▸ leNat_lt bs)

theorem stable_u64 : Stable readU64 fun _ => True :=
  (Stable.get 8 _).bind fun _ _ => Stable.pure trivial

theorem stable_bytes {α : Type} (n : Nat) (f : Bytes → α) :
    Stable (do return f (← readBytes n)) fun _ => True :=
  (Stable.get n _).bind fun _ _ => Stable.pure trivial

theorem stable_byte (what : String) : Stable (readByte what) fun _ => True :=
  (Stable.get 1 _).bind fun _ _ => Stable.pure trivial

theorem stable_pin : Stable readPin fun p => p.bits.length < 2 ^ 32 :=
  (stable_bytes 16 _).bind fun _ _ => stable_u32.bind fun n hn => (Stable.get n _).bind fun _ hb =>
    Stable.pure (hb.trans_lt hn)

theorem stable_streamMeta : Stable decodeStreamMeta fun s => s.Fits ∧ s.vvOk = true := by
  refine stable_u32.bind fun n hn =>
    (Stable.bound ..).bind fun _ _ => (stable_u64.times n).bind fun unitMap hm => ?_
  have hloc : Stable readLoc fun _ =>
    True := stable_u64.bind fun _ _ => stable_u32.bind fun _ _ => Stable.pure trivial
  refine stable_u32.bind fun n' _ =>
    (Stable.bound ..).bind fun _ _ => (hloc.times n').bind fun locations _ => ?_
  by_cases hlen : unitMap.length = locations.length
  · rw [if_neg (not_not.mpr hlen)]
    refine stable_u32.bind fun _ _ =>
      (Stable.get ..).bind fun _ _ => Stable.ofExcept.bind fun vv hvv => ?_
    have hv := (VersionVector.fromBytes_eq_ok_iff.mp hvv).1
    refine (stable_byte _).bind fun _ _ => stable_u32.bind fun _ _ => stable_u32.bind fun m hp => ?_
    refine (Stable.bound ..).bind fun _ _ => (stable_pin.times m).bind fun pins hpins => Stable.pure ?_
    exact ⟨⟨hm.1.trans_lt hn, hlen.symm, hv.counters, hpins.1.trans_lt hp, hpins.2⟩,
      decide_eq_true hv.count⟩
  · rw [if_pos hlen]
    exact Stable.fail _

theorem stable_option {α : Type} {r : Reader Error α} {P : α → Prop} (what : String)
    (hr : Stable r P) : Stable (readOption what r) fun o => ∀ a ∈ o, P a :=
  (stable_byte what).bind fun _ _ =>
    Stable.ite (Stable.pure (by simp)) (Stable.ite hr.some (Stable.fail _))

theorem stable_stream (present : Bool) (kind : Nat) :
    Stable (readStream present kind) fun o => ∀ s ∈ o, s.Fits ∧ s.vvOk = true := by
  cases present with
  | false => exact Stable.pure (by simp)
  | true => exact stable_streamMeta.before.some.unless crcLen _

theorem stable_content (content : Option WireStream) : Stable (validateContent content)
    fun _ => ∀ s ∈ content, minFragsizeExp ≤ s.fragsizeExp.toNat ∧
      s.fragsizeExp.toNat ≤ maxFragsizeExp := by
  unfold validateContent
  split
  · exact Stable.pure (by simp)
  · split
    · exact Stable.pure (by simpa)
    · exact Stable.fail _

theorem stable_db : Stable readDb fun _ => True := by
  have hkind : Stable readKind fun _ => True := (stable_byte _).bind fun _ _ =>
    Stable.ite (Stable.pure trivial) (Stable.ite (Stable.pure trivial) (Stable.fail _))
  exact (stable_bytes 16 _).bind fun _ _ =>
    (stable_bytes 16 _).bind fun _ _ => hkind.bind fun _ _ => Stable.pure trivial

theorem stable_counted {α : Type} {r : Reader Error α} (w t : Nat) (e : Error)
    (hr : Stable r fun _ => True) :
    Stable (readU32 >>= fun n => bound n w t e >>= fun _ => times n r) (·.length < 2 ^ 32) :=
  stable_u32.bind fun n hn => (Stable.bound n w t e).bind fun _ _ =>
    (hr.times n).imp fun _ h => h.1.trans_lt hn

section

variable {T : Nat} {w : WireRecord}

theorem cut_trailing (ht : crcLen ≤ T) (hf : w.Fits) :
    Cut T (decodeTrailing w.uuid w.parent w.content w.metadata) (trailingBytes w) fun w' =>
      ∃ n, w' = w.trim n := by
  unfold trailingBytes
  rw [← append_nil (w.superseded.flatMap leU64), ← append_assoc (leBytes 4 w.superseded.length)]
  refine .optional (stable_counted _ _ _ stable_u64)
    (reads_counted _ (by decide) ht hf.strains le_length_leU64 fun x _ => reads_u64 x)
    (fun c hc => ⟨_, by simp only [readCounted, optional_bind hc]; rfl, 0, rfl⟩) ?_
  refine .optional (stable_option _ (stable_bytes 2 _)) (reads_option _ fun x _ => reads_u16 x)
    (fun c hc => ⟨_, by simp only [readCounted, optional_bind hc]; rfl, 1, rfl⟩) ?_
  refine .optional (stable_counted _ _ _ (stable_bytes 2 _))
    (reads_counted _ (by decide) ht hf.fragSuites (fun x => by simp) fun x _ => reads_u16 x)
    (fun c hc => ⟨_, by simp only [readCounted, optional_bind hc]; rfl, 2, rfl⟩) ?_
  refine .optional (stable_option _ (stable_bytes 64 _)) (reads_option _ fun v _ => reads_signature v)
    (fun c hc => ⟨_, by simp only [readCounted, optional_bind hc]; rfl, 3, rfl⟩) ?_
  refine .optional (stable_option _ stable_db) (reads_option _ fun d _ => reads_db d)
    (fun c hc => ⟨_, by simp only [readCounted, optional_bind hc]; rfl, 4, rfl⟩) ?_
  refine .optional (stable_counted _ _ _ stable_u64)
    (reads_counted _ (by decide) ht hf.superseded le_length_leU64 fun x _ => reads_u64 x)
    (fun c _ => ⟨_, rfl, 5, rfl⟩) fun off ys zs _ _ => .inr ⟨_, _, rfl, 6, rfl⟩

theorem cut_body (ht : crcLen ≤ T) (hf : w.Fits) (hv : w.Valid) :
    Cut T decodeBody (encodeBody w) fun w' => ∃ n, w' = w.trim n := by
  refine .bind (stable_bytes 16 _) (reads_uuid w.uuid) (.bind (stable_option _ stable_u64)
    (reads_option _ fun x _ => reads_u64 x) (.bind (stable_byte _) (reads_byte _ _) ?_))
  obtain ⟨hknown, hbit0, hbit1⟩ := wireFlags_spec w
  rw [if_neg hknown, hbit0, hbit1]
  refine .bind (stable_stream _ 0) ((checks_stream 0 ht hf.content).1 fun s hs => (hv.1 s hs).1)
    (.bind (stable_stream _ 1) ((checks_stream 1 ht hf.metadata).1 hv.2) ?_)
  show Cut T _ ([] ++ trailingBytes w) _
  exact .bind (stable_content _) ((checks_content w).1 fun s hs => (hv.1 s hs).2) (cut_trailing ht hf)

theorem length_lt_of_readCounted {α : Type} {n : Nat} {what : String} {r : Reader Error α}
    {c c' : Cursor} {as : List α} (hr : Stable r fun _ => True)
    (h : readCounted n what r c = .ok (as, c')) : as.length < 2 ^ 32 := by
  unfold readCounted Reader.optional at h
  split at h
  · cases h
    exact Nat.pow_pos (by decide)
  · exact ((stable_counted _ _ _ hr).ok c as c' h).1

theorem valid_of_decodeBody {c c' : Cursor} (h : decodeBody c = .ok (w, c')) : w.Fits ∧ w.Valid := by
  obtain ⟨uuid, c₁, -, h⟩ := Reader.bind_eq_ok_iff.mp h
  obtain ⟨parent, c₂, -, h⟩ := Reader.bind_eq_ok_iff.mp h
  obtain ⟨flags, c₃, -, h⟩ := Reader.bind_eq_ok_iff.mp h
  split at h
  · cases h
  obtain ⟨content, c₄, hc, h⟩ := Reader.bind_eq_ok_iff.mp h
  obtain ⟨metadata, c₅, hm, h⟩ := Reader.bind_eq_ok_iff.mp h
  obtain ⟨u, c₆, hexp, h⟩ := Reader.bind_eq_ok_iff.mp h
  obtain ⟨strains, c₇, hs, h⟩ := Reader.bind_eq_ok_iff.mp h
  obtain ⟨contentSuite, c₈, -, h⟩ := Reader.bind_eq_ok_iff.mp h
  obtain ⟨fragSuites, c₉, hf, h⟩ := Reader.bind_eq_ok_iff.mp h
  obtain ⟨signature, d₁, -, h⟩ := Reader.bind_eq_ok_iff.mp h
  obtain ⟨db, d₂, -, h⟩ := Reader.bind_eq_ok_iff.mp h
  obtain ⟨superseded, d₃, hsup, h⟩ := Reader.bind_eq_ok_iff.mp h
  cases h
  have hc := ((stable_stream _ 0).ok _ _ _ hc).1
  have hm := ((stable_stream _ 1).ok _ _ _ hm).1
  refine ⟨⟨fun s h => (hc s h).1, fun s h => (hm s h).1, length_lt_of_readCounted stable_u64 hs,
    length_lt_of_readCounted (stable_bytes 2 _) hf, length_lt_of_readCounted stable_u64 hsup⟩,
    fun s h => ⟨(hc s h).2, ((stable_content _).ok _ _ _ hexp).1 s h⟩, fun s h => (hm s h).2⟩

/-- Behind the checks of length, magic and checksum the body is read. -/
theorem decode_cases (b : Bytes) :
    (∃ e, decode b = .err e) ∨ decode b = match decodeBody ⟨8, b.drop 8⟩ with
    | .ok (w, _) => .ok w
    | .err e => .err e
    | .panic => .panic := by
  unfold decode
  split
  · exact .inl ⟨_, rfl⟩
  split
  · exact .inl ⟨_, rfl⟩
  · dsimp only
    split
    · exact .inl ⟨_, rfl⟩
    · exact .inr rfl

/-- A stored record that was cut is refused, or read without the parts that are gone. -/
theorem decode_take (hf : w.Fits) (hv : w.Valid) (n : Nat) :
    (∃ e, decode ((encode w).take n) = .err e) ∨ ∃ k, decode ((encode w).take n) = .ok (w.trim k) := by
  rcases decode_cases ((encode w).take n) with h | h
  · exact .inl h
  have hz : ((encode w).take n).drop 8 <+:
      encodeBody w ++ leU32 (crc32 (unitMagic ++ encodeBody w)) := by
    rw [drop_take, drop_encode]
    exact take_prefix _ _
  rw [h]
  rcases cut_body (Nat.le_refl crcLen) hf hv 8 _ _ (by simp [crcLen]) hz with ⟨e, he⟩ |
    ⟨_, c', hw, k, rfl⟩
  · rw [he]
    exact .inl ⟨e, rfl⟩
  · rw [hw]
    exact .inr ⟨k, rfl⟩

end

/-- What decodes is what the decoder reads back. -/
theorem valid_of_decode {b : Bytes} {w : WireRecord} (h : decode b = .ok w) : w.Fits ∧ w.Valid := by
  rcases decode_cases b with ⟨e, he⟩ | hd
  · rw [h] at he
    cases he
  rw [h] at hd
  split at hd
  · rename_i hw
    cases hd
    exact valid_of_decodeBody hw
  · cases hd
  · cases hd

/-- There is a location for each fragment, and the counters are 64-bit numbers. -/
structure WireStream.WellFormed (s : WireStream) : Prop where
  locations : s.locations.length = s.unitMap.length
  counters : ∀ e ∈ s.vv.entries, e.2 < 2 ^ 64

structure WireRecord.WellFormed (w : WireRecord) : Prop where
  content : ∀ s, w.content = some s → s.WellFormed ∧ minFragsizeExp ≤ s.fragsizeExp.toNat ∧
    s.fragsizeExp.toNat ≤ maxFragsizeExp
  metadata : ∀ s, w.metadata = some s → s.WellFormed

/-- No count is cut to the width of its field: `u16` for a version vector, `u32` for the others. -/
structure WireStream.Counted (s : WireStream) : Prop where
  unitMap : s.unitMap.length < 2 ^ 32
  aliases : s.vv.entries.length < 65536
  pins : s.pins.length < 2 ^ 32
  bits : ∀ p ∈ s.pins, p.bits.length < 2 ^ 32

structure WireRecord.Counted (w : WireRecord) : Prop where
  streams : ∀ s, w.content = some s ∨ w.metadata = some s → s.Counted
  strains : w.concurrentStrains.length < 2 ^ 32
  fragSuites : w.fragSuites.length < 2 ^ 32
  superseded : w.superseded.length < 2 ^ 32

theorem WireStream.WellFormed.fits {s : WireStream} (h : s.WellFormed) (hc : s.Counted) :
    s.Fits ∧ s.vvOk = true :=
  ⟨⟨hc.unitMap, h.locations, h.counters, hc.pins, hc.bits⟩, decide_eq_true hc.aliases⟩

theorem WireStream.Fits.counted {s : WireStream} (h : s.Fits) (hv : s.vvOk = true) : s.Counted :=
  ⟨h.unitMap, of_decide_eq_true hv, h.pins, h.bits⟩

/-- A record comes back as it was stored, what is accepted comes back when it is stored again, and a
cut record is refused or comes back without its last parts: if and only if no count was cut. -/
theorem codec_faithful_iff {w : WireRecord} (h : w.WellFormed) :
    (decode (encode w) = .ok w ∧ (∀ b r, decode b = .ok r → decode (encode r) = .ok r) ∧
      ∀ n, (∃ e, decode ((encode w).take n) = .err e) ∨
        ∃ k, decode ((encode w).take n) = .ok (w.trim k)) ↔
      w.Counted := by
  constructor
  · rintro ⟨hd, -⟩
    obtain ⟨hf, hv⟩ := valid_of_decode hd
    refine ⟨fun s hs => ?_, hf.strains, hf.fragSuites, hf.superseded⟩
    rcases hs with hs | hs
    · exact (hf.content s hs).counted (hv.1 s hs).1
    · exact (hf.metadata s hs).counted (hv.2 s hs)
  · intro hc
    have hcontent := fun s hs => (h.content s hs).1.fits (hc.streams s (.inl hs))
    have hmeta := fun s hs => (h.metadata s hs).fits (hc.streams s (.inr hs))
    have hf : w.Fits := ⟨fun s hs => (hcontent s hs).1, fun s hs => (hmeta s hs).1, hc.strains,
      hc.fragSuites, hc.superseded⟩
    have hv : w.Valid :=
      ⟨fun s hs => ⟨(hcontent s hs).2, (h.content s hs).2⟩, fun s hs => (hmeta s hs).2⟩
    exact ⟨decode_encode hf hv, fun b r hb =>
      decode_encode (valid_of_decode hb).1 (valid_of_decode hb).2, decode_take hf hv⟩

/-- A record with one stream, of one fragment. -/
def oneFragment (vv : VersionVector) : WireRecord where
  uuid := 0
  parent := none
  content := some ⟨[1], [⟨4096, 16⟩], vv, 12, 16, []⟩
  metadata := none
  concurrentStrains := []
  contentSuite := none
  fragSuites := []
  signature := none
  db := none
  superseded := []

theorem wellFormed_oneFragment {vv : VersionVector} (h : ∀ e ∈ vv.entries, e.2 < 2 ^ 64) :
    (oneFragment vv).WellFormed := by
  constructor
  · rintro _ ⟨⟩
    exact ⟨⟨rfl, h⟩, (by decide : 12 ≤ 12 ∧ 12 ≤ 25)⟩
  · rintro _ ⟨⟩

/-- A stream of two versions by two hosts, with a hole and a pin. -/
def pinnedStream : WireStream :=
  ⟨[1, 0, 2], [⟨4096, 4124⟩, ⟨0, 0⟩, ⟨12288, 128⟩], (VersionVector.new.bump 0).bump 1, 12, 100,
    [⟨7, [160]⟩]⟩

/-- A record with every part there is. -/
def signedRecord : WireRecord where
  uuid := 5
  parent := some 16384
  content := some pinnedStream
  metadata := some ⟨[1], [⟨20480, 60⟩], VersionVector.new.bump 0, 12, 32, []⟩
  concurrentStrains := [24576, 28672]
  contentSuite := some 1
  fragSuites := [1, 1, 2]
  signature := some (Vector.replicate 64 4)
  db := some ⟨9, 8, .kvRecord⟩
  superseded := [32768]

theorem codec_faithful_signed : decode (encode signedRecord) = .ok signedRecord ∧
    (∀ b r, decode b = .ok r → decode (encode r) = .ok r) ∧
      ∀ n, (∃ e, decode ((encode signedRecord).take n) = .err e) ∨
        ∃ k, decode ((encode signedRecord).take n) = .ok (signedRecord.trim k) := by
  have hwf : signedRecord.WellFormed := by
    constructor
    · rintro _ ⟨⟩
      exact ⟨⟨rfl, by decide⟩, by decide⟩
    · rintro _ ⟨⟩
      exact ⟨rfl, by decide⟩
  refine (codec_faithful_iff hwf).mpr ⟨fun s hs => ?_, by decide, by decide, by decide⟩
  rcases hs with ⟨⟨⟩⟩ | ⟨⟨⟩⟩ <;> exact ⟨by decide, by decide, by decide, by decide⟩

/-- The count of a vector with all aliases is stored as 0, and the record is refused. -/
theorem not_codec_faithful_full :
    (oneFragment .full).WellFormed ∧ ∃ e, decode (encode (oneFragment .full)) = .err e := by
  have hfits : ∀ e ∈ VersionVector.full.entries, e.2 < 2 ^ 64 := by simp [VersionVector.full]
  refine ⟨wellFormed_oneFragment hfits,
    decode_encode_err ⟨?_, ?_, by decide, by decide, by decide⟩ fun hv => ?_⟩
  · rintro _ ⟨⟩
    exact ⟨(by decide : 1 < 2 ^ 32), rfl, hfits, (by decide : 0 < 2 ^ 32), by simp⟩
  · rintro _ ⟨⟩
  · have := of_decide_eq_true (hv.1 _ rfl).1
    simp [VersionVector.full] at this

section

variable {N : Nat}

theorem decodes_u32 : Decodes N readU32 (leBytes 4) (· < 2 ^ 32) := (decodes_get 4 _).num

theorem decodes_u64 : Decodes N readU64 leU64 fun _ => True := by
  refine ((decodes_get 8 _).map ofLeU64 leU64 fun bs h => ?_).congr (fun x => by simp) fun _ _ => rfl
  exact (congrArg (leBytes 8) UInt64.toNat_ofNat').trans (leBytes_leNat_mod h)

theorem decodes_uuid : Decodes N readUuid uuidBytes fun _ => True := by
  refine ((decodes_get 16 _).map (fun bs => BitVec.ofNat 128 (leNat bs)) uuidBytes
    fun bs h => ?_).congr (fun u => ?_) fun _ _ => rfl
  · rw [uuidBytes, BitVec.toNat_ofNat]
    exact leBytes_leNat_mod h
  · simp [uuidBytes, leNat_leBytes_of_lt (w := 16) u.isLt]

end

/-! ## Records at their addresses -/

/-- Eight bits to a byte, the first one on top. -/
def packBits (bits : List Bool) : Bytes :=
  (List.range ((bits.length + 7) / 8)).map fun i =>
    UInt8.ofNat ((List.range 8).foldl (fun n j => 2 * n + (bits.getD (8 * i + j) false).toNat) 0)

/-- The hole sentinel is `{ addr: 0, len: 0 }`. -/
def toWireLoc (b : Option BlockLoc) : WireLoc :=
  match b with
  | none => ⟨0, 0⟩
  | some l => ⟨UInt64.ofNat l.addr, UInt32.ofNat l.len⟩

def toWireStream (s : StreamMeta BlockLoc) : WireStream where
  unitMap := s.frags.map fun fr => UInt64.ofNat fr.version
  locations := s.frags.map fun fr => toWireLoc fr.block
  vv := s.vv
  fragsizeExp := UInt8.ofNat s.fragsizeExp
  lastFragLength := UInt32.ofNat s.lastFragLength
  pins := s.pins.map fun p => ⟨p.commit, packBits p.bits⟩

/-- What a stored record has besides: where the records it points at are, and the suites. -/
structure Placement where
  parent : Option UInt64
  strains : List UInt64
  contentSuite : Option UInt16
  fragSuites : List UInt16
  superseded : List UInt64

structure Placement.Fits (p : Placement) : Prop where
  strains : p.strains.length < 2 ^ 32
  fragSuites : p.fragSuites.length < 2 ^ 32
  superseded : p.superseded.length < 2 ^ 32

def Record.toWire (u : Uuid) (p : Placement) (r : Record BlockLoc) : WireRecord where
  uuid := u
  parent := p.parent
  content := r.content.map toWireStream
  metadata := r.metadata.map toWireStream
  concurrentStrains := p.strains
  contentSuite := p.contentSuite
  fragSuites := p.fragSuites
  signature := r.signature
  db := r.db
  superseded := p.superseded

/-- The numbers of a stream are in the ranges of the source's integer types. -/
structure StreamFits (s : StreamMeta BlockLoc) : Prop where
  frags : s.frags.length < 2 ^ 32
  counters : ∀ e ∈ s.vv.entries, e.2 < 2 ^ 64
  fragsizeExp : s.fragsizeExp < 256
  pins : s.pins.length < 2 ^ 32
  bits : ∀ p ∈ s.pins, p.bits.length < 2 ^ 32

structure RecordFits (r : Record BlockLoc) : Prop where
  content : ∀ s, r.content = some s → StreamFits s
  metadata : ∀ s, r.metadata = some s → StreamFits s

/-- The stored record is accepted by `UnitRecord::decode`. -/
def Decodable (u : Uuid) (r : Record BlockLoc) : Prop :=
  ∀ p : Placement, p.Fits → decode (encode (r.toWire u p)) = .ok (r.toWire u p)

section

variable {u : Uuid} {r : Record BlockLoc} {s : StreamMeta BlockLoc}

theorem StreamFits.toWire (h : StreamFits s) : (toWireStream s).Fits where
  unitMap := by simpa [toWireStream] using h.frags
  locations := by simp [toWireStream]
  counters := h.counters
  pins := by simpa [toWireStream] using h.pins
  bits := by
    intro p hp
    obtain ⟨q, hq, rfl⟩ := mem_map.mp hp
    have := h.bits q hq
    simp only [packBits, length_map, length_range]
    omega

theorem RecordFits.toWire (h : RecordFits r) {p : Placement} (hp : p.Fits) : (r.toWire u p).Fits where
  content := by
    intro w hw
    obtain ⟨s, hs, rfl⟩ := Option.map_eq_some_iff.mp hw
    exact (h.content s hs).toWire
  metadata := by
    intro w hw
    obtain ⟨s, hs, rfl⟩ := Option.map_eq_some_iff.mp hw
    exact (h.metadata s hs).toWire
  strains := hp.strains
  fragSuites := hp.fragSuites
  superseded := hp.superseded

theorem toNat_fragsizeExp (h : StreamFits s) : (toWireStream s).fragsizeExp.toNat = s.fragsizeExp := by
  exact Nat.mod_eq_of_lt h.fragsizeExp

theorem valid_toWire_iff (h : RecordFits r) (p : Placement) :
    (r.toWire u p).Valid ↔ (∀ s, r.content = some s → contentDecodes s = true) ∧
      ∀ s, r.metadata = some s → vvDecodes s.vv = true := by
  have hc : ∀ s, StreamFits s → (contentDecodes s = true ↔ (toWireStream s).vvOk = true ∧
      minFragsizeExp ≤ (toWireStream s).fragsizeExp.toNat ∧
      (toWireStream s).fragsizeExp.toNat ≤ maxFragsizeExp) := by
    intro s hs
    rw [toNat_fragsizeExp hs]
    simp only [contentDecodes, vvDecodes, WireStream.vvOk, toWireStream, Bool.and_eq_true,
      decide_eq_true_eq]
    constructor
    · rintro ⟨⟨h1, h2⟩, h3⟩
      exact ⟨decide_eq_true h3, h1, h2⟩
    · rintro ⟨h3, h1, h2⟩
      exact ⟨⟨h1, h2⟩, of_decide_eq_true h3⟩
  refine and_congr ?_ ?_
  · constructor
    · intro hv s hs
      exact (hc s (h.content s hs)).mpr (hv _ (by rw [Record.toWire, hs]; rfl))
    · intro hv w hw
      obtain ⟨s, hs, rfl⟩ := Option.map_eq_some_iff.mp hw
      exact (hc s (h.content s hs)).mp (hv s hs)
  · constructor
    · intro hv s hs
      exact hv _ (by rw [Record.toWire, hs]; rfl)
    · intro hv w hw
      obtain ⟨s, hs, rfl⟩ := Option.map_eq_some_iff.mp hw
      exact hv s hs

/-- At the bytes it comes down to the exponent of the content stream and the entry counts. -/
theorem decodable_iff (h : RecordFits r) :
    Decodable u r ↔ (∀ s, r.content = some s → contentDecodes s = true) ∧
      ∀ s, r.metadata = some s → vvDecodes s.vv = true := by
  constructor
  · intro hd
    let p : Placement := ⟨none, [], none, [], []⟩
    have hp : p.Fits := ⟨by decide, by decide, by decide⟩
    rw [← valid_toWire_iff (u := u) h p]
    by_contra hv
    obtain ⟨e, he⟩ := decode_encode_err (h.toWire hp) hv
    rw [hd p hp] at he
    cases he
  · intro hv p hp
    exact decode_encode (h.toWire hp) ((valid_toWire_iff h p).mpr hv)

end

end Sfs.Sync

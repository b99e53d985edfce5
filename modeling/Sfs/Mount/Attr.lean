import Mathlib.Data.String.Basic
import Sfs.Basic
import Sfs.Lib.KeyMap
import Sfs.Lib.Reader

/-!
# The metadata record of a unit

The attributes of a file, the target of a symlink and the extended attributes share one record with
a checksum at the end. A record is read back as it was written as long as its lengths fit their
fields (`decodeMetaXattrs_encode`), and what is read from any record does fit
(`fits_of_decode`).
-/

namespace Sfs.Mount

open Sfs.Lib List Reader SortedMap

variable {c c' : Cursor} {target : Option String} {version : UInt8} {xattrs : Xattrs}

inductive FileKind where
  | file
  | dir
  | symlink
  deriving DecidableEq, Repr

structure FsAttr where
  size : Nat
  blocks : Nat
  mode : UInt32
  uid : UInt32
  gid : UInt32
  atime : Int64
  mtime : Int64
  ctime : Int64
  kind : FileKind
  nlink : UInt32
  atimeNsec : UInt32
  mtimeNsec : UInt32
  ctimeNsec : UInt32
  deriving DecidableEq

/-- The extended attributes, by name. -/
abbrev Xattrs := SortedMap String Bytes

inductive AttrError where
  | tooShort
  | badMagic
  | unsupportedVersion (version : UInt8)
  | crcMismatch
  | truncated
  | unknownKind (k : UInt8)
  | symlinkLen
  | symlinkUtf8
  | xattrNameLen
  | xattrNameUtf8
  | xattrValueLen
  | duplicateXattr
  | trailingBytes
  deriving DecidableEq, Repr

def ATTR_MAGIC : Bytes := [0x73, 0x66, 0x73, 0x61]

def ATTR_VERSION_V1 : UInt8 := 1

def ATTR_VERSION : UInt8 := 2

def ATTR_VERSION_V3 : UInt8 := 3

def MAX_XATTR_TOTAL : Nat := 64 * 1024

def FIXED_HDR : Nat := 48

def blocksForSize (size : Nat) : Nat := (size + 511) / 512

/-! ## Encoding -/

def FileKind.toU8 : FileKind → UInt8
  | .file => 0
  | .dir => 1
  | .symlink => 2

def leI64 (x : Int64) : Bytes := leU64 x.toUInt64

def targetBytes (symlinkTarget : Option String) : Bytes := (symlinkTarget.map utf8).getD []

/-- What follows the version up to the symlink target. -/
def encodeFields (attr : FsAttr) (symlinkTarget : Option String) : Bytes :=
  [attr.kind.toU8] ++ (leU32 attr.mode ++ (leU32 attr.uid ++ (leU32 attr.gid ++ (leU32 attr.nlink ++
    (leI64 attr.atime ++ (leI64 attr.mtime ++ (leI64 attr.ctime ++
      (leU32 attr.atimeNsec ++ (leU32 attr.mtimeNsec ++ (leU32 attr.ctimeNsec ++
        (leBytes 2 (targetBytes symlinkTarget).length ++ targetBytes symlinkTarget)))))))))))

def encodeBody (attr : FsAttr) (symlinkTarget : Option String) (version : UInt8) : Bytes :=
  ATTR_MAGIC ++ ([version] ++ encodeFields attr symlinkTarget)

def encodeXattr (e : String × Bytes) : Bytes :=
  leBytes 2 (utf8 e.1).length ++ (utf8 e.1 ++ (leBytes 4 e.2.length ++ e.2))

def encodeXattrSection (xattrs : Xattrs) : Bytes :=
  leBytes 4 xattrs.entries.length ++ xattrs.entries.flatMap encodeXattr

section

variable (crc : Bytes → UInt32)

def withCrc (body : Bytes) : Bytes := body ++ leU32 (crc body)

def encodeMeta (attr : FsAttr) (symlinkTarget : Option String) : Bytes :=
  withCrc crc (encodeBody attr symlinkTarget ATTR_VERSION)

def encodeMetaXattrs (attr : FsAttr) (symlinkTarget : Option String) (xattrs : Xattrs) : Bytes :=
  if xattrs.entries = [] then encodeMeta crc attr symlinkTarget
  else withCrc crc (encodeBody attr symlinkTarget ATTR_VERSION_V3 ++ encodeXattrSection xattrs)

/-! ## Decoding -/

def kindFromU8 (v : UInt8) : Reader AttrError FileKind :=
  if v = 0 then return .file
  else if v = 1 then return .dir
  else if v = 2 then return .symlink
  else fail (.unknownKind v)

/-- A length of `w` bytes. -/
def readLen (w : Nat) : Reader AttrError Nat := do return leNat (← get w fun _ => .truncated)

def readU32 : Reader AttrError UInt32 := do return ofLeU32 (← get 4 fun _ => .truncated)

def readI64 : Reader AttrError Int64 := do return (ofLeU64 (← get 8 fun _ => .truncated)).toInt64

/-- Text of `n` bytes that ends before the checksum. -/
def readText (n : Nat) (tooLong badUtf8 : AttrError) : Reader AttrError String := do
  match ofUtf8 (← sliceBefore 4 n tooLong) with
  | some s => return s
  | none => fail badUtf8

def readNsecs (version : UInt8) : Reader AttrError (UInt32 × UInt32 × UInt32) :=
  if ATTR_VERSION ≤ version then do
    let a ← readU32
    let m ← readU32
    let c ← readU32
    return (a, m, c)
  else return (0, 0, 0)

def readTarget : Reader AttrError (Option String) := do
  let symlinkLen ← readLen 2
  let target ← readText symlinkLen .symlinkLen .symlinkUtf8
  return if symlinkLen = 0 then none else some target

def readXattr : Reader AttrError (String × Bytes) := do
  let nameLen ← readLen 2
  let name ← readText nameLen .xattrNameLen .xattrNameUtf8
  let valueLen ← readLen 4
  let value ← sliceBefore 4 valueLen .xattrValueLen
  return (name, value)

def readXattrs : Nat → Xattrs → Reader AttrError Xattrs
  | 0, acc => return acc
  | n + 1, acc => do
    let e ← readXattr
    if (acc.get e.1).isSome then fail .duplicateXattr else readXattrs n (acc.put e.1 e.2)

/-- The section must reach up to the checksum. The message of the error has the number of bytes
between, `body_end - off`; behind the end of the body the subtraction panics in a build with
overflow checks. -/
def atBodyEnd (checks : Bool) : Reader AttrError Unit := fun c =>
  if c.rest.length = 4 then .ok ((), c)
  else if checks && c.rest.length < 4 then .panic
  else .err .trailingBytes

def decodeXattrSection (checks : Bool) : Reader AttrError Xattrs := do
  let count ← readLen 4
  let xattrs ← readXattrs count .empty
  atBodyEnd checks
  return xattrs

def readXattrSection (checks : Bool) (version : UInt8) : Reader AttrError Xattrs :=
  if ATTR_VERSION_V3 ≤ version then decodeXattrSection checks else return .empty

/-- The fields up to the symlink target. -/
def readFields (version : UInt8) : Reader AttrError (FsAttr × Option String) := do
  let kind ← kindFromU8 ((← slice 1).headD 0)
  let mode ← readU32
  let uid ← readU32
  let gid ← readU32
  let nlink ← readU32
  let atime ← readI64
  let mtime ← readI64
  let ctime ← readI64
  let (atimeNsec, mtimeNsec, ctimeNsec) ← readNsecs version
  let target ← readTarget
  return ({ size := 0, blocks := 0, mode, uid, gid, atime, mtime, ctime, kind, nlink, atimeNsec,
            mtimeNsec, ctimeNsec }, target)

def decodeFields (checks : Bool) (version : UInt8) :
    Reader AttrError (FsAttr × Option String × Xattrs) := do
  let fields ← readFields version
  let xattrs ← readXattrSection checks version
  return (fields.1, fields.2, xattrs)

/-- `checks` says whether the build has overflow checks. -/
def decodeMetaXattrs (checks : Bool) (buf : Bytes) :
    Outcome AttrError (FsAttr × Option String × Xattrs) :=
  if buf.length < FIXED_HDR + 4 then .err .tooShort
  else if buf.take 4 ≠ ATTR_MAGIC then .err .badMagic
  else
    let version := buf.getD 4 0
    if version ≠ ATTR_VERSION_V1 ∧ version ≠ ATTR_VERSION ∧ version ≠ ATTR_VERSION_V3 then
      .err (.unsupportedVersion version)
    else if ofLeU32 (buf.drop (buf.length - 4)) ≠ crc (buf.take (buf.length - 4)) then
      .err .crcMismatch
    else (decodeFields checks version).run (buf.drop 5)

/-- `decode_meta`, in a build without overflow checks. -/
def decodeMeta (buf : Bytes) : Outcome AttrError (FsAttr × Option String) :=
  match decodeMetaXattrs crc false buf with
  | .ok (attr, target, _) => .ok (attr, target)
  | .err e => .err e
  | .panic => .panic

end

/-! ## Reading back -/

/-- All lengths fit their fields. -/
structure AttrFits (target : Option String) (xattrs : Xattrs) : Prop where
  target : ∀ t, target = some t → 0 < (utf8 t).length ∧ (utf8 t).length < 2 ^ 16
  names : ∀ e ∈ xattrs.entries, (utf8 e.1).length < 2 ^ 16
  values : ∀ e ∈ xattrs.entries, e.2.length < 2 ^ 32
  count : xattrs.entries.length < 2 ^ 32

theorem reads_readLen {T w n : Nat} (h : n < 256 ^ w) : Reads T (readLen w) (leBytes w n) n := by
  have := (Reads.get (T := T) (fun _ => AttrError.truncated) (length_leBytes w n)).map leNat
  rwa [leNat_leBytes_of_lt h] at this

theorem reads_readU32 (x : UInt32) : Reads 4 readU32 (leU32 x) x := by
  have := (Reads.get (T := 4) (fun _ => AttrError.truncated) (length_leU32 x)).map ofLeU32
  rwa [ofLeU32_leU32] at this

theorem reads_readI64 (x : Int64) : Reads 4 readI64 (leI64 x) x := by
  have := (Reads.get (T := 4) (fun _ => AttrError.truncated) (length_leU64 x.toUInt64)).map
    fun b => (ofLeU64 b).toInt64
  rwa [ofLeU64_leU64, Int64.toInt64_toUInt64] at this

theorem reads_readText (s : String) (tooLong badUtf8 : AttrError) :
    Reads 4 (readText (utf8 s).length tooLong badUtf8) (utf8 s) s := by
  intro off ys hys
  unfold readText
  rw [bind_ok (Reads.sliceBefore le_rfl rfl tooLong off ys hys), ofUtf8_utf8]
  rfl

theorem reads_readTarget (h : ∀ t, target = some t → 0 < (utf8 t).length ∧ (utf8 t).length < 2 ^ 16) :
    Reads 4 readTarget (leBytes 2 (targetBytes target).length ++ targetBytes target) target := by
  cases target with
  | none => exact (reads_readLen (by decide)).bind ((reads_readText "" _ _).map _)
  | some t =>
    obtain ⟨hpos, hlt⟩ := h t rfl
    refine (reads_readLen (by exact hlt)).bind ?_
    have := (reads_readText t .symlinkLen .symlinkUtf8).map
      fun s => if (utf8 t).length = 0 then none else some s
    rwa [if_neg (by omega)] at this

theorem reads_readXattr {e : String × Bytes} (hn : (utf8 e.1).length < 2 ^ 16)
    (hv : e.2.length < 2 ^ 32) : Reads 4 readXattr (encodeXattr e) e :=
  (reads_readLen hn).bind ((reads_readText e.1 _ _).bind ((reads_readLen hv).bind
    ((Reads.sliceBefore le_rfl rfl _).map fun value => (e.1, value))))

/-- The entries of a map are read back in order. -/
theorem reads_readXattrs {es : List (String × Bytes)} (hn : ∀ e ∈ es, (utf8 e.1).length < 2 ^ 16)
    (hv : ∀ e ∈ es, e.2.length < 2 ^ 32) (acc m : Xattrs) (hm : acc.entries ++ es = m.entries) :
    Reads 4 (readXattrs es.length acc) (es.flatMap encodeXattr) m := by
  induction es generalizing acc with
  | nil =>
    rw [append_nil] at hm
    rw [ext_entries hm]
    exact Reads.pure m
  | cons e es ih =>
    have hsorted : (acc.entries ++ e :: es).Pairwise fun a b => a.1 < b.1 := hm ▸ m.sorted
    have hlast : ∀ a ∈ acc.entries, a.1 < e.1 :=
      fun a ha => (pairwise_append.mp hsorted).2.2 a ha e (.head _)
    have hnew : (acc.get e.1).isSome = false := by
      cases hget : acc.get e.1 with
      | none => rfl
      | some v => exact absurd (hlast _ (get_eq_some_iff.mp hget)) (lt_irrefl e.1)
    rw [flatMap_cons]
    refine (reads_readXattr (hn e (.head _)) (hv e (.head _))).bind ?_
    show Reads 4 (if (acc.get e.1).isSome = true then _ else _) _ m
    rw [hnew, if_neg (by decide)]
    refine ih (fun e' he' => hn e' (.tail _ he')) (fun e' he' => hv e' (.tail _ he')) _ ?_
    rw [entries_put_of_forall_lt _ hlast, append_assoc]
    exact hm

theorem reads_kindFromU8 (kind : FileKind) : Reads 4 (kindFromU8 kind.toU8) [] kind := by
  cases kind <;> exact Reads.pure _

theorem reads_readNsecs (hv : ATTR_VERSION ≤ version) (a m c : UInt32) :
    Reads 4 (readNsecs version) (leU32 a ++ (leU32 m ++ leU32 c)) (a, m, c) := by
  rw [readNsecs, if_pos hv]
  exact (reads_readU32 a).bind ((reads_readU32 m).bind ((reads_readU32 c).map fun c => (a, m, c)))

theorem reads_readFields (attr : FsAttr) (hv : ATTR_VERSION ≤ version)
    (ht : ∀ t, target = some t → 0 < (utf8 t).length ∧ (utf8 t).length < 2 ^ 16) :
    Reads 4 (readFields version) (encodeFields attr target)
      ({ attr with size := 0, blocks := 0 }, target) := by
  have hkind : Reads 4 (slice 1 : Reader AttrError Bytes) [attr.kind.toU8] _ := Reads.slice rfl
  have hnsecs := reads_readNsecs hv attr.atimeNsec attr.mtimeNsec attr.ctimeNsec
  have hbytes : encodeFields attr target = [attr.kind.toU8] ++ ([] ++ (leU32 attr.mode ++
      (leU32 attr.uid ++ (leU32 attr.gid ++ (leU32 attr.nlink ++ (leI64 attr.atime ++
        (leI64 attr.mtime ++ (leI64 attr.ctime ++
          ((leU32 attr.atimeNsec ++ (leU32 attr.mtimeNsec ++ leU32 attr.ctimeNsec)) ++
            (leBytes 2 (targetBytes target).length ++ targetBytes target)))))))))) := by
    simp only [encodeFields, append_assoc, nil_append]
  rw [hbytes]
  exact hkind.bind ((reads_kindFromU8 attr.kind).bind ((reads_readU32 attr.mode).bind
    ((reads_readU32 attr.uid).bind ((reads_readU32 attr.gid).bind ((reads_readU32 attr.nlink).bind
      ((reads_readI64 attr.atime).bind ((reads_readI64 attr.mtime).bind
        ((reads_readI64 attr.ctime).bind (hnsecs.bind ((reads_readTarget ht).map _))))))))))

section

variable (crc : Bytes → UInt32) (checks : Bool)

/-- A record with a good header and checksum is decoded from its fields. -/
theorem decodeMetaXattrs_withCrc {fields : Bytes}
    (hv : version = ATTR_VERSION_V1 ∨ version = ATTR_VERSION ∨ version = ATTR_VERSION_V3)
    (hlen : 43 ≤ fields.length) :
    decodeMetaXattrs crc checks (withCrc crc (ATTR_MAGIC ++ ([version] ++ fields))) =
      (decodeFields checks version).run
        (fields ++ leU32 (crc (ATTR_MAGIC ++ ([version] ++ fields)))) := by
  have hlen' : (withCrc crc (ATTR_MAGIC ++ ([version] ++ fields))).length - 4 =
      (ATTR_MAGIC ++ ([version] ++ fields)).length := by
    rw [withCrc, length_append, length_leU32, Nat.add_sub_cancel]
  unfold decodeMetaXattrs
  rw [if_neg, if_neg (fun h => h rfl)]
  · rw [if_neg (by tauto), hlen', withCrc, take_left, drop_left, ofLeU32_leU32,
      if_neg (fun h => h rfl)]
    rfl
  · simp only [withCrc, length_append, length_leU32, ATTR_MAGIC, length_cons, length_nil, FIXED_HDR]
    omega

theorem length_encodeFields (attr : FsAttr) (target : Option String) :
    43 ≤ (encodeFields attr target).length := by
  simp only [encodeFields, length_append, length_leU32, leI64, length_leU64, length_leBytes,
    length_cons, length_nil]
  omega

/-- The section is read back when nothing but the checksum stands behind it. -/
theorem readXattrSection_encode (h : AttrFits target xattrs) {rest : Bytes} (hrest : rest.length = 4)
    (off : Nat) : readXattrSection checks ATTR_VERSION_V3 ⟨off, encodeXattrSection xattrs ++ rest⟩ =
      .ok (xattrs, ⟨off + (encodeXattrSection xattrs).length, rest⟩) := by
  have hread : Reads 4 (readLen 4 >>= fun count => readXattrs count .empty)
      (encodeXattrSection xattrs) xattrs :=
    (reads_readLen (by exact h.count)).bind
      (reads_readXattrs h.names h.values .empty xattrs (nil_append _))
  have hend : atBodyEnd checks ⟨off + (encodeXattrSection xattrs).length, rest⟩ = .ok ((), _) :=
    if_pos hrest
  rw [readXattrSection, if_pos (by decide), decodeXattrSection, ← bind_assoc,
    bind_ok (hread off rest (by omega)), bind_ok hend]
  rfl

/-- A record is read back as it was written; the sizes are not part of it. -/
theorem decodeMetaXattrs_encode (attr : FsAttr) (h : AttrFits target xattrs) :
    decodeMetaXattrs crc checks (encodeMetaXattrs crc attr target xattrs) =
      .ok ({ attr with size := 0, blocks := 0 }, target, xattrs) := by
  have hlen := length_encodeFields attr target
  unfold encodeMetaXattrs
  split
  · rename_i hnil
    obtain rfl : xattrs = .empty := ext_entries hnil
    have hread := reads_readFields attr (by decide : ATTR_VERSION ≤ ATTR_VERSION) h.target
    rw [encodeMeta, encodeBody, decodeMetaXattrs_withCrc crc checks (.inr (.inl rfl)) hlen,
      Reader.run, decodeFields, bind_ok (hread 0 _ (by rw [length_leU32]))]
    rfl
  · have hread := reads_readFields attr (by decide : ATTR_VERSION ≤ ATTR_VERSION_V3) h.target
    rw [encodeBody, append_assoc, append_assoc, decodeMetaXattrs_withCrc crc checks (.inr (.inr rfl))
      (by rw [length_append]; omega), Reader.run, decodeFields, append_assoc,
      bind_ok (hread 0 _ (by rw [length_append, length_leU32]; omega)),
      bind_ok (readXattrSection_encode checks h (length_leU32 _) _)]
    rfl

/-! ## What a record can hold -/

theorem readLen_ok {w n : Nat} (h : readLen w c = .ok (n, c')) :
    n < 256 ^ w ∧ c.rest = leBytes w n ++ c'.rest := by
  obtain ⟨bs, c₁, hget, hret⟩ := bind_eq_ok_iff.mp h
  cases hret
  obtain ⟨rfl, hrest, -⟩ := get_eq_ok_iff.mp hget
  exact ⟨leNat_lt bs, by rw [leBytes_leNat, hrest]⟩

theorem readU32_ok {x : UInt32} (h : readU32 c = .ok (x, c')) : c.rest = leU32 x ++ c'.rest := by
  obtain ⟨bs, c₁, hget, hret⟩ := bind_eq_ok_iff.mp h
  cases hret
  obtain ⟨hlen, hrest, -⟩ := get_eq_ok_iff.mp hget
  rw [leU32_ofLeU32 hlen, hrest]

theorem readI64_ok {x : Int64} (h : readI64 c = .ok (x, c')) : c.rest = leI64 x ++ c'.rest := by
  obtain ⟨bs, c₁, hget, hret⟩ := bind_eq_ok_iff.mp h
  cases hret
  obtain ⟨hlen, hrest, -⟩ := get_eq_ok_iff.mp hget
  rw [leI64, UInt64.toUInt64_toInt64, leU64_ofLeU64 hlen, hrest]

theorem readText_ok {n : Nat} {tooLong badUtf8 : AttrError} {s : String}
    (h : readText n tooLong badUtf8 c = .ok (s, c')) :
    (utf8 s).length = n ∧ c.rest = utf8 s ++ c'.rest ∧ 4 ≤ c'.rest.length := by
  obtain ⟨bs, c₁, hslice, hret⟩ := bind_eq_ok_iff.mp h
  cases hb : ofUtf8 bs with
  | none =>
    rw [hb] at hret
    cases hret
  | some s' =>
    rw [hb] at hret
    cases hret
    obtain ⟨⟨hlen, hrest, -⟩, hleft⟩ := sliceBefore_eq_ok_iff.mp hslice
    rw [utf8_of_ofUtf8 hb]
    exact ⟨hlen, hrest, hleft⟩

theorem readXattr_ok {e : String × Bytes} (h : readXattr c = .ok (e, c')) :
    ((utf8 e.1).length < 2 ^ 16 ∧ e.2.length < 2 ^ 32) ∧ 4 ≤ c'.rest.length := by
  obtain ⟨nameLen, _, hnum, h⟩ := bind_eq_ok_iff.mp h
  obtain ⟨name, _, htext, h⟩ := bind_eq_ok_iff.mp h
  obtain ⟨valueLen, _, hnum', h⟩ := bind_eq_ok_iff.mp h
  obtain ⟨value, _, hslice, h⟩ := bind_eq_ok_iff.mp h
  cases h
  obtain ⟨⟨hlen, -, -⟩, hleft⟩ := sliceBefore_eq_ok_iff.mp hslice
  rw [(readText_ok htext).1, hlen]
  exact ⟨⟨(readLen_ok hnum).1, (readLen_ok hnum').1⟩, hleft⟩

theorem readXattrs_ok {n : Nat} {acc m : Xattrs} (h : readXattrs n acc c = .ok (m, c'))
    (hacc : ∀ e ∈ acc.entries, (utf8 e.1).length < 2 ^ 16 ∧ e.2.length < 2 ^ 32) :
    m.entries.length ≤ acc.entries.length + n ∧
      (∀ e ∈ m.entries, (utf8 e.1).length < 2 ^ 16 ∧ e.2.length < 2 ^ 32) ∧
      (n = 0 ∧ c' = c ∨ 4 ≤ c'.rest.length) := by
  induction n generalizing acc c with
  | zero =>
    cases h
    exact ⟨le_rfl, hacc, .inl ⟨rfl, rfl⟩⟩
  | succ n ih =>
    obtain ⟨e, c₁, hread, h⟩ := bind_eq_ok_iff.mp h
    obtain ⟨he, hleft⟩ := readXattr_ok hread
    split at h
    · cases h
    obtain ⟨hlen, hall, hend⟩ := ih h fun e' he' => by
      rcases mem_entries_put he' with rfl | he'
      · exact he
      · exact hacc e' he'
    have := length_entries_put_le acc e.1 e.2
    refine ⟨by omega, hall, .inr ?_⟩
    rcases hend with ⟨-, rfl⟩ | hend
    · exact hleft
    · exact hend

theorem readTarget_ok (h : readTarget c = .ok (target, c')) :
    (∀ t, target = some t → 0 < (utf8 t).length ∧ (utf8 t).length < 2 ^ 16) ∧
      c.rest = leBytes 2 (targetBytes target).length ++ (targetBytes target ++ c'.rest) ∧
      4 ≤ c'.rest.length := by
  obtain ⟨n, c₁, hnum, h⟩ := bind_eq_ok_iff.mp h
  obtain ⟨s, c₂, htext, h⟩ := bind_eq_ok_iff.mp h
  obtain ⟨hn, hrest⟩ := readLen_ok hnum
  obtain ⟨hs, hrest', hleft⟩ := readText_ok htext
  cases h
  rw [hrest, hrest', ← hs]
  by_cases hzero : (utf8 s).length = 0
  · rw [if_pos hzero, length_eq_zero_iff.mp hzero]
    exact ⟨nofun, rfl, hleft⟩
  · rw [if_neg hzero]
    refine ⟨?_, rfl, hleft⟩
    rintro t ⟨⟩
    omega

theorem readXattrSection_ok {m : Xattrs} (h : readXattrSection checks version c = .ok (m, c')) :
    m.entries.length < 2 ^ 32 ∧ ∀ e ∈ m.entries, (utf8 e.1).length < 2 ^ 16 ∧ e.2.length < 2 ^ 32 := by
  unfold readXattrSection at h
  split at h
  · obtain ⟨count, _, hnum, h⟩ := bind_eq_ok_iff.mp h
    obtain ⟨m', _, hread, h⟩ := bind_eq_ok_iff.mp h
    obtain ⟨_, _, -, h⟩ := bind_eq_ok_iff.mp h
    cases h
    obtain ⟨hlen, hall, -⟩ := readXattrs_ok hread fun e he => (nomatch he)
    have hempty : (SortedMap.empty : Xattrs).entries.length = 0 := rfl
    have hc : count < 2 ^ 32 := (readLen_ok hnum).1
    exact ⟨by omega, hall⟩
  · cases h
    exact ⟨by decide, fun e he => (nomatch he)⟩

theorem readNsecs_ok {r : UInt32 × UInt32 × UInt32} (hv : ATTR_VERSION ≤ version)
    (h : readNsecs version c = .ok (r, c')) :
    c.rest = leU32 r.1 ++ (leU32 r.2.1 ++ (leU32 r.2.2 ++ c'.rest)) := by
  rw [readNsecs, if_pos hv] at h
  obtain ⟨_, _, ha, h⟩ := bind_eq_ok_iff.mp h
  obtain ⟨_, _, hm, h⟩ := bind_eq_ok_iff.mp h
  obtain ⟨_, _, hc, h⟩ := bind_eq_ok_iff.mp h
  cases h
  rw [readU32_ok ha, readU32_ok hm, readU32_ok hc]

theorem kindFromU8_ok {v : UInt8} {kind : FileKind} (h : kindFromU8 v c = .ok (kind, c')) :
    v = kind.toU8 ∧ c' = c := by
  unfold kindFromU8 at h
  split_ifs at h with h0 h1 h2
  · cases h; exact ⟨h0, rfl⟩
  · cases h; exact ⟨h1, rfl⟩
  · cases h; exact ⟨h2, rfl⟩
  · cases h

/-- What the fields are read from, and what they are read as. -/
theorem readFields_ok {attr : FsAttr} (h : readFields version c = .ok ((attr, target), c')) :
    (attr.size = 0 ∧ attr.blocks = 0) ∧
      (∀ t, target = some t → 0 < (utf8 t).length ∧ (utf8 t).length < 2 ^ 16) ∧
      4 ≤ c'.rest.length ∧
      (ATTR_VERSION ≤ version → c.rest = encodeFields attr target ++ c'.rest) := by
  obtain ⟨bs, c₁, hslice, h⟩ := bind_eq_ok_iff.mp h
  obtain ⟨kind, c₂, hkind, h⟩ := bind_eq_ok_iff.mp h
  obtain ⟨mode, _, hmode, h⟩ := bind_eq_ok_iff.mp h
  obtain ⟨uid, _, huid, h⟩ := bind_eq_ok_iff.mp h
  obtain ⟨gid, _, hgid, h⟩ := bind_eq_ok_iff.mp h
  obtain ⟨nlink, _, hnlink, h⟩ := bind_eq_ok_iff.mp h
  obtain ⟨atime, _, hatime, h⟩ := bind_eq_ok_iff.mp h
  obtain ⟨mtime, _, hmtime, h⟩ := bind_eq_ok_iff.mp h
  obtain ⟨ctime, _, hctime, h⟩ := bind_eq_ok_iff.mp h
  obtain ⟨nsecs, _, hnsecs, h⟩ := bind_eq_ok_iff.mp h
  obtain ⟨target', _, htarget, h⟩ := bind_eq_ok_iff.mp h
  cases h
  obtain ⟨hfits, hrest, hleft⟩ := readTarget_ok htarget
  obtain ⟨hlen, hbyte, -⟩ := slice_eq_ok_iff.mp hslice
  obtain ⟨b, rfl⟩ := length_eq_one_iff.mp hlen
  obtain ⟨rfl, rfl⟩ := kindFromU8_ok hkind
  refine ⟨⟨rfl, rfl⟩, hfits, hleft, fun hv => ?_⟩
  rw [hbyte, readU32_ok hmode, readU32_ok huid, readU32_ok hgid, readU32_ok hnlink,
    readI64_ok hatime, readI64_ok hmtime, readI64_ok hctime, readNsecs_ok hv hnsecs, hrest]
  simp only [encodeFields, append_assoc]

/-- What passes the checks of the header is read from its fields. -/
theorem decodeMetaXattrs_cases (buf : Bytes) :
    (∃ e, decodeMetaXattrs crc checks buf = .err e) ∨
      ∃ version fields, buf = withCrc crc (ATTR_MAGIC ++ ([version] ++ fields)) ∧
        (version = ATTR_VERSION_V1 ∨ version = ATTR_VERSION ∨ version = ATTR_VERSION_V3) ∧
        decodeMetaXattrs crc checks buf = (decodeFields checks version).run
          (fields ++ leU32 (crc (ATTR_MAGIC ++ ([version] ++ fields)))) := by
  unfold decodeMetaXattrs
  by_cases hlen : buf.length < FIXED_HDR + 4
  · exact .inl ⟨_, if_pos hlen⟩
  rw [if_neg hlen]
  by_cases hmagic : buf.take 4 = ATTR_MAGIC
  swap
  · exact .inl ⟨_, if_pos hmagic⟩
  rw [if_neg (not_not.mpr hmagic)]
  dsimp only
  split_ifs with hv hcrc
  · exact .inl ⟨_, rfl⟩
  · exact .inl ⟨_, rfl⟩
  have hbody : buf.take (buf.length - 4) =
      ATTR_MAGIC ++ ([buf.getD 4 0] ++ (buf.take (buf.length - 4)).drop 5) := by
    have hdrop : (buf.take (buf.length - 4)).drop 4 =
        buf.getD 4 0 :: (buf.take (buf.length - 4)).drop 5 := by
      rw [drop_eq_getElem_cons (by rw [length_take]; unfold FIXED_HDR at hlen; omega), getElem_take,
        getD_eq_getElem _ _ (by unfold FIXED_HDR at hlen; omega)]
    rw [← take_append_drop 4 (buf.take _), hdrop, take_take,
      Nat.min_eq_left (by unfold FIXED_HDR at hlen; omega), hmagic]
    rfl
  have hbuf : buf = withCrc crc (buf.take (buf.length - 4)) := by
    rw [withCrc, ← not_not.mp hcrc, leU32_ofLeU32 (by rw [length_drop]; omega), take_append_drop]
  refine .inr ⟨buf.getD 4 0, (buf.take (buf.length - 4)).drop 5, by rw [← hbody, ← hbuf], by tauto, ?_⟩
  have hrest : buf.drop 5 = (buf.take (buf.length - 4)).drop 5 ++ buf.drop (buf.length - 4) := by
    rw [← drop_append_of_le_length (by rw [length_take]; unfold FIXED_HDR at hlen; omega),
      take_append_drop]
  rw [← hbody, ← not_not.mp hcrc, leU32_ofLeU32 (by rw [length_drop]; omega), ← hrest]

/-- What any record is read as fits its fields. -/
theorem fits_of_decode {buf : Bytes} {attr : FsAttr}
    (h : decodeMetaXattrs crc checks buf = .ok (attr, target, xattrs)) :
    attr.size = 0 ∧ attr.blocks = 0 ∧ AttrFits target xattrs := by
  rcases decodeMetaXattrs_cases crc checks buf with ⟨e, he⟩ | ⟨version, fields, -, -, hrun⟩
  · rw [he] at h
    cases h
  rw [hrun] at h
  obtain ⟨c, hread⟩ := run_eq_ok_iff.mp h
  obtain ⟨⟨attr', target'⟩, _, hfields, hread⟩ := bind_eq_ok_iff.mp hread
  obtain ⟨xattrs', _, hsec, hread⟩ := bind_eq_ok_iff.mp hread
  cases hread
  obtain ⟨⟨hsize, hblocks⟩, htarget, -⟩ := readFields_ok hfields
  obtain ⟨hcount, hall⟩ := readXattrSection_ok checks hsec
  exact ⟨hsize, hblocks, htarget, fun e he => (hall e he).1, fun e he => (hall e he).2, hcount⟩

/-! ## When a record is too much for the decoder -/

theorem safe_readLen (w : Nat) : Safe (readLen w) := (Safe.get _ _).bind fun _ => .pure _

theorem safe_readU32 : Safe readU32 := (Safe.get _ _).bind fun _ => .pure _

theorem safe_readI64 : Safe readI64 := (Safe.get _ _).bind fun _ => .pure _

theorem safe_readText (n : Nat) (tooLong badUtf8 : AttrError) : Safe (readText n tooLong badUtf8) :=
  (Safe.sliceBefore _ _ _).bind fun bs => by
    split
    · exact .pure _
    · exact .fail _

theorem safe_readTarget : Safe readTarget :=
  (safe_readLen 2).bind fun _ => (safe_readText _ _ _).bind fun _ => .pure _

theorem safe_readXattrs (n : Nat) (acc : Xattrs) : Safe (readXattrs n acc) := by
  induction n generalizing acc with
  | zero => exact .pure acc
  | succ n ih =>
    have hread : Safe readXattr := (safe_readLen 2).bind fun _ => (safe_readText _ _ _).bind fun _ =>
      (safe_readLen 4).bind fun _ => (Safe.sliceBefore _ _ _).bind fun _ => .pure _
    exact hread.bind fun e => .ite (.fail _) (ih _)

theorem readFields_ne_panic (hc : c.rest ≠ []) : readFields version c ≠ .panic := by
  have hkind (v : UInt8) : Safe (kindFromU8 v) :=
    .ite (.pure _) (.ite (.pure _) (.ite (.pure _) (.fail _)))
  have hnsecs : Safe (readNsecs version) := .ite (safe_readU32.bind fun _ => safe_readU32.bind fun _ =>
    safe_readU32.bind fun _ => .pure _) (.pure _)
  intro h
  rcases bind_eq_panic_iff.mp h with h | ⟨bs, c₁, -, h⟩
  · unfold Reader.slice at h
    rw [if_neg (by have := length_pos_iff.mpr hc; omega)] at h
    cases h
  · exact ((hkind _).bind fun _ => safe_readU32.bind fun _ => safe_readU32.bind fun _ =>
      safe_readU32.bind fun _ => safe_readU32.bind fun _ => safe_readI64.bind fun _ =>
        safe_readI64.bind fun _ => safe_readI64.bind fun _ => hnsecs.bind fun _ =>
          safe_readTarget.bind fun _ => .pure _) c₁ h

/-- The section panics where its count is 0 and the checksum starts inside the count. -/
theorem decodeXattrSection_panic_iff : decodeXattrSection checks c = .panic ↔
    checks = true ∧ ∃ ys, ys.length < 4 ∧ c.rest = leBytes 4 0 ++ ys := by
  constructor
  · intro h
    rcases bind_eq_panic_iff.mp h with h | ⟨count, c₁, hcount, h⟩
    · exact absurd h (safe_readLen 4 c)
    rcases bind_eq_panic_iff.mp h with h | ⟨xattrs, c₂, hread, h⟩
    · exact absurd h (safe_readXattrs count .empty c₁)
    rcases bind_eq_panic_iff.mp h with h | ⟨_, _, -, h⟩
    swap
    · cases h
    unfold atBodyEnd at h
    split_ifs at h with heq hlt
    rw [Bool.and_eq_true, decide_eq_true_eq] at hlt
    obtain ⟨-, -, ⟨rfl, rfl⟩ | hle⟩ := readXattrs_ok hread fun e he => (nomatch he)
    · exact ⟨hlt.1, c₂.rest, hlt.2, (readLen_ok hcount).2⟩
    · omega
  · rintro ⟨rfl, ys, hys, hc⟩
    have hcount := reads_readLen (T := 0) (by decide : 0 < 256 ^ 4) c.off ys (Nat.zero_le _)
    have hread : readXattrs 0 .empty ⟨c.off + 4, ys⟩ = .ok (.empty, ⟨c.off + 4, ys⟩) := rfl
    have hend : atBodyEnd true ⟨c.off + 4, ys⟩ = .panic := by
      unfold atBodyEnd
      dsimp only
      rw [if_neg (by omega), if_pos (by simpa using hys)]
    rw [← hc] at hcount
    exact bind_eq_panic_iff.mpr (.inr ⟨_, _, hcount, bind_eq_panic_iff.mpr (.inr ⟨_, _, hread,
      bind_eq_panic_iff.mpr (.inl hend)⟩)⟩)

/-- A record that says it has a section and ends inside the count of it, where the count and the
start of the checksum are zero. -/
def CutSection (buf : Bytes) : Prop :=
  ∃ attr target sec, (∀ t, target = some t → 0 < (utf8 t).length ∧ (utf8 t).length < 2 ^ 16) ∧
    sec.length < 4 ∧ buf = withCrc crc (encodeBody attr target ATTR_VERSION_V3 ++ sec) ∧
    leBytes 4 0 <+: sec ++ leU32 (crc (encodeBody attr target ATTR_VERSION_V3 ++ sec))

theorem decodeMetaXattrs_panic_iff (buf : Bytes) :
    decodeMetaXattrs crc checks buf = .panic ↔ checks = true ∧ CutSection crc buf := by
  constructor
  · intro h
    rcases decodeMetaXattrs_cases crc checks buf with ⟨e, he⟩ | ⟨version, fields, rfl, hv, hrun⟩
    · rw [he] at h
      cases h
    rw [hrun] at h
    rcases bind_eq_panic_iff.mp (run_eq_panic_iff.mp h) with h | ⟨⟨attr, target⟩, c, hfields, hsec⟩
    · refine absurd h (readFields_ne_panic fun hnil => ?_)
      simpa [length_leU32] using congrArg length hnil
    replace hsec : readXattrSection checks version c = .panic :=
      (bind_eq_panic_iff.mp hsec).resolve_right fun ⟨_, _, _, h⟩ => (nomatch h)
    unfold readXattrSection at hsec
    split at hsec
    swap
    · cases hsec
    obtain rfl : version = ATTR_VERSION_V3 := by
      rcases hv with rfl | rfl | rfl
      · contradiction
      · contradiction
      · rfl
    obtain ⟨hchecks, ys, hys, hrest⟩ := (decodeXattrSection_panic_iff checks).mp hsec
    obtain ⟨-, htarget, hleft, hbytes⟩ := readFields_ok hfields
    -- the section is what stands between the fields and the checksum
    obtain ⟨sec, rfl, hsec⟩ : ∃ sec, fields = encodeFields attr target ++ sec ∧
        c.rest = sec ++ leU32 (crc (ATTR_MAGIC ++ ([ATTR_VERSION_V3] ++ fields))) := by
      rcases append_eq_append_iff.mp (hbytes (by decide)) with ⟨zs, hzs, hcrc⟩ | ⟨sec, hfields, hrest⟩
      · have hlen := congrArg length hcrc
        rw [length_append, length_leU32] at hlen
        obtain rfl := length_eq_zero_iff.mp (by omega : zs.length = 0)
        exact ⟨[], by rw [hzs, append_nil, append_nil], hcrc.symm⟩
      · exact ⟨sec, hfields, hrest⟩
    refine ⟨hchecks, attr, target, sec, htarget, ?_, ?_, ?_⟩
    · have hlen := congrArg length hsec
      rw [hrest, length_append, length_append, length_leBytes, length_leU32] at hlen
      omega
    · simp only [encodeBody, append_assoc]
    · simp only [encodeBody, append_assoc]
      exact ⟨ys, hrest.symm.trans hsec⟩
  · rintro ⟨rfl, attr, target, sec, htarget, hsec, rfl, ys, hys⟩
    have hlen := length_encodeFields attr target
    have hread := reads_readFields attr (by decide : ATTR_VERSION ≤ ATTR_VERSION_V3) htarget
    rw [encodeBody, append_assoc, append_assoc] at hys ⊢
    rw [decodeMetaXattrs_withCrc crc true (.inr (.inr rfl)) (by rw [length_append]; omega),
      run_eq_panic_iff, decodeFields, append_assoc,
      bind_ok (hread 0 _ (by rw [length_append, length_leU32]; omega))]
    refine bind_eq_panic_iff.mpr (.inl ?_)
    rw [readXattrSection, if_pos (by decide), decodeXattrSection_panic_iff]
    refine ⟨rfl, ys, ?_, hys.symm⟩
    have := congrArg length hys
    rw [length_append, length_append, length_leBytes, length_leU32] at this
    omega

end

end Sfs.Mount

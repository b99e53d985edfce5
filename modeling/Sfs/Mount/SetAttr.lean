import Sfs.Mount.Adapter
import Sfs.Mount.Attr

/-!
# Changing metadata

`setattr`, `set_xattr` and `remove_xattr` read the metadata record of a unit, change it and write it
back. The extended attribute calls write back what they have read with one entry changed.
`setattr` reads only the attributes and writes a record without a symlink target and without
extended attributes, so it takes these away where there are any (`metadata_framed`).
-/

namespace Sfs.Mount

open Sfs.Lib Sfs.Version SortedMap List Prod

/-- A file, directory or symlink: its content stream if it has one, and the bytes of its metadata
record. -/
structure Node where
  content : Option (StreamMeta Bytes)
  metadata : Option Bytes
  wf : ∀ s, content = some s → Wf s

/-- The arguments of `setattr`. -/
structure SetattrArgs where
  chmod : Option UInt32
  chown : Option (Option UInt32 × Option UInt32)
  times : Option (Option (Int64 × UInt32) × Option (Int64 × UInt32))
  size : Option Nat

namespace SetattrArgs

def uid (args : SetattrArgs) : Option UInt32 := args.chown.bind fst

def gid (args : SetattrArgs) : Option UInt32 := args.chown.bind snd

def atime (args : SetattrArgs) : Option (Int64 × UInt32) := args.times.bind fst

def mtime (args : SetattrArgs) : Option (Int64 × UInt32) := args.times.bind snd

end SetattrArgs

/-- The permission bits `0o7777`. -/
def PERM_BITS : UInt32 := 0xFFF

section

variable (crc : Bytes → UInt32) (defaultUid defaultGid : UInt32)

/-! ## Reading -/

def defaultAttr (kind : FileKind) (mode nlink : UInt32) : FsAttr :=
  { size := 0, blocks := 0, mode, uid := defaultUid, gid := defaultGid, atime := 0, mtime := 0,
    ctime := 0, kind, nlink, atimeNsec := 0, mtimeNsec := 0, ctimeNsec := 0 }

def synthesiseDefault (contentSize : Nat) : FsAttr :=
  if contentSize = 0 then defaultAttr defaultUid defaultGid .dir 0o040755 2
  else defaultAttr defaultUid defaultGid .file 0o100644 1

def synthesiseDefaultKind (hasContent : Bool) : FsAttr :=
  if hasContent then defaultAttr defaultUid defaultGid .file 0o100644 1
  else defaultAttr defaultUid defaultGid .dir 0o040755 2

def FsAttr.withSize (attr : FsAttr) (size : Nat) : FsAttr :=
  { attr with size, blocks := blocksForSize size }

/-- `attr_from_unit` on a record. -/
def attrFromUnit (buf : Bytes) (contentSize : Nat) : FsAttr :=
  match decodeMeta crc buf with
  | .ok (attr, _) => attr.withSize contentSize
  | _ => (synthesiseDefault defaultUid defaultGid contentSize).withSize contentSize

def Node.contentSize (n : Node) : Nat := (n.content.map StreamMeta.byteLen).getD 0

def attrForPath (n : Node) : FsAttr :=
  match n.metadata with
  | some buf => attrFromUnit crc defaultUid defaultGid buf n.contentSize
  | none => (synthesiseDefaultKind defaultUid defaultGid n.content.isSome).withSize n.contentSize

def loadMetaXattrs (n : Node) : Except FsError (FsAttr × Option String × Xattrs) :=
  match n.metadata with
  | some buf =>
    match decodeMetaXattrs crc false buf with
    | .ok r => .ok r
    | _ => .error .io
  | none => .ok (attrForPath crc defaultUid defaultGid n, none, .empty)

/-! ## Writing -/

def storeMetaXattrs (n : Node) (attr : FsAttr) (target : Option String) (xattrs : Xattrs) : Node :=
  { n with metadata := some (encodeMetaXattrs crc attr target xattrs) }

def checkXattrName (name : String) : Bool :=
  (utf8 "user.").isPrefixOf (utf8 name) || (utf8 "security.").isPrefixOf (utf8 name) ||
    (utf8 "trusted.").isPrefixOf (utf8 name) || name = "system.posix_acl_access" || name =
      "system.posix_acl_default"

def xattrTotal (xattrs : Xattrs) : Nat :=
  (xattrs.entries.map fun e => (utf8 e.1).length + e.2.length).sum

def setXattr (n : Node) (name : String) (value : Bytes) : Except FsError Node :=
  if checkXattrName name then do
    let (attr, target, xattrs) ← loadMetaXattrs crc defaultUid defaultGid n
    let xattrs := xattrs.put name value
    if MAX_XATTR_TOTAL < xattrTotal xattrs then throw .tooBig
      else return storeMetaXattrs crc n attr target xattrs
  else throw .unsupported

def removeXattr (n : Node) (name : String) : Except FsError Node :=
  if checkXattrName name then do
    let (attr, target, xattrs) ← loadMetaXattrs crc defaultUid defaultGid n
    if (xattrs.get name).isNone then throw .noXattr
      else return storeMetaXattrs crc n attr target (xattrs.erase name)
  else throw .unsupported

/-- The attributes with the requested changes; the sizes are set apart. -/
def SetattrArgs.apply (args : SetattrArgs) (now : Int64) (attr : FsAttr) : FsAttr :=
  { attr with
    mode := (args.chmod.map fun perm => (attr.mode &&& ~~~PERM_BITS) ||| (perm &&& PERM_BITS)).getD
      attr.mode
    uid := args.uid.getD attr.uid
    gid := args.gid.getD attr.gid
    atime := (args.atime.map fst).getD attr.atime
    atimeNsec := (args.atime.map snd).getD attr.atimeNsec
    mtime := (args.mtime.map fst).getD attr.mtime
    mtimeNsec := (args.mtime.map snd).getD attr.mtimeNsec
    ctime := now }

variable (padBlocks : Bool) (suite : Suite) (host : HostAlias)

/-- The content after `setattr`; a unit without a content stream has nothing to resize. -/
def Node.resized (n : Node) (size : Option Nat) : Option (StreamMeta Bytes) :=
  size.elim n.content fun newSize => n.content.map (Adapter.setSize padBlocks suite host newSize)

theorem Node.wf_resized (n : Node) (size : Option Nat) :
    ∀ s, n.resized padBlocks suite host size = some s → Wf s := by
  intro s hs
  cases size with
  | none => exact n.wf s hs
  | some newSize =>
    obtain ⟨t, ht, rfl⟩ := Option.map_eq_some_iff.mp hs
    exact (Adapter.setSize_spec padBlocks suite host (n.wf t ht) newSize).1

def setattr (n : Node) (args : SetattrArgs) (now : Int64) : Node where
  content := n.resized padBlocks suite host args.size
  metadata :=
    let attr := args.apply now (attrForPath crc defaultUid defaultGid n)
    some (encodeMeta crc (args.size.elim attr attr.withSize) none)
  wf := n.wf_resized padBlocks suite host args.size

/-! ## What is kept -/

/-- The symlink target and the extended attributes of the record. -/
def loadedTail (n : Node) : Except FsError (Option String × Xattrs) :=
  (loadMetaXattrs crc defaultUid defaultGid n).map snd

/-- `a'` is `a` with the requested values and the time of the change. -/
structure AttrFramed (a a' : FsAttr) (args : SetattrArgs) (now : Int64) : Prop where
  kind : a'.kind = a.kind
  nlink : a'.nlink = a.nlink
  typeBits : a'.mode &&& ~~~PERM_BITS = a.mode &&& ~~~PERM_BITS
  permBits : a'.mode &&& PERM_BITS = args.chmod.getD a.mode &&& PERM_BITS
  uid : a'.uid = args.uid.getD a.uid
  gid : a'.gid = args.gid.getD a.gid
  atime : (a'.atime, a'.atimeNsec) = args.atime.getD (a.atime, a.atimeNsec)
  mtime : (a'.mtime, a'.mtimeNsec) = args.mtime.getD (a.mtime, a.mtimeNsec)
  ctime : a'.ctime = now

/-- `n'` is `n` with what was asked for. -/
structure SetattrFramed (n n' : Node) (args : SetattrArgs) (now : Int64) : Prop where
  attr : AttrFramed (attrForPath crc defaultUid defaultGid n)
    (attrForPath crc defaultUid defaultGid n') args now
  content : n'.content.map read = args.size.elim (n.content.map read) fun size =>
    n.content.map fun s => resize size (read s)
  unasked : args.size = none → n'.content = n.content
  tail : loadedTail crc defaultUid defaultGid n' = loadedTail crc defaultUid defaultGid n

/-- `n'` is `n` with its extended attributes changed by `f`. -/
structure XattrFramed (n n' : Node) (f : Xattrs → Xattrs) : Prop where
  attr : attrForPath crc defaultUid defaultGid n' = attrForPath crc defaultUid defaultGid n
  content : n'.content = n.content
  tail : loadedTail crc defaultUid defaultGid n' =
    (loadedTail crc defaultUid defaultGid n).map fun r => (r.1, f r.2)

/-! ### Records -/

theorem attrForPath_of_ok {n : Node} {attr : FsAttr} {target : Option String} {xattrs : Xattrs}
    {buf : Bytes} (hn : n.metadata = some buf)
    (h : decodeMetaXattrs crc false buf = .ok (attr, target, xattrs)) :
    attrForPath crc defaultUid defaultGid n = attr.withSize n.contentSize := by
  unfold attrForPath attrFromUnit decodeMeta
  rw [hn]
  dsimp only
  rw [h]

theorem loadMetaXattrs_of_ok {n : Node} {buf : Bytes} {r : FsAttr × Option String × Xattrs}
    (hn : n.metadata = some buf) (h : decodeMetaXattrs crc false buf = .ok r) :
    loadMetaXattrs crc defaultUid defaultGid n = .ok r := by
  unfold loadMetaXattrs
  rw [hn]
  dsimp only
  rw [h]

/-- What a unit's record is read as: its attributes, and a target and extended attributes that
fit. -/
theorem loadMetaXattrs_ok {n : Node} {attr : FsAttr} {target : Option String} {xattrs : Xattrs}
    (h : loadMetaXattrs crc defaultUid defaultGid n = .ok (attr, target, xattrs)) :
    attrForPath crc defaultUid defaultGid n = attr.withSize n.contentSize ∧
      AttrFits target xattrs := by
  cases hn : n.metadata with
  | none =>
    have hattr : attrForPath crc defaultUid defaultGid n =
        (synthesiseDefaultKind defaultUid defaultGid n.content.isSome).withSize n.contentSize := by
      unfold attrForPath
      rw [hn]
    unfold loadMetaXattrs at h
    rw [hn] at h
    cases h
    refine ⟨by rw [hattr]; rfl, ⟨nofun, nofun, nofun, by decide⟩⟩
  | some buf =>
    have hbuf : decodeMetaXattrs crc false buf = .ok (attr, target, xattrs) := by
      unfold loadMetaXattrs at h
      rw [hn] at h
      dsimp only at h
      split at h <;> cases h
      assumption
    exact ⟨attrForPath_of_ok crc defaultUid defaultGid hn hbuf, (fits_of_decode crc false hbuf).2.2⟩

theorem attrForPath_stored {n : Node} {attr : FsAttr} {target : Option String} {xattrs : Xattrs}
    (hn : n.metadata = some (encodeMetaXattrs crc attr target xattrs))
    (hfits : AttrFits target xattrs) :
    attrForPath crc defaultUid defaultGid n = attr.withSize n.contentSize ∧
      loadedTail crc defaultUid defaultGid n = .ok (target, xattrs) := by
  have hdec := decodeMetaXattrs_encode crc false attr hfits
  constructor
  · rw [attrForPath_of_ok crc defaultUid defaultGid hn hdec]
    rfl
  · rw [loadedTail, loadMetaXattrs_of_ok crc defaultUid defaultGid hn hdec]
    rfl

theorem AttrFits.empty : AttrFits none .empty := ⟨nofun, nofun, nofun, by decide⟩

/-! ### `setattr` -/

theorem setattr_reads (n : Node) (args : SetattrArgs) (now : Int64) :
    attrForPath crc defaultUid defaultGid
      (setattr crc defaultUid defaultGid padBlocks suite host n args now) =
        (args.apply now (attrForPath crc defaultUid defaultGid n)).withSize
          (setattr crc defaultUid defaultGid padBlocks suite host n args now).contentSize ∧
      loadedTail crc defaultUid defaultGid
        (setattr crc defaultUid defaultGid padBlocks suite host n args now) =
        .ok (none, .empty) := by
  have hstored := attrForPath_stored crc defaultUid defaultGid
    (n := setattr crc defaultUid defaultGid padBlocks suite host n args now) rfl AttrFits.empty
  refine ⟨?_, hstored.2⟩
  rw [hstored.1]
  cases args.size <;> rfl

theorem typeBits_chmod (m p : UInt32) :
    ((m &&& ~~~PERM_BITS) ||| (p &&& PERM_BITS)) &&& ~~~PERM_BITS = m &&& ~~~PERM_BITS := by
  apply UInt32.eq_of_toBitVec_eq
  ext i hi
  simp only [UInt32.toBitVec_and, UInt32.toBitVec_or, UInt32.toBitVec_not, BitVec.getElem_and,
    BitVec.getElem_or, BitVec.getElem_not]
  cases PERM_BITS.toBitVec[i] <;> simp

theorem permBits_chmod (m p : UInt32) :
    ((m &&& ~~~PERM_BITS) ||| (p &&& PERM_BITS)) &&& PERM_BITS = p &&& PERM_BITS := by
  apply UInt32.eq_of_toBitVec_eq
  ext i hi
  simp only [UInt32.toBitVec_and, UInt32.toBitVec_or, UInt32.toBitVec_not, BitVec.getElem_and,
    BitVec.getElem_or, BitVec.getElem_not]
  cases PERM_BITS.toBitVec[i] <;> simp

theorem attrFramed_apply (args : SetattrArgs) (now : Int64) (a : FsAttr) (size : Nat) :
    AttrFramed a ((args.apply now a).withSize size) args now where
  kind := rfl
  nlink := rfl
  typeBits := by
    show (args.chmod.map fun perm => (a.mode &&& ~~~PERM_BITS) ||| (perm &&& PERM_BITS)).getD
      a.mode &&& _ = _
    cases args.chmod with
    | none => rfl
    | some perm => exact typeBits_chmod a.mode perm
  permBits := by
    show (args.chmod.map fun perm => (a.mode &&& ~~~PERM_BITS) ||| (perm &&& PERM_BITS)).getD
      a.mode &&& _ = _
    cases args.chmod with
    | none => rfl
    | some perm => exact permBits_chmod a.mode perm
  uid := rfl
  gid := rfl
  atime := by
    show ((args.atime.map fst).getD a.atime, (args.atime.map snd).getD a.atimeNsec) = _
    cases args.atime <;> rfl
  mtime := by
    show ((args.mtime.map fst).getD a.mtime, (args.mtime.map snd).getD a.mtimeNsec) = _
    cases args.mtime <;> rfl
  ctime := rfl

theorem setattr_content (n : Node) (args : SetattrArgs) (now : Int64) :
    (setattr crc defaultUid defaultGid padBlocks suite host n args now).content.map read =
      args.size.elim (n.content.map read) fun size => n.content.map fun s => resize size (read s) := by
  show (n.resized padBlocks suite host args.size).map read = _
  cases args.size with
  | none => rfl
  | some size =>
    show (n.content.map (Adapter.setSize padBlocks suite host size)).map read =
      n.content.map fun s => resize size (read s)
    rw [Option.map_map]
    refine Option.map_congr fun s hs => ?_
    exact (Adapter.setSize_spec padBlocks suite host (n.wf s hs) size).2

theorem setattrFramed_iff (n : Node) (args : SetattrArgs) (now : Int64) :
    SetattrFramed crc defaultUid defaultGid n
      (setattr crc defaultUid defaultGid padBlocks suite host n args now) args now ↔
      loadedTail crc defaultUid defaultGid n = .ok (none, .empty) := by
  obtain ⟨hattr, htail⟩ := setattr_reads crc defaultUid defaultGid padBlocks suite host n args now
  constructor
  · intro h
    rw [← h.tail, htail]
  intro h
  refine ⟨?_, setattr_content crc defaultUid defaultGid padBlocks suite host n args now, ?_,
    htail.trans h.symm⟩
  · rw [hattr]
    exact attrFramed_apply args now _ _
  · intro hnone
    show n.resized padBlocks suite host args.size = n.content
    rw [hnone]
    rfl

/-! ### Extended attributes -/

theorem xattrFramed_store {n : Node} {attr : FsAttr} {target : Option String} {xattrs : Xattrs}
    (f : Xattrs → Xattrs)
    (hload : loadMetaXattrs crc defaultUid defaultGid n = .ok (attr, target, xattrs))
    (hfits : AttrFits target (f xattrs)) :
    XattrFramed crc defaultUid defaultGid n (storeMetaXattrs crc n attr target (f xattrs)) f := by
  obtain ⟨hattr, htail⟩ := attrForPath_stored crc defaultUid defaultGid
    (n := storeMetaXattrs crc n attr target (f xattrs)) rfl hfits
  refine ⟨hattr.trans (loadMetaXattrs_ok crc defaultUid defaultGid hload).1.symm, rfl, ?_⟩
  rw [htail, loadedTail, hload]
  rfl

theorem removeXattr_ok {n n' : Node} {name : String}
    (h : removeXattr crc defaultUid defaultGid n name = .ok n') :
    ∃ attr target xattrs, loadMetaXattrs crc defaultUid defaultGid n = .ok (attr, target, xattrs) ∧
      n' = storeMetaXattrs crc n attr target (xattrs.erase name) := by
  unfold removeXattr at h
  split at h
  · obtain ⟨⟨attr, target, xattrs⟩, hload, h⟩ := exists_of_bind_ok h
    dsimp only at h
    split at h <;> cases h
    exact ⟨attr, target, xattrs, hload, rfl⟩
  · cases h

theorem setXattr_ok {n n' : Node} {name : String} {value : Bytes}
    (h : setXattr crc defaultUid defaultGid n name value = .ok n') :
    ∃ attr target xattrs, loadMetaXattrs crc defaultUid defaultGid n = .ok (attr, target, xattrs) ∧
      xattrTotal (xattrs.put name value) ≤ MAX_XATTR_TOTAL ∧
      n' = storeMetaXattrs crc n attr target (xattrs.put name value) := by
  unfold setXattr at h
  split at h
  · obtain ⟨⟨attr, target, xattrs⟩, hload, h⟩ := exists_of_bind_ok h
    dsimp only at h
    split at h <;> rename_i hle <;> cases h
    exact ⟨attr, target, xattrs, hload, Nat.le_of_not_lt hle, rfl⟩
  · cases h

theorem removeXattr_framed {n n' : Node} {name : String}
    (h : removeXattr crc defaultUid defaultGid n name = .ok n') :
    XattrFramed crc defaultUid defaultGid n n' (·.erase name) := by
  obtain ⟨attr, target, xattrs, hload, rfl⟩ := removeXattr_ok crc defaultUid defaultGid h
  have hfits := (loadMetaXattrs_ok crc defaultUid defaultGid hload).2
  exact xattrFramed_store crc defaultUid defaultGid (·.erase name) hload
    ⟨hfits.target, fun e he => hfits.names e (mem_entries_erase he),
      fun e he => hfits.values e (mem_entries_erase he),
      lt_of_le_of_lt (length_entries_erase_le xattrs name) hfits.count⟩

theorem length_le_total (es : List (String × Bytes)) :
    es.length ≤ (es.map fun e => (utf8 e.1).length + e.2.length).sum +
      (es.filter fun e => e.1 = "").length := by
  induction es with
  | nil => exact le_rfl
  | cons e rest ih =>
    rw [length_cons, map_cons, sum_cons, filter_cons]
    split
    · rw [length_cons]
      omega
    rename_i hne
    have hpos : 0 < (utf8 e.1).length := by
      refine length_pos_iff.mpr fun hnil => hne ?_
      exact decide_eq_true (utf8_inj.mp (hnil.trans (by decide +kernel)))
    omega

/-- Names are distinct, so only one of them can be empty and the size of a record bounds the number
of its entries. -/
theorem length_entries_le (xattrs : Xattrs) : xattrs.entries.length ≤ xattrTotal xattrs + 1 := by
  have hle := length_le_total xattrs.entries
  have hone : (xattrs.entries.filter fun e => e.1 = "").length ≤ 1 := by
    have hnodup : ((xattrs.entries.filter fun e => e.1 = "").map fst).Nodup :=
      xattrs.map.nodup.sublist (filter_sublist.map _)
    have hall : (xattrs.entries.filter fun e => e.1 = "").map fst =
        replicate (xattrs.entries.filter fun e => e.1 = "").length "" := by
      refine eq_replicate_iff.mpr ⟨length_map _, fun s hs => ?_⟩
      obtain ⟨e, he, rfl⟩ := mem_map.mp hs
      exact of_decide_eq_true (mem_filter.mp he).2
    rw [hall] at hnodup
    exact nodup_replicate.mp hnodup
  unfold xattrTotal
  omega

theorem total_ge {xattrs : Xattrs} {e : String × Bytes} (h : e ∈ xattrs.entries) :
    (utf8 e.1).length + e.2.length ≤ xattrTotal xattrs :=
  le_sum_of_mem (mem_map_of_mem h)

/-- Under the ceiling only the two-byte length fields can be too narrow. -/
theorem attrFits_iff {target : Option String} {xattrs : Xattrs}
    (htotal : xattrTotal xattrs ≤ MAX_XATTR_TOTAL) :
    AttrFits target xattrs ↔ (∀ e ∈ xattrs.entries, (utf8 e.1).length < 2 ^ 16) ∧
      ∀ t, target = some t → 0 < (utf8 t).length ∧ (utf8 t).length < 2 ^ 16 := by
  have hmax : MAX_XATTR_TOTAL = 65536 := rfl
  refine ⟨fun h => ⟨h.names, h.target⟩, fun h => ⟨h.2, h.1, fun e he => ?_, ?_⟩⟩
  · have := total_ge he
    omega
  · have := length_entries_le xattrs
    omega

/-- The name takes two bytes for its length; one of exactly 65536 bytes passes the check of the
total and is stored with the length 0. -/
theorem setXattr_framed_iff {n n' : Node} {name : String} {value : Bytes}
    (h : setXattr crc defaultUid defaultGid n name value = .ok n') :
    XattrFramed crc defaultUid defaultGid n n' (·.put name value) ↔ (utf8 name).length < 2 ^ 16 := by
  obtain ⟨attr, target, xattrs, hload, htotal, rfl⟩ := setXattr_ok crc defaultUid defaultGid h
  have hfits := (loadMetaXattrs_ok crc defaultUid defaultGid hload).2
  constructor
  · intro hframed
    have htail := hframed.tail
    rw [loadedTail, loadedTail, hload] at htail
    cases hload' : loadMetaXattrs crc defaultUid defaultGid
      (storeMetaXattrs crc n attr target (xattrs.put name value)) with
    | error e =>
      rw [hload'] at htail
      cases htail
    | ok r =>
      obtain ⟨attr', target', xattrs'⟩ := r
      rw [hload'] at htail
      cases htail
      have hmem : (name, value) ∈ (xattrs.put name value).entries :=
        get_eq_some_iff.mp (get_put_eq_some_iff.mpr (.inl ⟨rfl, rfl⟩))
      exact (loadMetaXattrs_ok crc defaultUid defaultGid hload').2.names _ hmem
  · intro hname
    refine xattrFramed_store crc defaultUid defaultGid (·.put name value) hload
      ((attrFits_iff htotal).mpr ⟨fun e he => ?_, hfits.target⟩)
    rcases mem_entries_put he with rfl | hold
    · exact hname
    · exact hfits.names e hold

/-- A record under the ceiling of `set_xattr` is read back as it was written iff its names and its
target fit their two-byte length fields. No byte string makes the decoder panic but, with overflow
checks, one that was cut in the count of its section; and whatever a byte string is read as is read
back. -/
theorem attr_blob_roundtrip_iff (checks : Bool) (attr : FsAttr) (target : Option String)
    (xattrs : Xattrs) (htotal : xattrTotal xattrs ≤ MAX_XATTR_TOTAL) :
    (decodeMetaXattrs crc checks (encodeMetaXattrs crc attr target xattrs) =
        .ok ({ attr with size := 0, blocks := 0 }, target, xattrs) ↔
      (∀ e ∈ xattrs.entries, (utf8 e.1).length < 2 ^ 16) ∧
        ∀ t, target = some t → 0 < (utf8 t).length ∧ (utf8 t).length < 2 ^ 16) ∧
    ∀ buf, (decodeMetaXattrs crc checks buf = .panic ↔ checks = true ∧ CutSection crc buf) ∧
      ∀ r, decodeMetaXattrs crc checks buf = .ok r →
        decodeMetaXattrs crc checks (encodeMetaXattrs crc r.1 r.2.1 r.2.2) = .ok r := by
  refine ⟨⟨fun h => (attrFits_iff htotal).mp (fits_of_decode crc checks h).2.2, fun h =>
    decodeMetaXattrs_encode crc checks attr ((attrFits_iff htotal).mpr h)⟩, fun buf =>
      ⟨decodeMetaXattrs_panic_iff crc checks buf, ?_⟩⟩
  rintro ⟨⟨⟩, target, xattrs⟩ hd
  obtain ⟨hsize, hblocks, hfits⟩ := fits_of_decode crc checks hd
  cases hsize
  cases hblocks
  exact decodeMetaXattrs_encode crc checks _ hfits

/-- Metadata updates touch only what was asked, except that `setattr` drops a symlink target and
extended attributes of the record, and that a name of 65536 bytes cannot be stored. -/
theorem metadata_framed (n : Node) :
    (∀ args now, SetattrFramed crc defaultUid defaultGid n
        (setattr crc defaultUid defaultGid padBlocks suite host n args now) args now ↔
      loadedTail crc defaultUid defaultGid n = .ok (none, .empty)) ∧
    (∀ name value n', setXattr crc defaultUid defaultGid n name value = .ok n' →
      (XattrFramed crc defaultUid defaultGid n n' (·.put name value) ↔ (utf8 name).length < 2 ^ 16)) ∧
    (∀ name n', removeXattr crc defaultUid defaultGid n name = .ok n' →
      XattrFramed crc defaultUid defaultGid n n' (·.erase name)) :=
  ⟨setattrFramed_iff crc defaultUid defaultGid padBlocks suite host n,
    fun _ _ _ h => setXattr_framed_iff crc defaultUid defaultGid h,
    fun _ _ h => removeXattr_framed crc defaultUid defaultGid h⟩

end

def bareFile : Node := ⟨some .empty, none, fun _ hs => Option.some.inj hs ▸ Wf.empty⟩

def taggedXattrs : Xattrs := SortedMap.empty.put "user.a" [1]

def taggedFile : Node :=
  storeMetaXattrs crc32 bareFile (attrForPath crc32 0 0 bareFile) none taggedXattrs

theorem fits_taggedXattrs : AttrFits none taggedXattrs where
  target := nofun
  names := by
    intro e he
    rcases mem_entries_put he with rfl | hold
    · decide +kernel
    · exact absurd hold (by nofun)
  values := by
    intro e he
    rcases mem_entries_put he with rfl | hold
    · decide
    · exact absurd hold (by nofun)
  count := lt_of_le_of_lt (length_entries_put_le _ _ _) (by decide)

/-- A record that was cut before the last byte of its count, with a checksum that starts with 0. -/
def cutRecord : Bytes :=
  withCrc crc32 (encodeBody (defaultAttr 70 0 .file 0o100644 1) none ATTR_VERSION_V3 ++ [0, 0, 0])

theorem cutSection_cutRecord : CutSection crc32 cutRecord :=
  ⟨_, none, [0, 0, 0], nofun, by decide, rfl, isPrefixOf_iff_prefix.mp (by decide +kernel)⟩

theorem attr_blob_roundtrip_taggedXattrs :
    decodeMetaXattrs crc32 true
        (encodeMetaXattrs crc32 (defaultAttr 0 0 .file 0o100644 1) none taggedXattrs) =
      .ok (defaultAttr 0 0 .file 0o100644 1, none, taggedXattrs) ∧
    decodeMetaXattrs crc32 true cutRecord = .panic :=
  have h := attr_blob_roundtrip_iff crc32 true (defaultAttr 0 0 .file 0o100644 1) none taggedXattrs
    (by decide +kernel)
  ⟨h.1.mpr ⟨fits_taggedXattrs.names, fits_taggedXattrs.target⟩,
    (h.2 cutRecord).1.mpr ⟨rfl, cutSection_cutRecord⟩⟩

/-- An accepted name of `n + 5` bytes. -/
def longName : Nat → String
  | 0 => "user."
  | n + 1 => longName n ++ "a"

theorem utf8_longName (n : Nat) : utf8 (longName n) = utf8 "user." ++ replicate n 97 := by
  induction n with
  | zero => exact (append_nil _).symm
  | succ n ih =>
    have happ : utf8 (longName n ++ "a") = utf8 (longName n) ++ utf8 "a" := by simp [utf8]
    rw [longName, happ, ih, append_assoc, replicate_succ', (by decide +kernel : utf8 "a" = [97])]

theorem setXattr_of_total {name : String} (hcheck : checkXattrName name = true)
    (hlen : (utf8 name).length = 65536) : let xattrs : Xattrs := SortedMap.empty.put name []
    let record := encodeMetaXattrs crc32 (attrForPath crc32 0 0 bareFile) none xattrs
    setXattr crc32 0 0 bareFile name [] = .ok { bareFile with metadata := some record } ∧
      decodeMetaXattrs crc32 false record ≠ .ok (attrForPath crc32 0 0 bareFile, none, xattrs) := by
  have htotal : xattrTotal (SortedMap.empty.put name []) = 65536 := hlen
  refine ⟨?_, fun h => ?_⟩
  · rw [setXattr, if_pos hcheck]
    show (if MAX_XATTR_TOTAL < xattrTotal _ then throw FsError.tooBig
      else pure _ : Except FsError Node) = _
    rw [htotal, if_neg (by decide)]
    rfl
  · have := (fits_of_decode crc32 false h).2.2.names (name, []) (.head _)
    dsimp only at this
    omega

/-- `set_xattr` accepts a name of 65536 bytes with an empty value; the record it writes is not read
back with that name. -/
theorem setXattr_longName :
    let xattrs : Xattrs := SortedMap.empty.put (longName 65531) []
    let record := encodeMetaXattrs crc32 (attrForPath crc32 0 0 bareFile) none xattrs
    setXattr crc32 0 0 bareFile (longName 65531) [] = .ok { bareFile with metadata := some record } ∧
      decodeMetaXattrs crc32 false record ≠ .ok (attrForPath crc32 0 0 bareFile, none, xattrs) := by
  refine setXattr_of_total ?_ ?_
  · have hpre : (utf8 "user.").isPrefixOf (utf8 (longName 65531)) = true := by
      rw [utf8_longName, isPrefixOf_iff_prefix]
      exact prefix_append _ _
    rw [checkXattrName, hpre]
    rfl
  · rw [utf8_longName, length_append, length_replicate]
    exact congrArg (· + 65531) (by decide +kernel : (utf8 "user.").length = 5)

/-- A file of three bytes. -/
def threeBytes : Node := setattr crc32 0 0 false .none 1 bareFile ⟨none, none, none, some 3⟩ 5

/-- The same file with a target and an extended attribute in its record. -/
def linkedFile : Node :=
  storeMetaXattrs crc32 threeBytes (defaultAttr 7 8 .symlink 0o120777 1) (some "t") taggedXattrs

theorem loadMetaXattrs_linkedFile : loadMetaXattrs crc32 0 0 linkedFile =
    .ok (defaultAttr 7 8 .symlink 0o120777 1, some "t", taggedXattrs) := by
  refine loadMetaXattrs_of_ok crc32 0 0 rfl (decodeMetaXattrs_encode crc32 false _ ?_)
  refine ⟨?_, fits_taggedXattrs.names, fits_taggedXattrs.values, fits_taggedXattrs.count⟩
  rintro t ⟨⟩
  decide +kernel

theorem metadata_framed_linkedFile :
    (loadedTail crc32 0 0 linkedFile = .ok (some "t", taggedXattrs) ∧
      linkedFile.content.map read = some [0, 0, 0]) ∧
    (∃ n, setXattr crc32 0 0 linkedFile "user.b" [2] = .ok n ∧
      XattrFramed crc32 0 0 linkedFile n (·.put "user.b" [2])) ∧
    (∃ n, removeXattr crc32 0 0 linkedFile "user.a" = .ok n ∧
      XattrFramed crc32 0 0 linkedFile n (·.erase "user.a")) ∧
    SetattrFramed crc32 0 0 threeBytes
      (setattr crc32 0 0 false .none 1 threeBytes ⟨some 0o600, none, none, none⟩ 7)
      ⟨some 0o600, none, none, none⟩ 7 := by
  have hload := loadMetaXattrs_linkedFile
  have hset : setXattr crc32 0 0 linkedFile "user.b" [2] = .ok (storeMetaXattrs crc32 linkedFile
      (defaultAttr 7 8 .symlink 0o120777 1) (some "t") (taggedXattrs.put "user.b" [2])) := by
    rw [setXattr, if_pos (by decide +kernel), hload]
    show (if MAX_XATTR_TOTAL < xattrTotal (taggedXattrs.put "user.b" [2]) then throw FsError.tooBig
      else pure _ : Except FsError Node) = _
    rw [if_neg (by decide +kernel)]
    rfl
  have hremove : removeXattr crc32 0 0 linkedFile "user.a" = .ok (storeMetaXattrs crc32 linkedFile
      (defaultAttr 7 8 .symlink 0o120777 1) (some "t") (taggedXattrs.erase "user.a")) := by
    rw [removeXattr, if_pos (by decide +kernel), hload]
    show (if (taggedXattrs.get "user.a").isNone then throw FsError.noXattr
      else pure _ : Except FsError Node) = _
    rw [if_neg (by decide +kernel)]
    rfl
  have hlinked := metadata_framed crc32 0 0 false .none 1 linkedFile
  refine ⟨⟨by rw [loadedTail, hload]; rfl, ?_⟩,
    ⟨_, hset, (hlinked.2.1 _ _ _ hset).mpr (by decide +kernel)⟩,
    ⟨_, hremove, hlinked.2.2 _ _ hremove⟩, ?_⟩
  · exact setattr_content crc32 0 0 false .none 1 bareFile ⟨none, none, none, some 3⟩ 5
  · exact ((metadata_framed crc32 0 0 false .none 1 threeBytes).1 _ _).mpr
      (setattr_reads crc32 0 0 false .none 1 bareFile ⟨none, none, none, some 3⟩ 5).2

/-- Changing the mode of a file takes its extended attribute away. -/
theorem setattr_drops_xattrs :
    loadedTail crc32 0 0 taggedFile = .ok (none, taggedXattrs) ∧ taggedXattrs.get "user.a" = some [1] ∧
      loadedTail crc32 0 0
        (setattr crc32 0 0 false .none 1 taggedFile ⟨some 0o600, none, none, none⟩ 7) =
        .ok (none, .empty) :=
  ⟨(attrForPath_stored crc32 0 0 (n := taggedFile) rfl fits_taggedXattrs).2,
    get_put_eq_some_iff.mpr (.inl ⟨rfl, rfl⟩),
    (setattr_reads crc32 0 0 false .none 1 taggedFile _ 7).2⟩

end Sfs.Mount

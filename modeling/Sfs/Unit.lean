import Sfs.Basic
import Sfs.Block

/-!
# Unit records

A unit has a content stream cut into fragments. The source keeps two parallel vectors,
`unit_map` and `locations`; here a fragment carries both entries, so they cannot differ in
length. The stream is generic in what a location points at: `StreamMeta Bytes` holds each
block by value, `StreamMeta BlockLoc` by its place in the container. No block is the hole
sentinel `{ addr: 0, len: 0 }`.
-/

namespace Sfs

open Sfs.Lib Sfs.Version List

abbrev Uuid := BitVec 128

def uuidBytes (u : Uuid) : Bytes := leBytes 16 u.toNat

def uuidOf (bs : Bytes) : Uuid := BitVec.ofNat 128 (leNat (bs.take 16))

@[simp] theorem length_uuidBytes (u : Uuid) : (uuidBytes u).length = 16 := length_leBytes ..

theorem uuidOf_uuidBytes (u : Uuid) (tail : Bytes) : uuidOf (uuidBytes u ++ tail) = u := by
  rw [uuidOf, uuidBytes, take_left' (length_leBytes 16 u.toNat), leNat_leBytes_of_lt u.isLt,
    BitVec.ofNat_toNat, BitVec.setWidth_eq]

theorem uuidBytes_uuidOf {bs : Bytes} (h : 16 ≤ bs.length) : uuidBytes (uuidOf bs) = bs.take 16 := by
  have hlen : (bs.take 16).length = 16 := by rw [length_take]; omega
  have hlt : leNat (bs.take 16) < 2 ^ 128 := (leNat_lt (bs.take 16)).trans_eq (by rw [hlen]; rfl)
  have hb := leBytes_leNat (bs.take 16)
  rw [hlen] at hb
  rwa [uuidBytes, uuidOf, BitVec.toNat_ofNat, Nat.mod_eq_of_lt hlt]

structure BlockLoc where
  addr : Nat
  len : Nat
  deriving DecidableEq, Repr

structure Frag (β : Type) where
  version : BlockVersion
  block : Option β
  deriving DecidableEq, Repr

/-- `bits[f]` says that fragment `f` was not modified since `commit`. The source packs eight
bits to a byte, so cutting the bitmap keeps whole groups of eight. -/
structure CommitBitmap where
  commit : Uuid
  bits : List Bool
  deriving DecidableEq, Repr

def CommitBitmap.getBit (p : CommitBitmap) (f : Nat) : Bool := p.bits.getD f false

structure StreamMeta (β : Type) where
  frags : List (Frag β)
  vv : VersionVector
  fragsizeExp : Nat
  lastFragLength : Nat
  pins : List CommitBitmap
  deriving DecidableEq

variable {β : Type}

def Frag.hole : Frag β := ⟨0, none⟩

namespace StreamMeta

/-- `empty_content_stream`. -/
def empty : StreamMeta β := ⟨[], .new, fragsizeFloorExp, 0, []⟩

def fragsize (s : StreamMeta β) : Nat := 2 ^ s.fragsizeExp

/-- `stream_byte_len`. -/
def byteLen (s : StreamMeta β) : Nat :=
  if s.frags.length = 0 then 0 else (s.frags.length - 1) * s.fragsize + s.lastFragLength

/-- `unit_map.get(f)`, `0` past the end. -/
def dot (s : StreamMeta β) (f : Nat) : BlockVersion :=
  match s.frags[f]? with
  | some fr => fr.version
  | none => 0

/-- `locations.get(f)`, a hole past the end. -/
def block (s : StreamMeta β) (f : Nat) : Option β :=
  match s.frags[f]? with
  | some fr => fr.block
  | none => none

def unitMap (s : StreamMeta β) : List BlockVersion := s.frags.map Frag.version

/-- `grow_stream`: append holes up to `n` fragments. -/
def grow (s : StreamMeta β) (n : Nat) : StreamMeta β :=
  { s with frags := s.frags ++ replicate (n - s.frags.length) .hole }

theorem dot_of_lt {s : StreamMeta β} {f : Nat} (h : f < s.frags.length) :
    s.dot f = s.frags[f].version := by
  simp [dot, getElem?_eq_getElem h]

theorem dot_of_get {s : StreamMeta β} {f : Nat} {fr : Frag β} (h : s.frags[f]? = some fr) :
    s.dot f = fr.version := by
  simp [dot, h]

theorem block_of_get {s : StreamMeta β} {f : Nat} {fr : Frag β} (h : s.frags[f]? = some fr) :
    s.block f = fr.block := by
  simp [block, h]

theorem dot_of_ge {s : StreamMeta β} {f : Nat} (h : s.frags.length ≤ f) : s.dot f = 0 := by
  simp [dot, getElem?_eq_none h]

theorem block_of_lt {s : StreamMeta β} {f : Nat} (h : f < s.frags.length) :
    s.block f = s.frags[f].block := by
  simp [block, getElem?_eq_getElem h]

theorem block_of_ge {s : StreamMeta β} {f : Nat} (h : s.frags.length ≤ f) : s.block f = none := by
  simp [block, getElem?_eq_none h]

theorem frag_cases (s : StreamMeta β) (f : Nat) :
    s.frags[f]? = none ∨ s.frags[f]? = some ⟨s.dot f, s.block f⟩ := by
  cases h : s.frags[f]? with
  | none => exact .inl rfl
  | some fr => exact .inr (by rw [dot_of_get h, block_of_get h])

theorem lt_of_block {s : StreamMeta β} {f : Nat} {d : β} (h : s.block f = some d) :
    f < s.frags.length := by
  by_contra hge
  rw [block_of_ge (by omega)] at h
  cases h

/-- The fragments that are added carry no dot and no block. -/
theorem frag_grow (s : StreamMeta β) (n f : Nat) :
    (s.grow n).frags[f]? = s.frags[f]? ∨
      s.frags[f]? = none ∧ (s.grow n).frags[f]? = some ⟨0, none⟩ := by
  by_cases hf : f < s.frags.length
  · simp [grow, getElem?_append, hf]
  · simp only [grow, getElem?_append, hf, if_false, getElem?_replicate]
    split
    · exact .inr ⟨getElem?_eq_none (by omega), rfl⟩
    · exact .inl (getElem?_eq_none (by omega)).symm

theorem dot_grow (s : StreamMeta β) (n f : Nat) : (s.grow n).dot f = s.dot f := by
  rcases s.frag_grow n f with h | ⟨h, h'⟩ <;> simp [dot, *]

theorem block_grow (s : StreamMeta β) (n f : Nat) : (s.grow n).block f = s.block f := by
  rcases s.frag_grow n f with h | ⟨h, h'⟩ <;> simp [block, *]

theorem length_grow (s : StreamMeta β) (n : Nat) :
    (s.grow n).frags.length = max s.frags.length n := by
  simp [grow]
  omega

theorem fragsize_pos (s : StreamMeta β) : 0 < s.fragsize := Nat.two_pow_pos _

theorem unitMap_ext {s t : StreamMeta β} (hl : s.frags.length = t.frags.length)
    (hd : ∀ f, f < s.frags.length → s.dot f = t.dot f) : s.unitMap = t.unitMap := by
  apply ext_getElem (by simp [unitMap, hl])
  intro f h1 h2
  simp only [unitMap, length_map] at h1 h2
  have := hd f h1
  rw [dot_of_lt h1, dot_of_lt h2] at this
  simpa [unitMap] using this

end StreamMeta

end Sfs

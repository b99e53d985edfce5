import Sfs.Lib.Disk

/-!
# Errors and fixed-width fields

The crate's error type and the fixed-width codecs (`to_le_bytes` / `from_le_bytes`) that its
on-disk layouts are written with.
-/

namespace Sfs

open Sfs.Lib

inductive Error where
  | notFound (what : String)
  | integrity (what : String)
  | crypto (what : String)
  | io (what : String)
  | unsupportedVersion (v : Nat)
  deriving DecidableEq, Repr

abbrev Result := Except Error

/-- A chain of fallible steps that succeeds went through its first step. -/
theorem exists_of_bind_ok {ε α γ : Type} {x : Except ε α} {f : α → Except ε γ} {c : γ}
    (h : (x >>= f) = .ok c) : ∃ a, x = .ok a ∧ f a = .ok c := by
  cases x with
  | error e => cases h
  | ok a => exact ⟨a, rfl, h⟩

theorem exists_of_map_ok {ε α γ : Type} {x : Except ε α} {f : α → γ} {c : γ} (h : x.map f = .ok c) :
    ∃ a, x = .ok a ∧ f a = c := by
  cases x with
  | error e => cases h
  | ok a => exact ⟨a, rfl, Except.ok.inj h⟩

abbrev RootKey := Vector UInt8 32

/-! ## Codecs -/

def leU16 (x : UInt16) : Bytes := leBytes 2 x.toNat
def leU32 (x : UInt32) : Bytes := leBytes 4 x.toNat
def leU64 (x : UInt64) : Bytes := leBytes 8 x.toNat

def ofLeU16 (bs : Bytes) : UInt16 := UInt16.ofNat (leNat bs)
def ofLeU32 (bs : Bytes) : UInt32 := UInt32.ofNat (leNat bs)
def ofLeU64 (bs : Bytes) : UInt64 := UInt64.ofNat (leNat bs)

/-- A fixed array filled from a byte string. -/
def arr (n : Nat) (bs : Bytes) : Vector UInt8 n := Vector.ofFn fun i => bs.getD i 0

@[simp] theorem length_leU16 (x : UInt16) : (leU16 x).length = 2 := length_leBytes ..
@[simp] theorem length_leU32 (x : UInt32) : (leU32 x).length = 4 := length_leBytes ..
@[simp] theorem length_leU64 (x : UInt64) : (leU64 x).length = 8 := length_leBytes ..

@[simp] theorem ofLeU16_leU16 (x : UInt16) : ofLeU16 (leU16 x) = x := by
  have h : leNat (leBytes 2 x.toNat) = x.toNat := leNat_leBytes_of_lt (by have := x.toNat_lt; omega)
  simp [ofLeU16, leU16, h]

@[simp] theorem ofLeU32_leU32 (x : UInt32) : ofLeU32 (leU32 x) = x := by
  have h : leNat (leBytes 4 x.toNat) = x.toNat := leNat_leBytes_of_lt (by have := x.toNat_lt; omega)
  simp [ofLeU32, leU32, h]

@[simp] theorem ofLeU64_leU64 (x : UInt64) : ofLeU64 (leU64 x) = x := by
  have h : leNat (leBytes 8 x.toNat) = x.toNat := leNat_leBytes_of_lt (by have := x.toNat_lt; omega)
  simp [ofLeU64, leU64, h]

theorem leBytes_leNat_mod {w : Nat} {bs : Bytes} (h : bs.length = w) :
    leBytes w (leNat bs % 256 ^ w) = bs := by
  subst h
  rw [Nat.mod_eq_of_lt (leNat_lt bs), leBytes_leNat]

theorem leU32_ofLeU32 {bs : Bytes} (h : bs.length = 4) : leU32 (ofLeU32 bs) = bs := by
  exact leBytes_leNat_mod h

theorem leU64_ofLeU64 {bs : Bytes} (h : bs.length = 8) : leU64 (ofLeU64 bs) = bs := by
  exact leBytes_leNat_mod h

@[simp] theorem arr_toList {n : Nat} (v : Vector UInt8 n) : arr n v.toList = v := by
  apply Vector.ext
  simp [arr]

theorem toList_arr {n : Nat} {bs : Bytes} (h : bs.length = n) : (arr n bs).toList = bs := by
  subst h
  apply List.ext_getElem
  · simp
  · simp [arr]

end Sfs

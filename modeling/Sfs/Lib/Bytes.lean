import Mathlib.Data.List.GetD
import Mathlib.Data.List.Lex
import Mathlib.Tactic

/-!
# Byte strings

Little-endian numerals of a fixed width and a cursor that cuts a byte string field by
field. `cut_append` is the one rule a decoder needs to read back what an encoder laid out.
-/

namespace Sfs.Lib

open List

variable {n off : Nat} {xs ys bs : Bytes}

abbrev Bytes := List UInt8

/-! ## Little-endian numerals -/

def leBytes : Nat → Nat → Bytes
  | 0, _ => []
  | w + 1, n => UInt8.ofNat n :: leBytes w (n / 256)

def leNat : Bytes → Nat
  | [] => 0
  | b :: bs => b.toNat + 256 * leNat bs

@[simp] theorem length_leBytes (w n : Nat) : (leBytes w n).length = w := by
  induction w generalizing n with
  | zero => rfl
  | succ w ih => simp [leBytes, ih]

theorem leNat_leBytes (w n : Nat) : leNat (leBytes w n) = n % 256 ^ w := by
  induction w generalizing n with
  | zero => simp [leBytes, leNat, Nat.mod_one]
  | succ w ih =>
    have hb : (UInt8.ofNat n).toNat = n % 256 := UInt8.toNat_ofNat'
    simp only [leBytes, leNat, ih, hb]
    rw [Nat.pow_succ, mul_comm (256 ^ w) 256, Nat.mod_mul]

theorem leNat_leBytes_of_lt {w : Nat} (h : n < 256 ^ w) : leNat (leBytes w n) = n := by
  rw [leNat_leBytes, Nat.mod_eq_of_lt h]

theorem leBytes_leNat (bs : Bytes) : leBytes bs.length (leNat bs) = bs := by
  induction bs with
  | nil => rfl
  | cons b bs ih =>
    have hb := b.toNat_lt
    have hlow : UInt8.ofNat (b.toNat + 256 * leNat bs) = b := by
      apply UInt8.toNat_inj.mp
      rw [UInt8.toNat_ofNat']
      omega
    have hhigh : (b.toNat + 256 * leNat bs) / 256 = leNat bs := by omega
    rw [length_cons, leNat, leBytes, hlow, hhigh, ih]

theorem leNat_lt (bs : Bytes) : leNat bs < 256 ^ bs.length := by
  induction bs with
  | nil => simp [leNat]
  | cons b bs ih =>
    have := b.toNat_lt
    simp only [leNat, length_cons, Nat.pow_succ]
    omega

theorem leBytes_leNat_of_length (h : bs.length = n) : leBytes n (leNat bs) = bs := h ▸ leBytes_leNat bs

theorem leNat_lt_of_length (h : bs.length = n) : leNat bs < 256 ^ n := h ▸ leNat_lt bs

/-! ## Cutting fields -/

/-- The next field of `n` bytes and what follows it. -/
def cut (n : Nat) (bs : Bytes) : Bytes × Bytes := (bs.take n, bs.drop n)

theorem cut_append (h : xs.length = n) : cut n (xs ++ ys) = (xs, ys) := by
  subst h
  simp [cut]

/-- The `n` bytes from offset `off`. -/
def slice (off n : Nat) (bs : Bytes) : Bytes := (bs.drop off).take n

@[simp] theorem length_slice (h : off + n ≤ bs.length) :
    (slice off n bs).length = n := by
  simp [slice]
  omega

theorem slice_append_left (h : off + n ≤ xs.length) :
    slice off n (xs ++ ys) = slice off n xs := by
  unfold slice
  rw [drop_append_of_le_length (by omega), take_append_of_le_length (by simp; omega)]

theorem slice_append_right (h : xs.length = off) :
    slice off n (xs ++ ys) = ys.take n := by
  subst h
  simp [slice]

theorem slice_middle {pre mid post : Bytes} (hoff : pre.length = off) (hn : mid.length = n) :
    slice off n (pre ++ (mid ++ post)) = mid := by
  rw [slice_append_right hoff, take_append_of_le_length hn.ge, take_of_length_le hn.le]

/-- A slice behind the first part. -/
theorem slice_past (h : xs.length ≤ off) : slice off n (xs ++ ys) = slice (off - xs.length) n ys := by
  rw [slice, drop_append, drop_of_length_le h, nil_append, slice]

theorem slice_skip {k : Nat} (h : xs.length = k) :
    slice (k + off) n (xs ++ ys) = slice off n ys := by
  rw [slice_past (by omega), h, Nat.add_sub_cancel_left]

theorem slice_zero_append (h : xs.length = n) : slice 0 n (xs ++ ys) = xs := by
  subst h
  simp [slice]

theorem slice_zero_self (h : xs.length = n) : slice 0 n xs = xs := by
  subst h
  simp [slice]

/-- The fields of a layout stand one after the other. -/
theorem slice_flatten (fs : List Bytes) (rest : Bytes) {i : Nat} (hi : i < fs.length) :
    slice (fs.take i).flatten.length fs[i].length (fs.flatten ++ rest) = fs[i] := by
  have hsplit : fs.flatten ++ rest =
      (fs.take i).flatten ++ (fs[i] ++ ((fs.drop (i + 1)).flatten ++ rest)) := by
    rw [← append_assoc fs[i], ← flatten_cons, ← drop_eq_getElem_cons hi, ← append_assoc,
      ← flatten_append, take_append_drop]
  rw [hsplit]
  exact slice_middle rfl rfl

theorem drop_flatten (fs : List Bytes) (rest : Bytes) (i : Nat) :
    (fs.flatten ++ rest).drop (fs.take i).flatten.length = (fs.drop i).flatten ++ rest := by
  have hsplit : fs.flatten ++ rest = (fs.take i).flatten ++ ((fs.drop i).flatten ++ rest) := by
    rw [← append_assoc, ← flatten_append, take_append_drop]
  rw [hsplit, drop_left]

theorem slice_add (off m n : Nat) (bs : Bytes) :
    slice off (m + n) bs = slice off m bs ++ slice (off + m) n bs := by
  simp only [slice, ← drop_drop]
  exact take_add

theorem slice_flatMap {α : Type} {c : Nat} {f : α → Bytes} {l : List α}
    (hf : ∀ a ∈ l, (f a).length = c) {i : Nat} (hi : i < l.length) :
    slice (i * c) c (l.flatMap f) = f l[i] := by
  induction l generalizing i with
  | nil => cases hi
  | cons a l ih =>
    rw [flatMap_cons]
    cases i with
    | zero =>
      rw [Nat.zero_mul]
      exact slice_zero_append (hf a (.head _))
    | succ i =>
      rw [Nat.succ_mul, add_comm, slice_skip (hf a (.head _)),
        ih (fun b hb => hf b (.tail _ hb)) (Nat.lt_of_succ_lt_succ hi)]
      rfl

/-- A field of full width is the numeral it holds. -/
theorem leBytes_slice (h : off + n ≤ bs.length) :
    leBytes n (leNat (slice off n bs)) = slice off n bs :=
  leBytes_leNat_of_length (length_slice h)

theorem leNat_slice_lt (h : off + n ≤ bs.length) : leNat (slice off n bs) < 256 ^ n :=
  leNat_lt_of_length (length_slice h)

/-! ## Resizing and overlaying -/

/-- Cut to `n` bytes, or extend to `n` bytes with zeros. -/
def resize (n : Nat) (bs : Bytes) : Bytes := bs.take n ++ replicate (n - bs.length) 0

/-- Write `src` over `base` from position `pos`. -/
def overlay (base : Bytes) (pos : Nat) (src : Bytes) : Bytes :=
  base.take pos ++ src ++ base.drop (pos + src.length)

@[simp] theorem length_resize (n : Nat) (bs : Bytes) : (resize n bs).length = n := by
  simp [resize]
  omega

theorem length_overlay {base src : Bytes} {pos : Nat} (h : pos + src.length ≤ base.length) :
    (overlay base pos src).length = base.length := by
  simp [overlay]
  omega

theorem getD_resize (n i : Nat) (bs : Bytes) :
    (resize n bs).getD i 0 = if i < n then bs.getD i 0 else 0 := by
  simp only [resize, getD_eq_getElem?_getD, getElem?_append, length_take,
    getElem?_take, getElem?_replicate]
  by_cases hn : i < n
  · by_cases hb : i < bs.length
    · simp [hn, hb]
    · have h1 : ¬ i < min n bs.length := by omega
      have h2 : bs[i]? = none := getElem?_eq_none (by omega)
      simp only [h1, hn, h2, if_false, if_true]
      split <;> rfl
  · have h1 : ¬ i < min n bs.length := by omega
    have h2 : ¬ i - min n bs.length < n - bs.length := by omega
    simp [h1, h2, hn]

theorem getD_overlay {base src : Bytes} {pos : Nat} (h : pos + src.length ≤ base.length) (i : Nat) :
    (overlay base pos src).getD i 0 =
      if pos ≤ i ∧ i < pos + src.length then src.getD (i - pos) 0 else base.getD i 0 := by
  have hp : min pos base.length = pos := by omega
  simp only [overlay, getD_eq_getElem?_getD, getElem?_append, length_append,
    length_take, getElem?_take, getElem?_drop, hp]
  by_cases h1 : i < pos
  · have h2 : i < pos + src.length := by omega
    have h3 : ¬ pos ≤ i := by omega
    simp [h1, h2, h3]
  · by_cases h2 : i < pos + src.length
    · have h3 : pos ≤ i := by omega
      simp [h1, h2, h3]
    · have h3 : pos + src.length + (i - (pos + src.length)) = i := by omega
      simp [h2, h3]

theorem getD_slice (off n i : Nat) (bs : Bytes) :
    (slice off n bs).getD i 0 = if i < n then bs.getD (off + i) 0 else 0 := by
  simp only [slice, getD_eq_getElem?_getD, getElem?_take, getElem?_drop]
  split <;> rfl

theorem getD_of_length_le {i : Nat} (h : bs.length ≤ i) : bs.getD i 0 = 0 := by
  rw [getD_eq_getElem?_getD, getElem?_eq_none h]
  rfl

theorem getD_replicate_zero (n i : Nat) : (replicate n (0 : UInt8)).getD i 0 = 0 := by
  simp only [getD_eq_getElem?_getD, getElem?_replicate]
  split <;> rfl

/-! ## Chunks of one size -/

/-- The bytes of `n` chunks of `c` bytes each, laid end to end. -/
theorem flatten_map_range {c : Nat} (hc : 0 < c) {g : Nat → Bytes}
    (hg : ∀ f, f < n → (g f).length = c) :
    ((range n).map g).flatten = (range (n * c)).map fun i => (g (i / c)).getD (i % c) 0 := by
  induction n with
  | zero => simp
  | succ n ih =>
    rw [range_succ, map_append, flatten_append, ih fun f hf => hg f (by omega),
      Nat.succ_mul, range_add, map_append]
    congr 1
    simp only [map_cons, map_nil, flatten_cons, flatten_nil, append_nil, map_map]
    have hl := hg n (by omega)
    apply ext_getElem
    · simp [hl]
    intro j h1 h2
    have hj : j < c := by omega
    simp only [getElem_map, getElem_range, Function.comp]
    rw [mul_comm n, Nat.mul_add_div hc, Nat.div_eq_of_lt hj, add_zero, Nat.mul_add_mod,
      Nat.mod_eq_of_lt hj, getD_eq_getElem _ _ h1]

/-! ## Text -/

def utf8 (s : String) : Bytes := s.toUTF8.data.toList

def ofUtf8 (bs : Bytes) : Option String := String.fromUTF8? ⟨bs.toArray⟩

theorem utf8_inj {s t : String} : utf8 s = utf8 t ↔ s = t := by
  refine ⟨fun h => ?_, fun h => h ▸ rfl⟩
  refine String.toByteArray_inj.mp ?_
  exact ByteArray.ext (Array.toList_inj.mp h)

theorem ofUtf8_utf8 (s : String) : ofUtf8 (utf8 s) = some s := by
  show String.fromUTF8? s.toUTF8 = some s
  rw [String.fromUTF8?, String.toUTF8_eq_toByteArray, dif_pos s.isValidUTF8]
  rfl

theorem utf8_of_ofUtf8 {s : String} (h : ofUtf8 bs = some s) : utf8 s = bs := by
  unfold ofUtf8 String.fromUTF8? at h
  split at h
  · cases h
    rfl
  · cases h

/-! ## Hexadecimal text -/

def hexDigit (n : Nat) : UInt8 := if n < 10 then UInt8.ofNat (48 + n) else UInt8.ofNat (87 + n)

def hexOf (bs : Bytes) : Bytes :=
  bs.flatMap fun b => [hexDigit (b.toNat / 16), hexDigit (b.toNat % 16)]

def nibble (b : UInt8) : Option Nat :=
  let n := b.toNat
  if 48 ≤ n ∧ n ≤ 57 then some (n - 48)
  else if 97 ≤ n ∧ n ≤ 102 then some (n - 97 + 10)
  else if 65 ≤ n ∧ n ≤ 70 then some (n - 65 + 10)
  else none

def unhex : Bytes → Option Bytes
  | hi :: lo :: rest => do
    let h ← nibble hi
    let l ← nibble lo
    return UInt8.ofNat (h * 16 + l) :: (← unhex rest)
  | _ => some []

theorem hexOf_cons (b : UInt8) (bs : Bytes) :
    hexOf (b :: bs) = hexDigit (b.toNat / 16) :: hexDigit (b.toNat % 16) :: hexOf bs := rfl

theorem hexDigit_inj : ∀ m < 16, ∀ n < 16, hexDigit m = hexDigit n → m = n := by decide

theorem hexOf_inj {bs cs : Bytes} (h : hexOf bs = hexOf cs) : bs = cs := by
  induction bs generalizing cs with
  | nil =>
    cases cs with
    | nil => rfl
    | cons c cs => cases h
  | cons b bs ih =>
    cases cs with
    | nil => cases h
    | cons c cs =>
      injection h with hhi h
      injection h with hlo h
      have hb := b.toNat_lt
      have hc := c.toNat_lt
      have hi := hexDigit_inj _ (by omega) _ (by omega) hhi
      have lo := hexDigit_inj _ (by omega) _ (by omega) hlo
      rw [ih h, UInt8.toNat_inj.mp (by omega : b.toNat = c.toNat)]

@[simp] theorem length_hexOf (bs : Bytes) : (hexOf bs).length = 2 * bs.length := by
  induction bs with
  | nil => rfl
  | cons b bs ih =>
    rw [hexOf_cons, List.length_cons, List.length_cons, List.length_cons, ih]
    omega

/-! ## CRC-32

Reflected, with polynomial `0xEDB88320`, initial value and final xor all ones, bit by bit. -/

/-- Divide out `n` bits. -/
def crcBits : Nat → UInt32 → UInt32
  | 0, c => c
  | n + 1, c => crcBits n (if c &&& 1 = 1 then (c >>> 1) ^^^ 0xEDB88320 else c >>> 1)

def crcUpdate (c : UInt32) (b : UInt8) : UInt32 := crcBits 8 (c ^^^ b.toUInt32)

def crc32 (bs : Bytes) : UInt32 := bs.foldl crcUpdate 0xFFFFFFFF ^^^ 0xFFFFFFFF

-- the check value of the ASCII digits `123456789`
example : crc32 [0x31, 0x32, 0x33, 0x34, 0x35, 0x36, 0x37, 0x38, 0x39] = 0xCBF43926 := by
  decide +kernel

end Sfs.Lib

import Sfs.Lib.Bytes

/-!
# A byte-addressed store with torn writes

`Disk` is a file of fixed length. `poke` is a write that lands whole, `tear` one that a
crash interrupts: an arbitrary set of its bytes lands and the others keep their old value.
-/

namespace Sfs.Lib

open List

structure Disk where
  len : Nat
  byte : Nat → UInt8

namespace Disk

/-- The `n` bytes from `off`. -/
def peek (d : Disk) (off n : Nat) : Bytes := (range n).map fun i => d.byte (off + i)

/-- The write of `bs` at `off` of which exactly the bytes `i` with `landed i` reach the disk. -/
def tear (d : Disk) (off : Nat) (bs : Bytes) (landed : Nat → Bool) : Disk where
  len := d.len
  byte a := if off ≤ a ∧ a < off + bs.length ∧ landed (a - off) = true then bs.getD (a - off) 0
    else d.byte a

def poke (d : Disk) (off : Nat) (bs : Bytes) : Disk := d.tear off bs fun _ => true

def readAt (d : Disk) (off n : Nat) : Option Bytes :=
  if off + n ≤ d.len then some (d.peek off n) else none

def writeAt (d : Disk) (off : Nat) (bs : Bytes) : Option Disk :=
  if off + bs.length ≤ d.len then some (d.poke off bs) else none

/-- The file grows; the new bytes are zero. -/
def grow (d : Disk) (n : Nat) : Disk := ⟨n, fun a => if a < d.len then d.byte a else 0⟩

/-- Writes that land one after the other. -/
def pokes (d : Disk) (ws : List (Nat × Bytes)) : Disk := ws.foldl (fun d w => d.poke w.1 w.2) d

variable {d : Disk} {off : Nat} {bs : Bytes} {landed : Nat → Bool}

theorem readAt_of_le {n : Nat} (h : off + n ≤ d.len) : d.readAt off n = some (d.peek off n) := if_pos h

theorem eq_peek_of_readAt {n : Nat} {bs : Bytes} (h : d.readAt off n = some bs) : bs = d.peek off n :=
  (Option.some.inj (Option.ite_none_right_eq_some.mp h).2).symm

@[simp] theorem length_peek (n : Nat) : (d.peek off n).length = n := by simp [peek]

@[simp] theorem tear_len : (d.tear off bs landed).len = d.len := rfl

@[simp] theorem poke_len : (d.poke off bs).len = d.len := rfl

theorem getElem_peek {n i : Nat} (h : i < (d.peek off n).length) :
    (d.peek off n)[i] = d.byte (off + i) := by simp [peek]

theorem peek_congr {d' : Disk} {off' n : Nat}
    (h : ∀ i, i < n → d'.byte (off' + i) = d.byte (off + i)) : d'.peek off' n = d.peek off n := by
  apply ext_getElem (by simp)
  intro i h1 h2
  simp only [length_peek] at h1
  rw [getElem_peek, getElem_peek]
  exact h i h1

theorem peek_eq_of_byte {d' : Disk} {n : Nat}
    (h : ∀ a, off ≤ a → a < off + n → d'.byte a = d.byte a) : d'.peek off n = d.peek off n :=
  peek_congr fun i hi => h _ (by omega) (by omega)

theorem getD_peek {n i : Nat} (h : i < n) : (d.peek off n).getD i 0 = d.byte (off + i) := by
  rw [getD_eq_getElem _ _ (by simpa using h), getElem_peek]

/-- A write leaves the bytes outside its range alone. -/
theorem tear_byte_outside {a : Nat} (h : a < off ∨ off + bs.length ≤ a) :
    (d.tear off bs landed).byte a = d.byte a := by
  have : ¬ (off ≤ a ∧ a < off + bs.length ∧ landed (a - off) = true) := by omega
  simp only [tear, this, if_false]

theorem peek_tear_outside {o n : Nat} (h : o + n ≤ off ∨ off + bs.length ≤ o) :
    (d.tear off bs landed).peek o n = d.peek o n := by
  apply peek_eq_of_byte
  intro a h1 h2
  exact tear_byte_outside (by omega)

theorem tear_byte_at {i : Nat} (h : i < bs.length) :
    (d.tear off bs landed).byte (off + i) = if landed i then bs[i] else d.byte (off + i) := by
  have hi : off + i - off = i := by omega
  simp only [tear, hi]
  by_cases hl : landed i = true
  · simp [hl, h]
  · simp [hl]

theorem poke_byte_within {a : Nat} (h : off ≤ a) (h' : a < off + bs.length) :
    (d.poke off bs).byte a = bs.getD (a - off) 0 := by
  have hin : off ≤ a ∧ a < off + bs.length ∧ true = true := ⟨h, h', rfl⟩
  exact if_pos hin

theorem peek_poke : (d.poke off bs).peek off bs.length = bs := by
  apply ext_getElem (by simp)
  intro i h1 h2
  rw [getElem_peek]
  exact (tear_byte_at h2).trans (by simp)

theorem peek_add (m n : Nat) : d.peek off (m + n) = d.peek off m ++ d.peek (off + m) n := by
  simp only [peek, range_add, map_append, map_map]
  congr 1
  apply map_congr_left
  simp [add_assoc]

theorem take_peek {m n : Nat} (h : m ≤ n) : (d.peek off n).take m = d.peek off m := by
  obtain ⟨k, rfl⟩ := Nat.exists_eq_add_of_le h
  rw [peek_add, take_left' (length_peek m)]

theorem slice_peek {o m n : Nat} (h : o + m ≤ n) : slice o m (d.peek off n) = d.peek (off + o) m := by
  obtain ⟨k, rfl⟩ := Nat.exists_eq_add_of_le h
  rw [add_assoc, peek_add, slice_append_right (length_peek o), take_peek (Nat.le_add_right _ _)]

/-- What a torn write leaves agrees with the written bytes iff each one landed or was there. -/
theorem peek_tear_eq_iff {n : Nat} (h : n ≤ bs.length) :
    (d.tear off bs landed).peek off n = bs.take n ↔
      ∀ i, i < n → landed i = true ∨ d.byte (off + i) = bs.getD i 0 := by
  constructor
  · intro he i hi
    have hib : i < bs.length := by omega
    have hb := getElem_of_eq he (i := i) (by simpa using hi)
    rw [getElem_peek, tear_byte_at hib, getElem_take] at hb
    by_cases hl : landed i = true
    · exact .inl hl
    · right; simpa [hl, hib] using hb
  · intro hb
    apply ext_getElem (by simp [h])
    intro i h1 h2
    simp only [length_peek] at h1
    have hib : i < bs.length := by omega
    rw [getElem_peek, tear_byte_at hib, getElem_take]
    rcases hb i h1 with hl | hl
    · simp [hl]
    · simp [hl, hib]

end Disk

end Sfs.Lib

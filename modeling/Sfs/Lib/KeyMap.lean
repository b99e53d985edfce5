import Mathlib.Data.List.Sort

/-!
# Finite maps with a scan order

A map as the list of its entries in the order a scan returns them. `put` inserts a new key at
its place in the order; `firstKey` is the first key of a scan with a given value.
-/

namespace Sfs.Lib

open List

structure KeyMap (κ β : Type) where
  entries : List (κ × β)
  nodup : (entries.map Prod.fst).Nodup

variable {κ β : Type}

variable {k k' : κ} {m : KeyMap κ β} {v : β}

/-- Insert before the first greater key. -/
def insertEntry [LT κ] [DecidableLT κ] (k : κ) (v : β) : List (κ × β) → List (κ × β)
  | [] => [(k, v)]
  | e :: rest => if k < e.1 then (k, v) :: e :: rest else e :: insertEntry k v rest

theorem insertEntry_perm [LT κ] [DecidableLT κ] (k : κ) (v : β) (es : List (κ × β)) :
    (insertEntry k v es).Perm ((k, v) :: es) := by
  induction es with
  | nil => exact .refl _
  | cons e rest ih =>
    rw [insertEntry]
    split
    · exact .refl _
    · exact (ih.cons e).trans (.swap _ _ _)

/-- Insertion keeps the order of the keys. -/
theorem pairwise_insertEntry [LT κ] [DecidableLT κ]
    [Trans (α := κ) (β := κ) (γ := κ) (· < ·) (· < ·) (· < ·)] [Std.Trichotomous (α := κ) (· < ·)]
    {es : List (κ × β)} (hk : k ∉ es.map Prod.fst) (h : es.Pairwise fun a b => a.1 < b.1) (v : β) :
    (insertEntry k v es).Pairwise fun a b => a.1 < b.1 := by
  induction es with
  | nil => exact pairwise_singleton _ _
  | cons e rest ih =>
    have hrest := pairwise_cons.mp h
    rw [insertEntry]
    split
    · rename_i hlt
      refine pairwise_cons.mpr ⟨fun b hb => ?_, h⟩
      rcases mem_cons.mp hb with rfl | hb
      · exact hlt
      · exact Trans.trans hlt (hrest.1 b hb)
    · rename_i hlt
      refine pairwise_cons.mpr ⟨fun b hb => ?_, ih (fun hm => hk (mem_cons_of_mem _ hm)) hrest.2⟩
      rcases mem_cons.mp ((insertEntry_perm k v rest).mem_iff.mp hb) with rfl | hb
      · rcases Std.lt_trichotomy e.1 k with hek | hek | hek
        · exact hek
        · exact absurd (hek ▸ mem_cons_self) hk
        · exact absurd hek hlt
      · exact hrest.1 b hb

namespace KeyMap

variable [DecidableEq κ]

def empty : KeyMap κ β := ⟨[], .nil⟩

def get (m : KeyMap κ β) (k : κ) : Option β := (m.entries.find? fun e => e.1 = k).map Prod.snd

def erase (m : KeyMap κ β) (k : κ) : KeyMap κ β :=
  ⟨m.entries.filter fun e => e.1 ≠ k, m.nodup.sublist (filter_sublist.map _)⟩

theorem mem_of_get (h : m.get k = some v) : (k, v) ∈ m.entries := by
  obtain ⟨e, he, rfl⟩ := Option.map_eq_some_iff.mp h
  have hk := find?_some he
  simp only [decide_eq_true_eq] at hk
  subst hk
  exact mem_of_find?_eq_some he

theorem get_of_mem (h : (k, v) ∈ m.entries) : m.get k = some v := by
  unfold get
  cases hf : m.entries.find? fun e => e.1 = k with
  | none =>
    have := find?_eq_none.mp hf (k, v) h
    simp at this
  | some e =>
    have hk := find?_some hf
    simp only [decide_eq_true_eq] at hk
    have he := mem_of_find?_eq_some hf
    have : e = (k, v) := inj_on_of_nodup_map m.nodup he h hk
    rw [this]
    rfl

theorem get_eq_some_iff : m.get k = some v ↔ (k, v) ∈ m.entries :=
  ⟨mem_of_get, get_of_mem⟩

theorem get_eq_none_iff : m.get k = none ↔ k ∉ m.entries.map Prod.fst := by
  simp only [get, Option.map_eq_none_iff, find?_eq_none, decide_eq_true_eq, mem_map, not_exists,
    not_and]

/-- Bind `k` to `v`; a key that is bound keeps its place. -/
def put [LT κ] [DecidableLT κ] (m : KeyMap κ β) (k : κ) (v : β) : KeyMap κ β :=
  if h : m.get k = none then
    ⟨insertEntry k v m.entries, ((insertEntry_perm k v m.entries).map Prod.fst).nodup_iff.mpr
      (nodup_cons.mpr ⟨get_eq_none_iff.mp h, m.nodup⟩)⟩
  else
    ⟨m.entries.map fun e => (e.1, if e.1 = k then v else e.2), by
      rw [map_map]
      exact m.nodup⟩

theorem get_erase_self (m : KeyMap κ β) (k : κ) : (m.erase k).get k = none := by
  rw [get_eq_none_iff]
  simp [erase]

theorem get_erase_eq_some_iff :
    (m.erase k).get k' = some v ↔ k' ≠ k ∧ m.get k' = some v := by
  simp only [get_eq_some_iff, erase, mem_filter, decide_eq_true_eq]
  exact and_comm

theorem get_put_self [LT κ] [DecidableLT κ] (m : KeyMap κ β) (k : κ) (v : β) :
    (m.put k v).get k = some v := by
  unfold put
  split
  · rw [get_eq_some_iff]
    exact (insertEntry_perm k v m.entries).mem_iff.mpr (.head _)
  · rename_i h
    obtain ⟨w, hw⟩ := Option.ne_none_iff_exists'.mp h
    rw [get_eq_some_iff]
    exact mem_map.mpr ⟨(k, w), mem_of_get hw, by simp⟩

theorem get_put_of_ne [LT κ] [DecidableLT κ] (m : KeyMap κ β) (v : β) (hne : k' ≠ k) :
    (m.put k v).get k' = m.get k' := by
  apply Option.ext
  intro w
  unfold put
  split
  · rw [get_eq_some_iff, get_eq_some_iff, (insertEntry_perm k v m.entries).mem_iff]
    simp [hne]
  rw [get_eq_some_iff, get_eq_some_iff, mem_map]
  constructor
  · rintro ⟨e, he, heq⟩
    cases heq
    rwa [if_neg hne]
  · intro hmem
    exact ⟨_, hmem, by simp [hne]⟩

theorem get_put_eq_some_iff [LT κ] [DecidableLT κ] {w : β} :
    (m.put k v).get k' = some w ↔ (k' = k ∧ w = v) ∨ (k' ≠ k ∧ m.get k' = some w) := by
  by_cases hk : k' = k
  · subst hk
    simp [get_put_self, eq_comm]
  · simp [get_put_of_ne m v hk, hk]

theorem get_empty (k : κ) : (empty : KeyMap κ β).get k = none := rfl

/-! ## Scans in ascending order -/

section Sorted

variable [LT κ]

/-- The keys ascend. -/
def Sorted (m : KeyMap κ β) : Prop := m.entries.Pairwise fun a b => a.1 < b.1

omit [DecidableEq κ] in
theorem sorted_empty : (empty : KeyMap κ β).Sorted := .nil

theorem Sorted.erase (h : m.Sorted) (k : κ) : (m.erase k).Sorted := h.sublist filter_sublist

theorem Sorted.put [DecidableLT κ] [Trans (α := κ) (β := κ) (γ := κ) (· < ·) (· < ·) (· < ·)]
    [Std.Trichotomous (α := κ) (· < ·)] (h : m.Sorted) (k : κ) (v : β) : (m.put k v).Sorted := by
  unfold KeyMap.put
  split
  · rename_i hk
    exact pairwise_insertEntry (get_eq_none_iff.mp hk) h v
  · exact pairwise_map.mpr h

/-- Two maps that agree on the keys of a scan return the same scan. -/
theorem Sorted.filter_congr [Trans (α := κ) (β := κ) (γ := κ) (· < ·) (· < ·) (· < ·)]
    [Std.Irrefl (α := κ) (· < ·)] {m' : KeyMap κ β} (h : m.Sorted) (h' : m'.Sorted) {p : κ → Bool}
    (hget : ∀ k, p k = true → m.get k = m'.get k) :
    (m.entries.filter fun e => p e.1) = m'.entries.filter fun e => p e.1 := by
  have hirrefl : ∀ a : κ, ¬ a < a := fun a => Std.Irrefl.irrefl a
  have : Std.Irrefl fun a b : κ × β => a.1 < b.1 := ⟨fun a => hirrefl a.1⟩
  have : Std.Antisymm fun a b : κ × β =>
    a.1 < b.1 := ⟨fun a b hab hba => absurd (Trans.trans hab hba) (hirrefl a.1)⟩
  refine (h.sublist filter_sublist).eq_of_mem_iff (h'.sublist filter_sublist) fun e => ?_
  rw [mem_filter, mem_filter]
  refine and_congr_left fun hp => ?_
  rw [← get_eq_some_iff (k := e.1) (v := e.2), ← get_eq_some_iff (k := e.1) (v := e.2), hget e.1 hp]

end Sorted

variable [DecidableEq β]

/-- The first key of a scan that is bound to `v`. -/
def firstKey (m : KeyMap κ β) (v : β) : Option κ := (m.entries.find? fun e => e.2 = v).map Prod.fst

theorem get_firstKey (h : m.firstKey v = some k) : m.get k = some v := by
  obtain ⟨e, he, rfl⟩ := Option.map_eq_some_iff.mp h
  have hv := find?_some he
  simp only [decide_eq_true_eq] at hv
  subst hv
  exact get_of_mem (mem_of_find?_eq_some he)

theorem firstKey_eq_none_iff : m.firstKey v = none ↔ ∀ k, m.get k ≠ some v := by
  simp only [firstKey, Option.map_eq_none_iff, find?_eq_none, decide_eq_true_eq]
  constructor
  · intro h k hk
    exact h (k, v) (mem_of_get hk) rfl
  · rintro h ⟨k, w⟩ he rfl
    exact h k (get_of_mem he)

/-- The last key of a scan that is bound to `v`. -/
def lastKey (m : KeyMap κ β) (v : β) : Option κ :=
  (m.entries.reverse.find? fun e => e.2 = v).map Prod.fst

theorem get_lastKey (h : m.lastKey v = some k) : m.get k = some v := by
  obtain ⟨e, he, rfl⟩ := Option.map_eq_some_iff.mp h
  have hv := find?_some he
  simp only [decide_eq_true_eq] at hv
  subst hv
  exact get_of_mem (mem_reverse.mp (mem_of_find?_eq_some he))

theorem exists_lastKey (h : m.get k = some v) : ∃ k', m.lastKey v = some k' := by
  have hs : (m.entries.reverse.find? fun e => e.2 = v).isSome = true :=
    find?_isSome.mpr ⟨(k, v), mem_reverse.mpr (mem_of_get h), by simp⟩
  obtain ⟨e, he⟩ := Option.isSome_iff_exists.mp hs
  exact ⟨e.1, by rw [lastKey, he, Option.map_some]⟩

end KeyMap

/-! ## Ordered maps -/

/-- A map whose scan order is that of its keys. -/
structure SortedMap (κ β : Type) [LT κ] where
  map : KeyMap κ β
  sorted : map.Sorted

namespace SortedMap

variable [LT κ]

def entries (m : SortedMap κ β) : List (κ × β) := m.map.entries

theorem ext_entries {m m' : SortedMap κ β} (h : m.entries = m'.entries) : m = m' := by
  obtain ⟨⟨es', _⟩, _⟩ := m'
  cases h
  rfl

def empty : SortedMap κ β := ⟨.empty, KeyMap.sorted_empty⟩

variable [DecidableEq κ]

def get (m : SortedMap κ β) (k : κ) : Option β := m.map.get k

theorem get_eq_some_iff {m : SortedMap κ β} : m.get k = some v ↔ (k, v) ∈ m.entries :=
  KeyMap.get_eq_some_iff

def erase (m : SortedMap κ β) (k : κ) : SortedMap κ β := ⟨m.map.erase k, m.sorted.erase k⟩

theorem get_erase (m : SortedMap κ β) (k k' : κ) :
    (m.erase k).get k' = if k' = k then none else m.get k' := by
  refine Option.ext fun w => ?_
  rw [show ((m.erase k).get k' = some w ↔ _) from KeyMap.get_erase_eq_some_iff]
  split <;> simp_all [get]

/-- The entries are determined by the lookups. -/
theorem entries_eq [Trans (α := κ) (β := κ) (γ := κ) (· < ·) (· < ·) (· < ·)]
    [Std.Irrefl (α := κ) (· < ·)] {m : SortedMap κ β} {es : List (κ × β)}
    (hes : es.Pairwise fun a b => a.1 < b.1) (h : ∀ k v, (k, v) ∈ es ↔ m.get k = some v) :
    m.entries = es := by
  have hirrefl : ∀ a : κ, ¬ a < a := fun a => Std.Irrefl.irrefl a
  have : Std.Irrefl fun a b : κ × β => a.1 < b.1 := ⟨fun a => hirrefl a.1⟩
  have : Std.Antisymm fun a b : κ × β =>
    a.1 < b.1 := ⟨fun a b hab hba => absurd (Trans.trans hab hba) (hirrefl a.1)⟩
  refine List.Pairwise.eq_of_mem_iff m.sorted hes fun e => ?_
  rw [show (e ∈ es ↔ _) from h e.1 e.2, get_eq_some_iff]

theorem mem_entries_erase {m : SortedMap κ β} {e : κ × β} (h : e ∈ (m.erase k).entries) :
    e ∈ m.entries :=
  mem_of_mem_filter h

theorem length_entries_erase_le (m : SortedMap κ β) (k : κ) :
    (m.erase k).entries.length ≤ m.entries.length :=
  length_filter_le _ _

variable [DecidableLT κ] [Trans (α := κ) (β := κ) (γ := κ) (· < ·) (· < ·) (· < ·)]
  [Std.Trichotomous (α := κ) (· < ·)]

def put (m : SortedMap κ β) (k : κ) (v : β) : SortedMap κ β := ⟨m.map.put k v, m.sorted.put k v⟩

theorem get_put_eq_some_iff {m : SortedMap κ β} {w : β} :
    (m.put k v).get k' = some w ↔ (k' = k ∧ w = v) ∨ (k' ≠ k ∧ m.get k' = some w) :=
  KeyMap.get_put_eq_some_iff

theorem get_put (m : SortedMap κ β) (k : κ) (v : β) (k' : κ) :
    (m.put k v).get k' = if k' = k then some v else m.get k' := by
  refine Option.ext fun w => ?_
  rw [get_put_eq_some_iff]
  split <;> simp_all [eq_comm]

theorem mem_entries_put {m : SortedMap κ β} {e : κ × β} (h : e ∈ (m.put k v).entries) :
    e = (k, v) ∨ e ∈ m.entries := by
  rcases get_put_eq_some_iff.mp (get_eq_some_iff.mpr (show (e.1, e.2) ∈ _ from h)) with ⟨hk, hv⟩ |
    ⟨-, hget⟩
  · exact .inl (Prod.ext hk hv)
  · exact .inr (get_eq_some_iff.mp hget)

theorem length_entries_put_le (m : SortedMap κ β) (k : κ) (v : β) :
    (m.put k v).entries.length ≤ m.entries.length + 1 := by
  show (m.map.put k v).entries.length ≤ m.map.entries.length + 1
  unfold KeyMap.put
  split
  · exact le_of_eq (insertEntry_perm k v m.map.entries).length_eq
  · rw [length_map]
    exact Nat.le_succ _

/-- A key behind all others is put at the end. -/
theorem entries_put_of_forall_lt [Std.Irrefl (α := κ) (· < ·)] {m : SortedMap κ β} (v : β)
    (h : ∀ e ∈ m.entries, e.1 < k) : (m.put k v).entries = m.entries ++ [(k, v)] := by
  have hirrefl : ∀ a : κ, ¬ a < a := fun a => Std.Irrefl.irrefl a
  have hnone : m.map.get k = none := by
    refine KeyMap.get_eq_none_iff.mpr fun hk => ?_
    obtain ⟨e, he, rfl⟩ := mem_map.mp hk
    exact hirrefl _ (h e he)
  have hins : ∀ es : List (κ × β), (∀ e ∈ es, e.1 < k) → insertEntry k v es = es ++ [(k, v)] := by
    intro es hes
    induction es with
    | nil => rfl
    | cons e es ih =>
      rw [insertEntry, if_neg fun hlt => hirrefl k (Trans.trans hlt (hes e (.head _))),
        ih fun e' he' => hes e' (.tail _ he'), cons_append]
  show (m.map.put k v).entries = _
  rw [KeyMap.put, dif_pos hnone]
  exact hins _ h

end SortedMap

end Sfs.Lib

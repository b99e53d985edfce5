import Mathlib.Data.List.Lex
import Sfs.Lib.Bytes

/-!
# Radix trees over byte strings

A leaf holds one whole key; a node holds the value of the key that ends at it and a subtree for
each next byte. `put` splits a leaf that another key meets, `remove` prunes what becomes empty and
replaces a node with a single leaf below it by that leaf. `get_put` and `get_remove` say what the
operations do to the map, `scan_eq` what a scan returns.

The part of a key that is below a subtree is passed along with the key. `Wf n path t` says that
`t` can stand at `path` and that its keys have at most `n` bytes.
-/

namespace Sfs.Lib

open List Function

variable {path k key rest : Bytes} {b c : UInt8}

inductive Radix (β : Type) where
  | empty
  | leaf (key : Bytes) (val : β)
  | node (term : Option β) (kids : UInt8 → Radix β)

open Radix

/-- All bytes in order. -/
def allBytes : List UInt8 := (range 256).map UInt8.ofNat

theorem mem_allBytes (b : UInt8) : b ∈ allBytes :=
  mem_map.mpr ⟨b.toNat, mem_range.mpr b.toNat_lt, UInt8.ofNat_toNat⟩

theorem sorted_allBytes : allBytes.Pairwise (· < ·) := by
  refine pairwise_map.mpr (pairwise_lt_range.imp_of_mem ?_)
  intro i j hi hj hlt
  rw [mem_range] at hi hj
  rw [UInt8.lt_iff_toNat_lt, UInt8.toNat_ofNat', UInt8.toNat_ofNat']
  omega

theorem nodup_allBytes : allBytes.Nodup := sorted_allBytes.imp fun h => UInt8.ne_of_lt h

namespace Radix

variable {β : Type}

variable {t : Radix β} {kids : UInt8 → Radix β} {term : Option β}

def isEmpty : Radix β → Bool
  | .empty => true
  | _ => false

theorem eq_empty_of_isEmpty (h : t.isEmpty = true) : t = .empty := by
  cases t with
  | empty => rfl
  | leaf key val => cases h
  | node term kids => cases h

/-- One subtree. -/
def single (b : UInt8) (t : Radix β) : UInt8 → Radix β := update (fun _ => .empty) b t

/-! ## Operations -/

def get (key : Bytes) : Radix β → Bytes → Option β
  | .empty, _ => none
  | .leaf k v, _ => if k = key then some v else none
  | .node term _, [] => term
  | .node _ kids, b :: rest => (kids b).get key rest

/-- Two keys that leave each other: at a byte, or because one of them ends. -/
def branch (k : Bytes) (v : β) (key : Bytes) (val : β) : Bytes → Bytes → Radix β
  | o :: os, n :: ns =>
    if o = n then .node none (single o (branch k v key val os ns))
    else .node none (update (single o (.leaf k v)) n (.leaf key val))
  | [], n :: _ => .node (some v) (single n (.leaf key val))
  | o :: _, [] => .node (some val) (single o (.leaf k v))
  | [], [] => .leaf key val

def put (key : Bytes) (val : β) : Radix β → Nat → Bytes → Radix β
  | .empty, _, _ => .leaf key val
  | .leaf k v, depth, rest => if k = key then .leaf key val else branch k v key val (k.drop depth) rest
  | .node _ kids, _, [] => .node (some val) kids
  | .node term kids, depth, b :: rest =>
    .node term (update kids b ((kids b).put key val (depth + 1) rest))

/-- The bytes with a subtree. -/
def occupied (kids : UInt8 → Radix β) : List UInt8 := allBytes.filter fun b => !(kids b).isEmpty

/-- A node after something below it was removed. -/
def rebuild (term : Option β) (kids : UInt8 → Radix β) : Radix β :=
  match term, occupied kids with
  | none, [] => .empty
  | none, [b] => (match kids b with
    | .leaf k v => .leaf k v
    | _ => .node none kids)
  | term, _ => .node term kids

/-- The node with the subtree `t` at `b` that a removal has left. -/
def replace (term : Option β) (kids : UInt8 → Radix β) (b : UInt8) (t : Radix β) : Radix β :=
  if t.isEmpty then rebuild term (update kids b .empty) else .node term (update kids b t)

/-- No result if there is nothing to remove. -/
def remove (key : Bytes) : Radix β → Bytes → Option (Radix β)
  | .empty, _ => none
  | .leaf k _, _ => if k = key then some .empty else none
  | .node term kids, [] => if term.isSome then some (rebuild none kids) else none
  | .node term kids, b :: rest => ((kids b).remove key rest).map (replace term kids b)

def entries : Radix β → Bytes → List (Bytes × β)
  | .empty, _ => []
  | .leaf k v, _ => [(k, v)]
  | .node term kids, path =>
    term.toList.map (fun v => (path, v)) ++ allBytes.flatMap fun b => (kids b).entries (path ++ [b])

/-- A scan goes down along the rest of the prefix and then everywhere. -/
def scan (pfx : Bytes) : Radix β → Bytes → Bytes → List (Bytes × β)
  | .empty, _, _ => []
  | .leaf k v, _, _ => if pfx <+: k then [(k, v)] else []
  | .node _ kids, path, b :: rest => (kids b).scan pfx (path ++ [b]) rest
  | .node term kids, path, [] =>
    term.toList.map (fun v => (path, v)) ++ allBytes.flatMap fun b =>
      (kids b).scan pfx (path ++ [b]) []

/-- The number of leaves and nodes that a scan comes to. -/
def visits : Radix β → Bytes → Nat
  | .empty, _ => 0
  | .leaf _ _, _ => 1
  | .node _ kids, b :: rest => 1 + (kids b).visits rest
  | .node _ kids, [] => 1 + (allBytes.map fun b => (kids b).visits []).sum

/-- `t` can stand at `path`. -/
def Wf (n : Nat) : Radix β → Bytes → Prop
  | .empty, _ => True
  | .leaf k _, path => path <+: k ∧ k.length ≤ n
  | .node _ kids, path => path.length ≤ n ∧ ∀ b, (kids b).Wf n (path ++ [b])

/-! ## Well-formed trees -/

variable {n : Nat}

theorem wf_update (h : ∀ c, (kids c).Wf n (path ++ [c]))
    (ht : t.Wf n (path ++ [b])) (c : UInt8) : (update kids b t c).Wf n (path ++ [c]) := by
  by_cases hc : c = b
  · subst hc
    rwa [update_self]
  · rw [update_of_ne hc]
    exact h c

theorem wf_single (ht : t.Wf n (path ++ [b])) (c : UInt8) :
    (single b t c).Wf n (path ++ [c]) :=
      @wf_update path b β t (fun _ => .empty) n (fun _ => trivial) ht c

theorem Wf.branch (v val : β) : ∀ {os ns path : Bytes}, k = path ++ os → key = path ++ ns →
    k.length ≤ n → key.length ≤ n → (branch k v key val os ns).Wf n path
  | [], [], path, _, hkey, _, hlen => by
    rw [Radix.branch]
    exact ⟨⟨[], hkey.symm⟩, hlen⟩
  | [], c :: ns, path, hk, hkey, hklen, hlen => by
    have hpath := congrArg length hk
    rw [append_nil] at hpath
    refine ⟨by omega, wf_single ⟨⟨ns, ?_⟩, hlen⟩⟩
    rw [append_assoc]
    exact hkey.symm
  | o :: os, [], path, hk, hkey, hklen, hlen => by
    have hpath := congrArg length hkey
    rw [append_nil] at hpath
    refine ⟨by omega, wf_single ⟨⟨os, ?_⟩, hklen⟩⟩
    rw [append_assoc]
    exact hk.symm
  | o :: os, c :: ns, path, hk, hkey, hklen, hlen => by
    have hpath := congrArg length hk
    rw [length_append] at hpath
    have hk' : k = (path ++ [o]) ++ os := by rw [append_assoc]; exact hk
    have hkey' : key = (path ++ [c]) ++ ns := by rw [append_assoc]; exact hkey
    rw [Radix.branch]
    split
    · rename_i heq
      subst heq
      exact ⟨by omega, wf_single (Wf.branch v val hk' hkey' hklen hlen)⟩
    · exact ⟨by omega, wf_update (wf_single ⟨⟨os, hk'.symm⟩, hklen⟩) ⟨⟨ns, hkey'.symm⟩, hlen⟩⟩

theorem Wf.put (h : t.Wf n path) (hkey : key = path ++ rest) (hlen : key.length ≤ n) (val : β) :
    (t.put key val path.length rest).Wf n path := by
  induction t generalizing path rest with
  | empty => exact ⟨⟨rest, hkey.symm⟩, hlen⟩
  | leaf k v =>
    rw [put]
    split
    · exact ⟨⟨rest, hkey.symm⟩, hlen⟩
    · obtain ⟨os, hos⟩ := h.1
      refine Wf.branch v val ?_ hkey h.2 hlen
      rw [← hos, drop_left]
  | node term kids ih =>
    cases rest with
    | nil => exact h
    | cons b rest =>
      have hkey' : key = (path ++ [b]) ++ rest := by rw [append_assoc]; exact hkey
      have hsub := ih b (h.2 b) hkey'
      rw [length_append] at hsub
      exact ⟨h.1, wf_update h.2 hsub⟩

/-! ## Looking up -/

theorem get_single (key : Bytes) (b : UInt8) (t : Radix β) (c : UInt8) (rest : Bytes) :
    (single b t c).get key rest = if c = b then t.get key rest else none := by
  unfold single
  split
  · rename_i heq
    rw [heq, update_self]
  · rename_i hne
    rw [update_of_ne hne]
    rfl

theorem get_branch (v val : β) (hne : k ≠ key) {key' : Bytes} : ∀ {os ns path rest' : Bytes},
    k = path ++ os → key = path ++ ns → key' = path ++ rest' →
    (branch k v key val os ns).get key' rest' =
      if key' = key then some val else if key' = k then some v else none
  | [], [], path, _, hk, hkey, _ => absurd (hk.trans hkey.symm) hne
  | [], c :: ns, path, rest', hk, hkey, hkey' => by
    rw [branch]
    subst hk hkey hkey'
    cases rest' with
    | nil => simp [Radix.get]
    | cons b rest' =>
      rw [Radix.get, get_single, Radix.get]
      simp only [append_cancel_left_eq, List.cons.injEq, reduceCtorEq]
      grind
  | o :: os, [], path, rest', hk, hkey, hkey' => by
    rw [branch]
    subst hk hkey hkey'
    cases rest' with
    | nil => simp [Radix.get]
    | cons b rest' =>
      rw [Radix.get, get_single, Radix.get]
      simp only [append_cancel_left_eq, List.cons.injEq, reduceCtorEq]
      grind
  | o :: os, c :: ns, path, rest', hk, hkey, hkey' => by
    have hk₁ : k = (path ++ [o]) ++ os := by rw [append_assoc]; exact hk
    have hkey₁ : key = (path ++ [c]) ++ ns := by rw [append_assoc]; exact hkey
    rw [branch]
    split
    · rename_i heq
      subst heq
      cases rest' with
      | nil =>
        subst hk hkey hkey'
        simp [Radix.get]
      | cons b rest' =>
        rw [Radix.get, get_single]
        split
        · rename_i hb
          subst hb
          exact get_branch v val hne hk₁ hkey₁ (by rw [append_assoc]; exact hkey')
        · subst hk hkey hkey'
          simp only [append_cancel_left_eq, List.cons.injEq]
          grind
    · rename_i hoc
      subst hk hkey hkey'
      cases rest' with
      | nil => simp [Radix.get]
      | cons b rest' =>
        rw [Radix.get]
        by_cases hb : b = c
        · subst hb
          rw [update_self, Radix.get]
          simp only [append_cancel_left_eq, List.cons.injEq]
          grind
        · rw [update_of_ne hb, get_single, Radix.get]
          simp only [append_cancel_left_eq, List.cons.injEq]
          grind

/-- Keys that differ in the byte behind `path`. -/
theorem ne_of_branch (hk : path ++ [b] <+: k)
    (hkey : key = path ++ c :: rest) (hne : c ≠ b) : k ≠ key := by
  rintro rfl
  obtain ⟨os, hos⟩ := hk
  rw [append_assoc, hkey] at hos
  have := append_cancel_left hos
  simp only [singleton_append, List.cons.injEq] at this
  exact hne this.1.symm

theorem get_put (h : t.Wf n path) (hkey : key = path ++ rest) (val : β) {key' rest' : Bytes}
    (hkey' : key' = path ++ rest') :
    (t.put key val path.length rest).get key' rest' =
      if key' = key then some val else t.get key' rest' := by
  induction t generalizing path rest rest' with
  | empty =>
    rw [put, Radix.get]
    grind [Radix.get]
  | leaf k v =>
    rw [put]
    split
    · rename_i heq
      rw [Radix.get, Radix.get]
      grind
    · rename_i hne
      obtain ⟨os, hos⟩ := h.1
      rw [← hos, drop_left, hos, get_branch v val hne hos.symm hkey hkey', Radix.get]
      grind
  | node term kids ih =>
    cases rest with
    | nil =>
      rw [put]
      cases rest' with
      | nil =>
        rw [Radix.get, Radix.get, if_pos (hkey'.trans hkey.symm)]
      | cons b rest' =>
        rw [Radix.get, Radix.get, if_neg]
        rintro rfl
        simp [hkey] at hkey'
    | cons b rest =>
      rw [put]
      cases rest' with
      | nil =>
        rw [Radix.get, Radix.get, if_neg]
        rintro rfl
        simp [hkey'] at hkey
      | cons c rest' =>
        rw [Radix.get, Radix.get]
        by_cases hc : c = b
        · subst hc
          have hsub := ih c (h.2 c) (show key = (path ++ [c]) ++ rest by rw [append_assoc]; exact hkey)
            (show key' = (path ++ [c]) ++ rest' by rw [append_assoc]; exact hkey')
          rw [length_append] at hsub
          rw [update_self]
          exact hsub
        · rw [update_of_ne hc, if_neg]
          rintro rfl
          rw [hkey] at hkey'
          simp only [append_cancel_left_eq, List.cons.injEq] at hkey'
          exact hc hkey'.1.symm

/-! ## Removing -/

theorem occupied_eq_nil (h : occupied kids = []) (b : UInt8) : kids b = .empty := by
  refine eq_empty_of_isEmpty ?_
  have := filter_eq_nil_iff.mp h b (mem_allBytes b)
  simpa using this

theorem occupied_eq_singleton (h : occupied kids = [b]) (hc : c ≠ b) :
    kids c = .empty := by
  refine eq_empty_of_isEmpty ?_
  by_contra hne
  have hmem : c ∈ occupied kids := mem_filter.mpr ⟨mem_allBytes c, by simpa using hne⟩
  rw [h, mem_singleton] at hmem
  exact hc hmem

/-- What is made of a node after a removal. -/
inductive Rebuilt (term : Option β) (kids : UInt8 → Radix β) : Radix β → Prop
  | pruned (hterm : term = none) (hkids : ∀ b, kids b = .empty) : Rebuilt term kids .empty
  | collapsed {b : UInt8} {k : Bytes} {v : β} (hterm : term = none) (hleaf : kids b = .leaf k v)
      (hkids : ∀ c, c ≠ b → kids c = .empty) : Rebuilt term kids (.leaf k v)
  | kept : Rebuilt term kids (.node term kids)

theorem rebuilt_rebuild (term : Option β) (kids : UInt8 → Radix β) :
    Rebuilt term kids (rebuild term kids) := by
  cases term with
  | some v => exact .kept
  | none =>
    unfold rebuild
    cases hocc : occupied kids with
    | nil =>
      exact .pruned rfl (occupied_eq_nil hocc)
    | cons b more =>
      cases more with
      | cons c more => exact .kept
      | nil =>
        dsimp only
        split
        · rename_i k v hleaf
          exact .collapsed rfl hleaf fun c hc => occupied_eq_singleton hocc hc
        · exact .kept

theorem Rebuilt.wf (h : Rebuilt term kids t)
    (hwf : (node term kids).Wf n path) : t.Wf n path := by
  cases h with
  | pruned => trivial
  | @collapsed b k v _ hleaf _ =>
    have hb := hwf.2 b
    rw [hleaf] at hb
    exact ⟨(prefix_append path [b]).trans hb.1, hb.2⟩
  | kept => exact hwf

theorem Rebuilt.get (h : Rebuilt term kids t) (hwf : (node term kids).Wf n path)
    (hkey : key = path ++ rest) : t.get key rest = (node term kids).get key rest := by
  cases h with
  | pruned hterm hkids =>
    cases rest with
    | nil => exact hterm.symm
    | cons c rest =>
      rw [Radix.get, Radix.get, hkids]
      rfl
  | @collapsed b k v hterm hleaf hkids =>
    have hb := hwf.2 b
    rw [hleaf] at hb
    cases rest with
    | nil =>
      rw [Radix.get, Radix.get, hterm, if_neg]
      rintro rfl
      have := hb.1.length_le
      rw [hkey, length_append, length_append, length_singleton, length_nil] at this
      omega
    | cons c rest =>
      by_cases hc : c = b
      · subst hc
        rw [Radix.get, Radix.get, hleaf, Radix.get]
      · have hne := ne_of_branch hb.1 hkey hc
        rw [Radix.get, Radix.get, hkids c hc, Radix.get, if_neg hne]
  | kept => rfl

/-- What is made of a node when the subtree at `b` has become `t`. -/
theorem replace_spec (hwf : (node term kids).Wf n path) (ht : t.Wf n (path ++ [b])) :
    (replace term kids b t).Wf n path ∧ ∀ {key rest : Bytes}, key = path ++ rest →
      (replace term kids b t).get key rest = (node term (update kids b t)).get key rest := by
  have hupd : (node term (update kids b t)).Wf n path := ⟨hwf.1, wf_update hwf.2 ht⟩
  unfold replace
  split
  · rename_i hempty
    obtain rfl := eq_empty_of_isEmpty hempty
    have hreb := rebuilt_rebuild term (update kids b .empty)
    exact ⟨hreb.wf hupd, fun hkey => hreb.get hupd hkey⟩
  · exact ⟨hupd, fun _ => rfl⟩

theorem remove_eq_none_iff : t.remove key rest = none ↔ t.get key rest = none := by
  induction t generalizing rest with
  | empty => simp [remove, Radix.get]
  | leaf k v => simp [remove, Radix.get]
  | node term kids ih =>
    cases rest with
    | nil => simp [remove, Radix.get]
    | cons b rest =>
      rw [remove, Radix.get, Option.map_eq_none_iff]
      exact ih b

theorem remove_spec {t' : Radix β} (hwf : t.Wf n path) (hkey : key = path ++ rest)
    (h : t.remove key rest = some t') :
    t'.Wf n path ∧ ∀ {key' rest' : Bytes}, key' = path ++ rest' →
      t'.get key' rest' = if key' = key then none else t.get key' rest' := by
  induction t generalizing path rest t' with
  | empty => cases h
  | leaf k v =>
    rw [remove, Option.ite_none_right_eq_some] at h
    obtain ⟨rfl, h⟩ := h
    cases h
    refine ⟨trivial, fun {key' rest'} _ => ?_⟩
    rw [Radix.get, Radix.get]
    grind
  | node term kids ih =>
    cases rest with
    | nil =>
      rw [remove, Option.ite_none_right_eq_some] at h
      obtain ⟨-, h⟩ := h
      cases h
      have hwf' : (node none kids).Wf n path := hwf
      have hreb := rebuilt_rebuild none kids
      refine ⟨hreb.wf hwf', fun {key' rest'} hkey' => ?_⟩
      rw [hreb.get hwf' hkey']
      cases rest' with
      | nil =>
        rw [if_pos (hkey'.trans hkey.symm)]
        rfl
      | cons c rest' =>
        rw [if_neg, Radix.get, Radix.get]
        rintro rfl
        simp [hkey] at hkey'
    | cons b rest =>
      rw [remove, Option.map_eq_some_iff] at h
      obtain ⟨sub, hsub, rfl⟩ := h
      obtain ⟨hsubwf, hsubget⟩ := ih b (hwf.2 b) (by rw [append_assoc]; exact hkey) hsub
      obtain ⟨hrwf, hrget⟩ := replace_spec hwf hsubwf
      refine ⟨hrwf, fun {key' rest'} hkey' => ?_⟩
      rw [hrget hkey']
      cases rest' with
      | nil =>
        rw [Radix.get, Radix.get, if_neg]
        rintro rfl
        simp [hkey'] at hkey
      | cons c rest' =>
        rw [Radix.get, Radix.get]
        by_cases hc : c = b
        · subst hc
          rw [update_self]
          exact hsubget (by rw [append_assoc]; exact hkey')
        · rw [update_of_ne hc, if_neg]
          rintro rfl
          rw [hkey] at hkey'
          simp only [append_cancel_left_eq, List.cons.injEq] at hkey'
          exact hc hkey'.1.symm

/-! ## Scanning -/

theorem prefix_of_mem_entries (hwf : t.Wf n path) {e : Bytes × β} (he : e ∈ t.entries path) :
    path <+: e.1 := by
  induction t generalizing path with
  | empty => cases he
  | leaf k v =>
    cases mem_singleton.mp he
    exact hwf.1
  | node term kids ih =>
    rcases mem_append.mp he with he | he
    · obtain ⟨v, -, rfl⟩ := mem_map.mp he
      exact prefix_refl path
    · obtain ⟨b, -, he⟩ := mem_flatMap.mp he
      exact (prefix_append path [b]).trans (ih b (hwf.2 b) he)

theorem mem_entries_iff (hwf : t.Wf n path) (hkey : key = path ++ rest) {v : β} :
    (key, v) ∈ t.entries path ↔ t.get key rest = some v := by
  induction t generalizing path rest with
  | empty => simp [entries, Radix.get]
  | leaf k w =>
    simp only [entries, Radix.get, mem_singleton, Prod.mk.injEq]
    grind
  | node term kids ih =>
    rw [entries, mem_append, mem_map, mem_flatMap]
    cases rest with
    | nil =>
      rw [append_nil] at hkey
      subst hkey
      have hno : ¬ ∃ b ∈ allBytes, (key, v) ∈ (kids b).entries (key ++ [b]) := by
        rintro ⟨b, -, he⟩
        have hle : (key ++ [b]).length ≤ key.length := (prefix_of_mem_entries (hwf.2 b) he).length_le
        rw [length_append, length_singleton] at hle
        omega
      rw [or_iff_left hno, Radix.get]
      simp
    | cons b rest =>
      have hno : ¬ ∃ a ∈ term.toList, (path, a) = (key, v) := by
        rintro ⟨a, -, he⟩
        have hlen : path.length = key.length := congrArg (fun e => e.1.length) he
        rw [hkey, length_append, length_cons] at hlen
        omega
      rw [or_iff_right hno, Radix.get]
      have hkey' : key = (path ++ [b]) ++ rest := by rw [append_assoc]; exact hkey
      constructor
      · rintro ⟨c, -, he⟩
        by_cases hc : b = c
        · subst hc
          exact (ih b (hwf.2 b) hkey').mp he
        · exact absurd rfl (ne_of_branch (prefix_of_mem_entries (hwf.2 c) he) hkey hc)
      · intro hget
        exact ⟨b, mem_allBytes b, (ih b (hwf.2 b) hkey').mpr hget⟩

theorem lt_of_prefixes {x y : Bytes} (hlt : b < c) (hx : path ++ [b] <+: x) (hy : path ++ [c] <+: y) :
    x < y := by
  obtain ⟨xs, rfl⟩ := hx
  obtain ⟨ys, rfl⟩ := hy
  rw [append_assoc, append_assoc]
  exact append_left_lt (cons_lt_cons_iff.mpr (.inl hlt))

theorem sorted_entries (hwf : t.Wf n path) : (t.entries path).Pairwise fun a b => a.1 < b.1 := by
  induction t generalizing path with
  | empty => exact .nil
  | leaf k v => exact pairwise_singleton _ _
  | node term kids ih =>
    refine pairwise_append.mpr ⟨?_, pairwise_flatMap.mpr ⟨fun b _ => ih b (hwf.2 b), ?_⟩, ?_⟩
    · cases term with
      | none => exact .nil
      | some v => exact pairwise_singleton _ _
    · refine sorted_allBytes.imp fun {b c} hlt x hx y hy => ?_
      exact lt_of_prefixes hlt (prefix_of_mem_entries (hwf.2 b) hx)
        (prefix_of_mem_entries (hwf.2 c) hy)
    intro x hx y hy
    obtain ⟨v, -, rfl⟩ := mem_map.mp hx
    obtain ⟨b, -, hy⟩ := mem_flatMap.mp hy
    obtain ⟨ys, hys⟩ := prefix_of_mem_entries (hwf.2 b) hy
    rw [← hys, append_assoc]
    show path < path ++ (b :: ys)
    nth_rewrite 1 [← append_nil path]
    exact append_left_lt (nil_lt_cons b ys)

theorem flatMap_eq_of_only {α γ : Type} {l : List α} (hnodup : l.Nodup) {a : α} (ha : a ∈ l)
    {f : α → List γ} (h : ∀ c, c ≠ a → f c = []) : l.flatMap f = f a := by
  induction l with
  | nil => cases ha
  | cons x l ih =>
    rw [flatMap_cons]
    by_cases hx : x = a
    · subst hx
      have hnil : l.flatMap f = [] := by
        refine flatMap_eq_nil_iff.mpr fun c hc => h c ?_
        rintro rfl
        exact (nodup_cons.mp hnodup).1 hc
      rw [hnil, append_nil]
    · rw [h x hx, nil_append]
      exact ih (nodup_cons.mp hnodup).2 (mem_of_ne_of_mem (Ne.symm hx) ha)

/-- Behind the prefix everything is returned. -/
theorem scan_nil {pfx : Bytes} (hwf : t.Wf n path) (hpfx : pfx <+: path) :
    t.scan pfx path [] = t.entries path := by
  induction t generalizing path with
  | empty => rfl
  | leaf k v => exact if_pos (hpfx.trans hwf.1)
  | node term kids ih =>
    rw [scan, entries]
    congr 1
    refine flatMap_congr fun b _ => ?_
    exact ih b (hwf.2 b) (hpfx.trans (prefix_append path [b]))

/-- A scan returns the entries with the prefix. -/
theorem scan_eq {pfx : Bytes} (hwf : t.Wf n path) (hpfx : pfx = path ++ rest) :
    t.scan pfx path rest = (t.entries path).filter fun e => pfx <+: e.1 := by
  induction t generalizing path rest with
  | empty => rfl
  | leaf k v =>
    rw [scan, entries, filter_cons, filter_nil]
    simp only [decide_eq_true_eq]
  | node term kids ih =>
    cases rest with
    | nil =>
      rw [append_nil] at hpfx
      subst hpfx
      rw [scan_nil hwf (prefix_refl _), filter_eq_self.mpr]
      intro e he
      exact decide_eq_true (prefix_of_mem_entries hwf he)
    | cons b rest =>
      have hpfx' : pfx = (path ++ [b]) ++ rest := by rw [append_assoc]; exact hpfx
      have hterm : (term.toList.map fun v => (path, v)).filter (fun e => pfx <+: e.1) = [] := by
        refine filter_eq_nil_iff.mpr fun e he => ?_
        obtain ⟨v, -, rfl⟩ := mem_map.mp he
        rw [decide_eq_true_eq]
        intro hpre
        have hle : pfx.length ≤ path.length := hpre.length_le
        rw [hpfx, length_append, length_cons] at hle
        omega
      have hothers : ∀ c, c ≠ b → ((kids c).entries (path ++ [c])).filter (fun e => pfx <+: e.1) =
          [] := by
        intro c hc
        refine filter_eq_nil_iff.mpr fun e he => ?_
        rw [decide_eq_true_eq]
        intro hpre
        have hb : path ++ [b] <+: e.1 := List.IsPrefix.trans ⟨rest, hpfx'.symm⟩ hpre
        have heq := prefix_of_prefix_length_le hb (prefix_of_mem_entries (hwf.2 c) he) (by simp)
        have := append_cancel_left (heq.eq_of_length (by simp))
        exact hc (singleton_inj.mp this).symm
      rw [scan, entries, filter_append, ih b (hwf.2 b) hpfx', hterm, nil_append, filter_flatMap,
        flatMap_eq_of_only nodup_allBytes (mem_allBytes b) hothers]

end Radix

end Sfs.Lib

import Sfs.Catalog.Removal
import Sfs.Lib.KeyMap

/-!
# The trie is a map

`Holds m root s` relates a root on disk to a sorted map. Lookups and scans return what the map holds
(`get_holds`, `scanPrefix_holds`), updates lead to the updated map, and so does every sequence of them
(`trie_refines_map`).
-/

namespace Sfs.Catalog

open Sfs.Lib Sfs.Container List Trie Radix

variable {term : Option Bytes} {slots : UInt8 → Nat} {t : Radix Bytes}

abbrev Entries := SortedMap Bytes Bytes

section

variable {crc : Bytes → UInt32} {crypto : NodeCrypto}

/-! ## Looking up -/

section

variable {d : Disk} {key rest : Bytes} {addr : Nat}

theorem getAt_leaf {k v : Bytes} (hread : Node.read crc crypto d addr = .ok (.leaf k v)) :
    getAt crc crypto d key rest addr = .ok (if k = key then some v else none) := by
  unfold getAt
  rw [hread]
  rfl

theorem getAt_nil (hread : Node.read crc crypto d addr = .ok (.internal term slots)) :
    getAt crc crypto d key [] addr = .ok term := by
  unfold getAt
  rw [hread]
  rfl

theorem getAt_cons (hread : Node.read crc crypto d addr = .ok (.internal term slots)) (b : UInt8) :
    getAt crc crypto d key (b :: rest) addr =
      if slots b = 0 then .ok none else getAt crc crypto d key rest (slots b) := by
  conv => lhs; unfold getAt
  rw [hread]
  rfl

theorem getAt_eq (hlaw : crypto.Lawful) {F : List Nat} (hne : t.isEmpty = false)
    (h : Denotes (NodeAt crc crypto d) t addr F) :
    getAt crc crypto d key rest addr = .ok (t.get key rest) := by
  induction t generalizing rest addr F with
  | empty => cases hne
  | leaf k v =>
    obtain ⟨-, hat, -⟩ := h
    exact getAt_leaf (hat.read hlaw)
  | node term kids ih =>
    obtain ⟨-, slots, Fs, hat, hkids, -⟩ := h
    cases rest with
    | nil => exact getAt_nil (hat.read hlaw)
    | cons b rest =>
      rw [getAt_cons (hat.read hlaw), Radix.get]
      have hzero := (hkids b).zero_iff
      split
      · rename_i h0
        rw [eq_empty_of_isEmpty (hzero.mp h0)]
        rfl
      · rename_i h0
        exact ih b (by rwa [← Bool.not_eq_true, ← hzero]) (hkids b)

end

/-! ## Scanning -/

theorem scanLoop_pop (d : Disk) (pfx : Bytes) (left : Nat) (stack : List Work) (path : Bytes)
    (b : UInt8) (out : List (Bytes × Bytes)) :
    scanLoop crc crypto d pfx left (.pop :: stack) (path ++ [b]) out =
      scanLoop crc crypto d pfx left stack path out := by
  have hnext : nextEnter (.pop :: stack) (path ++ [b]) = nextEnter stack path := by
    rw [nextEnter, dropLast_concat]
  unfold scanLoop
  rw [hnext]

/-- `n` nodes are paid from what is left of the budget. -/
def paying {α : Type} (left n : Nat) (f : Nat → Result α) : Result α :=
  if n ≤ left then f (left - n) else .error budgetExceeded

theorem paying_zero {α : Type} (left : Nat) (f : Nat → Result α) : paying left 0 f = f left :=
  if_pos (Nat.zero_le _)

theorem paying_add {α : Type} (left n k : Nat) (f : Nat → Result α) :
    paying left n (fun left => paying left k f) = paying left (n + k) f := by
  unfold paying
  dsimp only
  by_cases h : n + k ≤ left
  · rw [if_pos h, if_pos (by omega), if_pos (by omega), Nat.sub_sub]
  · split
    · exact if_neg (by omega)
    · rfl

theorem paying_succ {α : Type} (left n : Nat) (f : Nat → Result α) :
    paying (left + 1) (1 + n) f = paying left n f := by
  unfold paying
  rw [add_comm 1 n, Nat.add_sub_add_right]
  simp only [Nat.add_le_add_iff_right]

section

variable {d : Disk} {pfx path keySoFar : Bytes} {byte : Option UInt8} {addr : Nat}

theorem scanLoop_pops (left : Nat) (stack : List Work) (hpath : path = keySoFar ++ byte.toList)
    (out : List (Bytes × Bytes)) :
    scanLoop crc crypto d pfx left (byte.toList.map (fun _ => Work.pop) ++ stack) path out =
      scanLoop crc crypto d pfx left stack keySoFar out := by
  cases byte with
  | none =>
    rw [hpath, Option.toList_none, append_nil]
    rfl
  | some b =>
    subst hpath
    exact scanLoop_pop d pfx left stack keySoFar b out

theorem scanLoop_leaf (left : Nat) (stack : List Work) (hpath : path = keySoFar ++ byte.toList)
    (hdepth : path.length ≤ TRIE_MAX_DEPTH) (out : List (Bytes × Bytes)) {k v : Bytes}
    (hread : Node.read crc crypto d addr = .ok (.leaf k v)) :
    scanLoop crc crypto d pfx (left + 1) (.enter addr path.length byte :: stack) keySoFar out =
      scanLoop crc crypto d pfx left stack keySoFar (if pfx <+: k then out ++ [(k, v)] else out) := by
  conv => lhs; unfold scanLoop
  dsimp only [nextEnter]
  rw [if_neg (not_lt.mpr hdepth), hread]
  subst hpath
  exact scanLoop_pops left stack rfl _

theorem scanLoop_node (left : Nat) (stack : List Work) (hpath : path = keySoFar ++ byte.toList)
    (hdepth : path.length ≤ TRIE_MAX_DEPTH) (out : List (Bytes × Bytes))
    (hread : Node.read crc crypto d addr = .ok (.internal term slots)) :
    scanLoop crc crypto d pfx (left + 1) (.enter addr path.length byte :: stack) keySoFar out =
      scanLoop crc crypto d pfx left
        ((kidsAt pfx path.length slots).map
          (fun kid => Work.enter kid.2 (path.length + 1) (some kid.1)) ++
          (byte.toList.map (fun _ => Work.pop) ++ stack)) path
        (if pfx.length ≤ path.length then out ++ term.toList.map (fun v => (path, v)) else out) := by
  conv => lhs; unfold scanLoop
  dsimp only [nextEnter]
  rw [if_neg (not_lt.mpr hdepth), hread, hpath]
  rfl

/-- A tree that is to be scanned is paid for and its entries are added. -/
def Scans (crc : Bytes → UInt32) (crypto : NodeCrypto) (d : Disk) (pfx : Bytes) (t : Radix Bytes)
    (path : Bytes) (addr : Nat) : Prop :=
  ∀ (left : Nat) (stack : List Work) (keySoFar : Bytes) (byte : Option UInt8)
    (out : List (Bytes × Bytes)), path = keySoFar ++ byte.toList →
    scanLoop crc crypto d pfx left (.enter addr path.length byte :: stack) keySoFar out =
      paying left (t.visits (pfx.drop path.length)) fun left =>
        scanLoop crc crypto d pfx left stack keySoFar (out ++ t.scan pfx path (pfx.drop path.length))

theorem scanLoop_kids {kids : UInt8 → Radix Bytes} (bs : List UInt8)
    (h : ∀ b ∈ bs, Scans crc crypto d pfx (kids b) (path ++ [b]) (slots b)) (left : Nat)
    (stack : List Work) (out : List (Bytes × Bytes)) :
    scanLoop crc crypto d pfx left
      (bs.map (fun b => Work.enter (slots b) (path.length + 1) (some b)) ++ stack) path out =
      paying left (bs.map fun b => (kids b).visits (pfx.drop (path.length + 1))).sum fun left =>
        scanLoop crc crypto d pfx left stack path
          (out ++ bs.flatMap fun b => (kids b).scan pfx (path ++ [b])
            (pfx.drop (path.length + 1))) := by
  induction bs generalizing left out with
  | nil =>
    rw [map_nil, map_nil, sum_nil, paying_zero, flatMap_nil, append_nil, nil_append]
  | cons b bs ih =>
    have hb := h b (.head _) left (bs.map
      (fun b => Work.enter (slots b) (path.length + 1) (some b)) ++ stack) path (some b) out rfl
    rw [length_append, length_singleton] at hb
    rw [map_cons, map_cons, cons_append, hb, sum_cons, ← paying_add]
    congr 1
    funext left
    rw [ih (fun c hc => h c (.tail _ hc)), flatMap_cons, append_assoc]

/-- Subtrees that are empty cost nothing and have no entries. -/
theorem sum_occupied (kids : UInt8 → Radix Bytes) :
    ((occupied kids).map fun b => (kids b).visits []).sum =
      (allBytes.map fun b => (kids b).visits []).sum := by
  unfold occupied
  induction allBytes with
  | nil => rfl
  | cons b bs ih =>
    rw [filter_cons]
    split
    · rw [map_cons, map_cons, sum_cons, sum_cons, ih]
    · rename_i hempty
      have hb : kids b = .empty := eq_empty_of_isEmpty (by simpa using hempty)
      rw [map_cons, sum_cons, ih, hb, visits, zero_add]

theorem flatMap_occupied (kids : UInt8 → Radix Bytes) (pfx path : Bytes) :
    ((occupied kids).flatMap fun b => (kids b).scan pfx (path ++ [b]) []) =
      allBytes.flatMap fun b => (kids b).scan pfx (path ++ [b]) [] := by
  unfold occupied
  induction allBytes with
  | nil => rfl
  | cons b bs ih =>
    rw [filter_cons]
    split
    · rw [flatMap_cons, flatMap_cons, ih]
    · rename_i hempty
      have hb : kids b = .empty := eq_empty_of_isEmpty (by simpa using hempty)
      rw [flatMap_cons, ih, hb, scan, nil_append]

theorem scanLoop_broke (stack : List Work) (depth n : Nat) (out : List (Bytes × Bytes))
    (f : Nat → Result (List (Bytes × Bytes))) :
    scanLoop crc crypto d pfx 0 (.enter addr depth byte :: stack) keySoFar out =
      paying 0 (1 + n) f := by
  unfold scanLoop paying
  rw [if_neg (by omega)]
  rfl

theorem depth_le {n : Nat} (h : n ≤ MAX_KEY_LEN) : n ≤ TRIE_MAX_DEPTH := h.trans (Nat.le_add_right _ _)

theorem scans (hlaw : crypto.Lawful) {F : List Nat} (hne : t.isEmpty = false)
    (hwf : t.Wf MAX_KEY_LEN path) (h : Denotes (NodeAt crc crypto d) t addr F) :
    Scans crc crypto d pfx t path addr := by
  induction t generalizing path addr F with
  | empty => cases hne
  | leaf k v =>
    obtain ⟨-, hat, -⟩ := h
    rintro (_ | left) stack keySoFar byte out hpath
    · exact scanLoop_broke stack _ 0 out _
    have hdepth := depth_le (hwf.1.length_le.trans hwf.2)
    rw [scanLoop_leaf left stack hpath hdepth out (hat.read hlaw)]
    refine Eq.trans ?_ (paying_succ left 0 _).symm
    rw [paying_zero, scan]
    split
    · rfl
    · rw [append_nil]
  | node term kids ih =>
    obtain ⟨-, slots, Fs, hat, hkids, -⟩ := h
    have hkid : ∀ b, slots b ≠ 0 → Scans crc crypto d pfx (kids b) (path ++ [b]) (slots b) :=
      fun b hb => ih b (by rwa [← Bool.not_eq_true, ← (hkids b).zero_iff]) (hwf.2 b) (hkids b)
    intro left stack keySoFar byte out hpath
    have hread := hat.read hlaw
    cases hrest : pfx.drop path.length with
    | nil =>
      -- behind the prefix every subtree is entered
      have hlen : pfx.length ≤ path.length := drop_eq_nil_iff.mp hrest
      have hkidsAt : kidsAt pfx path.length slots = (usedSlots slots).map fun b =>
        (b, slots b) := if_neg (not_lt.mpr hlen)
      have hrest' : pfx.drop (path.length + 1) = [] := drop_eq_nil_iff.mpr (by omega)
      rw [visits, scan]
      rcases left with _ | left
      · exact scanLoop_broke stack _ _ out _
      rw [scanLoop_node left stack hpath (depth_le hwf.1) out hread, if_pos hlen, hkidsAt, map_map,
        paying_succ]
      have hloop := scanLoop_kids (usedSlots slots)
        (fun b hb => hkid b (by simpa using (mem_filter.mp hb).2)) left
        (byte.toList.map (fun _ => Work.pop) ++ stack) (out ++ term.toList.map fun v => (path, v))
      rw [hrest', usedSlots_eq hkids, sum_occupied, flatMap_occupied] at hloop
      rw [usedSlots_eq hkids]
      refine hloop.trans (congrArg _ (funext fun left => ?_))
      rw [scanLoop_pops left stack hpath, append_assoc]
    | cons b rest =>
      have hlen := congrArg length hrest
      rw [length_drop, length_cons] at hlen
      have hget : pfx.getD path.length 0 = b := by
        rw [getD_eq_getElem?_getD, ← head?_drop, hrest]
        rfl
      have hrest' : pfx.drop (path.length + 1) = rest := by
        rw [← drop_drop, hrest, drop_one, tail_cons]
      rw [visits, scan]
      rcases left with _ | left
      · exact scanLoop_broke stack _ _ out _
      rw [scanLoop_node left stack hpath (depth_le hwf.1) out hread, if_neg (by omega), paying_succ]
      unfold kidsAt
      rw [if_pos (by omega), hget]
      dsimp only
      split
      · rename_i hb
        have hloop := scanLoop_kids [b] (fun c hc => hkid c (mem_singleton.mp hc ▸ hb)) left
          (byte.toList.map (fun _ => Work.pop) ++ stack) out
        rw [hrest', map_singleton, map_singleton, sum_singleton, flatMap_singleton] at hloop
        refine hloop.trans (congrArg _ (funext fun left => ?_))
        exact scanLoop_pops left stack hpath _
      · rename_i hb
        have hempty := eq_empty_of_isEmpty ((hkids b).zero_iff.mp (not_not.mp hb))
        rw [hempty, visits, scan, paying_zero, append_nil]
        exact scanLoop_pops left stack hpath _

end

/-! ## The map -/

/-- The root is a tree with the entries of `m`. -/
structure HoldsTree (crc : Bytes → UInt32) (crypto : NodeCrypto) (m : Entries) (d : Disk)
    (root : Nat) (t : Radix Bytes) (F : List Nat) : Prop where
  nonempty : t.isEmpty = false
  wf : t.Wf MAX_KEY_LEN []
  denotes : Denotes (NodeAt crc crypto d) t root F
  get : ∀ key, m.get key = t.get key key

variable {m : Entries} {d : Disk} {root : Nat} {t : Radix Bytes} {F : List Nat}

theorem HoldsTree.get_eq (h : HoldsTree crc crypto m d root t F) (hlaw : crypto.Lawful) (key : Bytes) :
    Trie.get crc crypto d root key = .ok (m.get key) := by
  rw [Trie.get, getAt_eq hlaw h.nonempty h.denotes, h.get]

theorem HoldsTree.entries_eq (h : HoldsTree crc crypto m d root t F) : m.entries = t.entries [] :=
  SortedMap.entries_eq (sorted_entries h.wf) fun key v => by
    rw [mem_entries_iff h.wf (nil_append key).symm, h.get]

theorem scanPrefix_tree (hlaw : crypto.Lawful) (hne : t.isEmpty = false) (hwf : t.Wf MAX_KEY_LEN [])
    (hd : Denotes (NodeAt crc crypto d) t root F) (pfx : Bytes) : scanPrefix crc crypto d root pfx =
      if t.visits pfx ≤ TRIE_NODE_BUDGET then .ok (t.scan pfx [] pfx) else .error budgetExceeded := by
  have hscans : Scans crc crypto d pfx t [] root := scans hlaw hne hwf hd
  have hscan := hscans TRIE_NODE_BUDGET [] [] none [] rfl
  rw [nil_append, length_nil, drop_zero] at hscan
  rw [scanPrefix]
  refine hscan.trans ?_
  unfold paying scanLoop
  rfl

theorem HoldsTree.scanPrefix_eq (h : HoldsTree crc crypto m d root t F) (hlaw : crypto.Lawful)
    (pfx : Bytes) :
    scanPrefix crc crypto d root pfx =
      if t.visits pfx ≤ TRIE_NODE_BUDGET then .ok (m.entries.filter fun e => pfx <+: e.1)
        else .error budgetExceeded := by
  rw [scanPrefix_tree hlaw h.nonempty h.wf h.denotes, h.entries_eq,
    ← scan_eq h.wf (nil_append pfx).symm]

end

/-! ## Updates -/

inductive TrieOp where
  | put (key val : Bytes)
  | remove (key : Bytes)
  | beginScope
  | endScope

namespace TrieOp

/-- The operation on the map. -/
def apply : TrieOp → Entries → Entries
  | .put key val, m => m.put key val
  | .remove key, m => m.erase key
  | .beginScope, m | .endScope, m => m

/-- Keys and values have a largest length. -/
def Within : TrieOp → Prop
  | .put key val => key.length ≤ MAX_KEY_LEN ∧ val.length ≤ MAX_VAL_LEN
  | .remove _ | .beginScope | .endScope => True

instance (op : TrieOp) : Decidable op.Within := by cases op <;> unfold Within <;> infer_instance

variable (crc : Bytes → UInt32) (crypto : NodeCrypto) (io : Io)

/-- The operation on the root that is in use. -/
def run (root : Nat) : TrieOp → NodeM Nat
  | .put key val => Trie.put crc crypto io root key val
  | .remove key => do return (← Trie.remove crc crypto io root key).1
  | .beginScope => do
    modify fun s => { s with alloc := s.alloc.beginReclaimScope }
    return root
  | .endScope => do
    modify fun s => { s with alloc := s.alloc.endReclaimScope }
    return root

/-- A trie is created and worked on. -/
def runAll (ops : List TrieOp) : NodeM Nat := do
  ops.foldlM (run crc crypto io) (← Trie.create crc crypto io)

end TrieOp

section

variable (crc : Bytes → UInt32) {crypto : NodeCrypto} (io : Io)
variable {G : List Held} {parked : List BlockLoc} {fixed : Bool} {s : NodeStore} {m : Entries}
  {root : Nat}

/-- The root holds `m`, and its nodes are kept apart from `G`. -/
def Holds (crypto : NodeCrypto) (G : List Held) (parked : List BlockLoc) (fixed : Bool)
    (m : Entries) (root : Nat) (s : NodeStore) : Prop :=
  ∃ t F, HoldsTree crc crypto m s.disk root t F ∧ Nodes G parked fixed F s

theorem Updated.holds {S held kept : List Nat} {s' : NodeStore}
    (h : Updated crc crypto G parked fixed s S held kept t root s') (hne : t.isEmpty = false)
    (hwf : t.Wf MAX_KEY_LEN []) (hget : ∀ key, m.get key = t.get key key) :
    Holds crc crypto G parked fixed m root s' := by
  obtain ⟨N, F, hd, hsub, hm⟩ := h
  refine ⟨t, F, ⟨hne, hwf, hd, hget⟩, hm.nodes.sub (hsub.trans ?_)⟩
  rw [← append_assoc]
  exact (sublist_append_left _ _).subperm

theorem Nodes.scope {X : List Nat} (h : Nodes G parked fixed X s) (floor : Option Nat) :
    Nodes G parked fixed X { s with alloc := { s.alloc with reclaimFloor := floor } } := by
  refine ⟨⟨h.owns.len, ?_, h.owns.forward, h.owns.deferred⟩, h.small, h.device⟩
  exact h.owns.inv.congr rfl rfl rfl rfl (fun r => by cases r <;> rfl) rfl rfl

theorem isEmpty_put (key val : Bytes) (depth : Nat) (rest : Bytes) :
    (t.put key val depth rest).isEmpty = false := by
  cases t with
  | empty => rfl
  | leaf k v =>
    rw [Radix.put]
    split
    · rfl
    cases k.drop depth with
    | nil => cases rest <;> rfl
    | cons o os =>
      cases rest with
      | nil => rfl
      | cons n ns =>
        rw [branch]
        split <;> rfl
  | node term kids => cases rest <;> rfl

theorem isEmpty_orRoot (t : Radix Bytes) : (orRoot t).isEmpty = false := by
  unfold orRoot
  split
  · rfl
  · rename_i h
    exact Bool.not_eq_true _ ▸ h

/-- An empty root is as good as none. -/
theorem orRoot_spec (h : t.Wf MAX_KEY_LEN []) :
    (orRoot t).Wf MAX_KEY_LEN [] ∧ ∀ key, (orRoot t).get key key = t.get key key := by
  unfold orRoot
  split
  · rename_i hempty
    rw [eq_empty_of_isEmpty hempty]
    refine ⟨⟨Nat.zero_le _, fun _ => trivial⟩, fun key => ?_⟩
    cases key <;> rfl
  · exact ⟨h, fun _ => rfl⟩

theorem put_holds (hlaw : crypto.Lawful) (h : Holds crc crypto G parked fixed m root s)
    {key val : Bytes} (hkey : key.length ≤ MAX_KEY_LEN) (hval : val.length ≤ MAX_VAL_LEN) :
    Ends (IoError io fixed) (Trie.put crc crypto io root key val) s
      (Holds crc crypto G parked fixed (m.put key val)) fun _ => True := by
  obtain ⟨t, F, ht, hF⟩ := h
  obtain ⟨P, S, -, -, hends⟩ := put_ends crc io hlaw hkey hval ht.nonempty ht.wf ht.denotes hF
  refine hends.mono (fun root' s' hu => ?_) fun _ _ => trivial
  have hpath : key = [] ++ key := rfl
  refine Updated.holds crc hu (isEmpty_put _ _ _ _) (ht.wf.put hpath hkey val) fun key' => ?_
  rw [SortedMap.get_put, ht.get key']
  exact (get_put ht.wf hpath val rfl).symm

theorem remove_holds (hlaw : crypto.Lawful) (h : Holds crc crypto G parked fixed m root s)
    (key : Bytes) :
    Ends (IoError io fixed) (Trie.remove crc crypto io root key) s
      (fun r s' => r.2 = (m.get key).isSome ∧ Holds crc crypto G parked fixed (m.erase key) r.1 s')
        fun _ => True := by
  obtain ⟨t, F, ht, hF⟩ := h
  obtain ⟨P, S, -, -, hends⟩ := remove_ends crc io hlaw key ht.nonempty ht.denotes hF
  refine hends.mono ?_ fun _ _ => trivial
  rintro ⟨root', found⟩ s' (⟨hnone, hr, hm⟩ | ⟨t', hsome, hfound, hu⟩)
  · cases hr
    have hget : m.get key = none := by rw [ht.get, ← remove_eq_none_iff, hnone]
    refine ⟨by rw [hget]; rfl, t, F,
      ⟨ht.nonempty, ht.wf, ht.denotes.moved hm fun _ ha => ha, fun key' => ?_⟩, hm.nodes⟩
    rw [SortedMap.get_erase, ← ht.get]
    split
    · rename_i heq
      rw [heq, hget]
    · rfl
  · have hspec := remove_spec ht.wf (show key = [] ++ key from rfl) hsome
    obtain ⟨hwf, hget⟩ := orRoot_spec hspec.1
    refine ⟨?_, Updated.holds crc hu (isEmpty_orRoot t') hwf fun key' => ?_⟩
    · have hne : t.get key key ≠ none := by
        rw [ne_eq, ← remove_eq_none_iff, hsome]
        exact Option.some_ne_none t'
      rw [hfound, ht.get, Option.isSome_iff_ne_none.mpr hne]
    · rw [hget, SortedMap.get_erase, ht.get key']
      exact (hspec.2 rfl).symm

theorem run_holds (hlaw : crypto.Lawful) (op : TrieOp) (hop : op.Within)
    (h : Holds crc crypto G parked fixed m root s) :
    Ends (IoError io fixed) (op.run crc crypto io root) s
      (Holds crc crypto G parked fixed (op.apply m)) fun _ => True := by
  cases op with
  | put key val => exact put_holds crc io hlaw h hop.1 hop.2
  | remove key => exact (remove_holds crc io hlaw h key).bind fun r s' hr => Ends.pure hr.2
  | beginScope =>
    obtain ⟨t, F, ht, hF⟩ := h
    exact Ends.bind (Ends.modify ⟨t, F, ht, hF.scope _⟩) fun _ _ hs => Ends.pure hs
  | endScope =>
    obtain ⟨t, F, ht, hF⟩ := h
    exact Ends.bind (Ends.modify ⟨t, F, ht, hF.scope _⟩) fun _ _ hs => Ends.pure hs

theorem runs_holds (hlaw : crypto.Lawful) (ops : List TrieOp) (hops : ∀ op ∈ ops, op.Within)
    (h : Holds crc crypto G parked fixed m root s) :
    Ends (IoError io fixed) (ops.foldlM (TrieOp.run crc crypto io) root) s
      (Holds crc crypto G parked fixed (ops.foldl (fun m op => op.apply m) m))
      fun _ => True := by
  induction ops generalizing m root s with
  | nil => exact Ends.pure h
  | cons op ops ih =>
    exact (run_holds crc io hlaw op (hops op (.head _)) h).bind fun root' s' h' =>
      ih (fun op hop => hops op (.tail _ hop)) h'

/-- Every sequence of updates within the limits ends, unless the storage fails, at a root with which
lookups and scans return what the map holds, a scan in ascending order as long as it visits no more
nodes than its budget. -/
theorem trie_refines_map (hlaw : crypto.Lawful) (ops : List TrieOp) (hops : ∀ op ∈ ops, op.Within)
    (hs : Owns G parked fixed s) :
    Ends (IoError io fixed) (TrieOp.runAll crc crypto io ops) s
      (fun root s' =>
        (∀ key, Trie.get crc crypto s'.disk root key =
          .ok ((ops.foldl (fun m op => op.apply m) SortedMap.empty).get key)) ∧
        ∃ t F, Denotes (NodeAt crc crypto s'.disk) t root F ∧ ∀ pfx,
          scanPrefix crc crypto s'.disk root pfx =
          if t.visits pfx ≤ TRIE_NODE_BUDGET then
            .ok ((ops.foldl (fun m op => op.apply m) SortedMap.empty).entries.filter fun e =>
              pfx <+: e.1)
          else .error budgetExceeded)
      fun _ => True := by
  have hnil : Nodes G parked fixed [] s := hs
  have hcreate : Ends (IoError io fixed) (Trie.create crc crypto io) s
      (Holds crc crypto G parked fixed .empty) fun _ => True := by
    refine (create_ends crc io hnil).mono ?_ fun _ _ => trivial
    rintro root s' ⟨hm, hd⟩
    refine ⟨orRoot .empty, [root], ⟨rfl, ⟨Nat.zero_le _, fun _ => trivial⟩, hd, fun key => ?_⟩,
      hm.nodes⟩
    cases key <;> rfl
  refine (hcreate.bind fun root s₁ h₁ => runs_holds crc io hlaw ops hops h₁).mono ?_ fun _ _ => trivial
  rintro root s' ⟨t, F, ht, -⟩
  exact ⟨ht.get_eq hlaw, t, F, ht.denotes, ht.scanPrefix_eq hlaw⟩

end

/-- Sixteen zeros as the tag. -/
def plainCrypto : NodeCrypto where
  gcm := true
  sealWithNonce _ _ plain := plain ++ replicate 16 0
  openWithNonce _ _ ct := some (ct.take (ct.length - 16))

theorem plainCrypto_lawful : plainCrypto.Lawful where
  length_seal _ _ plain := by
    show (plain ++ replicate 16 0).length = _
    rw [length_append, length_replicate]
  open_seal _ _ plain := by
    show some ((plain ++ replicate 16 0).take ((plain ++ replicate 16 0).length - 16)) = some plain
    rw [length_append, length_replicate, Nat.add_sub_cancel, take_left]

/-- A file of four blocks without content. -/
def blankStore : NodeStore where
  disk := ⟨4 * baseBlock, fun _ => 0⟩
  alloc := .new (4 * baseBlock) false
  calls := 0

theorem blankStore_owns : Owns [] [] false blankStore :=
  ⟨⟨rfl, .new (Dvd.intro_left _ rfl) (by decide) _, fun _ h => (nomatch h), rfl⟩, by decide, rfl⟩

def quietIo : Io := ⟨fun _ => none, fun _ => Vector.replicate 12 0⟩

/-- A key that is extended, the empty key and a key that is removed, in a scope. -/
def demoOps : List TrieOp :=
  [.beginScope, .put [97] [1], .put [97, 98] [2], .put [] [3], .remove [97], .endScope]

theorem trie_refines_map_demo :
    plainCrypto.Lawful ∧ (∀ op ∈ demoOps, op.Within) ∧ Owns [] [] false blankStore ∧
      Ends (IoError quietIo false) (TrieOp.runAll crc32 plainCrypto quietIo demoOps) blankStore
        (fun root s' =>
          (∀ key, Trie.get crc32 plainCrypto s'.disk root key =
            .ok ((demoOps.foldl (fun m op => op.apply m) SortedMap.empty).get key)) ∧
          ∃ t F, Denotes (NodeAt crc32 plainCrypto s'.disk) t root F ∧ ∀ pfx,
            scanPrefix crc32 plainCrypto s'.disk root pfx =
            if t.visits pfx ≤ TRIE_NODE_BUDGET then
              .ok ((demoOps.foldl (fun m op => op.apply m) SortedMap.empty).entries.filter fun e =>
                pfx <+: e.1)
            else .error budgetExceeded)
        fun _ => True :=
  ⟨plainCrypto_lawful, by decide, blankStore_owns,
    trie_refines_map crc32 quietIo plainCrypto_lawful demoOps (by decide) blankStore_owns⟩

end Sfs.Catalog

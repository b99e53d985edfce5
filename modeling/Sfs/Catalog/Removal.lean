import Sfs.Catalog.Update

/-!
# Removals on disk

A removal walks the path of its key, reports that the key is absent, or rebuilds the path from the
bottom: a node that has become empty is pruned,
  a node without a value over a single leaf is replaced by a copy of
the leaf. `removeAt_ends` says which tree it leaves; the copied leaf stays where it is,
  though nothing leads to it.
-/

namespace Sfs.Catalog

open Sfs.Lib Sfs.Container List Ends Radix NodeM

variable {kids : UInt8 → Radix Bytes} {slots : UInt8 → Nat} {Fs : UInt8 → List Nat} {addr : Nat}
  {term : Option Bytes}
  {S held F : List Nat} {res : Option (Radix Bytes)} {t : Radix Bytes}

/-- The result that stands for the tree at `addr`. -/
def RemoveResult.ofAddr (addr : Nat) : RemoveResult := if addr = 0 then .pruned else .replaced addr

theorem usedSlots_eq {stands : Nat → Node → Prop}
    (h : ∀ b, Denotes stands (kids b) (slots b) (Fs b)) : usedSlots slots = occupied kids := by
  refine filter_congr fun b _ => ?_
  have := (h b).zero_iff
  cases hempty : (kids b).isEmpty with
  | true => exact decide_eq_false fun hne => hne (this.mpr hempty)
  | false => exact decide_eq_true fun h0 => Bool.false_ne_true (hempty.symm.trans (this.mp h0))

section

variable (crc : Bytes → UInt32) {crypto : NodeCrypto} (io : Io)
variable {G : List Held} {parked : List BlockLoc} {fixed : Bool} {s s' : NodeStore} {X : List Nat}

theorem ofAddr_of_ne (h : addr ≠ 0) : RemoveResult.ofAddr addr = .replaced addr := if_neg h

theorem keep_ends (hterm : ∀ v ∈ term, v.length ≤ MAX_VAL_LEN)
    (hkids : ∀ c, Denotes (NodeAt crc crypto s.disk) (kids c) (slots c) (Fs c))
    (hFs : (allBytes.flatMap Fs).Subperm S) (h : Nodes G parked fixed (S ++ held) s) :
    Ends (IoError io fixed)
      (do return RemoveResult.replaced (← allocNode crc crypto io (.internal term slots))) s
      (fun r s' => ∃ addr', r = .ofAddr addr' ∧
        Updated crc crypto G parked fixed s S held held (.node term kids) addr' s')
      (fun s' => Moved G parked fixed s s' (S ++ held) (S ++ held)) := by
  refine (alloc_internal crc crypto io h hterm hkids fun b a ha => ?_).bind fun addr s₁ h₁ => ?_
  · exact mem_append_left _ (hFs.subset (mem_flatMap.mpr ⟨b, mem_allBytes b, ha⟩))
  · refine pure ⟨addr, (ofAddr_of_ne (h₁.1.nodes.lt (.head _)).1).symm, [addr], _, h₁.2, ?_, h₁.1⟩
    exact (subperm_cons addr).mpr hFs

/-- The node that is left after a removal below it. -/
theorem rebuild_ends (hlaw : crypto.Lawful) (hterm : ∀ v ∈ term, v.length ≤ MAX_VAL_LEN)
    (hkids : ∀ c, Denotes (NodeAt crc crypto s.disk) (kids c) (slots c) (Fs c))
    (hFs : (allBytes.flatMap Fs).Subperm S) (h : Nodes G parked fixed (S ++ held) s) :
    Ends (IoError io fixed) (Trie.rebuildAfterRemove crc crypto io term slots) s
      (fun r s' => ∃ addr', r = .ofAddr addr' ∧
        Updated crc crypto G parked fixed s S held held (rebuild term kids) addr' s')
      (fun s' => Moved G parked fixed s s' (S ++ held) (S ++ held)) := by
  have hkeep := keep_ends crc io hterm hkids hFs h
  unfold Trie.rebuildAfterRemove rebuild
  rw [usedSlots_eq hkids]
  cases term with
  | some v =>
    rw [if_neg (fun h => Bool.false_ne_true h.1)]
    exact hkeep
  | none =>
    cases hocc : occupied kids with
    | nil =>
      rw [if_pos ⟨rfl, rfl⟩]
      exact pure ⟨0, rfl, [], [], ⟨rfl, rfl⟩, nil_subperm, .refl h _⟩
    | cons b more =>
      rw [if_neg (fun h => (nomatch h.2))]
      cases more with
      | cons c more => exact hkeep
      | nil =>
        dsimp only
        have hb := hkids b
        -- the only child is read
        cases hkid : kids b with
        | empty =>
          have hmem : b ∈ occupied kids := hocc ▸ mem_singleton_self b
          rw [occupied, mem_filter, hkid] at hmem
          exact absurd hmem.2 Bool.false_ne_true
        | leaf k v =>
          rw [hkid] at hb
          obtain ⟨-, hat, -⟩ := hb
          refine (read_nodes crc crypto io hlaw h hat _).bind ?_
          rintro _ s₁ ⟨rfl, rfl, hm₁⟩
          dsimp only
          refine ((alloc_leaf crc crypto io hm₁.nodes hat.1.1 hat.1.2).failing fun s₂ hm₂ =>
            hm₁.next hm₂).bind fun addr s₂ h₂ => ?_
          refine pure ⟨addr, (ofAddr_of_ne (h₂.1.nodes.lt (.head _)).1).symm, [addr], [addr], h₂.2,
            ?_, hm₁.next h₂.1⟩
          exact (sublist_append_left [addr] S).subperm
        | node term kids' =>
          rw [hkid] at hb
          obtain ⟨-, _, _, hat, -, -⟩ := hb
          refine (read_nodes crc crypto io hlaw h hat _).bind ?_
          rintro _ s₁ ⟨rfl, rfl, hm₁⟩
          dsimp only
          refine (keep_ends crc io (s := { s with calls := s.calls + 1 }) hterm hkids hFs
              hm₁.nodes).mono ?_ fun s₂ hm₂ =>
            hm₁.next hm₂
          rintro r s₂ ⟨addr, hr, N, F', hd, hsub, hm₂⟩
          exact ⟨addr, hr, N, F', hd, hsub, hm₁.next hm₂⟩

/-- What a removal leaves: nothing has changed, or the tree is updated. -/
def Removed (crypto : NodeCrypto) (G : List Held) (parked : List BlockLoc) (fixed : Bool)
    (s : NodeStore) (F S held kept : List Nat) (res : Option (Radix Bytes)) (r : RemoveResult)
    (s' : NodeStore) : Prop :=
  (res = none ∧ r = .absent ∧ Moved G parked fixed s s' F F) ∨
    ∃ t' addr', res = some t' ∧ r = .ofAddr addr' ∧
      Updated crc crypto G parked fixed s S held kept t' addr' s'

theorem removed_calls (n : Nat) {kept : List Nat} :
    Removed crc crypto G parked fixed { s with calls := n } F S held kept res =
      Removed crc crypto G parked fixed s F S held kept res := by
  funext r s'
  simp only [Removed, updated_calls, moved_calls]

/-- The superseded node is given back at the end. -/
theorem supersede_removes {C : Error → Prop} (t' : Radix Bytes) {m : NodeM RemoveResult}
    {P : List Nat} {s₁ : NodeStore} {E : NodeStore → Prop} (hres : res = some t')
    (hm : Ends C m s₁ (fun r s' => ∃ addr',
      r = .ofAddr addr' ∧ Updated crc crypto G parked fixed s S (addr ::
      spared s.alloc.reclaimFloor P) (addr :: spared s.alloc.reclaimFloor P) t' addr' s') E) :
    Ends C (Trie.superseding addr m) s₁
      (Removed crc crypto G parked fixed s F S (spared s.alloc.reclaimFloor (addr :: P))
        (addr :: spared s.alloc.reclaimFloor P) res) E := by
  refine hm.bind ?_
  rintro r s₂ ⟨addr', hr, h₂⟩
  exact (freed_ends crc crypto h₂).bind fun _ s₃ h₃ => pure (.inr ⟨t', addr', hres, hr, h₃⟩)

/-- A node after the removal below its child at `b`. -/
theorem afterChild_ends (hlaw : crypto.Lawful) {b : UInt8} {P : List Nat} {r : RemoveResult}
    {s₁ : NodeStore} (hterm : ∀ v ∈ term, v.length ≤ MAX_VAL_LEN)
    (hkids : ∀ c, Denotes (NodeAt crc crypto s.disk) (kids c) (slots c) (Fs c))
    (h : Removed crc crypto ((addr :: others Fs b).map nodeHeld ++ G) parked fixed s (Fs b) S
      (spared s.alloc.reclaimFloor (slots b :: P))
      (slots b :: spared s.alloc.reclaimFloor P) res r s₁) :
    Ends (IoError io fixed) (Trie.afterChild crc crypto io term slots b addr r) s₁
      (Removed crc crypto G parked fixed s (addr :: allBytes.flatMap Fs) (S ++ others Fs b)
        (spared s.alloc.reclaimFloor (addr :: slots b :: P))
        (addr :: spared s.alloc.reclaimFloor (slots b :: P)) (res.map (Radix.replace term kids b)))
      (fun s' => Moved G parked fixed s s'
        ((S ++ others Fs b) ++ addr :: spared s.alloc.reclaimFloor (slots b :: P))
        ((S ++ others Fs b) ++ addr :: spared s.alloc.reclaimFloor (slots b :: P))) := by
  have hspared := (spared_cons_sublist s.alloc.reclaimFloor (slots b) P).subperm
  rcases h with ⟨rfl, rfl, hm₁⟩ | ⟨t', addr', rfl, rfl, h₁⟩
  · have hperm : (addr :: allBytes.flatMap Fs).Perm (Fs b ++ addr :: others Fs b) :=
      ((perm_others Fs b).cons addr).trans perm_middle.symm
    exact pure (.inl ⟨rfl, rfl, (moved_frame.mp hm₁).sub hperm.subperm fun a ha =>
      hperm.mem_iff.mp ha⟩)
  by_cases h0 : addr' = 0
  · -- the child is pruned
    subst h0
    obtain ⟨N, F', hd, -, hm₁⟩ := h₁
    obtain ⟨rfl, rfl⟩ := hd.empty_of_zero
    have hm₁ := moved_frame.mp hm₁
    have hold : ∀ c, c ≠ b → Denotes (NodeAt crc crypto s₁.disk) (kids c) (slots c) (Fs c) :=
      fun c hc => (hkids c).moved hm₁ fun a ha => mem_append_right _ (.tail _ (mem_others hc ha))
    have hkids' := denotes_update hold hd
    have hFs : (allBytes.flatMap (Function.update Fs b [])).Subperm (S ++ others Fs b) :=
      (perm_update Fs b []).subperm.trans (sublist_append_right S _).subperm
    have hnodes : Nodes G parked fixed ((S ++ others Fs b) ++ addr :: spared s.alloc.reclaimFloor
        (slots b :: P)) s₁ := hm₁.nodes.sub (by
      rw [append_assoc N]
      refine List.Subperm.trans (List.Perm.subperm ?_) (sublist_append_right N _).subperm
      simp only [perm_iff_count, count_append, count_cons]
      intro a
      omega)
    have hm : Moved G parked fixed s s₁
      ((S ++ others Fs b) ++ addr :: spared s.alloc.reclaimFloor (slots b :: P))
        ((S ++ others Fs b) ++ addr :: spared s.alloc.reclaimFloor (slots b :: P)) :=
      ⟨hnodes, (hm₁.sub (List.Subperm.refl _) (mem_kept hspared)).same, hm₁.len, hm₁.floor, hm₁.freed⟩
    refine supersede_removes crc (Radix.rebuild term (Function.update kids b .empty)) rfl ?_
    refine (rebuild_ends crc io hlaw hterm hkids' hFs hnodes).mono ?_ fun s₂ hm₂ => hm.next hm₂
    rintro r s₂ ⟨addr', hr, N, F', hd, hsub, hm₂⟩
    exact ⟨addr', hr, N, F', hd, hsub, hm.next hm₂⟩
  · have hne : t'.isEmpty = false := by
      obtain ⟨N, F', hd, -⟩ := h₁
      rw [← Bool.not_eq_true, ← hd.zero_iff]
      exact h0
    rw [ofAddr_of_ne h0]
    refine supersede_removes crc (.node term (Function.update kids b t')) ?_ ?_
    · rw [Option.map_some, Radix.replace, if_neg (by rw [hne]; exact Bool.false_ne_true)]
    · refine bind (renode_ends crc crypto io hterm hkids hspared h₁) fun addr₂ s₂ h₂ =>
        pure ⟨addr₂, ?_, h₂⟩
      obtain ⟨N, F', hd, -⟩ := h₂
      exact (ofAddr_of_ne hd.1).symm

theorem removeAt_ends (hlaw : crypto.Lawful) (key rest : Bytes) (hne : t.isEmpty = false)
    (hd : Denotes (NodeAt crc crypto s.disk) t addr F) (hF : Nodes G parked fixed F s) :
    ∃ P S, pathAt crc crypto s.disk rest addr = addr :: P ∧ F.Perm (addr :: P ++ S) ∧
      Ends (IoError io fixed) (Trie.removeAt crc crypto io key rest addr) s
        (Removed crc crypto G parked fixed s F S (spared s.alloc.reclaimFloor (addr :: P))
          (addr :: spared s.alloc.reclaimFloor P)
          (t.remove key rest))
        (fun s' => Moved G parked fixed s s' (S ++ addr :: spared s.alloc.reclaimFloor P)
          (S ++ addr :: spared s.alloc.reclaimFloor P)) := by
  induction t generalizing rest addr F G s with
  | empty => cases hne
  | leaf k v =>
    obtain ⟨h0, hat, rfl⟩ := hd
    refine ⟨[], [], ?_, .refl _, ?_⟩
    · unfold pathAt
      rw [hat.read hlaw]
    unfold Trie.removeAt
    refine (read_nodes crc crypto io hlaw hF hat [addr]).bind ?_
    rintro _ s₁ ⟨rfl, -, hm₁⟩
    dsimp only
    rw [remove]
    by_cases hk : k = key
    · rw [if_pos hk, if_pos hk]
      refine supersede_removes crc .empty rfl (pure ⟨0, rfl, [], [], ⟨rfl, rfl⟩, nil_subperm, hm₁⟩)
    · rw [if_neg hk, if_neg hk]
      exact pure (.inl ⟨rfl, rfl, hm₁⟩)
  | node term kids ih =>
    obtain ⟨h0, slots, Fs, hat, hkids, rfl⟩ := hd
    have hread := hat.read hlaw
    have hperm : (allBytes.flatMap Fs ++ [addr]).Perm (addr :: allBytes.flatMap Fs) :=
      perm_append_singleton _ _
    have hF' : Nodes G parked fixed (allBytes.flatMap Fs ++ [addr]) s := hF.sub hperm.subperm
    cases rest with
    | nil =>
      refine ⟨[], allBytes.flatMap Fs, ?_, .refl _, ?_⟩
      · unfold pathAt
        rw [hread]
      unfold Trie.removeAt
      refine (read_nodes crc crypto io hlaw hF' hat _).bind ?_
      rintro _ s₁ ⟨rfl, rfl, hm₁⟩
      dsimp only
      rw [remove]
      cases term with
      | none =>
        exact pure (.inl ⟨rfl, rfl, hm₁.sub hperm.symm.subperm fun a ha =>
          hperm.symm.mem_iff.mp ha⟩)
      | some v =>
        refine supersede_removes crc (rebuild none kids) rfl ?_
        refine (rebuild_ends crc io (s := { s with calls := s.calls + 1 }) hlaw noTerm_fits hkids
          (List.Subperm.refl _) hm₁.nodes).mono ?_
          fun s₂ hm₂ => hm₁.next hm₂
        rintro r s₂ ⟨addr', hr, N, F', hd, hsub, hm₂⟩
        exact ⟨addr', hr, N, F', hd, hsub, hm₁.next hm₂⟩
    | cons b rest =>
      rw [pathAt_internal crc crypto hread]
      by_cases hslot : slots b = 0
      · have hb := hkids b
        rw [hslot] at hb
        obtain ⟨hempty, -⟩ := hb.empty_of_zero
        refine ⟨[], allBytes.flatMap Fs, by rw [if_pos hslot], .refl _, ?_⟩
        unfold Trie.removeAt
        refine (read_nodes crc crypto io hlaw hF' hat _).bind ?_
        rintro _ s₁ ⟨rfl, rfl, hm₁⟩
        dsimp only
        rw [if_pos hslot, remove, hempty]
        exact pure (.inl ⟨rfl, rfl, hm₁.sub hperm.symm.subperm fun a ha => hperm.symm.mem_iff.mp ha⟩)
      · have hne' := (hkids b).isEmpty_eq_false hslot
        have hall := perm_others Fs b
        have hframe : Nodes ((addr :: others Fs b).map nodeHeld ++ G) parked fixed (Fs b)
            { s with calls := s.calls + 1 } := by
          refine nodes_frame.mpr (Nodes.sub (hF.congr rfl) (List.Perm.subperm ?_))
          exact perm_middle.trans (hall.symm.cons addr)
        obtain ⟨P, S, hpath, hpermb, hends⟩ :=
          @ih b _ _ _ { s with calls := s.calls + 1 } rest hne' (hkids b) hframe
        rw [if_neg hslot]
        refine ⟨slots b :: P, S ++ others Fs b, ?_, ?_, ?_⟩
        · rw [← hpath]
        · have hFs := (hall.trans (hpermb.append_right _)).cons addr
          simp only [cons_append, append_assoc] at hFs ⊢
          exact hFs
        unfold Trie.removeAt
        refine (read_nodes crc crypto io hlaw (hF.sub (held_subperm hall hpermb addr _)) hat _).bind ?_
        rintro _ s₁ ⟨rfl, rfl, hm₁⟩
        dsimp only
        rw [if_neg hslot, remove]
        simp only [removed_calls, moved_calls] at hends
        refine bind (hends.failing fun s₂ hm₂ => ?_) fun r s₂ h₂ => ?_
        · exact moved_child (spared_cons_sublist _ _ _).subperm hm₂
        · exact afterChild_ends crc io hlaw hat.1.1 hkids h₂

/-- The removal of a key that is not there only reads. -/
theorem removeAt_absent (hlaw : crypto.Lawful) (key rest : Bytes) (hne : t.isEmpty = false)
    (hd : Denotes (NodeAt crc crypto s.disk) t addr F) (hnone : t.remove key rest = none) :
    Ends (IoError io fixed) (Trie.removeAt crc crypto io key rest addr) s
      (fun r s' => r = .absent ∧ s'.toStore = s.toStore)
      (fun s' => s'.toStore = s.toStore) := by
  have hread : ∀ {addr : Nat} {node : Node},
    NodeAt crc crypto s.disk addr node → Ends (IoError io fixed) (readNode crc crypto io addr) s
      (fun n s' => n = node ∧ s' = { s with calls := s.calls + 1 })
        (fun s' => s'.toStore = s.toStore) := fun hat =>
    readNode_ends crc crypto io (hat.read hlaw) ⟨rfl, rfl⟩ rfl
  induction t generalizing rest addr F s with
  | empty => cases hne
  | leaf k v =>
    obtain ⟨h0, hat, -⟩ := hd
    have hk : k ≠ key := fun hk => by
      rw [remove, if_pos hk] at hnone
      cases hnone
    unfold Trie.removeAt
    refine (hread hat).bind ?_
    rintro _ s₁ ⟨rfl, rfl⟩
    dsimp only
    rw [if_neg hk]
    exact pure ⟨rfl, rfl⟩
  | node term kids ih =>
    obtain ⟨h0, slots, Fs, hat, hkids, -⟩ := hd
    unfold Trie.removeAt
    refine (hread hat).bind ?_
    rintro _ s₁ ⟨rfl, rfl⟩
    dsimp only
    cases rest with
    | nil =>
      cases term with
      | none => exact pure ⟨rfl, rfl⟩
      | some v => cases hnone
    | cons b rest =>
      rw [remove, Option.map_eq_none_iff] at hnone
      dsimp only
      split
      · exact pure ⟨rfl, rfl⟩
      rename_i hslot
      have hne' := (hkids b).isEmpty_eq_false hslot
      have hchild := @ih b _ _ { s with calls := s.calls + 1 } rest hne' (hkids b) hnone fun hat =>
        readNode_ends crc crypto io (hat.read hlaw) ⟨rfl, rfl⟩ rfl
      refine bind hchild ?_
      rintro _ s₂ ⟨rfl, hs₂⟩
      exact pure ⟨rfl, hs₂⟩

/-! ## At the root -/

/-- A root is never missing: a tree without keys has an empty node. -/
def orRoot (t : Radix Bytes) : Radix Bytes := if t.isEmpty then .node none fun _ => .empty else t

/-- The last key is removed. -/
def lastKey (t : Radix Bytes) (key : Bytes) : Bool := (t.remove key key).any Radix.isEmpty

/-- The nodes of the path that a removal leaves alone: an old root that is given back may be taken
for the empty one. -/
def leftByRemove (t : Radix Bytes) (key : Bytes) (floor : Option Nat) (root : Nat) (P : List Nat) :
    List Nat :=
  if lastKey t key then spared floor (root :: P) else root :: spared floor P

theorem create_ends (h : Nodes G parked fixed X s) :
    Ends (IoError io fixed) (Trie.create crc crypto io) s
      (fun root s' => Moved G parked fixed s s' (root :: X) X ∧
        Denotes (NodeAt crc crypto s'.disk) (orRoot .empty) root [root])
      (fun s' => Moved G parked fixed s s' X X) := by
  have hflat : allBytes.flatMap (fun _ => ([] : List Nat)) = [] :=
    flatMap_eq_nil_iff.mpr fun _ _ => rfl
  have halloc :=
    alloc_internal crc crypto io h noTerm_fits denotes_nothing (fun _ _ ha => (nomatch ha))
  rw [hflat] at halloc
  exact halloc

theorem put_ends (hlaw : crypto.Lawful) {key val : Bytes} (hkeylen : key.length ≤ MAX_KEY_LEN)
    (hval : val.length ≤ MAX_VAL_LEN) {root : Nat} (hne : t.isEmpty = false)
    (hwf : t.Wf MAX_KEY_LEN []) (hd : Denotes (NodeAt crc crypto s.disk) t root F)
    (hF : Nodes G parked fixed F s) :
    ∃ P S, pathAt crc crypto s.disk key root = root :: P ∧ F.Perm (root :: P ++ S) ∧
      Ends (IoError io fixed) (Trie.put crc crypto io root key val) s
        (Updated crc crypto G parked fixed s S (spared s.alloc.reclaimFloor (root :: P))
          (root :: spared s.alloc.reclaimFloor P)
          (t.put key val 0 key))
        (fun s' => Moved G parked fixed s s' (S ++ root :: spared s.alloc.reclaimFloor P)
          (S ++ root :: spared s.alloc.reclaimFloor P)) := by
  obtain ⟨P, S, hpath, hperm, hends⟩ := putAt_ends crc io hlaw hkeylen hval hne hwf rfl hd hF
  refine ⟨P, S, hpath, hperm, ?_⟩
  have hbounds : checkBounds key val = .ok () := by
    unfold checkBounds
    rw [if_neg (not_lt.mpr hkeylen), if_neg (not_lt.mpr hval)]
  unfold Trie.put
  rw [hbounds]
  exact bind (Q := fun _ s' => s' = s) (pure rfl) fun _ s' hs => hs ▸ hends

theorem remove_ends (hlaw : crypto.Lawful) (key : Bytes) {root : Nat} (hne : t.isEmpty = false)
    (hd : Denotes (NodeAt crc crypto s.disk) t root F) (hF : Nodes G parked fixed F s) :
    ∃ P S, pathAt crc crypto s.disk key root = root :: P ∧ F.Perm (root :: P ++ S) ∧
      Ends (IoError io fixed) (Trie.remove crc crypto io root key) s
        (fun r s' => (t.remove key key = none ∧ r = (root, false) ∧ Moved G parked fixed s s' F F) ∨
          ∃ t', t.remove key key = some t' ∧ r.2 = true ∧
            Updated crc crypto G parked fixed s S (spared s.alloc.reclaimFloor (root :: P))
              (leftByRemove t key s.alloc.reclaimFloor root P)
              (orRoot t') r.1 s')
        (fun s' => Moved G parked fixed s s' (S ++ leftByRemove t key s.alloc.reclaimFloor root P)
          (S ++ leftByRemove t key s.alloc.reclaimFloor root P)) := by
  obtain ⟨P, S, hpath, hperm, hends⟩ := removeAt_ends crc io hlaw key key hne hd hF
  refine ⟨P, S, hpath, hperm, ?_⟩
  have hsub : (leftByRemove t key s.alloc.reclaimFloor root P).Sublist
      (root :: spared s.alloc.reclaimFloor P) := by
    unfold leftByRemove
    split
    · exact spared_cons_sublist _ _ _
    · exact List.Sublist.refl _
  have hleft : ∀ a ∈ S ++ leftByRemove t key s.alloc.reclaimFloor root P,
      a ∈ S ++ root :: spared s.alloc.reclaimFloor P :=
    fun a ha => (hsub.append_left S).subset ha
  unfold Trie.remove
  refine bind (hends.failing fun s₁ hm₁ => hm₁.sub (hsub.append_left S).subperm hleft) ?_
  rintro r s₁ (⟨hnone, rfl, hm₁⟩ | ⟨t', addr', hsome, rfl, h₁⟩)
  · exact pure (.inl ⟨hnone, rfl, hm₁⟩)
  obtain ⟨N, F', hd', hsubF, hm₁⟩ := h₁
  by_cases h0 : addr' = 0
  · -- nothing is left below the root
    subst h0
    obtain ⟨rfl, rfl⟩ := hd'.empty_of_zero
    have hlast : leftByRemove t key s.alloc.reclaimFloor root P =
        spared s.alloc.reclaimFloor (root :: P) := by
      refine if_pos ?_
      rw [lastKey, hsome]
      rfl
    rw [hlast] at hleft ⊢
    have hnodes : Nodes G parked fixed (S ++ spared s.alloc.reclaimFloor (root :: P)) s₁ :=
      hm₁.nodes.sub (sublist_append_right N _).subperm
    have hcreate : Ends (IoError io fixed) (Trie.create crc crypto io) s₁ _ _ :=
      create_ends crc io hnodes
    refine bind (hcreate.failing fun s₂ hm₂ => hm₁.trans hm₂ hleft fun _ ha => ha) fun addr s₂ h₂ =>
      pure (.inr ?_)
    exact ⟨_, hsome, rfl, [addr], [addr], h₂.2, (sublist_append_left [addr] S).subperm,
      hm₁.trans h₂.1 hleft fun _ ha => ha⟩
  · have hne' := hd'.isEmpty_eq_false h0
    rw [ofAddr_of_ne h0]
    refine pure (.inr ⟨t', hsome, rfl, N, F', ?_, hsubF, hm₁.sub (List.Subperm.refl _) hleft⟩)
    rw [orRoot, hne']
    exact hd'

end

end Sfs.Catalog

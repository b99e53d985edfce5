import Sfs.Catalog.Trie

/-!
# Trees on disk

`Denotes stands t addr F` says that the nodes at and below `addr` are the tree `t` and that `F` lists
their addresses. What holds of a store is said by lists of addresses: `Nodes X` owns the nodes `X`
next to other extents, `Moved X Y` leads to a state that owns `X` and has left `Y` alone.
-/

namespace Sfs.Catalog

open Sfs.Lib Sfs.Container List Function NodeM

variable {t : Radix Bytes} {addr a : Nat} {F Z : List Nat} {Fs : UInt8 → List Nat}

/-! ## Trees -/

def Denotes (stands : Nat → Node → Prop) : Radix Bytes → Nat → List Nat → Prop
  | .empty, addr, F => addr = 0 ∧ F = []
  | .leaf k v, addr, F => addr ≠ 0 ∧ stands addr (.leaf k v) ∧ F = [addr]
  | .node term kids, addr, F => addr ≠ 0 ∧ ∃ slots Fs, stands addr (.internal term slots) ∧
      (∀ b, Denotes stands (kids b) (slots b) (Fs b)) ∧ F = addr :: allBytes.flatMap Fs

variable {stands stands' : Nat → Node → Prop}

theorem Denotes.zero_iff (h : Denotes stands t addr F) :
    addr = 0 ↔ t.isEmpty = true := by
  cases t with
  | empty => exact ⟨fun _ => rfl, fun _ => h.1⟩
  | leaf k v => exact ⟨fun h0 => absurd h0 h.1, nofun⟩
  | node term kids => exact ⟨fun h0 => absurd h0 h.1, nofun⟩

theorem denotes_nothing (c : UInt8) :
    Denotes stands ((fun _ => .empty : UInt8 → Radix Bytes) c) ((fun _ => 0 : UInt8 → Nat) c)
    ((fun _ => [] : UInt8 → List Nat) c) := ⟨rfl, rfl⟩

theorem Denotes.isEmpty_eq_false (h : Denotes stands t addr F) (hne : addr ≠ 0) : t.isEmpty = false :=
  Bool.eq_false_iff.mpr fun he => hne (h.zero_iff.mpr he)

theorem Denotes.mem_of_ne (h : Denotes stands t addr F) (hne : addr ≠ 0) :
    addr ∈ F := by
  cases t with
  | empty => exact absurd h.1 hne
  | leaf k v =>
    rw [h.2.2]
    exact .head _
  | node term kids =>
    obtain ⟨-, slots, Fs, -, -, rfl⟩ := h
    exact .head _

theorem Denotes.mono (h : Denotes stands t addr F)
    (hmono : ∀ a ∈ F, ∀ node, stands a node → stands' a node) : Denotes stands' t addr F := by
  induction t generalizing addr F with
  | empty => exact h
  | leaf k v =>
    obtain ⟨hne, hat, rfl⟩ := h
    exact ⟨hne, hmono addr (.head _) _ hat, rfl⟩
  | node term kids ih =>
    obtain ⟨hne, slots, Fs, hat, hkids, rfl⟩ := h
    refine ⟨hne, slots, Fs, hmono addr (.head _) _ hat, fun b => ih b (hkids b) fun a ha => ?_, rfl⟩
    exact hmono a (.tail _ (mem_flatMap.mpr ⟨b, mem_allBytes b, ha⟩))

/-- The children but the one at `b`. -/
def others (Fs : UInt8 → List Nat) (b : UInt8) : List Nat := (allBytes.erase b).flatMap Fs

theorem perm_others (Fs : UInt8 → List Nat) (b : UInt8) :
    (allBytes.flatMap Fs).Perm (Fs b ++ others Fs b) :=
  (perm_cons_erase (mem_allBytes b)).flatMap_right Fs

theorem others_update (Fs : UInt8 → List Nat) (b : UInt8) (X : List Nat) :
    others (update Fs b X) b = others Fs b := by
  refine flatMap_congr fun c hc => ?_
  rw [update_of_ne]
  rintro rfl
  exact nodup_allBytes.not_mem_erase hc

theorem perm_update (Fs : UInt8 → List Nat) (b : UInt8) (X : List Nat) :
    (allBytes.flatMap (update Fs b X)).Perm (X ++ others Fs b) := by
  have h := perm_others (update Fs b X) b
  rwa [others_update, update_self] at h

theorem denotes_update {kids : UInt8 → Radix Bytes} {slots : UInt8 → Nat} {b : UInt8}
    (h : ∀ c, c ≠ b → Denotes stands (kids c) (slots c) (Fs c)) (ht : Denotes stands t addr F)
    (c : UInt8) : Denotes stands (update kids b t c) (update slots b addr c) (update Fs b F c) := by
  by_cases hc : c = b
  · subst hc
    simp only [update_self]
    exact ht
  · simp only [update_of_ne hc]
    exact h c hc

theorem mem_others {b c : UInt8} (hc : c ≠ b) (ha : a ∈ Fs c) : a ∈ others Fs b :=
  mem_flatMap.mpr ⟨c, (mem_erase_of_ne hc).mpr (mem_allBytes c), ha⟩

/-! ## Owned nodes -/

section

variable (G : List Held) (parked : List BlockLoc) (fixed : Bool)

def Nodes (X : List Nat) (s : NodeStore) : Prop := Owns (X.map nodeHeld ++ G) parked fixed s

def Moved (s s' : NodeStore) (X Y : List Nat) : Prop :=
  Kept s s' (X.map nodeHeld ++ G) (Y.map nodeHeld ++ G) parked fixed

end

variable {G : List Held} {parked : List BlockLoc} {fixed : Bool} {s s₁ s₂ s' : NodeStore}
  {X Y X' Y' : List Nat}

theorem Nodes.sub (h : Nodes G parked fixed X s) (hX : X'.Subperm X) : Nodes G parked fixed X' s := by
  refine Owns.mono h ?_
  obtain ⟨l, hl, hsub⟩ := hX
  exact ⟨l.map nodeHeld ++ G, (hl.map _).append_right G, (hsub.map _).append (List.Sublist.refl G)⟩

theorem nodes_frame :
    Nodes (Z.map nodeHeld ++ G) parked fixed X s ↔ Nodes G parked fixed (X ++ Z) s := by
  unfold Nodes
  rw [map_append, append_assoc]

theorem Moved.nodes (h : Moved G parked fixed s s' X Y) : Nodes G parked fixed X s' := h.owns

theorem Moved.refl (h : Nodes G parked fixed X s) (Y : List Nat) : Moved G parked fixed s s X Y :=
  Kept.refl h _

theorem mem_nodes (h : a ∈ X) : nodeHeld a ∈ X.map nodeHeld ++ G :=
  mem_append_left _ (mem_map_of_mem h)

theorem sub_nodes (h : ∀ a ∈ Y, a ∈ X) : ∀ g ∈ Y.map nodeHeld ++ G, g ∈ X.map nodeHeld ++ G := by
  intro g hg
  rcases mem_append.mp hg with hg | hg
  · obtain ⟨a, ha, rfl⟩ := mem_map.mp hg
    exact mem_nodes (h a ha)
  · exact mem_append_right _ hg

theorem Moved.sub (h : Moved G parked fixed s s' X Y) (hX : X'.Subperm X) (hY : ∀ a ∈ Y', a ∈ Y) :
    Moved G parked fixed s s' X' Y' :=
  ⟨h.nodes.sub hX, h.same.mono (sub_nodes hY), h.len, h.floor, h.freed⟩

theorem Moved.trans (h : Moved G parked fixed s s₁ X Y) (h' : Moved G parked fixed s₁ s₂ X' Y')
    (hY : ∀ a ∈ Z, a ∈ Y) (hY' : ∀ a ∈ Z, a ∈ Y') : Moved G parked fixed s s₂ X' Z :=
  Kept.trans h h' (sub_nodes hY) (sub_nodes hY')

theorem Moved.next (h : Moved G parked fixed s s₁ X Y) (h' : Moved G parked fixed s₁ s₂ X' Y) :
    Moved G parked fixed s s₂ X' Y :=
  h.trans h' (fun _ ha => ha) fun _ ha => ha

theorem moved_calls (n : Nat) :
    Moved G parked fixed { s with calls := n } s' X Y ↔ Moved G parked fixed s s' X Y :=
  ⟨fun h => ⟨h.owns, h.same, h.len, h.floor, h.freed⟩,
    fun h => ⟨h.owns, h.same, h.len, h.floor, h.freed⟩⟩

theorem moved_frame :
    Moved (Z.map nodeHeld ++ G) parked fixed s s' X Y ↔
      Moved G parked fixed s s' (X ++ Z) (Y ++ Z) := by
  unfold Moved
  rw [map_append, map_append, append_assoc, append_assoc]

section

variable {crc : Bytes → UInt32} {crypto : NodeCrypto}

theorem Denotes.moved (h : Denotes (NodeAt crc crypto s.disk) t addr F)
    (hm : Moved G parked fixed s s' X Y) (hF : ∀ a ∈ F, a ∈ Y) :
    Denotes (NodeAt crc crypto s'.disk) t addr F := by
  refine h.mono fun a ha node hat => hat.congr hm.len fun x hlo hhi => ?_
  exact hm.same _ (mem_nodes (hF a ha)) x (mem_nodeHeld.mpr ⟨hlo, hhi⟩)

theorem Nodes.lt (h : Nodes G parked fixed X s) (ha : a ∈ X) : a ≠ 0 ∧ a < 2 ^ 64 := by
  obtain ⟨hlo, -, hlt⟩ := h.node_bounds (mem_nodes ha)
  refine ⟨?_, hlt⟩
  rintro rfl
  exact absurd hlo (by decide)

variable (crc crypto) (io : Io)

theorem NodeM.alloc_nodes (h : Nodes G parked fixed X s) (node : Node) (hfits : node.Fits) :
    Ends (IoError io fixed) (allocNode crc crypto io node) s
      (fun addr s' => Moved G parked fixed s s' (addr :: X) X ∧ NodeAt crc crypto s'.disk addr node)
      (fun s' => Moved G parked fixed s s' X X) :=
  allocNode_ends crc crypto io h hfits

theorem NodeM.read_nodes (hlaw : crypto.Lawful) (h : Nodes G parked fixed X s) {node : Node}
    (hat : NodeAt crc crypto s.disk addr node) (Y : List Nat) :
    Ends (IoError io fixed) (readNode crc crypto io addr) s
      (fun n s' => n = node ∧ s' = { s with calls := s.calls + 1 } ∧ Moved G parked fixed s s' X Y)
        (fun s' => Moved G parked fixed s s' X Y) := by
  have hm : Moved G parked fixed s { s with calls := s.calls + 1 } X Y :=
    ⟨h.congr rfl, .refl _ _, le_rfl, rfl, fun _ hx => .inl hx⟩
  exact readNode_ends crc crypto io (hat.read hlaw) ⟨rfl, rfl, hm⟩ hm

theorem NodeM.alloc_leaf (h : Nodes G parked fixed X s) {key val : Bytes}
    (hkey : key.length ≤ MAX_KEY_LEN) (hval : val.length ≤ MAX_VAL_LEN) :
    Ends (IoError io fixed) (allocNode crc crypto io (.leaf key val)) s
      (fun addr s' => Moved G parked fixed s s' (addr :: X) X ∧
        Denotes (NodeAt crc crypto s'.disk) (.leaf key val) addr [addr])
      (fun s' => Moved G parked fixed s s' X X) := by
  refine (alloc_nodes crc crypto io h (.leaf key val) ⟨hkey, hval⟩).mono ?_ fun _ h => h
  rintro addr s' ⟨hm, hat⟩
  exact ⟨hm, (hm.nodes.lt (.head _)).1, hat, rfl⟩

theorem NodeM.alloc_internal (h : Nodes G parked fixed X s) {term : Option Bytes}
    {slots : UInt8 → Nat} {kids : UInt8 → Radix Bytes} (hterm : ∀ v ∈ term, v.length ≤ MAX_VAL_LEN)
    (hkids : ∀ b, Denotes (NodeAt crc crypto s.disk) (kids b) (slots b) (Fs b))
    (hF : ∀ b, ∀ a ∈ Fs b, a ∈ X) :
    Ends (IoError io fixed) (allocNode crc crypto io (.internal term slots)) s
      (fun addr s' => Moved G parked fixed s s' (addr :: X) X ∧
        Denotes (NodeAt crc crypto s'.disk) (.node term kids) addr (addr :: allBytes.flatMap Fs))
      (fun s' => Moved G parked fixed s s' X X) := by
  have hslots : ∀ b, slots b < 2 ^ 64 := by
    intro b
    by_cases h0 : slots b = 0
    · rw [h0]
      decide
    · exact (h.lt (hF b _ ((hkids b).mem_of_ne h0))).2
  refine (alloc_nodes crc crypto io h (.internal term slots) ⟨hterm, hslots⟩).mono ?_ fun _ h => h
  rintro addr s' ⟨hm, hat⟩
  exact ⟨hm, (hm.nodes.lt (.head _)).1, slots, Fs, hat, fun b => (hkids b).moved hm (hF b), rfl⟩

/-- What is not given back of `P`. -/
def spared (floor : Option Nat) (P : List Nat) : List Nat := P.filter fun a => ¬ Reclaims floor a

theorem spared_sublist (floor : Option Nat) (P : List Nat) : (spared floor P).Sublist P :=
  filter_sublist

theorem spared_cons (floor : Option Nat) (a : Nat) (P : List Nat) :
    spared floor (a :: P) = if Reclaims floor a then spared floor P else a :: spared floor P := by
  unfold spared
  by_cases h : Reclaims floor a <;> simp [h]

theorem spared_cons_sublist (floor : Option Nat) (a : Nat) (P : List Nat) :
    (spared floor (a :: P)).Sublist (a :: spared floor P) := by
  rw [spared_cons]
  split
  · exact sublist_cons_self a _
  · exact List.Sublist.refl _

theorem spared_append (floor : Option Nat) (P Q : List Nat) :
    spared floor (P ++ Q) = spared floor P ++ spared floor Q :=
  filter_append _ _

theorem NodeM.free_nodes {C : Error → Prop} (h : Nodes G parked fixed (addr :: X) s)
    {E : NodeStore → Prop} :
    Ends C (freeNodeCow addr) s
      (fun _ s' => Moved G parked fixed s s' (spared s.alloc.reclaimFloor [addr] ++ X) (addr :: X) ∧
        s'.disk = s.disk) E := by
  refine (freeNodeCow_ends h).mono ?_ fun _ h => h
  rintro _ s' ⟨hk, hd⟩
  refine ⟨?_, hd⟩
  rw [spared_cons]
  split
  · rename_i hr
    rw [if_pos hr] at hk
    exact hk
  · rename_i hr
    rw [if_neg hr] at hk
    exact hk

end

end Sfs.Catalog

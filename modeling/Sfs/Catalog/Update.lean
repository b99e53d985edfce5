import Sfs.Catalog.Placed

/-!
# Updates on disk

An update of the trie that succeeds leaves the updated tree (`putAt_ends`, `removeAt_ends`). The
nodes that it shares with the old tree, and every old node that is not given back, stay where they
are, whether it succeeds or not.

`pathAt` lists the nodes on the path of a key. Those below the first are given back before the
update is over, if they lie above the floor.
-/

namespace Sfs.Catalog

open Sfs.Lib Sfs.Container List Function NodeM List.Perm Radix

variable {path key val rest : Bytes} {b : UInt8} {t t' : Radix Bytes} {addr : Nat}
  {F S held kept P O : List Nat}
  {term : Option Bytes} {slots : UInt8 → Nat} {s₁ : NodeStore}

/-! ## Branching -/

theorem take_shared : ∀ os ns : Bytes, os.take (shared os ns) = ns.take (shared os ns)
  | o :: os, n :: ns => by
    unfold shared
    split
    · rename_i heq
      rw [heq, take_succ_cons, take_succ_cons, take_shared os ns]
    · rfl
  | [], [] => rfl
  | [], _ :: _ => rfl
  | _ :: _, [] => rfl

/-- Nodes without a value around `t`, the innermost first. -/
def wrapTree : List UInt8 → Radix Bytes → Radix Bytes
  | [], t => t
  | b :: bs, t => wrapTree bs (.node none (.single b t))

theorem wrapTree_append (bs : List UInt8) (b : UInt8) (t : Radix Bytes) :
    wrapTree (bs ++ [b]) t = .node none (.single b (wrapTree bs t)) := by
  induction bs generalizing t with
  | nil => rfl
  | cons c bs ih => exact ih _

/-- The bytes that two keys share and the place where they part. -/
theorem branch_eq_wrapTree (k v key val : Bytes) : ∀ os ns : Bytes,
    branch k v key val os ns =
      wrapTree (os.take (shared os ns)).reverse
        (.branch k v key val (os.drop (shared os ns)) (ns.drop (shared os ns)))
  | o :: os, n :: ns => by
    unfold shared
    split
    · rename_i heq
      subst heq
      rw [take_succ_cons, reverse_cons, wrapTree_append, drop_succ_cons, drop_succ_cons,
        ← branch_eq_wrapTree k v key val os ns, branch, if_pos rfl]
    · rfl
  | [], [] => rfl
  | [], _ :: _ => rfl
  | _ :: _, [] => rfl

/-- Behind the shared bytes the keys differ. -/
theorem drop_shared_ne :
    ∀ {os ns : Bytes} {o n : UInt8} {os' ns' : Bytes}, os.drop (shared os ns) = o :: os' →
    ns.drop (shared os ns) = n :: ns' → o ≠ n
  | o :: os, n :: ns, o', n', os', ns' => by
    unfold shared
    split
    · intro ho hn
      rw [drop_succ_cons] at ho hn
      exact drop_shared_ne ho hn
    · rename_i hne
      rintro ⟨⟩ ⟨⟩
      exact hne
  | [], [], _, _, _, _ => nofun
  | [], _ :: _, _, _, _, _ => nofun
  | _ :: _, [], _, _, _, _ => nofun

theorem shared_le : ∀ os ns : Bytes, shared os ns ≤ os.length ∧ shared os ns ≤ ns.length
  | o :: os, n :: ns => by
    have := shared_le os ns
    unfold shared
    split
    · rw [length_cons, length_cons]
      omega
    · exact ⟨Nat.zero_le _, Nat.zero_le _⟩
  | [], [] => ⟨Nat.zero_le _, Nat.zero_le _⟩
  | [], _ :: _ => ⟨Nat.zero_le _, Nat.zero_le _⟩
  | _ :: _, [] => ⟨Nat.zero_le _, Nat.zero_le _⟩

theorem noTerm_fits : ∀ v ∈ (none : Option Bytes), v.length ≤ MAX_VAL_LEN :=
  fun v hv => absurd hv (Option.not_mem_none v)

theorem getD_of_drop {d : Nat} {bs : Bytes} (h : key.drop d = b :: bs) :
    (path ++ key).getD (path.length + d) 0 = b := by
  rw [getD_append_right _ _ _ _ (Nat.le_add_right _ _), Nat.add_sub_cancel_left, getD_eq_getElem?_getD,
    ← head?_drop, h]
  rfl

section

variable (crc : Bytes → UInt32) (crypto : NodeCrypto) (io : Io)
variable {G : List Held} {parked : List BlockLoc} {fixed : Bool} {s s' : NodeStore} {X : List Nat}

theorem alloc_over (b : UInt8) (h : Nodes G parked fixed (F ++ X) s)
    (hterm : ∀ v ∈ term, v.length ≤ MAX_VAL_LEN) (ht : Denotes (NodeAt crc crypto s.disk) t addr F) :
    Ends (IoError io fixed) (allocNode crc crypto io (.internal term (oneSlot b addr))) s
      (fun addr' s' => Moved G parked fixed s s' (addr' :: F ++ X) (F ++ X) ∧
        Denotes (NodeAt crc crypto s'.disk) (.node term (.single b t)) addr' (addr' :: F))
      (fun s' => Moved G parked fixed s s' (F ++ X) (F ++ X)) := by
  have hkids := denotes_update (b := b) (fun c _ => denotes_nothing c) ht
  have hflat : allBytes.flatMap (update (fun _ => []) b F) = F := by
    rw [flatMap_eq_of_only nodup_allBytes (mem_allBytes b) fun c hc => update_of_ne hc _ _,
      update_self]
  have halloc := alloc_internal crc crypto io h hterm hkids (by
    intro c a ha
    refine mem_append_left _ ?_
    rw [← hflat]
    exact mem_flatMap.mpr ⟨c, mem_allBytes c, ha⟩)
  rw [hflat] at halloc
  exact halloc

/-- A new tree beside what was there. -/
def Built (G : List Held) (parked : List BlockLoc) (fixed : Bool) (s : NodeStore) (X : List Nat)
    (t : Radix Bytes) (addr : Nat) (s' : NodeStore) : Prop :=
  ∃ F, Moved G parked fixed s s' (F ++ X) X ∧ Denotes (NodeAt crc crypto s'.disk) t addr F

theorem built_after {C : Error → Prop} {m : NodeM Nat} (hm : Moved G parked fixed s s₁ Y X)
    (h : Ends C m s₁ (Built crc crypto G parked fixed s₁ X t) fun s' =>
      Moved G parked fixed s₁ s' X X) :
    Ends C m s₁ (Built crc crypto G parked fixed s X t) fun s' => Moved G parked fixed s s' X X :=
  h.mono (fun _ _ ⟨F, hm', hd⟩ => ⟨F, hm.next hm', hd⟩) fun _ hm' => hm.next hm'

theorem wrap_ends (bs : List UInt8) (h : Nodes G parked fixed (F ++ X) s)
    (ht : Denotes (NodeAt crc crypto s.disk) t addr F) :
    Ends (IoError io fixed) (Trie.wrap crc crypto io bs addr) s
      (Built crc crypto G parked fixed s X (wrapTree bs t))
        (fun s' => Moved G parked fixed s s' X X) := by
  induction bs generalizing s t addr F with
  | nil => exact Ends.pure ⟨F, .refl h X, ht⟩
  | cons b bs ih =>
    have hX : ∀ a ∈ X, a ∈ F ++ X := fun a ha => mem_append_right _ ha
    refine Ends.bind ((alloc_over crc crypto io b h noTerm_fits ht).failing fun _ hm => ?_) ?_
    · exact hm.sub (sublist_append_right F X).subperm hX
    · rintro addr' s₁ ⟨hm, ht'⟩
      exact built_after crc crypto (hm.sub (Subperm.refl _) hX) (ih hm.nodes ht')

theorem alloc_fork {k v : Bytes} {o n : UInt8} (hne : o ≠ n) {l₁ l₂ : Nat}
    (h : Nodes G parked fixed (l₂ :: l₁ :: X) s)
    (h₁ : Denotes (NodeAt crc crypto s.disk) (.leaf k v) l₁ [l₁])
    (h₂ : Denotes (NodeAt crc crypto s.disk) (.leaf key val) l₂ [l₂]) :
    Ends (IoError io fixed) (allocNode crc crypto io (.internal none (update (oneSlot o l₁) n l₂))) s
      (Built crc crypto G parked fixed s X
        (.node none (update (.single o (.leaf k v)) n (.leaf key val))))
      (fun s' => Moved G parked fixed s s' X X) := by
  have hkids := denotes_update (b := n)
    (fun c _ => denotes_update (b := o) (fun c _ => denotes_nothing c) h₁ c) h₂
  have hperm : (allBytes.flatMap (update (update (fun _ => []) o [l₁]) n [l₂])).Perm [l₂, l₁] := by
    have hothers : others (update (fun _ => []) o [l₁]) n = [l₁] := by
      unfold others
      rw [flatMap_eq_of_only (nodup_allBytes.erase n) ((mem_erase_of_ne hne).mpr (mem_allBytes o))
        fun c hc => update_of_ne hc _ _, update_self]
    have hupdate := perm_update (update (fun _ => []) o [l₁]) n [l₂]
    rw [hothers] at hupdate
    exact hupdate
  refine (alloc_internal crc crypto io h noTerm_fits hkids ?_).mono ?_ ?_
  · intro c a ha
    have := hperm.mem_iff.mp (mem_flatMap.mpr ⟨c, mem_allBytes c, ha⟩)
    exact mem_append_left X this
  · rintro addr' s' ⟨hm, hd⟩
    refine ⟨_, hm.sub ?_ fun a ha => .tail _ (.tail _ ha), hd⟩
    exact ((hperm.append_right X).cons addr').subperm
  · intro s' hm
    exact hm.sub ((sublist_cons_self l₁ X).cons l₂).subperm fun a ha => .tail _ (.tail _ ha)

/-- One key ends where the other one goes on. -/
theorem park_ends {longKey longVal shortVal : Bytes} (b : UInt8) (bs : List UInt8)
    (hkey : longKey.length ≤ MAX_KEY_LEN) (hval : longVal.length ≤ MAX_VAL_LEN)
    (hshort : shortVal.length ≤ MAX_VAL_LEN) (h : Nodes G parked fixed X s) :
    Ends (IoError io fixed) (do
        let longLeaf ← allocNode crc crypto io (.leaf longKey longVal)
        let addr ← allocNode crc crypto io (.internal (some shortVal) (oneSlot b longLeaf))
        Trie.wrap crc crypto io bs addr) s
      (Built crc crypto G parked fixed s X
        (wrapTree bs (.node (some shortVal) (.single b (.leaf longKey longVal)))))
      (fun s' => Moved G parked fixed s s' X X) := by
  refine (alloc_leaf crc crypto io h hkey hval).bind fun l s₁ hl => ?_
  obtain ⟨hm₁, hl⟩ := hl
  have hterm : ∀ v ∈ some shortVal, v.length ≤ MAX_VAL_LEN := fun v hv => Option.some.inj hv ▸ hshort
  refine ((alloc_over crc crypto io b (X := X) hm₁.nodes hterm hl).failing fun s₂ hm₂ => ?_).bind
    fun addr s₂ h₂ => ?_
  · exact hm₁.next (hm₂.sub (sublist_cons_self l X).subperm fun a ha => .tail _ ha)
  obtain ⟨hm₂, hd⟩ := h₂
  have hm : Moved G parked fixed s s₂ ((addr :: [l]) ++ X) X :=
    hm₁.trans hm₂ (fun _ ha => ha) fun a ha => .tail _ ha
  exact built_after crc crypto hm (wrap_ends crc crypto io bs hm.nodes hd)

theorem branchLeaf_ends {k v : Bytes} (hne : k ≠ key) (hk : path <+: k) (hkey : key = path ++ rest)
    (hklen : k.length ≤ MAX_KEY_LEN) (hkeylen : key.length ≤ MAX_KEY_LEN)
    (hv : v.length ≤ MAX_VAL_LEN) (hval : val.length ≤ MAX_VAL_LEN) (h : Nodes G parked fixed X s) :
    Ends (IoError io fixed) (Trie.branchLeaf crc crypto io k v key val path.length) s
      (Built crc crypto G parked fixed s X (.branch k v key val (k.drop path.length) rest))
      (fun s' => Moved G parked fixed s s' X X) := by
  obtain ⟨os, rfl⟩ := hk
  subst hkey
  have hdk : (path ++ os).drop path.length = os := drop_left
  have hdkey : (path ++ rest).drop path.length = rest := drop_left
  have hle := shared_le os rest
  have htake := take_shared os rest
  unfold Trie.branchLeaf
  rw [hdk, hdkey, branch_eq_wrapTree]
  dsimp only
  rw [Nat.add_sub_cancel_left, length_append, length_append, slice, slice, hdk]
  -- who ends first, if any of the two keys does
  cases hod : os.drop (shared os rest) with
  | nil =>
    cases hnd : rest.drop (shared os rest) with
    | nil =>
      refine absurd ?_ hne
      rw [drop_eq_nil_iff] at hod hnd
      rw [take_of_length_le hod, take_of_length_le hnd] at htake
      rw [htake]
    | cons n ns =>
      have hlen := congrArg length hnd
      rw [drop_eq_nil_iff] at hod
      rw [length_drop, length_cons] at hlen
      rw [if_pos (by omega), if_pos (by omega)]
      dsimp only
      rw [getD_of_drop hnd, hdk]
      exact park_ends crc crypto io n _ hkeylen hval hv h
  | cons o os' =>
    have hlen := congrArg length hod
    rw [length_drop, length_cons] at hlen
    cases hnd : rest.drop (shared os rest) with
    | nil =>
      rw [drop_eq_nil_iff] at hnd
      rw [if_pos (by omega), if_neg (by omega)]
      dsimp only
      rw [getD_of_drop hod, hdkey, ← htake]
      exact park_ends crc crypto io o _ hklen hv hval h
    | cons n ns =>
      have hlen' := congrArg length hnd
      rw [length_drop, length_cons] at hlen'
      have hon := drop_shared_ne hod hnd
      rw [if_neg (by omega), getD_of_drop hod, getD_of_drop hnd, branch, if_neg hon]
      refine (alloc_leaf crc crypto io h hklen hv).bind fun l₁ s₁ h₁ => ?_
      obtain ⟨hm₁, hl₁⟩ := h₁
      refine ((alloc_leaf crc crypto io hm₁.nodes hkeylen hval).failing fun s₂ hm₂ => ?_).bind
        fun l₂ s₂ h₂ => ?_
      · exact hm₁.next (hm₂.sub (sublist_cons_self l₁ X).subperm fun a ha => .tail _ ha)
      obtain ⟨hm₂, hl₂⟩ := h₂
      have hl₁' := hl₁.moved hm₂ fun a ha => mem_append_left X ha
      have hm : Moved G parked fixed s s₂ (l₂ :: l₁ :: X) X :=
        hm₁.trans hm₂ (fun _ ha => ha) fun a ha => .tail _ ha
      refine (built_after crc crypto hm (alloc_fork crc crypto io hon hm.nodes hl₁' hl₂)).bind
        fun addr s₃ h₃ => ?_
      obtain ⟨F, hm₃, hd⟩ := h₃
      exact built_after crc crypto hm₃ (wrap_ends crc crypto io _ hm₃.nodes hd)

/-! ## Inserting -/

/-- The nodes on the path of a key, as they are read. -/
def pathAt (d : Disk) : Bytes → Nat → List Nat
  | rest, addr => addr :: (match Node.read crc crypto d addr, rest with
    | .ok (.internal _ slots), b :: rest => if slots b = 0 then [] else pathAt d rest (slots b)
    | _, _ => [])

theorem pathAt_internal {d : Disk} (h : Node.read crc crypto d addr = .ok (.internal term slots)) :
    pathAt crc crypto d (b :: rest) addr =
      addr :: (if slots b = 0 then [] else pathAt crc crypto d rest (slots b)) := by
  conv => lhs; unfold pathAt
  rw [h]

/-- What an update leaves that returns the tree `t'`: its nodes are new ones, `N`, or come from the
nodes `S` of the old tree, of whose others it still holds `held`. Before the last one was given
back, `kept` was left alone. -/
def Updated (G : List Held) (parked : List BlockLoc) (fixed : Bool) (s : NodeStore)
    (S held : List Nat) (kept : List Nat) (t' : Radix Bytes) (addr' : Nat) (s' : NodeStore) :
    Prop :=
  ∃ N F', Denotes (NodeAt crc crypto s'.disk) t' addr' F' ∧ F'.Subperm (N ++ S) ∧
    Moved G parked fixed s s' (N ++ (S ++ held)) (S ++ kept)

theorem updated_calls (n : Nat) :
    Updated crc crypto G parked fixed { s with calls := n } S held kept t' =
      Updated crc crypto G parked fixed s S held kept t' := by
  funext addr' s'
  simp only [Updated, moved_calls]

theorem freed_ends {C : Error → Prop} {addr' : Nat} {E : NodeStore → Prop}
    (h : Updated crc crypto G parked fixed s S (addr :: spared s.alloc.reclaimFloor P)
      (addr :: spared s.alloc.reclaimFloor P) t' addr' s₁) :
    Ends C (freeNodeCow addr) s₁ (fun _ =>
      Updated crc crypto G parked fixed s S (spared s.alloc.reclaimFloor (addr :: P))
        (addr :: spared s.alloc.reclaimFloor P) t' addr') E := by
  obtain ⟨N, F', hd, hsub, hmv⟩ := h
  have hnodes : Nodes G parked fixed (addr :: (N ++ (S ++ spared s.alloc.reclaimFloor P))) s₁ :=
      hmv.nodes.sub (by
    refine subperm ?_
    simp only [perm_iff_count, count_append, count_cons]
    intro a
    omega)
  refine (free_nodes hnodes).mono (fun _ s₂ h₂ => ⟨N, F', ?_, hsub, ?_⟩) fun _ h => h
  · refine hd.moved h₂.1 fun a ha => .tail _ ?_
    exact mem_append.mpr ((mem_append.mp (hsub.subset ha)).imp_right fun h => mem_append_left _ h)
  have hfloor := hmv.floor
  have hsplit : spared s.alloc.reclaimFloor (addr :: P) =
      spared s₁.alloc.reclaimFloor [addr] ++ spared s.alloc.reclaimFloor P := by
    rw [hfloor]
    exact spared_append _ [addr] P
  rw [hsplit]
  refine (hmv.trans h₂.1 (fun _ ha => ha) fun a ha => ?_).sub (subperm ?_) fun _ ha => ha
  · simp only [mem_append, mem_cons] at ha ⊢
    grind
  · simp only [perm_iff_count, count_append]
    intro a
    omega

/-- The superseded node is given back at the end. -/
theorem supersede_ends {C : Error → Prop} {m : NodeM Nat} {E : NodeStore → Prop}
    (hm : Ends C m s (Updated crc crypto G parked fixed s S (addr :: spared s.alloc.reclaimFloor P)
      (addr :: spared s.alloc.reclaimFloor P) t') E) :
    Ends C (Trie.superseding addr m) s
      (Updated crc crypto G parked fixed s S (spared s.alloc.reclaimFloor (addr :: P))
        (addr :: spared s.alloc.reclaimFloor P) t') E :=
  hm.bind fun _ _ h₁ => (freed_ends crc crypto h₁).bind fun _ _ h₂ => Ends.pure h₂

/-- A new child keeps the other nodes of its parent. -/
theorem mem_kept (h : held.Subperm kept) :
    ∀ a ∈ (S ++ O) ++ addr :: held, a ∈ (S ++ kept) ++ addr :: O := by
  intro a ha
  have : a ∈ held → a ∈ kept := fun ha => h.subset ha
  grind

theorem moved_child (hheld : held.Subperm kept)
    (h : Moved ((addr :: O).map nodeHeld ++ G) parked fixed s s' (S ++ kept) (S ++ kept)) :
    Moved G parked fixed s s' ((S ++ O) ++ addr :: held) ((S ++ O) ++ addr :: held) := by
  refine (moved_frame.mp h).sub ?_ (mem_kept hheld)
  have hsub : (addr :: held ++ (S ++ O)).Subperm (addr :: kept ++ (S ++ O)) :=
    (subperm_append_right _).mpr ((subperm_cons addr).mpr hheld)
  refine (perm_append_comm.subperm.trans hsub).trans (subperm ?_)
  simp only [perm_iff_count, count_append, count_cons]
  intro a
  omega

theorem renode_ends {kids : UInt8 → Radix Bytes} {Fs : UInt8 → List Nat} {newChild : Nat}
    (hterm : ∀ v ∈ term, v.length ≤ MAX_VAL_LEN)
    (hkids : ∀ c, Denotes (NodeAt crc crypto s.disk) (kids c) (slots c) (Fs c))
    (hheld : held.Subperm kept)
    (h₁ : Updated crc crypto ((addr :: others Fs b).map nodeHeld ++ G) parked fixed s S held kept t'
      newChild s₁) :
    Ends (IoError io fixed) (allocNode crc crypto io (.internal term (update slots b newChild))) s₁
      (Updated crc crypto G parked fixed s (S ++ others Fs b) (addr :: held) (addr :: held)
        (.node term (update kids b t')))
      (fun s' => Moved G parked fixed s s' ((S ++ others Fs b) ++ addr :: held)
        ((S ++ others Fs b) ++ addr :: held)) := by
  obtain ⟨N, F', hd, hsub, hm₁⟩ := h₁
  have hm₁ := moved_frame.mp hm₁
  have hold : ∀ c, c ≠ b → Denotes (NodeAt crc crypto s₁.disk) (kids c) (slots c) (Fs c) := fun c hc =>
    (hkids c).moved hm₁ fun a ha => mem_append_right _ (.tail _ (mem_others hc ha))
  have hnew := perm_update Fs b F'
  have hX : ∀ c, ∀ a ∈ update Fs b F' c, a ∈ (N ++ (S ++ held)) ++ addr :: others Fs b := by
    intro c a ha
    have ha := hnew.mem_iff.mp (mem_flatMap.mpr ⟨c, mem_allBytes c, ha⟩)
    have : a ∈ F' → a ∈ N ++ S := fun ha => hsub.subset ha
    simp only [mem_append, mem_cons] at ha this ⊢
    grind
  have hkept' : ∀ a ∈ (S ++ others Fs b) ++ addr :: held,
      a ∈ (N ++ (S ++ held)) ++ addr :: others Fs b := by
    intro a ha
    simp only [mem_append, mem_cons] at ha ⊢
    grind
  refine (alloc_internal crc crypto io hm₁.nodes hterm (denotes_update hold hd) hX).mono ?_
    fun s₂ hm₂ => ?_
  · rintro addr' s₂ ⟨hm₂, hd₂⟩
    refine ⟨addr' :: N, _, hd₂, ?_,
      (hm₁.trans hm₂ (mem_kept hheld) hkept').sub (subperm ?_) fun _ ha => ha⟩
    · refine ((subperm_cons addr').mpr
        (hnew.subperm.trans ((subperm_append_right _).mpr hsub))).trans ?_
      rw [cons_append, append_assoc]
    · simp only [perm_iff_count, count_append, count_cons]
      intro a
      omega
  · refine (hm₁.trans hm₂ (mem_kept hheld) hkept').sub ?_ fun _ ha => ha
    refine (sublist_append_right N _).subperm.trans (subperm ?_)
    simp only [perm_iff_count, count_append, count_cons]
    intro a
    omega

theorem repoint_ends {kids : UInt8 → Radix Bytes} {Fs : UInt8 → List Nat} {child : NodeM Nat}
    (hterm : ∀ v ∈ term, v.length ≤ MAX_VAL_LEN)
    (hkids : ∀ c, Denotes (NodeAt crc crypto s.disk) (kids c) (slots c) (Fs c))
    (hheld : held.Subperm kept)
    (hchild : Ends (IoError io fixed) child s₁
      (Updated crc crypto ((addr :: others Fs b).map nodeHeld ++ G) parked fixed s S held kept t')
      (fun s' => Moved ((addr :: others Fs b).map nodeHeld ++ G) parked fixed s s' (S ++ kept)
      (S ++ kept))) :
    Ends (IoError io fixed) (Trie.repoint crc crypto io term slots b child) s₁
      (Updated crc crypto G parked fixed s (S ++ others Fs b) (addr :: held) (addr :: held)
        (.node term (update kids b t')))
      (fun s' => Moved G parked fixed s s' ((S ++ others Fs b) ++ addr :: held)
        ((S ++ others Fs b) ++ addr :: held)) :=
  Ends.bind (hchild.failing fun _ hm₁ => moved_child hheld hm₁) fun _ _ h₁ =>
    renode_ends crc crypto io hterm hkids hheld h₁

theorem Denotes.empty_of_zero {stands : Nat → Node → Prop} (h : Denotes stands t 0 F) :
    t = .empty ∧ F = [] := by
  obtain rfl := eq_empty_of_isEmpty (h.zero_iff.mp rfl)
  exact ⟨rfl, h.2⟩

/-- What an update of a child holds of the tree. -/
theorem held_subperm {Fb : List Nat} (hF : F.Perm (Fb ++ O)) (hFb : Fb.Perm (P ++ S)) (addr : Nat)
    (floor : Option Nat) : ((S ++ O) ++ addr :: spared floor P).Subperm (addr :: F) := by
  refine (((spared_sublist floor P).cons_cons addr).append_left _).subperm.trans (subperm ?_)
  refine List.Perm.trans ?_ ((hF.trans (hFb.append_right _)).cons addr).symm
  simp only [perm_iff_count, count_append, count_cons]
  omega

variable {crypto}

theorem putAt_ends (hlaw : crypto.Lawful) (hkeylen : key.length ≤ MAX_KEY_LEN)
    (hval : val.length ≤ MAX_VAL_LEN) (hne : t.isEmpty = false) (hwf : t.Wf MAX_KEY_LEN path)
    (hkey : key = path ++ rest) (hd : Denotes (NodeAt crc crypto s.disk) t addr F)
    (hF : Nodes G parked fixed F s) :
    ∃ P S, pathAt crc crypto s.disk rest addr = addr :: P ∧ F.Perm (addr :: P ++ S) ∧
      Ends (IoError io fixed) (Trie.putAt crc crypto io key val path.length rest addr) s
        (Updated crc crypto G parked fixed s S (spared s.alloc.reclaimFloor (addr :: P))
          (addr :: spared s.alloc.reclaimFloor P)
          (t.put key val path.length rest))
        (fun s' => Moved G parked fixed s s' (S ++ addr :: spared s.alloc.reclaimFloor P)
          (S ++ addr :: spared s.alloc.reclaimFloor P)) := by
  induction t generalizing path rest addr F G s with
  | empty => cases hne
  | leaf k v =>
    obtain ⟨h0, hat, rfl⟩ := hd
    have hread := hat.read hlaw
    refine ⟨[], [], ?_, .refl _, ?_⟩
    · unfold pathAt
      rw [hread]
    unfold Trie.putAt
    refine supersede_ends crc crypto ?_
    refine (read_nodes crc crypto io hlaw hF hat [addr]).bind ?_
    rintro _ s₁ ⟨rfl, -, hm₁⟩
    dsimp only
    rw [put]
    split
    · refine (alloc_leaf crc crypto io hm₁.nodes hkeylen hval).mono ?_ fun s₂ hm₂ => hm₁.next hm₂
      rintro addr' s₂ ⟨hm₂, hd⟩
      exact ⟨[addr'], [addr'], hd, .refl _, hm₁.next hm₂⟩
    · rename_i hne
      refine (branchLeaf_ends crc crypto io hne hwf.1 hkey hwf.2 hkeylen hat.1.2 hval
          hm₁.nodes).mono ?_ fun s₂ hm₂ =>
        hm₁.next hm₂
      rintro addr' s₂ ⟨F', hm₂, hd⟩
      exact ⟨F', F', hd, (append_nil F').symm ▸ .refl _, hm₁.next hm₂⟩
  | node term kids ih =>
    obtain ⟨h0, slots, Fs, hat, hkids, rfl⟩ := hd
    have hread := hat.read hlaw
    cases rest with
    | nil =>
      refine ⟨[], allBytes.flatMap Fs, ?_, .refl _, ?_⟩
      · unfold pathAt
        rw [hread]
      unfold Trie.putAt
      refine supersede_ends crc crypto ?_
      have hperm : (allBytes.flatMap Fs ++ [addr]).Perm (addr :: allBytes.flatMap Fs) :=
        perm_append_singleton _ _
      refine (read_nodes crc crypto io hlaw (hF.sub hperm.subperm) hat _).bind ?_
      rintro _ s₁ ⟨rfl, rfl, hm₁⟩
      dsimp only
      have hvals : ∀ v ∈ some val, v.length ≤ MAX_VAL_LEN := fun v hv => Option.some.inj hv ▸ hval
      refine (alloc_internal crc crypto io hm₁.nodes hvals hkids ?_).mono ?_ fun s₂ hm₂ => hm₁.next hm₂
      · exact fun b a ha => mem_append_left _ (mem_flatMap.mpr ⟨b, mem_allBytes b, ha⟩)
      · rintro addr' s₂ ⟨hm₂, hd⟩
        exact ⟨[addr'], _, hd, .refl _, hm₁.next hm₂⟩
    | cons b rest =>
      have hall := perm_others Fs b
      have hwfb := hwf.2 b
      have hkey' : key = (path ++ [b]) ++ rest := by rw [hkey, append_assoc, singleton_append]
      rw [pathAt_internal crc crypto hread]
      by_cases hslot : slots b = 0
      · -- a leaf in a free slot
        have hb := hkids b
        rw [hslot] at hb
        obtain ⟨hempty, hnil⟩ := hb.empty_of_zero
        rw [hnil, nil_append] at hall
        refine ⟨[], others Fs b, by rw [if_pos hslot], hall.cons addr, ?_⟩
        unfold Trie.putAt
        refine supersede_ends crc crypto ?_
        have hF' : Nodes G parked fixed (others Fs b ++ [addr]) s := hF.sub (by
          refine subperm ((perm_append_singleton _ _).trans (hall.symm.cons addr)))
        refine (read_nodes crc crypto io hlaw hF' hat _).bind ?_
        rintro _ s₁ ⟨rfl, rfl, hm₁⟩
        dsimp only
        rw [if_pos hslot, put, hempty, put]
        have hframe : Nodes ((addr :: others Fs b).map nodeHeld ++ G) parked fixed []
            { s with calls := s.calls + 1 } := by
          exact nodes_frame.mpr (hm₁.nodes.sub (perm_append_singleton _ _).symm.subperm)
        have hleaf : Ends (IoError io fixed) (allocNode crc crypto io (.leaf key val))
          { s with calls := s.calls + 1 }
            (Updated crc crypto ((addr :: others Fs b).map nodeHeld ++ G) parked fixed s [] [] []
              (.leaf key val))
            (fun s' => Moved ((addr :: others Fs b).map nodeHeld ++ G) parked fixed s s' ([] ++ [])
              ([] ++ [])) := by
          refine (alloc_leaf crc crypto io hframe hkeylen hval).mono ?_ fun s₂ hm₂ =>
            (moved_calls _).mp hm₂
          rintro addr' s₂ ⟨hm₂, hd⟩
          exact ⟨[addr'], [addr'], hd, .refl _, (moved_calls _).mp hm₂⟩
        exact repoint_ends crc crypto io hat.1.1 hkids (List.Subperm.refl _) hleaf
      · have hne' := (hkids b).isEmpty_eq_false hslot
        have hframe : Nodes ((addr :: others Fs b).map nodeHeld ++ G) parked fixed (Fs b)
            { s with calls := s.calls + 1 } := by
          refine nodes_frame.mpr (Nodes.sub (hF.congr rfl) (subperm ?_))
          exact perm_middle.trans (hall.symm.cons addr)
        obtain ⟨P, S, hpath, hperm, hends⟩ :=
          @ih b _ _ _ _ _ { s with calls := s.calls + 1 } hne' hwfb hkey' (hkids b) hframe
        rw [if_neg hslot]
        refine ⟨slots b :: P, S ++ others Fs b, ?_, ?_, ?_⟩
        · rw [← hpath]
        · have hFs := (hall.trans (hperm.append_right _)).cons addr
          simp only [cons_append, append_assoc] at hFs ⊢
          exact hFs
        unfold Trie.putAt
        refine supersede_ends crc crypto ?_
        refine (read_nodes crc crypto io hlaw (hF.sub (held_subperm hall hperm addr _)) hat _).bind ?_
        rintro _ s₁ ⟨rfl, rfl, hm₁⟩
        dsimp only
        rw [if_neg hslot, put]
        simp only [updated_calls, moved_calls, length_append, length_singleton] at hends
        exact repoint_ends crc crypto io hat.1.1 hkids (spared_cons_sublist _ _ _).subperm hends

end

end Sfs.Catalog

import Mathlib.Logic.Relation
import Sfs.Catalog.Refines

/-!
# Updates copy on write

A session works on one root while another one is published. Inside a reclaim scope an update gives
the nodes back that it supersedes, if they lie above the floor of the scope, and each of them before
the node above it is made.

* `Leaves` says which of the old nodes an update leaves alone: all that it does not give back.
* `PathSpared` says that it gives nothing back below the old root.
* `updates_copy_on_write`: in every session the published root stays as it is,
  only nodes above the floor are given back,
  and an update with `PathSpared` leaves the old root as it is, whether it succeeds or not.
-/

namespace Sfs.Catalog

open Sfs.Lib Sfs.Container NodeM List

open Trie

theorem mem_spared {floor : Option Nat} {P : List Nat} {a : Nat} :
    a ∈ spared floor P ↔ a ∈ P ∧ ¬ Reclaims floor a := by
  rw [spared, mem_filter, decide_eq_true_eq]

section

variable (crc : Bytes → UInt32) (crypto : NodeCrypto)

/-- No other key is there. -/
def OnlyKey (d : Disk) (root : Nat) (key : Bytes) : Prop :=
  ∀ key', Trie.get crc crypto d root key' ≠ .ok none → key' = key

/-- Nothing on the path of the key is given back but the root, and not even the root if no key is
left. -/
def PathSpared (s : NodeStore) (root : Nat) : TrieOp → Prop
  | .put key _ => ∀ a ∈ (pathAt crc crypto s.disk key root).tail, ¬ Reclaims s.alloc.reclaimFloor a
  | .remove key => Trie.get crc crypto s.disk root key = .ok none ∨
      ((∀ a ∈ (pathAt crc crypto s.disk key root).tail, ¬ Reclaims s.alloc.reclaimFloor a) ∧
        (OnlyKey crc crypto s.disk root key → ¬ Reclaims s.alloc.reclaimFloor root))
  | .beginScope | .endScope => True

end

section

variable {crc : Bytes → UInt32} {crypto : NodeCrypto} {io : Io}
variable {G : List Held} {parked : List BlockLoc} {fixed : Bool} {s s' : NodeStore} {m : Entries}
  {root : Nat} {t : Radix Bytes} {F X : List Nat}

/-- What is left of the nodes `F`: those that are not given back, and all of them if the update is
`safe`. -/
def Leaves (G : List Held) (parked : List BlockLoc) (fixed : Bool) (s s' : NodeStore)
    (F X : List Nat) (safe : Prop) : Prop :=
  ∃ Y, Moved G parked fixed s s' X Y ∧
    (∀ a ∈ F, ¬ Reclaims s.alloc.reclaimFloor a → a ∈ X ∧ a ∈ Y) ∧ (safe → ∀ a ∈ F, a ∈ Y)

/-- Both outcomes of an update. -/
structure Copies (crc : Bytes → UInt32) (crypto : NodeCrypto) (G : List Held)
    (parked : List BlockLoc) (fixed : Bool) (s : NodeStore) (F : List Nat) (m' : Entries)
    (update : NodeM Nat) (safe : Prop) : Prop where
  done : ∀ {root' s'}, update s = .ok root' s' →
    ∃ t' F' X, HoldsTree crc crypto m' s'.disk root' t' F' ∧ F'.Subperm X ∧
    Leaves G parked fixed s s' F X safe
  failed : ∀ {e s'}, update s = .error e s' →
    ∃ X, Leaves G parked fixed s s' F X safe ∧ (safe → F.Subperm X)

/-- An update that changes nothing. -/
theorem Leaves.unchanged (h : Moved G parked fixed s s' F F) (safe : Prop) :
    Leaves G parked fixed s s' F F safe :=
  ⟨F, h, fun _ ha _ => ⟨ha, ha⟩, fun _ _ ha => ha⟩

/-- The old nodes of an update: `P` below the root, `S` elsewhere; it leaves `K` of the path
alone. -/
theorem Leaves.updated {N P S K : List Nat} {safe : Prop} (hF : F.Perm (root :: P ++ S))
    (hm : Moved G parked fixed s s' (N ++ (S ++ spared s.alloc.reclaimFloor (root :: P))) (S ++ K))
    (hK : ∀ a ∈ spared s.alloc.reclaimFloor (root :: P), a ∈ K)
    (hsafe : safe → ∀ a ∈ root :: P, a ∈ K) :
    Leaves G parked fixed s s' F (N ++ (S ++ spared s.alloc.reclaimFloor (root :: P))) safe := by
  refine ⟨S ++ K, hm, fun a ha hr => ?_, fun h a ha => ?_⟩
  · rcases mem_append.mp (hF.mem_iff.mp ha) with ha | ha
    · have hsp := mem_spared.mpr ⟨ha, hr⟩
      exact ⟨mem_append_right _ (mem_append_right _ hsp), mem_append_right _ (hK a hsp)⟩
    · exact ⟨mem_append_right _ (mem_append_left _ ha), mem_append_left _ ha⟩
  · rcases mem_append.mp (hF.mem_iff.mp ha) with ha | ha
    · exact mem_append_right _ (hsafe h a ha)
    · exact mem_append_left _ ha

theorem Leaves.failed {P S K : List Nat} {safe : Prop} (hF : F.Perm (root :: P ++ S))
    (hm : Moved G parked fixed s s' (S ++ K) (S ++ K))
    (hK : ∀ a ∈ spared s.alloc.reclaimFloor (root :: P), a ∈ K) (hsafe : safe → K = root :: P) :
    Leaves G parked fixed s s' F (S ++ K) safe ∧ (safe → F.Subperm (S ++ K)) := by
  refine ⟨⟨S ++ K, hm, fun a ha hr => ?_, fun h a ha => ?_⟩, fun h => ?_⟩
  · rcases mem_append.mp (hF.mem_iff.mp ha) with ha | ha
    · have := mem_append_right S (hK a (mem_spared.mpr ⟨ha, hr⟩))
      exact ⟨this, this⟩
    · exact ⟨mem_append_left _ ha, mem_append_left _ ha⟩
  · rw [hsafe h]
    exact perm_append_comm.mem_iff.mp (hF.mem_iff.mp ha)
  · rw [hsafe h]
    exact (hF.trans perm_append_comm).subperm

theorem spared_eq_self {floor : Option Nat} {P : List Nat} (h : ∀ a ∈ P, ¬ Reclaims floor a) :
    spared floor P = P :=
  filter_eq_self.mpr fun a ha => decide_eq_true (h a ha)

theorem put_copies (hlaw : crypto.Lawful) (h : HoldsTree crc crypto m s.disk root t F)
    (hF : Nodes G parked fixed F s) (key val : Bytes) :
    Copies crc crypto G parked fixed s F (m.put key val) (put crc crypto io root key val)
      (PathSpared crc crypto s root (.put key val)) := by
  by_cases hlim : key.length ≤ MAX_KEY_LEN ∧ val.length ≤ MAX_VAL_LEN
  · obtain ⟨P, S, hpath, hperm, hends⟩ :=
      put_ends crc io hlaw hlim.1 hlim.2 h.nonempty h.wf h.denotes hF
    have hK : ∀ a ∈ spared s.alloc.reclaimFloor (root :: P),
        a ∈ root :: spared s.alloc.reclaimFloor P := fun a ha =>
      (spared_cons_sublist _ _ _).subset ha
    have hsafe : PathSpared crc crypto s root (.put key val) →
        root :: spared s.alloc.reclaimFloor P = root :: P := by
      intro hsafe
      have hsafe : ∀ a ∈ (pathAt crc crypto s.disk key root).tail,
        ¬ Reclaims s.alloc.reclaimFloor a := hsafe
      rw [hpath, tail_cons] at hsafe
      rw [spared_eq_self hsafe]
    constructor
    · intro root' s' hok
      obtain ⟨N, F', hd, hsub, hm⟩ := hends.1 root' s' hok
      have hpath : key = [] ++ key := rfl
      refine ⟨_, F', _, ⟨isEmpty_put _ _ _ _, h.wf.put hpath hlim.1 val, hd, fun key' => ?_⟩, ?_,
        Leaves.updated hperm hm hK fun hs a ha => hsafe hs ▸ ha⟩
      · rw [SortedMap.get_put, h.get key']
        exact (Radix.get_put h.wf hpath val rfl).symm
      · refine hsub.trans ?_
        rw [← append_assoc]
        exact (sublist_append_left _ _).subperm
    · intro e s' herr
      exact ⟨_, Leaves.failed hperm (hends.2 e s' herr).2 hK hsafe⟩
  · have hbounds : ∃ e, checkBounds key val = .error e := by
      unfold checkBounds
      split
      · exact ⟨_, rfl⟩
      · split
        · exact ⟨_, rfl⟩
        · omega
    obtain ⟨e, hbounds⟩ := hbounds
    have hput : put crc crypto io root key val s = .error e s := by
      unfold put
      rw [hbounds]
      rfl
    refine ⟨fun hok => ?_, fun herr => ?_⟩
    · rw [hput] at hok
      cases hok
    · rw [hput] at herr
      cases herr
      exact ⟨F, .unchanged (.refl hF F) _, fun _ => .refl F⟩

/-- Only the number of calls has changed. -/
theorem Moved.of_store_eq (h : Nodes G parked fixed X s) (hs : s'.toStore = s.toStore)
    (Y : List Nat) : Moved G parked fixed s s' X Y := by
  obtain ⟨store, calls⟩ := s'
  obtain rfl : store = s.toStore := hs
  exact ⟨h.congr rfl, .refl _ _, le_rfl, rfl, fun _ hx => .inl hx⟩

theorem HoldsTree.moved (h : HoldsTree crc crypto m s.disk root t F) {Y : List Nat}
    (hm : Moved G parked fixed s s' X Y) (hF : ∀ a ∈ F, a ∈ Y) :
    HoldsTree crc crypto m s'.disk root t F :=
  ⟨h.nonempty, h.wf, h.denotes.moved hm hF, h.get⟩

theorem remove_copies_absent (hlaw : crypto.Lawful) (h : HoldsTree crc crypto m s.disk root t F)
    (hF : Nodes G parked fixed F s) {key : Bytes} (hnone : t.remove key key = none) (safe : Prop) :
    Copies crc crypto G parked fixed s F (m.erase key)
      (TrieOp.run crc crypto io root (.remove key)) safe := by
  have hends : Ends (IoError io fixed) (TrieOp.run crc crypto io root (.remove key)) s
    (fun root' s' => root' = root ∧ s'.toStore = s.toStore)
      (fun s' => s'.toStore = s.toStore) := by
    refine Ends.bind (Q := fun r s' => r = (root, false) ∧ s'.toStore = s.toStore) ?_ ?_
    · refine (removeAt_absent crc io hlaw key key h.nonempty h.denotes hnone).bind ?_
      rintro _ s₁ ⟨rfl, hs₁⟩
      exact Ends.pure ⟨rfl, hs₁⟩
    · rintro _ s₁ ⟨rfl, hs₁⟩
      exact Ends.pure ⟨rfl, hs₁⟩
  have hget : m.get key = none := by rw [h.get, ← Radix.remove_eq_none_iff, hnone]
  constructor
  · intro root' s' hok
    obtain ⟨rfl, hs⟩ := hends.1 _ _ hok
    have hm : Moved G parked fixed s s' F F := .of_store_eq hF hs F
    have hd := (h.moved hm fun _ ha => ha).denotes
    refine ⟨t, F, F, ⟨h.nonempty, h.wf, hd, fun key' => ?_⟩, .refl F, .unchanged hm safe⟩
    rw [SortedMap.get_erase, ← h.get]
    split
    · rename_i heq
      rw [heq, hget]
    · rfl
  · intro e s' herr
    exact ⟨F, .unchanged (.of_store_eq hF (hends.2 e s' herr).2 F) safe, fun _ => .refl F⟩

theorem onlyKey_of_lastKey (hlaw : crypto.Lawful) (h : HoldsTree crc crypto m s.disk root t F)
    {key : Bytes} (hlast : lastKey t key = true) : OnlyKey crc crypto s.disk root key := by
  intro key' hkey'
  rw [h.get_eq hlaw, h.get, ne_eq, Except.ok.injEq] at hkey'
  obtain ⟨t', hsome, hempty⟩ := (Option.any_eq_true _ _).mp hlast
  by_contra hne
  have hget := (Radix.remove_spec h.wf (show key = [] ++ key from rfl) hsome).2
    (show key' = [] ++ key' from rfl)
  rw [if_neg hne, Radix.eq_empty_of_isEmpty hempty] at hget
  exact hkey' hget.symm

theorem remove_copies (hlaw : crypto.Lawful) (h : HoldsTree crc crypto m s.disk root t F)
    (hF : Nodes G parked fixed F s) (key : Bytes) :
    Copies crc crypto G parked fixed s F (m.erase key) (TrieOp.run crc crypto io root (.remove key))
      (PathSpared crc crypto s root (.remove key)) := by
  cases hres : t.remove key key with
  | none => exact remove_copies_absent hlaw h hF hres _
  | some t' =>
    obtain ⟨P, S, hpath, hperm, hends⟩ := remove_ends crc io hlaw key h.nonempty h.denotes hF
    have hK : ∀ a ∈ spared s.alloc.reclaimFloor (root :: P),
        a ∈ leftByRemove t key s.alloc.reclaimFloor root P := by
      intro a ha
      unfold leftByRemove
      split
      · exact ha
      · exact (spared_cons_sublist _ _ _).subset ha
    have hsafe : PathSpared crc crypto s root (.remove key) →
        leftByRemove t key s.alloc.reclaimFloor root P = root :: P := by
      rintro (hnone | ⟨hbelow, hroot⟩)
      · rw [h.get_eq hlaw, h.get, Except.ok.injEq, ← Radix.remove_eq_none_iff, hres] at hnone
        cases hnone
      rw [hpath, tail_cons] at hbelow
      unfold leftByRemove
      split
      · rename_i hlast
        refine spared_eq_self fun a ha => ?_
        rcases mem_cons.mp ha with rfl | ha
        · exact hroot (onlyKey_of_lastKey hlaw h hlast)
        · exact hbelow a ha
      · rw [spared_eq_self hbelow]
    constructor
    · intro root' s' hok
      obtain ⟨⟨root₁, found⟩, s₁, hrem, hpure⟩ := bind_eq_ok_iff.mp hok
      cases hpure
      rcases hends.1 _ _ hrem with ⟨hnone, -⟩ | ⟨t₁, hsome, -, N, F', hd, hsub, hm⟩
      · rw [hres] at hnone
        cases hnone
      have hspec := Radix.remove_spec h.wf (show key = [] ++ key from rfl) hsome
      obtain ⟨hwf, hget⟩ := orRoot_spec hspec.1
      refine ⟨_, F', _, ⟨isEmpty_orRoot t₁, hwf, hd, fun key' => ?_⟩, ?_,
        Leaves.updated hperm hm hK fun hs a ha => hsafe hs ▸ ha⟩
      · rw [hget, SortedMap.get_erase, h.get key']
        exact (hspec.2 rfl).symm
      · refine hsub.trans ?_
        rw [← append_assoc]
        exact (sublist_append_left _ _).subperm
    · intro e s' herr
      rcases bind_eq_error_iff.mp herr with hrem | ⟨r, s₁, -, hpure⟩
      · exact ⟨_, Leaves.failed hperm (hends.2 e s' hrem).2 hK hsafe⟩
      · cases hpure

end

/-! ## Sessions -/

/-- A trie that is worked on, with the root that was published last. -/
structure Session where
  store : NodeStore
  root : Nat
  published : Nat

/-- Updates and scopes, successful or failed, and a publish, which is never inside a scope. A failed
update goes unnoticed by the old root only if its path is spared. -/
inductive Session.Step (crc : Bytes → UInt32) (crypto : NodeCrypto) (io : Io) :
    Session → Session → Prop
  | done {c : Session} {op : TrieOp} {root' : Nat} {s' : NodeStore}
    (h : op.run crc crypto io c.root c.store = .ok root' s') :
      Step crc crypto io c ⟨s', root', c.published⟩
  | failed {c : Session} {op : TrieOp} {e : Error} {s' : NodeStore}
    (h : op.run crc crypto io c.root c.store = .error e s')
      (hsafe : PathSpared crc crypto c.store c.root op) :
        Step crc crypto io c ⟨s', c.root, c.published⟩
  | publish {c : Session} (h : c.store.alloc.reclaimFloor = none) :
    Step crc crypto io c { c with published := c.root }

/-- The root in use and the published one are maps, with their nodes among the nodes `X` that are
kept apart, those of the published one below the floor. -/
structure Session.Sound (crc : Bytes → UInt32) (crypto : NodeCrypto) (G : List Held)
    (parked : List BlockLoc) (fixed : Bool) (c : Session) (m mp : Entries) (t tp : Radix Bytes)
    (F Fp X : List Nat) : Prop where
  root : HoldsTree crc crypto m c.store.disk c.root t F
  published : HoldsTree crc crypto mp c.store.disk c.published tp Fp
  nodes : Nodes G parked fixed X c.store
  used : F.Subperm X
  kept : ∀ a ∈ Fp, a ∈ X
  below : ∀ a ∈ Fp, ¬ Reclaims c.store.alloc.reclaimFloor a

section

variable {crc : Bytes → UInt32} {crypto : NodeCrypto} {io : Io}
variable {G : List Held} {parked : List BlockLoc} {fixed : Bool} {c c' : Session} {m mp : Entries}
  {t tp : Radix Bytes} {F Fp X : List Nat}

section

variable (h : c.Sound crc crypto G parked fixed m mp t tp F Fp X)
include h

/-- An update keeps the nodes that are not its own. -/
theorem Session.Sound.copies (hlaw : crypto.Lawful) (op : TrieOp)
    (hop : op ≠ .beginScope ∧ op ≠ .endScope) :
    ∃ Z, X.Perm (F ++ Z) ∧ Copies crc crypto (Z.map nodeHeld ++ G) parked fixed c.store F
      (op.apply m) (op.run crc crypto io c.root)
      (PathSpared crc crypto c.store c.root op) := by
  obtain ⟨l, hl, hsub⟩ := h.used
  obtain ⟨Z, hZ⟩ := hsub.exists_perm_append
  have hZ := hZ.trans (hl.append_right Z)
  have hF : Nodes (Z.map nodeHeld ++ G) parked fixed F c.store :=
    nodes_frame.mpr (h.nodes.sub hZ.symm.subperm)
  refine ⟨Z, hZ, ?_⟩
  cases op with
  | put key val => exact put_copies hlaw h.root hF key val
  | remove key => exact remove_copies hlaw h.root hF key
  | beginScope => exact absurd rfl hop.1
  | endScope => exact absurd rfl hop.2

/-- What an update leaves of a session: the published nodes, and the old ones if it is `safe`. -/
theorem Session.Sound.leaves {Z X₁ : List Nat} {s' : NodeStore} {safe : Prop} (hZ : X.Perm (F ++ Z))
    (hl : Leaves (Z.map nodeHeld ++ G) parked fixed c.store s' F X₁ safe) :
    ∃ Y, Moved G parked fixed c.store s' (X₁ ++ Z) Y ∧ (∀ a ∈ Fp, a ∈ X₁ ++ Z ∧ a ∈ Y) ∧
      (safe → ∀ a ∈ F, a ∈ Y) := by
  obtain ⟨Y, hm, hkeep, hsafe⟩ := hl
  refine ⟨Y ++ Z, moved_frame.mp hm, fun a ha => ?_, fun hs a ha => mem_append_left _ (hsafe hs a ha)⟩
  rcases mem_append.mp (hZ.mem_iff.mp (h.kept a ha)) with hF | hZ
  · exact (hkeep a hF (h.below a ha)).imp (mem_append_left _) (mem_append_left _)
  · exact ⟨mem_append_right _ hZ, mem_append_right _ hZ⟩

theorem Session.Sound.scope {floor : Option Nat} (hfloor : ∀ a ∈ Fp, ¬ Reclaims floor a) :
    Session.Sound crc crypto G parked fixed
      ⟨{ c.store with alloc := { c.store.alloc with reclaimFloor := floor } }, c.root, c.published⟩
      m mp t tp F Fp X :=
  ⟨h.root, h.published, h.nodes.scope floor, h.used, h.kept, hfloor⟩

end

/-- What is kept apart when no scope is open lies below the floor of the scope that is opened. -/
theorem not_reclaims_begin {held : List Held} {s : NodeStore} (h : Owns held parked fixed s)
    (hfloor : s.alloc.reclaimFloor = none) {g : Held} (hg : g ∈ held) {x : Nat}
    (hx : x ∈ g.extent.bytes) : ¬ Reclaims s.alloc.beginReclaimScope.reclaimFloor x := by
  have hlt := ((h.owns.inv.placed g hg).mem_bounds (h.owns.forward g hg) hx).2
  rintro ⟨f, hf, hle⟩
  unfold Allocator.beginReclaimScope at hf
  rw [hfloor] at hf
  cases hf
  exact absurd hle (not_le.mpr hlt)

/-- A scope that is opened spares what the session has published. -/
theorem Session.Sound.below_begin (h : c.Sound crc crypto G parked fixed m mp t tp F Fp X) :
    ∀ a ∈ Fp, ¬ Reclaims c.store.alloc.beginReclaimScope.reclaimFloor a := by
  intro a ha
  have hbelow := h.below a ha
  have hself : a ∈ (nodeHeld a).extent.bytes :=
    mem_nodeHeld.mpr ⟨Nat.le_refl a, Nat.lt_add_of_pos_right (by decide)⟩
  have hlt := ((h.nodes.owns.inv.placed _ (mem_nodes (h.kept a ha))).mem_bounds
    (not_isTail_nodeHeld a) hself).2
  rintro ⟨f, hf, hle⟩
  unfold Allocator.beginReclaimScope at hf
  cases hfloor : c.store.alloc.reclaimFloor with
  | none =>
    rw [hfloor] at hf
    cases hf
    exact absurd hle (not_le.mpr hlt)
  | some floor =>
    rw [hfloor] at hf hbelow
    cases hf
    dsimp only at hle
    exact hbelow ⟨floor, rfl, by omega⟩

theorem Session.Step.sound (hlaw : crypto.Lawful)
    (h : ∃ m mp t tp F Fp X, c.Sound crc crypto G parked fixed m mp t tp F Fp X)
    (hstep : Session.Step crc crypto io c c') :
    ∃ m mp t tp F Fp X, c'.Sound crc crypto G parked fixed m mp t tp F Fp X := by
  obtain ⟨m, mp, t, tp, F, Fp, X, h⟩ := h
  cases hstep with
  | @done op root' s' hok =>
    by_cases hop : op ≠ .beginScope ∧ op ≠ .endScope
    · obtain ⟨Z, hZ, hcopies⟩ := h.copies hlaw op hop
      obtain ⟨t', F', X₁, ht', hsub, hl⟩ := hcopies.done hok
      obtain ⟨Y, hm, hpub, -⟩ := h.leaves hZ hl
      refine ⟨op.apply m, mp, t', tp, F', Fp, X₁ ++ Z, ht',
        h.published.moved hm fun a ha => (hpub a ha).2, hm.nodes, ?_, fun a ha =>
          (hpub a ha).1, fun a ha => ?_⟩
      · exact hsub.trans (sublist_append_left _ _).subperm
      · rw [hm.floor]
        exact h.below a ha
    · cases op with
      | put key val => exact absurd ⟨nofun, nofun⟩ hop
      | remove key => exact absurd ⟨nofun, nofun⟩ hop
      | beginScope =>
        cases hok
        exact ⟨m, mp, t, tp, F, Fp, X, h.scope h.below_begin⟩
      | endScope =>
        cases hok
        exact ⟨m, mp, t, tp, F, Fp, X, h.scope fun a _ hr => by obtain ⟨f, hf, -⟩ := hr; cases hf⟩
  | @failed op e s' herr hsafe =>
    by_cases hop : op ≠ .beginScope ∧ op ≠ .endScope
    · obtain ⟨Z, hZ, hcopies⟩ := h.copies hlaw op hop
      obtain ⟨X₁, hl, hX₁⟩ := hcopies.failed herr
      obtain ⟨Y, hm, hpub, hold⟩ := h.leaves hZ hl
      refine ⟨m, mp, t, tp, F, Fp, X₁ ++ Z, h.root.moved hm (hold hsafe),
        h.published.moved hm fun a ha => (hpub a ha).2, hm.nodes, ?_, fun a ha =>
          (hpub a ha).1, fun a ha => ?_⟩
      · exact (hX₁ hsafe).trans (sublist_append_left _ _).subperm
      · rw [hm.floor]
        exact h.below a ha
    · cases op with
      | put key val => exact absurd ⟨nofun, nofun⟩ hop
      | remove key => exact absurd ⟨nofun, nofun⟩ hop
      | beginScope => cases herr
      | endScope => cases herr
  | publish hfloor =>
    refine ⟨m, m, t, t, F, F, X, h.root, h.root, h.nodes, h.used, fun a ha => h.used.subset ha,
      fun a _ hr => ?_⟩
    rw [hfloor] at hr
    obtain ⟨f, hf, -⟩ := hr
    cases hf

theorem Session.sound_of_run (hlaw : crypto.Lawful)
    (h : ∃ m mp t tp F Fp X, c.Sound crc crypto G parked fixed m mp t tp F Fp X)
    (hrun : Relation.ReflTransGen (Session.Step crc crypto io) c c') :
    ∃ m mp t tp F Fp X, c'.Sound crc crypto G parked fixed m mp t tp F Fp X := by
  induction hrun with
  | refl => exact h
  | tail _ hstep ih => exact hstep.sound hlaw ih

/-- A trie of which the root in use is published. -/
def Session.Start (crc : Bytes → UInt32) (crypto : NodeCrypto) (G : List Held)
    (parked : List BlockLoc) (fixed : Bool) (c : Session) : Prop :=
  c.published = c.root ∧ c.store.alloc.reclaimFloor = none ∧ ∃ m,
    Holds crc crypto G parked fixed m c.root c.store

theorem Session.Start.sound (h : c.Start crc crypto G parked fixed) :
    ∃ m mp t tp F Fp X, c.Sound crc crypto G parked fixed m mp t tp F Fp X := by
  obtain ⟨hpub, hfloor, m, t, F, ht, hF⟩ := h
  refine ⟨m, m, t, t, F, F, F, ht, hpub ▸ ht, hF, .refl F, fun _ ha => ha, fun a _ hr => ?_⟩
  rw [hfloor] at hr
  obtain ⟨f, hf, -⟩ := hr
  cases hf

/-- In every session in which the updates that fail have their path spared, an update, whether it
succeeds or not, leaves the published root and its map alone. It gives only nodes back that lie
above the floor of the scope, below which everything lies that was there when the scope was opened,
and none of the tree it returns. If its path is spared, it leaves the old root and its map alone,
too. -/
theorem updates_copy_on_write (hlaw : crypto.Lawful) (hstart : c.Start crc crypto G parked fixed)
    (hrun : Relation.ReflTransGen (Session.Step crc crypto io) c c') (op : TrieOp)
    (hop : op ≠ .beginScope ∧ op ≠ .endScope) :
    (∀ held, Owns held parked fixed c'.store → c'.store.alloc.reclaimFloor = none →
      ∀ g ∈ held, ∀ x ∈ g.extent.bytes,
      ¬ Reclaims c'.store.alloc.beginReclaimScope.reclaimFloor x) ∧
    ∃ m mp t tp F Fp, HoldsTree crc crypto m c'.store.disk c'.root t F ∧
      HoldsTree crc crypto mp c'.store.disk c'.published tp Fp ∧
      ∀ s', (∃ root', op.run crc crypto io c'.root c'.store = .ok root' s') ∨
        (∃ e, op.run crc crypto io c'.root c'.store = .error e s') →
        (Undisturbed (Fp.map nodeHeld) c'.store.disk s'.disk ∧
          HoldsTree crc crypto mp s'.disk c'.published tp Fp) ∧
        (∀ x ∈ forwardFree s'.alloc, x ∈ forwardFree c'.store.alloc ∨
          Reclaims c'.store.alloc.reclaimFloor x) ∧
        (∀ root', op.run crc crypto io c'.root c'.store = .ok root' s' →
          ∃ t' F', HoldsTree crc crypto (op.apply m) s'.disk root' t' F' ∧
          ∀ a ∈ F', ∀ x ∈ (nodeHeld a).extent.bytes, x ∉ forwardFree s'.alloc) ∧
        (PathSpared crc crypto c'.store c'.root op →
          Undisturbed (F.map nodeHeld) c'.store.disk s'.disk ∧
            HoldsTree crc crypto m s'.disk c'.root t F) := by
  refine ⟨fun held hown hfloor g hg x hx => not_reclaims_begin hown hfloor hg hx, ?_⟩
  obtain ⟨m, mp, t, tp, F, Fp, X, h⟩ := Session.sound_of_run hlaw hstart.sound hrun
  obtain ⟨Z, hZ, hcopies⟩ := h.copies hlaw op hop
  refine ⟨m, mp, t, tp, F, Fp, h.root, h.published, fun s' hs' => ?_⟩
  have hleaves : ∃ X₁, Leaves (Z.map nodeHeld ++ G) parked fixed c'.store s' F X₁
      (PathSpared crc crypto c'.store c'.root op) := by
    rcases hs' with ⟨root', hok⟩ | ⟨e, herr⟩
    · obtain ⟨-, -, X₁, -, -, hl⟩ := hcopies.done hok
      exact ⟨X₁, hl⟩
    · obtain ⟨X₁, hl, -⟩ := hcopies.failed herr
      exact ⟨X₁, hl⟩
  obtain ⟨X₁, hl⟩ := hleaves
  obtain ⟨Y, hm, hpub, hold⟩ := h.leaves hZ hl
  have hsame : ∀ {K : List Nat},
      (∀ a ∈ K, a ∈ Y) → Undisturbed (K.map nodeHeld) c'.store.disk s'.disk := fun hK =>
    hm.same.mono fun g hg => sub_nodes hK g (mem_append_left _ hg)
  have hFp : ∀ a ∈ Fp, a ∈ Y := fun a ha => (hpub a ha).2
  refine ⟨⟨hsame hFp, h.published.moved hm hFp⟩, hm.freed, fun root' hok => ?_,
    fun hsafe => ⟨hsame (hold hsafe), h.root.moved hm (hold hsafe)⟩⟩
  obtain ⟨t', F', X₂, ht', hsub, Y₂, hm₂, -⟩ := hcopies.done hok
  refine ⟨t', F', ht', fun a ha x hx hfree => ?_⟩
  obtain ⟨r, -, hr⟩ := hfree
  exact hm₂.nodes.owns.inv.not_free _ (mem_nodes (hsub.subset ha)) x hx ⟨r, hr⟩

end

/-! ## A path that is not spared -/

section

variable {crc : Bytes → UInt32} {crypto : NodeCrypto} {io : Io} {s : NodeStore}

theorem NodeM.writeNodeBlock_ok (addr : Nat) (node : Node) (h : io.fault s.calls = none) :
    writeNodeBlock crc crypto io addr node s =
      .ok () { s with
        disk := s.disk.poke addr
          (nodeBlock crc crypto (io.nonce s.calls).toList addr node.kind node.encode)
        calls := s.calls + 1 } := by
  unfold writeNodeBlock
  rw [bind_of_ok call_eq]
  rw [h]
  rfl

/-- A write that fails when all of it has landed. -/
theorem NodeM.writeNodeBlock_late (addr : Nat) (node : Node) (h : io.fault s.calls = some baseBlock) :
    writeNodeBlock crc crypto io addr node s =
      .error (.io "write") { s with
        disk := s.disk.poke addr
          (nodeBlock crc crypto (io.nonce s.calls).toList addr node.kind node.encode)
        calls := s.calls + 1 } := by
  have hnonce : (io.nonce s.calls).toList.length = 12 := Vector.length_toList ..
  unfold writeNodeBlock
  rw [bind_of_ok call_eq]
  rw [h]
  dsimp only
  rw [take_of_length_le (le_of_eq (length_nodeBlock crc crypto hnonce addr node.kind node.encode))]
  rfl

theorem NodeM.allocNodeSpace_ok {a : Allocator} {addr : Nat}
    (hal : s.alloc.allocAligned none NODE_ALLOC_SIZE .catalogHead = (a, .ok ⟨addr, NODE_ALLOC_SIZE⟩))
    (hsmall : a.fileLen < 2 ^ 64) :
    ∃ d, allocNodeSpace s = .ok addr { disk := d, alloc := a, calls := s.calls } := by
  unfold allocNodeSpace Store.allocAligned
  rw [hal]
  dsimp only
  rw [if_pos hsmall]
  exact ⟨_, rfl⟩

theorem NodeM.allocNode_ok {a : Allocator} {addr : Nat} (node : Node)
    (hal : s.alloc.allocAligned none NODE_ALLOC_SIZE .catalogHead = (a, .ok ⟨addr, NODE_ALLOC_SIZE⟩))
    (hsmall : a.fileLen < 2 ^ 64) (h : ∀ i, s.calls ≤ i → i ≤ s.calls + 2 → io.fault i = none) :
    ∃ d, allocNode crc crypto io node s =
      .ok addr { disk := d, alloc := a, calls := s.calls + 3 } := by
  obtain ⟨d, hspace⟩ := allocNodeSpace_ok (s := { s with calls := s.calls + 1 }) hal hsmall
  unfold allocNode
  rw [bind_of_ok call_eq]
  dsimp only
  rw [h _ le_rfl (by omega), if_neg (by decide), bind_of_ok hspace,
    bind_of_ok (writeNodeBlock_ok _ node (h (s.calls + 1) (by omega) (by omega))),
    bind_of_ok (writeNodeBlock_ok _ node (h (s.calls + 2) (by omega) (by omega)))]
  exact ⟨_, rfl⟩

/-- An allocation whose last write fails when the node is there. -/
theorem NodeM.allocNode_late {a : Allocator} {addr : Nat} {node : Node} (hfits : node.Fits)
    (hlen : addr + NODE_ALLOC_SIZE ≤ s.disk.len)
    (hal : s.alloc.allocAligned none NODE_ALLOC_SIZE .catalogHead = (a, .ok ⟨addr, NODE_ALLOC_SIZE⟩))
    (hfile : a.fileLen = s.alloc.fileLen) (hsmall : a.fileLen < 2 ^ 64)
    (h : ∀ i, s.calls ≤ i → i ≤ s.calls + 1 → io.fault i = none)
    (hlate : io.fault (s.calls + 2) = some baseBlock) :
    ∃ s', allocNode crc crypto io node s = .error (.io "write") s' ∧
      NodeAt crc crypto s'.disk addr node := by
  have hspace : allocNodeSpace { s with calls := s.calls + 1 } =
      .ok addr { disk := s.disk, alloc := a, calls := s.calls + 1 } := by
    unfold allocNodeSpace Store.allocAligned
    rw [hal]
    dsimp only
    rw [if_pos hsmall, hfile, if_neg (lt_irrefl _)]
  unfold allocNode
  rw [bind_of_ok call_eq]
  dsimp only
  rw [h _ le_rfl (by omega), if_neg (by decide), bind_of_ok hspace,
    bind_of_ok (writeNodeBlock_ok _ node (h (s.calls + 1) (by omega) (by omega))),
    bind_of_error (writeNodeBlock_late _ node hlate)]
  have hnonce : (io.nonce (s.calls + 1 + 1)).toList.length = 12 := Vector.length_toList ..
  refine ⟨_, rfl, hfits, hlen, _, hnonce, ?_⟩
  have hblock := length_nodeBlock crc crypto hnonce addr node.kind node.encode
  rw [← hblock]
  exact Disk.peek_poke

end

/-- A file of 64 blocks without content. -/
def roomyStore : NodeStore where
  disk := ⟨64 * baseBlock, fun _ => 0⟩
  alloc := .new (64 * baseBlock) false
  calls := 0

theorem roomyStore_nodes : Nodes [] [] false [] roomyStore :=
  ⟨⟨rfl, .new (Dvd.intro_left _ rfl) (by decide) _, fun _ h => (nomatch h), rfl⟩, by decide, rfl⟩

/-- The last write of the second update fails after it has landed. -/
def lateIo : Io := ⟨fun i => if i = 17 then some baseBlock else none, fun _ => Vector.replicate 12 0⟩

theorem lateIo_fault {i : Nat} (h : i ≠ 17) : lateIo.fault i = none := if_neg h

/-- The allocator after the allocation of a node. -/
def nodeAlloc (a : Allocator) : Allocator := (a.allocAligned none NODE_ALLOC_SIZE .catalogHead).1

theorem allocAligned_eq {a : Allocator} {addr : Nat}
    (h : (a.allocAligned none NODE_ALLOC_SIZE .catalogHead).2 = .ok ⟨addr, NODE_ALLOC_SIZE⟩) :
    a.allocAligned none NODE_ALLOC_SIZE .catalogHead = (nodeAlloc a, .ok ⟨addr, NODE_ALLOC_SIZE⟩) :=
      Prod.ext rfl h

section

variable {s : NodeStore} {X : List Nat}

theorem alloc_next (addr : Nat) (node : Node) (hX : Nodes [] [] false X s) (hfits : node.Fits)
    {a : Allocator} (halloc : s.alloc = a)
    (hal : (a.allocAligned none NODE_ALLOC_SIZE .catalogHead).2 = .ok ⟨addr, NODE_ALLOC_SIZE⟩)
    (hsmall : (nodeAlloc a).fileLen < 2 ^ 64) (n : Nat) (hcalls : s.calls = n) (hn : n + 2 < 17) :
    ∃ s', allocNode crc32 plainCrypto lateIo node s = .ok addr s' ∧ s'.alloc = nodeAlloc a ∧
      s'.calls = n + 3 ∧
      Moved [] [] false s s' (addr :: X) X ∧ NodeAt crc32 plainCrypto s'.disk addr node := by
  subst halloc hcalls
  obtain ⟨d, hok⟩ :=
      @allocNode_ok crc32 plainCrypto lateIo s _ _ node (allocAligned_eq hal) hsmall fun i _ hi =>
    lateIo_fault (by omega)
  exact ⟨_, hok, rfl, rfl, (alloc_nodes crc32 plainCrypto lateIo hX node hfits).1 _ _ hok⟩

theorem read_next {addr : Nat} {node : Node} (hat : NodeAt crc32 plainCrypto s.disk addr node)
    {n : Nat} (hcalls : s.calls = n) (hn : n < 17) :
    readNode crc32 plainCrypto lateIo addr s = .ok node { s with calls := n + 1 } := by
  subst hcalls
  exact readNode_ok plainCrypto_lawful hat (lateIo_fault (by omega))

theorem NodeAt.moved {s' : NodeStore} {Y : List Nat} (hm : Moved [] [] false s s' X Y) {addr : Nat}
    (ha : addr ∈ Y) {node : Node} (hat : NodeAt crc32 plainCrypto s.disk addr node) :
    NodeAt crc32 plainCrypto s'.disk addr node :=
  hat.congr hm.len fun x hlo hhi => hm.same _ (mem_nodes ha) x (mem_nodeHeld.mpr ⟨hlo, hhi⟩)

end

theorem update_lt {slots : UInt8 → Nat} (hslots : ∀ c, slots c < 2 ^ 64) {addr : Nat}
    (h : addr < 2 ^ 64) (b c : UInt8) : Function.update slots b addr c < 2 ^ 64 := by
  by_cases hc : c = b
  · rw [hc, Function.update_self]
    exact h
  · rw [Function.update_of_ne hc]
    exact hslots c

theorem oneSlot_lt {addr : Nat} (h : addr < 2 ^ 64) (b c : UInt8) : oneSlot b addr c < 2 ^ 64 :=
  update_lt (fun _ => Nat.two_pow_pos 64) h b c

/-- The root of the empty trie. -/
theorem created :
    ∃ s, Trie.create crc32 plainCrypto lateIo roomyStore = .ok 8192 s ∧
      s.alloc = nodeAlloc roomyStore.alloc ∧ s.calls = 3 ∧
    Nodes [] [] false [8192] s ∧ NodeAt crc32 plainCrypto s.disk 8192 (.internal none fun _ => 0) := by
  obtain ⟨s, hok, halloc, hcalls, hm, hat⟩ :=
    alloc_next 8192 (.internal none fun _ => 0) roomyStore_nodes
    ⟨noTerm_fits, fun _ => Nat.two_pow_pos 64⟩ rfl rfl (by decide) 0 rfl (by decide)
  exact ⟨s, hok, halloc, hcalls, hm.nodes, hat⟩

/-- The allocator when the scope is open. -/
def scopeAlloc : Allocator := (nodeAlloc roomyStore.alloc).beginReclaimScope

/-- The first update of the scope, with a key that starts with 97. -/
theorem firstPut {s : NodeStore} (halloc : s.alloc = scopeAlloc) (hcalls : s.calls = 3)
    (hX : Nodes [] [] false [8192] s)
    (hat : NodeAt crc32 plainCrypto s.disk 8192 (.internal none fun _ => 0)) {rest : Bytes}
    (hrest : (97 :: rest).length ≤ MAX_KEY_LEN) :
    ∃ s', put crc32 plainCrypto lateIo 8192 (97 :: rest) [1] s = .ok 24576 s' ∧
      s'.alloc = nodeAlloc (nodeAlloc scopeAlloc) ∧ s'.calls = 10 ∧
      Nodes [] [] false [24576, 16384, 8192] s' ∧
        NodeAt crc32 plainCrypto s'.disk 16384 (.leaf (97 :: rest) [1]) ∧
      NodeAt crc32 plainCrypto s'.disk 24576 (.internal none (oneSlot 97 16384)) := by
  have hread := read_next hat hcalls (by decide)
  have hX₁ : Nodes [] [] false [8192] { s with calls := 4 } := hX.congr rfl
  obtain ⟨s₁, hleaf, halloc₁, hcalls₁, hm₁, hat₁⟩ :=
    alloc_next 16384 (.leaf (97 :: rest) [1]) hX₁ ⟨hrest, by decide⟩ halloc rfl (by decide)
    4 rfl (by decide)
  obtain ⟨s₂, hroot, halloc₂, hcalls₂, hm₂, hat₂⟩ :=
    alloc_next 24576 (.internal none (oneSlot 97 16384)) hm₁.nodes
    ⟨noTerm_fits, oneSlot_lt (by decide) 97⟩ halloc₁ rfl (by decide) 7 hcalls₁ (by decide)
  have hfree : (s₂.alloc.freeReclaimable ⟨8192, NODE_ALLOC_SIZE⟩).1 = s₂.alloc := by
    rw [halloc₂]
    rfl
  have hframe : putAt crc32 plainCrypto lateIo (97 :: rest) [1] 0 (97 :: rest) 8192 s =
      .ok 24576 s₂ := by
    unfold putAt superseding
    refine (bind_of_ok (?_ : _ = EStateM.Result.ok 24576 s₂)).trans ?_
    · rw [bind_of_ok hread]
      dsimp only
      exact (bind_of_ok hleaf).trans hroot
    · show EStateM.Result.ok 24576 { s₂
        with alloc := (s₂.alloc.freeReclaimable ⟨8192, NODE_ALLOC_SIZE⟩).1 } = _
      rw [hfree]
  have hbounds : checkBounds (97 :: rest) [1] = .ok () := by
    unfold checkBounds
    rw [if_neg (not_lt.mpr hrest)]
    rfl
  refine ⟨s₂, ?_, halloc₂, hcalls₂, hm₂.nodes, hat₁.moved hm₂ (.head _), hat₂⟩
  unfold put
  rw [hbounds]
  exact hframe

/-- A key is put in a scope; the update that puts another one leaves the published root, without a
key, and the root with the first key alone, whether it succeeds or not. -/
theorem updates_copy_on_write_scoped :
    ∃ s s₁, Trie.create crc32 plainCrypto lateIo roomyStore = .ok 8192 s ∧
    put crc32 plainCrypto lateIo 8192 [97] [1] { s with alloc := s.alloc.beginReclaimScope } =
      .ok 24576 s₁ ∧
    Session.Start crc32 plainCrypto [] [] false ⟨s, 8192, 8192⟩ ∧
      Reclaims s₁.alloc.reclaimFloor 24576 ∧
    ∃ m mp t tp F Fp, HoldsTree crc32 plainCrypto m s₁.disk 24576 t F ∧
      HoldsTree crc32 plainCrypto mp s₁.disk 8192 tp Fp ∧
      ∀ s', (∃ root', put crc32 plainCrypto lateIo 24576 [98] [2] s₁ = .ok root' s') ∨
        (∃ e, put crc32 plainCrypto lateIo 24576 [98] [2] s₁ = .error e s') →
          HoldsTree crc32 plainCrypto mp s'.disk 8192 tp Fp ∧
            HoldsTree crc32 plainCrypto m s'.disk 24576 t F := by
  obtain ⟨s, hcreate, halloc, hcalls, hX, hat⟩ := created
  have hscope : s.alloc.beginReclaimScope = scopeAlloc := congrArg Allocator.beginReclaimScope halloc
  obtain ⟨s₁, hput, halloc₁, -, -, -, hroot⟩ :=
    @firstPut { s with alloc := s.alloc.beginReclaimScope } hscope hcalls (hX.scope _) hat []
      (by decide)
  have hfloor : s.alloc.reclaimFloor = none := by
    rw [halloc]
    rfl
  have hstart : Session.Start crc32 plainCrypto [] [] false ⟨s, 8192, 8192⟩ := by
    refine ⟨rfl, hfloor, .empty, orRoot .empty, [8192], ?_⟩
    obtain ⟨hm, hd⟩ := (create_ends crc32 lateIo roomyStore_nodes).1 _ _ hcreate
    refine ⟨⟨rfl, ⟨Nat.zero_le _, fun _ => trivial⟩, hd, fun key => ?_⟩, hm.nodes⟩
    cases key <;> rfl
  have hscoped : TrieOp.run crc32 plainCrypto lateIo 8192 .beginScope s =
    .ok 8192 { s with alloc := s.alloc.beginReclaimScope } := rfl
  have hfirst : TrieOp.run crc32 plainCrypto lateIo 8192 (.put [97] [1])
    { s with alloc := s.alloc.beginReclaimScope } = .ok 24576 s₁ := hput
  have hrun : Relation.ReflTransGen (Session.Step crc32 plainCrypto lateIo) ⟨s, 8192, 8192⟩
      ⟨s₁, 24576, 8192⟩ :=
    .tail (.single (.done hscoped)) (.done hfirst)
  -- only the root is on the path of the second key
  have hpath : PathSpared crc32 plainCrypto s₁ 24576 (.put [98] [2]) := by
    intro a ha
    rw [pathAt_internal crc32 plainCrypto (hroot.read plainCrypto_lawful), if_pos (by decide)] at ha
    cases ha
  obtain ⟨-, m, mp, t, tp, F, Fp, ht, htp, hcow⟩ :=
    updates_copy_on_write plainCrypto_lawful hstart hrun (.put [98] [2]) ⟨nofun, nofun⟩
  refine ⟨s, s₁, hcreate, hput, hstart, ?_, m, mp, t, tp, F, Fp, ht, htp, fun s' hs' => ?_⟩
  · rw [halloc₁]
    decide
  · exact ⟨(hcow s' hs').1.2, ((hcow s' hs').2.2.2 hpath).2⟩

/-- The second update of the scope fails: the node above the leaf has taken the place of the
leaf. -/
theorem secondPut {s : NodeStore} (halloc : s.alloc = nodeAlloc (nodeAlloc scopeAlloc))
    (hcalls : s.calls = 10) (hX : Nodes [] [] false [24576, 16384, 8192] s)
    (hleaf : NodeAt crc32 plainCrypto s.disk 16384 (.leaf [97] [1]))
    (hroot : NodeAt crc32 plainCrypto s.disk 24576 (.internal none (oneSlot 97 16384))) :
    ∃ e s', put crc32 plainCrypto lateIo 24576 [97] [2] s = .error e s' ∧
      Trie.get crc32 plainCrypto s'.disk 24576 [97] = .ok none := by
  have hread := read_next hroot hcalls (by decide)
  have hread₁ : readNode crc32 plainCrypto lateIo 16384 { s with calls := 11 } =
      .ok (.leaf [97] [1]) { s with calls := 12 } :=
    @read_next { s with calls := 11 } _ _ hleaf 11 rfl (by decide)
  have hX₁ : Nodes [] [] false [24576, 16384, 8192] { s with calls := 12 } := hX.congr rfl
  obtain ⟨s₁, hnew, halloc₁, hcalls₁, hm₁, -⟩ :=
    alloc_next 32768 (.leaf [97] [2]) hX₁ ⟨by decide, by decide⟩ halloc rfl (by decide)
    12 rfl (by decide)
  -- the old leaf is given back
  have hperm : [16384, 32768, 24576, 8192].Perm [32768, 24576, 16384, 8192] := by decide
  have hfree : freeNodeCow 16384 s₁ =
    .ok () { s₁ with alloc := (s₁.alloc.freeReclaimable ⟨16384, NODE_ALLOC_SIZE⟩).1 } := rfl
  have hfreed := (free_nodes (C := IoError lateIo false) (E := fun _ => True)
    (hm₁.nodes.sub hperm.subperm)).1 _ _ hfree
  have hX₂ := hfreed.1.nodes.sub (sublist_append_right _ _).subperm
  -- and taken for the node above it
  obtain ⟨s₂, hlate, hat⟩ := @allocNode_late crc32 plainCrypto lateIo
    { s₁ with alloc := (s₁.alloc.freeReclaimable ⟨16384, NODE_ALLOC_SIZE⟩).1 }
    (nodeAlloc (s₁.alloc.freeReclaimable ⟨16384, NODE_ALLOC_SIZE⟩).1) 16384
    (.internal none (Function.update (oneSlot 97 16384) 97 32768))
      ⟨noTerm_fits, update_lt (oneSlot_lt (by decide) 97) (by decide) 97⟩
    (hm₁.nodes.node_bounds (mem_nodes (.tail _ (.tail _ (.head _))))).2.1
      (allocAligned_eq (by rw [halloc₁]; rfl)) (by rw [halloc₁]; rfl)
    (by rw [halloc₁]; decide) (fun i _ hi => lateIo_fault (by dsimp only at hi; omega))
      (by rw [hcalls₁]; rfl)
  have hm₂ := ((alloc_nodes crc32 plainCrypto lateIo hX₂ _ hat.1).2 _ _ hlate).2
  have hkept : NodeAt crc32 plainCrypto s₂.disk 24576 (.internal none (oneSlot 97 16384)) :=
    ((NodeAt.moved hm₁ (.head _) hroot).moved hfreed.1 (.tail _ (.tail _ (.head _)))).moved hm₂
      (.tail _ (.head _))
  have hchild : putAt crc32 plainCrypto lateIo [97] [2] 1 [] 16384 { s with calls := 11 } =
      .ok 32768 { s₁ with alloc := (s₁.alloc.freeReclaimable ⟨16384, NODE_ALLOC_SIZE⟩).1 } := by
    unfold putAt superseding
    refine (bind_of_ok (?_ : _ = EStateM.Result.ok 32768 s₁)).trans rfl
    rw [bind_of_ok hread₁]
    dsimp only
    exact hnew
  have hput : putAt crc32 plainCrypto lateIo [97] [2] 0 [97] 24576 s = .error (.io "write") s₂ := by
    unfold putAt superseding
    refine bind_of_error ?_
    rw [bind_of_ok hread]
    dsimp only
    exact (bind_of_ok hchild).trans hlate
  refine ⟨_, s₂, hput, ?_⟩
  unfold Trie.get
  rw [getAt_cons (hkept.read plainCrypto_lawful), if_neg (by decide)]
  exact getAt_nil (hat.read plainCrypto_lawful)

/-- In a scope a key is put twice. The second update fails, and the root before it has lost the
key. -/
theorem failed_put_changes_old_root :
    ∃ s s₁ s₂ e, Trie.create crc32 plainCrypto lateIo roomyStore = .ok 8192 s ∧
    put crc32 plainCrypto lateIo 8192 [97] [1] { s with alloc := s.alloc.beginReclaimScope } =
      .ok 24576 s₁ ∧
    Trie.get crc32 plainCrypto s₁.disk 24576 [97] = .ok (some [1]) ∧
    put crc32 plainCrypto lateIo 24576 [97] [2] s₁ = .error e s₂ ∧
    Trie.get crc32 plainCrypto s₂.disk 24576 [97] = .ok none := by
  obtain ⟨s, hcreate, halloc, hcalls, hX, hat⟩ := created
  obtain ⟨s₁, hput₁, halloc₁, hcalls₁, hX₁, hleaf, hroot⟩ :=
    @firstPut { s with alloc := s.alloc.beginReclaimScope }
    (congrArg Allocator.beginReclaimScope halloc) hcalls (hX.scope _) hat [] (by decide)
  obtain ⟨e, s₂, hput₂, hget⟩ := secondPut halloc₁ hcalls₁ hX₁ hleaf hroot
  refine ⟨s, s₁, s₂, e, hcreate, hput₁, ?_, hput₂, hget⟩
  unfold Trie.get
  rw [getAt_cons (hroot.read plainCrypto_lawful), if_neg (by decide)]
  exact getAt_leaf (hleaf.read plainCrypto_lawful)

end Sfs.Catalog

import Sfs.Catalog.Node
import Sfs.Container.Placing

/-!
# Placing catalog nodes

The storage calls of a catalog update: a node is read, a new one is allocated and written, a
superseded one is given back if it lies above the floor of the running reclaim scope. The calls
that fail, what a failing write leaves and the nonces come from outside, one for each call.

`Owns held` says which extents the allocator keeps apart. A new node leaves all of them alone
(`allocNode_ends`); giving one back leaves the bytes alone (`freeNodeCow_ends`).
-/

namespace Sfs.Catalog

open Sfs.Lib Sfs.Container Allocator

variable {a : Allocator} {x addr : Nat} {E : NodeStore → Prop} {node : Node}

section

variable (crc : Bytes → UInt32) (crypto : NodeCrypto)

/-- What happens outside: the calls that fail, a write with what it leaves, and the nonces. -/
structure Io where
  fault : Nat → Option Nat
  nonce : Nat → Vector UInt8 12

structure NodeStore extends Store where
  /-- the storage calls so far -/
  calls : Nat

abbrev NodeM := EStateM Error NodeStore

namespace NodeM

variable (io : Io)

/-- The number of the next call and whether it fails. -/
def call : NodeM (Nat × Option Nat) :=
  fun s => .ok (s.calls, io.fault s.calls) { s with calls := s.calls + 1 }

def readNode (addr : Nat) : NodeM Node := do
  let (_, fault) ← call io
  if fault.isSome then throw (.io "read") else ofExcept (Node.read crc crypto (← get).disk addr)

def writeNodeBlock (addr : Nat) (node : Node) : NodeM Unit := do
  let (i, fault) ← call io
  let block := nodeBlock crc crypto (io.nonce i).toList addr node.kind node.encode
  match fault with
  | none => modify fun s => { s with disk := s.disk.poke addr block }
  | some landed =>
    modify fun s => { s with disk := s.disk.poke addr (block.take landed) }
    throw (.io "write")

/-- Space for a node; a file has less than `2 ^ 64` bytes. -/
def allocNodeSpace : NodeM Nat := fun s =>
  match s.toStore.allocAligned NODE_ALLOC_SIZE .catalogHead with
  | (store, .error e) => .error e { s with toStore := store }
  | (store, .ok loc) => if store.alloc.fileLen < 2 ^ 64 then .ok loc.addr
    { s with toStore := store } else .error (.io "set_len") s

/-- `alloc_and_write_node_cow`: the backup is written first. -/
def allocNode (node : Node) : NodeM Nat := do
  let (_, fault) ← call io
  if fault.isSome then throw (.io "alloc")
  else
    let addr ← allocNodeSpace
    writeNodeBlock crc crypto io (addr + baseBlock) node
    writeNodeBlock crc crypto io addr node
    return addr

def freeNodeCow (addr : Nat) : NodeM Unit :=
  modify fun s => { s with alloc := (s.alloc.freeReclaimable ⟨addr, NODE_ALLOC_SIZE⟩).1 }

end NodeM

end

/-! ## Allocator facts -/

open NodeM

/-- The file cannot grow: it is a fixed device, or it would be too long. -/
def NoSpace (fixed : Bool) (e : Error) : Prop :=
  (fixed = true ∧ ∃ fileLen by' : Nat, e = .io ("container is on a fixed " ++ toString fileLen ++
    "-byte device and cannot grow to " ++ toString (fileLen + by') ++
      " bytes (free space by evicting history or trimming)")) ∨ e = .io "set_len"

/-- Errors of the storage: a call that fails, or no space. -/
def IoError (io : Io) (fixed : Bool) (e : Error) : Prop :=
  (∃ i, (io.fault i).isSome ∧ ∃ what, e = .io what) ∨ NoSpace fixed e

/-- An allocation that fails changes nothing. -/
theorem allocAligned_failed {a' : Allocator} {len : Nat} {r : Region} {e : Error}
    (h : a.allocAligned none len r = (a', .error e)) : NoSpace a.noGrow e ∧ a' = a := by
  rcases allocAligned_cases h with ⟨_, -, hres, -⟩ | ⟨-, ⟨_, hroom, hres⟩ | ⟨_, -, hres, -⟩⟩ <;>
    cases hres
  obtain ⟨hfixed, herr, rfl⟩ := ensureRoom_refused hroom
  unfold growFor at herr
  rw [if_pos hfixed] at herr
  cases herr
  exact ⟨.inl ⟨hfixed, _, _, rfl⟩, rfl⟩

theorem free_reclaimFloor (a : Allocator) (loc : BlockLoc) :
    (a.free loc).1.reclaimFloor = a.reclaimFloor := by
  rcases a.free_cases loc with ⟨-, h⟩ | ⟨r, _, h⟩ <;> rw [h]
  cases r <;> rfl

theorem free_noGrow (a : Allocator) (loc : BlockLoc) : (a.free loc).1.noGrow = a.noGrow := by
  rcases a.free_cases loc with ⟨-, h⟩ | ⟨r, _, h⟩ <;> rw [h]
  cases r <;> rfl

/-- The free bytes in front of the eviction tail. -/
def forwardFree (a : Allocator) : Set Nat := { x | ∃ r, r ≠ .evictionTail ∧ x ∈ cover (a.freelist r) }

theorem allocAligned_forwardFree {held : List Held} (hinv : Inv a held) {len : Nat} {r : Region}
    (h : x ∈ forwardFree (a.allocAligned none len r).1) : x ∈ forwardFree a := by
  obtain ⟨r', hr', hx⟩ := h
  refine ⟨r', hr', ?_⟩
  obtain ⟨_, _, _, _, _, hframe⟩ := a.ensureRoom_frame none (footprint len)
  have hroom : (a.ensureRoom none (footprint len)).1.freelist r' = a.freelist r' := by
    rw [hframe]
    cases r' <;> first | rfl | exact absurd rfl hr'
  rcases allocAligned_cases (Prod.mk.eta (p := a.allocAligned none len r)).symm with
    ⟨addr, hfit, -, heq⟩ | ⟨-, ⟨e, heq, -⟩ | ⟨a₁, heq, -, hbump⟩⟩
  · obtain ⟨e, he, rfl, hlen⟩ := firstFit_some hfit
    have hsize : 0 < footprint len := lt_of_lt_of_le baseBlock_pos (baseBlock_le_footprint len)
    obtain ⟨-, hcover⟩ := removeRange_spec (hinv.spaced r) hsize he le_rfl (Nat.add_le_add_left hlen _)
    have hx : x ∈ cover
        ((a.setFreelist (removeRange (a.freelist r) e.start (footprint len)) r).freelist r') := by
      rw [heq] at hx
      cases r' <;> exact hx
    rw [freelist_setFreelist] at hx
    split at hx
    · rename_i heq
      rw [heq]
      exact ((hcover x).mp hx).1
    · exact hx
  · rw [heq] at hroom
    rwa [← hroom]
  · rw [heq] at hroom
    rw [hbump] at hx
    rw [← hroom]
    cases r <;> cases r' <;> exact hx

theorem free_forwardFree {held : List Held} (hinv : Inv a held) {loc : BlockLoc}
    (h : x ∈ forwardFree (a.free loc).1) : x ∈ forwardFree a ∨ loc.addr ≤ x := by
  obtain ⟨r', hr', hx⟩ := h
  rcases a.free_cases loc with ⟨-, heq⟩ | ⟨region, _, heq⟩ <;> rw [heq] at hx
  · exact .inl ⟨r', hr', hx⟩
  rw [freelist_setFreelist] at hx
  split at hx
  · rename_i heq
    have hsize : 0 < footprint loc.len := lt_of_lt_of_le baseBlock_pos (baseBlock_le_footprint loc.len)
    rcases ((insertRange_spec (hinv.spaced region) loc.addr hsize).2 x).mp hx with hin | hx
    · exact .inr hin.1
    · exact .inl ⟨region, heq ▸ hr', hx⟩
  · exact .inl ⟨r', hr', by cases r' <;> exact hx⟩

/-! ## Owned extents -/

/-- The extent of a node. -/
def nodeHeld (addr : Nat) : Held := ⟨addr, NODE_ALLOC_SIZE, .aligned .catalogHead⟩

theorem footprint_node : footprint NODE_ALLOC_SIZE = NODE_ALLOC_SIZE := by decide

theorem mem_nodeHeld : x ∈ (nodeHeld addr).extent.bytes ↔ addr ≤ x ∧ x < addr + NODE_ALLOC_SIZE := by
  show addr ≤ x ∧ x < addr + footprint NODE_ALLOC_SIZE ↔ _
  rw [footprint_node]

theorem not_isTail_nodeHeld (addr : Nat) : ¬ (nodeHeld addr).isTail := nofun

/-- The allocator keeps the extents `held` apart from all else, and the file is not too long;
`fixed` if it cannot grow. -/
structure Owns (held : List Held) (parked : List BlockLoc) (fixed : Bool) (s : NodeStore) : Prop where
  owns : s.toStore.Owns held parked
  small : s.alloc.fileLen < 2 ^ 64
  device : s.alloc.noGrow = fixed

variable {held held' : List Held} {parked : List BlockLoc} {fixed : Bool} {s : NodeStore}

theorem Owns.mono (h : Owns held parked fixed s) (hsub : held'.Subperm held) :
    Owns held' parked fixed s :=
  ⟨h.owns.mono hsub, h.small, h.device⟩

/-- Only the number of the next call changed. -/
theorem Owns.congr (h : Owns held parked fixed s) {s' : NodeStore} (hs : s'.toStore = s.toStore) :
    Owns held parked fixed s' :=
  ⟨hs ▸ h.owns, hs ▸ h.small, hs ▸ h.device⟩

/-- A node lies behind the header and in the file. -/
theorem Owns.node_bounds (h : Owns held parked fixed s) (hmem : nodeHeld addr ∈ held) :
    2 * baseBlock ≤ addr ∧ addr + NODE_ALLOC_SIZE ≤ s.disk.len ∧ addr < 2 ^ 64 := by
  have hp := h.owns.inv.placed _ hmem
  have hb := h.owns.inv.toBounds
  simp only [Placed, nodeHeld, lo, hi] at hp
  rw [footprint_node] at hp
  have hlen := h.owns.len
  have hsmall := h.small
  have hle : s.alloc.liveHwm ≤ s.alloc.fileLen := hb.hwm_le.trans (hb.tail_le.trans hb.limit_le)
  exact ⟨hp.2.1, by omega, by omega⟩

/-- A node at `addr` is given back when it is superseded. -/
def Reclaims (floor : Option Nat) (addr : Nat) : Prop := ∃ f ∈ floor, f ≤ addr

instance (floor : Option Nat) (addr : Nat) : Decidable (Reclaims floor addr) :=
  decidable_of_iff (floor.any (· ≤ addr) = true) (by simp [Reclaims, Option.any_eq_true])

/-! ## What the calls leave -/

section

variable (crc : Bytes → UInt32) (crypto : NodeCrypto) (io : Io)

/-- The state `s'` owns `held` and the bytes of `kept` are those of `s`. -/
structure Kept (s s' : NodeStore) (held : List Held) (kept : List Held) (parked : List BlockLoc)
    (fixed : Bool) : Prop where
  owns : Owns held parked fixed s'
  same : Undisturbed kept s.disk s'.disk
  len : s.disk.len ≤ s'.disk.len
  floor : s'.alloc.reclaimFloor = s.alloc.reclaimFloor
  /-- only what lies above the floor is given back -/
  freed : ∀ x ∈ forwardFree s'.alloc, x ∈ forwardFree s.alloc ∨ Reclaims s.alloc.reclaimFloor x

theorem Kept.refl (h : Owns held parked fixed s) (kept : List Held) :
    Kept s s held kept parked fixed :=
  ⟨h, .refl _ _, le_rfl, rfl, fun _ hx => .inl hx⟩

theorem Kept.trans {s₁ s₂ : NodeStore} {held₁ held₂ kept₁ kept₂ kept : List Held}
    (h : Kept s s₁ held₁ kept₁ parked fixed) (h' : Kept s₁ s₂ held₂ kept₂ parked fixed)
    (hk : ∀ g ∈ kept, g ∈ kept₁) (hk' : ∀ g ∈ kept, g ∈ kept₂) :
    Kept s s₂ held₂ kept parked fixed :=
  ⟨h'.owns, (h.same.mono hk).trans (h'.same.mono hk'), h.len.trans h'.len, h'.floor.trans h.floor,
    fun x hx => (h'.freed x hx).elim (h.freed x) fun hr => .inr (h.floor ▸ hr)⟩

theorem NodeM.call_bind {α : Type} {C : Error → Prop} {k : Nat × Option Nat → NodeM α}
    {Q : α → NodeStore → Prop}
    (h : Ends C (k (s.calls, io.fault s.calls)) { s with calls := s.calls + 1 } Q E) :
    Ends C (call io >>= k) s Q E :=
  h

theorem NodeM.readNode_ends {Q : Node → NodeStore → Prop}
    (hread : Node.read crc crypto s.disk addr = .ok node)
    (hQ : Q node { s with calls := s.calls + 1 }) (hE : E { s with calls := s.calls + 1 }) :
    Ends (IoError io fixed) (readNode crc crypto io addr) s Q E := by
  refine call_bind io ?_
  dsimp only
  split
  · rename_i hfault
    exact Ends.throw (.inl ⟨_, hfault, _, rfl⟩) hE
  · refine Ends.get ?_
    rw [hread]
    exact Ends.pure hQ

theorem NodeM.allocNodeSpace_ends (h : Owns held parked fixed s) :
    Ends (IoError io fixed) allocNodeSpace s
      (fun addr s' => Kept s s' (nodeHeld addr :: held) held parked fixed)
      (fun s' => Kept s s' held held parked fixed) := by
  rcases hal : s.alloc.allocAligned none NODE_ALLOC_SIZE .catalogHead with ⟨a, res⟩
  cases res with
  | error e =>
    obtain ⟨hio, rfl⟩ := allocAligned_failed hal
    have hstore : s.toStore.allocAligned NODE_ALLOC_SIZE .catalogHead = (s.toStore, .error e) := by
      unfold Store.allocAligned
      rw [hal]
      dsimp only
      rw [if_neg (lt_irrefl _)]
    unfold Ends allocNodeSpace
    rw [hstore]
    refine ⟨fun _ _ h => (nomatch h), ?_⟩
    rintro _ _ ⟨⟩
    exact ⟨.inr (h.device ▸ hio), .refl h held⟩
  | ok loc =>
    have hle := allocAligned_le h.owns.inv hal
    obtain ⟨-, hfloor, hgrow⟩ := s.alloc.allocAligned_frame none NODE_ALLOC_SIZE .catalogHead
    rw [hal] at hfloor hgrow
    obtain ⟨store, hstore, halloc⟩ :
      ∃ store, s.toStore.allocAligned NODE_ALLOC_SIZE .catalogHead = (store, .ok loc) ∧
        store.alloc = a := by
      unfold Store.allocAligned
      rw [hal]
      exact ⟨_, rfl, rfl⟩
    have hlends : Lends s.toStore store held (nodeHeld loc.addr) := h.owns.allocAligned (by
      unfold StoreM.allocAligned StoreM.ofPair
      dsimp only
      rw [hstore])
    unfold Ends allocNodeSpace
    rw [hstore]
    dsimp only
    split
    · rename_i hsmall
      refine ⟨?_, fun _ _ h => (nomatch h)⟩
      rintro _ _ ⟨⟩
      refine ⟨⟨⟨hlends.len, hlends.inv, ?_, hlends.deferred.trans h.owns.deferred⟩, hsmall, ?_⟩,
        hlends.kept, ?_, ?_, fun x hx => .inl ?_⟩
      · rintro g (_ | ⟨_, hg⟩)
        · exact not_isTail_nodeHeld _
        · exact h.owns.forward g hg
      · show store.alloc.noGrow = _
        rw [halloc]
        exact hgrow.trans h.device
      · show s.disk.len ≤ store.disk.len
        rw [h.owns.len, hlends.len, halloc]
        exact hle
      · show store.alloc.reclaimFloor = _
        rw [halloc]
        exact hfloor
      · have hx : x ∈ forwardFree store.alloc := hx
        rw [halloc] at hx
        rw [show a = (s.alloc.allocAligned none NODE_ALLOC_SIZE .catalogHead).1
          from (congrArg Prod.fst hal).symm] at hx
        exact allocAligned_forwardFree h.owns.inv hx
    · refine ⟨fun _ _ h => (nomatch h), ?_⟩
      rintro _ _ ⟨⟩
      exact ⟨.inr (.inr rfl), .refl h held⟩

theorem Kept.poke {s s' : NodeStore} {pos : Nat} (bs : Bytes)
    (h : Kept s s' (nodeHeld addr :: held) held parked fixed) (hlo : addr ≤ pos)
    (hhi : pos + bs.length ≤ addr + NODE_ALLOC_SIZE) :
    Kept s { s' with disk := s'.disk.poke pos bs, calls := s'.calls + 1 }
      (nodeHeld addr :: held) held parked fixed := by
  refine ⟨⟨⟨h.owns.owns.len, h.owns.owns.inv, h.owns.owns.forward, h.owns.owns.deferred⟩,
    h.owns.small, h.owns.device⟩, ?_, h.len, h.floor, h.freed⟩
  intro g hg x hx
  refine Eq.trans ?_ (h.same g hg x hx)
  show (s'.disk.poke pos bs).byte x = _
  refine Disk.tear_byte_outside ?_
  by_contra hout
  have hin : addr ≤ x ∧ x < addr + NODE_ALLOC_SIZE := by omega
  have hdis := (List.pairwise_cons.mp h.owns.owns.inv.disjoint).1 g hg
  exact Set.disjoint_left.mp hdis (mem_nodeHeld.mpr hin) hx

theorem NodeM.writeNodeBlock_ends {s₀ : NodeStore} (pos : Nat) (node : Node)
    (h : Kept s₀ s (nodeHeld addr :: held) held parked fixed) (hlo : addr ≤ pos)
    (hhi : pos + baseBlock ≤ addr + NODE_ALLOC_SIZE) :
    Ends (IoError io fixed) (writeNodeBlock crc crypto io pos node) s
      (fun _ s' => Kept s₀ s' (nodeHeld addr :: held) held parked fixed ∧ ∃ nonce : Bytes,
        nonce.length = 12 ∧
        s'.disk = s.disk.poke pos (nodeBlock crc crypto nonce pos node.kind node.encode))
      (fun s' => Kept s₀ s' (nodeHeld addr :: held) held parked fixed) := by
  unfold writeNodeBlock
  refine call_bind io ?_
  have hlen : (nodeBlock crc crypto (io.nonce s.calls).toList pos node.kind node.encode).length =
      baseBlock :=
    length_nodeBlock crc crypto (Vector.length_toList ..) _ _ _
  dsimp only
  split
  · refine Ends.modify ⟨h.poke _ hlo (by rw [hlen]; exact hhi), _, Vector.length_toList .., rfl⟩
  rename_i landed hfault
  have hpoke := h.poke
    ((nodeBlock crc crypto (io.nonce s.calls).toList pos node.kind node.encode).take landed) hlo
    (by rw [List.length_take, hlen]; omega)
  refine Ends.bind (Q := fun _ s' => Kept s₀ s' (nodeHeld addr :: held) held parked fixed) ?_
    fun _ _ hs => Ends.throw (.inl ⟨s.calls, hfault ▸ rfl, _, rfl⟩) hs
  exact Ends.modify hpoke

/-- A new node leaves what is owned alone, also if it fails. -/
theorem NodeM.allocNode_ends (h : Owns held parked fixed s) (hfits : node.Fits) :
    Ends (IoError io fixed) (allocNode crc crypto io node) s
      (fun addr s' => Kept s s' (nodeHeld addr :: held) held parked fixed ∧
        NodeAt crc crypto s'.disk addr node)
      (fun s' => Kept s s' held held parked fixed) := by
  unfold allocNode
  refine call_bind io ?_
  have hcall : Kept s { s with calls := s.calls + 1 } held held parked fixed :=
    ⟨h.congr rfl, .refl _ _, le_rfl, rfl, fun _ hx => .inl hx⟩
  dsimp only
  split
  · rename_i hfault
    exact Ends.throw (.inl ⟨_, hfault, _, rfl⟩) hcall
  have hdrop : ∀ {addr : Nat} {s' : NodeStore},
      Kept s s' (nodeHeld addr :: held) held parked fixed → Kept s s' held held parked fixed :=
    fun hk => ⟨hk.owns.mono (List.sublist_cons_self _ _).subperm, hk.same, hk.len, hk.floor, hk.freed⟩
  have hself : ∀ g ∈ held, g ∈ held := fun _ hg => hg
  have hspace : Ends (IoError io fixed) allocNodeSpace _
    (fun addr s' => Kept s s' (nodeHeld addr :: held) held parked fixed)
      (fun s' => Kept s s' held held parked fixed) :=
    (allocNodeSpace_ends io hcall.owns).mono (fun _ _ hk => hcall.trans hk hself hself)
      (fun _ hk => hcall.trans hk hself hself)
  refine hspace.bind fun addr s₂ h₂ => ?_
  have hsize : NODE_ALLOC_SIZE = baseBlock + baseBlock := by decide
  have hbackup := writeNodeBlock_ends crc crypto io (addr + baseBlock) node h₂ (by omega) (by omega)
  refine (hbackup.failing (fun _ hk => hdrop hk)).bind fun _ s₃ h₃ => ?_
  have hprimary := writeNodeBlock_ends crc crypto io addr node h₃.1 le_rfl (by omega)
  refine (hprimary.failing (fun _ hk => hdrop hk)).bind fun _ s₄ h₄ => Ends.pure ⟨h₄.1, hfits, ?_, ?_⟩
  · exact (h₄.1.owns.node_bounds (.head _)).2.1
  obtain ⟨nonce, hn, hdisk⟩ := h₄.2
  refine ⟨nonce, hn, ?_⟩
  have hlen := length_nodeBlock crc crypto hn addr node.kind node.encode
  rw [hdisk, ← hlen]
  exact Disk.peek_poke

/-! ## Giving nodes back -/

theorem NodeM.freeNodeCow_ends {C : Error → Prop} (h : Owns (nodeHeld addr :: held) parked fixed s) :
    Ends C (freeNodeCow addr) s
      (fun _ s' => Kept s s' (if Reclaims s.alloc.reclaimFloor addr then held
        else nodeHeld addr :: held) (nodeHeld addr :: held) parked fixed ∧
        s'.disk = s.disk) E := by
  refine Ends.modify ⟨?_, rfl⟩
  unfold freeReclaimable
  cases hfloor : s.alloc.reclaimFloor with
  | none =>
    rw [if_neg (by rintro ⟨f, hf, -⟩; cases hf)]
    exact ⟨h.congr rfl, .refl _ _, le_rfl, rfl, fun _ hx => .inl hx⟩
  | some floor =>
    dsimp only
    by_cases hle : floor ≤ addr
    · rw [if_pos hle, if_pos ⟨floor, rfl, hle⟩]
      have hinv : Inv (s.alloc.free (nodeHeld addr).loc).1 held := h.owns.inv.free_aligned rfl
      refine ⟨⟨⟨?_, hinv, fun g hg => h.owns.forward g (.tail _ hg), ?_⟩, ?_, ?_⟩, .refl _ _,
        le_rfl, ?_, fun x hx => ?_⟩
      · exact h.owns.len.trans (free_frame s.alloc _).fileLen.symm
      · exact (free_deferred s.alloc _).trans h.owns.deferred
      · exact (free_frame s.alloc (nodeHeld addr).loc).fileLen.symm ▸ h.small
      · exact (free_noGrow s.alloc _).trans h.device
      · exact free_reclaimFloor s.alloc _
      · exact (free_forwardFree h.owns.inv hx).imp_right fun hle' => ⟨floor, hfloor, hle.trans hle'⟩
    · rw [if_neg hle, if_neg (by rintro ⟨f, hf, hle'⟩; cases hf; exact hle hle')]
      exact ⟨h.congr rfl, .refl _ _, le_rfl, rfl, fun _ hx => .inl hx⟩

end

/-! ## Single calls -/

section

variable {crc : Bytes → UInt32} {crypto : NodeCrypto} {io : Io} {s : NodeStore} {addr : Nat}

theorem NodeM.call_eq :
    call io s = .ok (s.calls, io.fault s.calls) { s with calls := s.calls + 1 } :=
  rfl

theorem NodeM.readNode_ok (hlaw : crypto.Lawful) (hat : NodeAt crc crypto s.disk addr node)
    (h : io.fault s.calls = none) :
    readNode crc crypto io addr s = .ok node { s with calls := s.calls + 1 } := by
  unfold readNode
  rw [bind_of_ok call_eq]
  dsimp only
  rw [h, if_neg (by decide), get_bind]
  rw [hat.read hlaw]
  rfl

end

end Sfs.Catalog

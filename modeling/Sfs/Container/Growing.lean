import Sfs.Container.Owned

/-!
# Allocations

What one allocation does to the owners: new space at a frontier, after growing the file and
moving the tail if there is none, or room in the open pack block.
-/

namespace Sfs.Container

open Sfs.Lib Allocator Extent Held List

variable {d needed len need addr : Nat} {fault : Option Allocator.GrowFault} {a' : Allocator}
  {e : Error}

section

variable {a : Allocator} {held held' : List Held} {r r' : Region}

/-! ### Growing -/

theorem growBy_spec (a : Allocator) (needed : Nat) :
    baseBlock ∣ a.growBy needed ∧ a.liveHwm + needed ≤ max a.liveHwm a.tailLow + a.growBy needed ∧
      a.fileLen ≤ a.tailLow + a.growBy needed := by
  have hle := le_roundUpToBlock
    (max (max (needed - (a.tailLow - a.liveHwm)) growChunk) (a.fileLen - a.tailLow))
  refine ⟨dvd_roundUpToBlock _, ?_, ?_⟩
  · show a.liveHwm + needed ≤ max a.liveHwm a.tailLow + roundUpToBlock _
    omega
  · show a.fileLen ≤ a.tailLow + roundUpToBlock _
    omega

/-- The tags after the tail's were moved, one after the other, by at least the span they lie in. -/
theorem get_shiftTags {low : Nat} {addrs : List Nat} (hspan : ∀ x ∈ addrs, low ≤ x ∧ x < low + d)
    (tags : KeyMap Nat Region) (b : Nat) (r : Region) :
    (addrs.foldl (shiftTag d) tags).get b = some r ↔
      (∃ x ∈ addrs, b = x + d ∧ r = .evictionTail) ∨
        (∀ x ∈ addrs, b ≠ x ∧ b ≠ x + d) ∧ tags.get b = some r := by
  induction addrs generalizing tags with
  | nil => simp
  | cons x addrs ih =>
    have hx := hspan x (.head _)
    have hrest : ∀ y ∈ addrs, low ≤ y ∧ y < low + d := fun y hy => hspan y (.tail _ hy)
    rw [foldl_cons, ih hrest, shiftTag, KeyMap.get_put_eq_some_iff, KeyMap.get_erase_eq_some_iff]
    simp only [mem_cons, exists_eq_or_imp, forall_eq_or_imp]
    constructor
    · rintro (h | ⟨hall, ⟨rfl, rfl⟩ | ⟨hne, hne', hget⟩⟩)
      · exact .inl (.inr h)
      · exact .inl (.inl ⟨rfl, rfl⟩)
      · exact .inr ⟨⟨⟨hne', hne⟩, hall⟩, hget⟩
    rintro ((⟨rfl, rfl⟩ | h) | ⟨⟨⟨hne', hne⟩, hall⟩, hget⟩)
    · -- the new place of `x` is above every place that is still to be moved
      by_cases hmem : ∃ y ∈ addrs, x + d = y + d ∧ Region.evictionTail = .evictionTail
      · exact .inl hmem
      · refine .inr ⟨fun y hy => ⟨?_, fun he => hmem ⟨y, hy, he, rfl⟩⟩, .inl ⟨rfl, rfl⟩⟩
        have := hrest y hy
        omega
    · exact .inl h
    · exact .inr ⟨hall, .inr ⟨hne, hne', hget⟩⟩

/-- The allocator after the tail moved up by `d`. -/
def Allocator.lifted (a : Allocator) (d : Nat) : Allocator :=
  { ({ a with fileLen := a.fileLen + d } : Allocator).shiftEvictionTailBookkeeping d with
    tailLow := a.tailLow + d, wal := a.wal.map (· + d) }

theorem limit_lifted (a : Allocator) (d : Nat) : (a.lifted d).limit = a.limit + d := by
  unfold limit lifted shiftEvictionTailBookkeeping
  cases a.wal <;> simp

/-- The tags and the free extents of the tail lie in it, every other tag below the live frontier. -/
structure Registered (a : Allocator) : Prop where
  tail : ∀ b, a.tags.get b = some .evictionTail → a.tailLow ≤ b ∧ b < a.fileLen
  forward : ∀ b r, a.tags.get b = some r → r ≠ .evictionTail → b < a.liveHwm
  free : ∀ e ∈ a.freeTail, a.tailLow ≤ e.start ∧ e.start < a.fileLen

theorem Inv.registered (hinv : Inv a held) : Registered a := by
  have hpos := baseBlock_pos
  have hlim := hinv.limit_le
  refine ⟨fun b hb => ?_, fun b r hb hr => ?_, fun e he => ?_⟩
  · have ht := hinv.tagged b _ hb
    have h₁ := ht.lo_le
    have h₂ := ht.le_hi
    simp only [lo, hi] at h₁ h₂
    omega
  · have h₁ := (hinv.tagged b r hb).le_hi
    rw [hi_of_forward hr] at h₁
    omega
  · have hstart := (hinv.spaced .evictionTail).start_lt_stop he
    have := hinv.free_within .evictionTail e.start (bytes_subset_cover he ⟨le_rfl, hstart⟩)
    simp only [lo, hi] at this
    omega

theorem tags_lifted (hreg : Registered a) (hwm : a.liveHwm ≤ a.tailLow)
    (hd : a.fileLen ≤ a.tailLow + d) (b : Nat) (r : Region) :
    (a.lifted d).tags.get b = some r ↔
      (r = .evictionTail ∧ ∃ x, b = x + d ∧ a.tags.get x = some .evictionTail) ∨
        r ≠ .evictionTail ∧ a.tags.get b = some r := by
  have hmem : ∀ x,
    x ∈ (a.tags.entries.filter fun e => a.tailLow ≤ e.1 ∧ e.2 = .evictionTail).map Prod.fst ↔
      a.tags.get x = some .evictionTail := by
    intro x
    simp only [mem_map, mem_filter, decide_eq_true_eq, Prod.exists, exists_and_right, exists_eq_right]
    constructor
    · rintro ⟨r, hin, -, rfl⟩
      exact KeyMap.get_of_mem hin
    · intro hget
      exact ⟨.evictionTail, KeyMap.mem_of_get hget, (hreg.tail x hget).1, rfl⟩
  have hspan : ∀ x ∈ (a.tags.entries.filter fun e => a.tailLow ≤ e.1 ∧ e.2 = .evictionTail).map
    Prod.fst, a.tailLow ≤ x ∧ x < a.tailLow + d := by
    intro x hx
    have := hreg.tail x ((hmem x).mp hx)
    omega
  refine (get_shiftTags hspan a.tags b r).trans ?_
  simp only [hmem]
  constructor
  · rintro (⟨x, hx, rfl, rfl⟩ | ⟨hall, hget⟩)
    · exact .inl ⟨rfl, x, rfl, hx⟩
    · exact .inr ⟨fun hr => (hall b (hr ▸ hget)).1 rfl, hget⟩
  rintro (⟨rfl, x, rfl, hx⟩ | ⟨hr, hget⟩)
  · exact .inl ⟨x, hx, rfl, rfl⟩
  refine .inr ⟨fun x hx => ⟨fun he => ?_, fun he => ?_⟩, hget⟩
  · rw [← he, hget] at hx
    exact hr (Option.some.inj hx)
  · -- a forward tag lies below the tail
    have h₁ := hreg.forward b r hget hr
    have h₂ := (hreg.tail x hx).1
    omega

theorem freelist_lifted (a : Allocator) (d : Nat) :
    (a.lifted d).freelist r = if r = .evictionTail then a.freeTail.map (shift d)
      else a.freelist r := by
  cases r <;> rfl

theorem extent_moved (d : Nat) (h : Held) :
    (h.moved d).extent = if h.isTail then h.extent.shift d else h.extent := by
  unfold moved
  split
  · rename_i ht
    unfold isTail at ht
    simp only [extent, ht, shift]
  · rfl

theorem kind_moved (d : Nat) (h : Held) : (h.moved d).kind = h.kind := by
  unfold moved
  split <;> rfl

/-- Where an address is after the tail moved up by `d`. -/
def Allocator.liftedAt (a : Allocator) (d x : Nat) : Nat := if x < a.tailLow then x else x + d

theorem liftedAt_inj {x y : Nat} (h : a.liftedAt d x = a.liftedAt d y) : x = y := by
  unfold liftedAt at h
  split at h <;> split at h <;> omega

/-- A range of one region moves as a whole, into the moved region. -/
theorem lifted_within (hwm : a.liveHwm ≤ a.tailLow) {y n : Nat} (hlo : a.lo r ≤ y)
    (hhi : y + n ≤ a.hi r) (hn : 0 < n) :
    (a.lifted d).lo r ≤ a.liftedAt d y ∧ a.liftedAt d y + n ≤ (a.lifted d).hi r ∧
      ∀ j < n, a.liftedAt d (y + j) = a.liftedAt d y + j := by
  unfold liftedAt
  by_cases hr : r = .evictionTail
  · subst hr
    have hlow : a.tailLow ≤ y := hlo
    rw [if_neg (by omega)]
    refine ⟨Nat.add_le_add_right hlow d, ?_, fun j _ => by rw [if_neg (by omega)]; omega⟩
    show y + d + n ≤ (a.lifted d).limit
    have : y + n ≤ a.limit := hhi
    rw [limit_lifted]
    omega
  · rw [hi_of_forward hr] at hhi
    rw [if_pos (by omega), hi_of_forward hr]
    exact ⟨by cases r <;> first | exact hlo | exact absurd rfl hr, hhi, fun j _ => if_pos (by omega)⟩

theorem mem_freelist_lifted (hinv : Inv a held) {x : Nat} (hx : x ∈ cover ((a.lifted d).freelist r)) :
    ∃ y ∈ cover (a.freelist r), x = a.liftedAt d y := by
  rw [freelist_lifted] at hx
  split at hx
  · rename_i hr
    subst hr
    have hle := le_of_mem_cover_shift hx
    have hy : x - d ∈ cover a.freeTail := mem_cover_shift.mp (by rwa [Nat.sub_add_cancel hle])
    have hlow : a.tailLow ≤ x - d := (hinv.free_within .evictionTail _ hy).1
    exact ⟨x - d, hy, by rw [liftedAt, if_neg (not_lt.mpr hlow), Nat.sub_add_cancel hle]⟩
  · rename_i hr
    have hlt := (hinv.free_within r x hx).2
    rw [hi_of_forward hr] at hlt
    exact ⟨x, hx, (if_pos (hlt.trans_le hinv.hwm_le)).symm⟩

theorem mem_moved (hinv : Inv a held) {x : Nat} {h : Held} (hh : h ∈ held)
    (hx : x ∈ (h.moved d).extent.bytes) : ∃ y ∈ h.extent.bytes, x = a.liftedAt d y := by
  rw [extent_moved] at hx
  split at hx
  · rename_i ht
    simp only [mem_bytes, shift_start, shift_stop] at hx
    have hy : x - d ∈ h.extent.bytes := mem_bytes.mpr (by omega)
    have hlow := ((hinv.placed h hh).mem_tail_bounds ht hy).1
    exact ⟨x - d, hy, by rw [liftedAt, if_neg (not_lt.mpr hlow)]; omega⟩
  · rename_i ht
    have hlt := ((hinv.placed h hh).mem_bounds ht hx).2
    exact ⟨x, hx, (if_pos (hlt.trans_le hinv.hwm_le)).symm⟩

theorem addr_moved (hinv : Inv a held) {h : Held} (hh : h ∈ held) :
    (h.moved d).addr = a.liftedAt d h.addr := by
  have hp := hinv.placed h hh
  unfold moved liftedAt
  split
  · rename_i ht
    have hlow := (hp.mem_tail_bounds ht hp.addr_mem).1
    rw [if_neg (not_lt.mpr hlow)]
  · rename_i ht
    have hlt := (hp.mem_bounds ht hp.addr_mem).2
    rw [if_pos (hlt.trans_le hinv.hwm_le)]

theorem tag_lifted (hinv : Inv a held) (hd : a.fileLen ≤ a.tailLow + d) {b : Nat}
    (hb : (a.lifted d).tags.get b = some r) : ∃ y, a.tags.get y = some r ∧ b = a.liftedAt d y := by
  rcases (tags_lifted hinv.registered hinv.hwm_le hd b r).mp hb with ⟨rfl, y, rfl, hget⟩ | ⟨hr, hget⟩
  · exact ⟨y, hget, (if_neg (not_lt.mpr (hinv.registered.tail y hget).1)).symm⟩
  · exact ⟨b, hget, (if_pos ((hinv.registered.forward b r hget hr).trans_le hinv.hwm_le)).symm⟩

/-- Moving the tail up keeps everything apart. -/
theorem Inv.lifted (hinv : Inv a held) (hdvd : baseBlock ∣ d) (hd : a.fileLen ≤ a.tailLow + d) :
    Inv (a.lifted d) (held.map (moved d)) := by
  have hb := hinv.toBounds
  have hlim := limit_lifted a d
  have hbounds : Bounds (a.lifted d) :=
    ⟨Nat.dvd_add hb.1 hdvd, hlim ▸ Nat.dvd_add hb.2 hdvd, hb.3, Nat.dvd_add hb.4 hdvd, hb.5,
      hb.6.trans (Nat.le_add_right _ _), hlim ▸ Nat.add_le_add_right hb.7 d,
      hlim ▸ Nat.add_le_add_right hb.8 d⟩
  have hdvdAt : ∀ y, baseBlock ∣ y → baseBlock ∣ a.liftedAt d y := fun y hy => by
    unfold liftedAt
    split
    · exact hy
    · exact Nat.dvd_add hy hdvd
  have hfree : ∀ x ∈ (a.lifted d).freeBytes, ∃ y ∈ a.freeBytes, x = a.liftedAt d y := by
    rintro x ⟨r, hx⟩
    obtain ⟨y, hy, he⟩ := mem_freelist_lifted hinv hx
    exact ⟨y, ⟨r, hy⟩, he⟩
  refine ⟨hbounds, fun r => ?_, fun r => ?_, fun r x hx => ?_, fun r r' x hx hx' => ?_,
    forall_mem_map.mpr fun h hh => ?_, ?_, forall_mem_map.mpr fun h hh x hx hf => ?_,
    fun b r hb' => ?_, fun base used hp => ?_⟩
  · rw [freelist_lifted]
    split
    · exact (hinv.spaced .evictionTail).shift d
    · exact hinv.spaced r
  · rw [freelist_lifted]
    split
    · intro e he
      obtain ⟨f, hf, rfl⟩ := mem_map.mp he
      obtain ⟨h₁, h₂⟩ := hinv.ends .evictionTail f hf
      exact ⟨Nat.dvd_add h₁ hdvd, by rw [shift_stop]; exact Nat.dvd_add h₂ hdvd⟩
    · exact hinv.ends r
  · obtain ⟨y, hy, rfl⟩ := mem_freelist_lifted hinv hx
    obtain ⟨hlo, hhi⟩ := hinv.free_within r y hy
    have := lifted_within (d := d) hb.6 hlo (Nat.succ_le_of_lt hhi) Nat.one_pos
    exact ⟨this.1, this.2.1⟩
  · obtain ⟨y, hy, rfl⟩ := mem_freelist_lifted hinv hx
    obtain ⟨z, hz, he⟩ := mem_freelist_lifted hinv hx'
    cases liftedAt_inj he
    exact hinv.free_once r r' y hy hz
  · have hp := hinv.placed h hh
    have haddr := addr_moved (d := d) hinv hh
    unfold Placed at hp ⊢
    rw [kind_moved]
    cases hk : h.kind with
    | packed =>
      have hnt : ¬ h.isTail := by simp [isTail, hk]
      simp only [hk] at hp
      simp only [moved, if_neg hnt]
      exact hp
    | aligned r =>
      simp only [hk] at hp
      have hlen : (h.moved d).len = h.len := by unfold moved; split <;> rfl
      have hpos : 0 < footprint h.len := baseBlock_pos.trans_le (baseBlock_le_footprint _)
      have := lifted_within (d := d) hb.6 hp.2.1 hp.2.2 hpos
      dsimp only
      rw [haddr, hlen]
      exact ⟨hdvdAt _ hp.1, this.1, this.2.1⟩
  · rw [pairwise_map]
    refine hinv.disjoint.imp_of_mem fun {h g} hh hg hdis => Set.disjoint_left.mpr fun x hx hx' => ?_
    obtain ⟨y, hy, rfl⟩ := mem_moved hinv hh hx
    obtain ⟨z, hz, he⟩ := mem_moved hinv hg hx'
    cases liftedAt_inj he
    exact Set.disjoint_left.mp hdis hy hz
  · obtain ⟨y, hy, rfl⟩ := mem_moved hinv hh hx
    obtain ⟨z, hz, he⟩ := hfree _ hf
    cases liftedAt_inj he
    exact hinv.not_free h hh y hy hz
  · obtain ⟨y, hget, rfl⟩ := tag_lifted hinv hd hb'
    have ht := hinv.tagged y r hget
    obtain ⟨hlo, hhi, hat⟩ := lifted_within (d := d) hb.6 ht.lo_le ht.le_hi baseBlock_pos
    refine ⟨hdvdAt y ht.dvd, hlo, hhi, fun x hx hf => ?_, forall_mem_map.mpr fun h hh r' hk hin => ?_⟩
    · obtain ⟨z, hz, rfl⟩ := hfree x hf
      obtain ⟨j, hj⟩ := Nat.exists_eq_add_of_le hx.1
      have hlt : j < baseBlock := Nat.lt_of_add_lt_add_left (hj ▸ hx.2)
      cases liftedAt_inj (hj.trans (hat j hlt).symm)
      exact ht.not_free _ ⟨Nat.le_add_right _ _, Nat.add_lt_add_left hlt _⟩ hz
    · rw [kind_moved] at hk
      obtain ⟨z, hz, he⟩ := mem_moved hinv hh hin
      cases liftedAt_inj he
      obtain ⟨rfl, rfl⟩ := ht.owner h hh r' hk hz
      exact ⟨(addr_moved hinv hh).symm, rfl⟩
  · have ho := hinv.pack base used hp
    have hbase := (hinv.tagged base _ ho.tag).le_hi
    have hwm := hinv.hwm_le
    simp only [hi] at hbase
    refine ⟨(tags_lifted hinv.registered hinv.hwm_le hd base .liveMid).mpr
      (.inr ⟨by decide, ho.tag⟩), ho.used_le, fun x hx hx' => forall_mem_map.mpr fun h hh hin => ?_⟩
    obtain ⟨z, hz, he⟩ := mem_moved hinv hh hin
    have hsame : a.liftedAt d x = x := if_pos (by omega)
    cases liftedAt_inj (hsame.trans he)
    exact ho.room x hx hx' h hh hz

theorem Inv.empty_tail (hinv : Inv a held) (hlow : ¬ a.tailLow < a.fileLen) :
    ∀ h ∈ held, ¬ h.isTail := by
  intro h hh ht
  have hp := hinv.placed h hh
  have hlim := hinv.limit_le
  have := baseBlock_le_footprint h.len
  have := baseBlock_pos
  unfold isTail at ht
  simp only [Placed, ht, lo, hi] at hp
  omega

theorem growFor_ok (hreg : Registered a) (h : a.growFor fault needed = (a', .ok ())) :
    a' = a.lifted (a.growBy needed) := by
  unfold growFor at h
  dsimp only at h
  split at h
  · cases h
  split at h
  · cases h
  split at h
  · split at h
    · cases h
    · cases h
      rfl
  rename_i hlow
  have hfree : a.freeTail = [] := eq_nil_iff_forall_not_mem.mpr fun e he => by
    have := hreg.free e he
    omega
  have hnone : (a.tags.entries.filter fun e => a.tailLow ≤ e.1 ∧ e.2 = .evictionTail) = [] := by
    refine filter_eq_nil_iff.mpr fun e he hin => ?_
    have hget := KeyMap.get_of_mem he
    rw [(of_decide_eq_true hin).2] at hget
    have := hreg.tail e.1 hget
    omega
  cases h
  simp only [lifted, shiftEvictionTailBookkeeping, hfree, hnone]
  rfl

/-- A file that grew while the tail stayed is longer, and that is all. -/
theorem growFor_error (hinv : Inv a held) (h : a.growFor fault needed = (a', .error e)) :
    Inv a' held := by
  have hb := hinv.toBounds
  unfold growFor at h
  dsimp only at h
  split at h
  · cases h
    exact hinv
  split at h
  · cases h
    exact hinv
  split at h
  · split at h
    · cases h
      have hdvd := (growBy_spec a needed).1
      have hlim : a.limit ≤ ({ a with fileLen := a.fileLen + a.growBy needed } : Allocator).limit ∧
          baseBlock ∣ ({ a with fileLen := a.fileLen + a.growBy needed } : Allocator).limit ∧
          ({ a with fileLen := a.fileLen + a.growBy needed } : Allocator).limit ≤
            a.fileLen + a.growBy needed := by
        have h₁ := hb.2
        have h₂ := hb.8
        unfold limit at *
        cases hw : a.wal with
        | none => exact ⟨by simp, by simpa using Nat.dvd_add hb.1 hdvd, by simp⟩
        | some w =>
          simp only [hw, Option.getD_some] at h₁ h₂
          exact ⟨by simp, by simpa using h₁, by simpa using h₂.trans (Nat.le_add_right _ _)⟩
      refine hinv.widen ⟨Nat.dvd_add hb.1 hdvd, hlim.2.1, hb.3, hb.4, hb.5, hb.6, hb.7.trans hlim.1,
        hlim.2.2⟩
        (fun r' => ?_) rfl rfl (fun r' => ?_) fun r' => ?_
      · cases r' <;> rfl
      · cases r' <;> exact le_rfl
      · cases r' <;> first | exact le_rfl | exact hlim.1
    · cases h
  · cases h

theorem moved_zero (h : Held) : h.moved 0 = h := by
  unfold moved
  split <;> rfl

theorem map_moved_zero (l : List Held) : l.map (moved 0) = l := by
  rw [show moved 0 = id from funext moved_zero, map_id]

/-- Making room moves the tail if the file has to grow. -/
theorem ensureRoom_ok (hinv : Inv a held) (h : a.ensureRoom fault needed = (a', .ok ())) :
    ¬ a'.collides needed ∧ Inv a' (held.map (moved (a'.fileLen - a.fileLen))) := by
  unfold ensureRoom at h
  split at h
  · obtain ⟨hdvd, hroom, hspan⟩ := growBy_spec a needed
    rw [growFor_ok hinv.registered h]
    have hlen : (a.lifted (a.growBy needed)).fileLen - a.fileLen = a.growBy needed :=
      Nat.add_sub_cancel_left _ _
    rw [max_eq_right hinv.hwm_le] at hroom
    exact ⟨not_lt.mpr hroom, hlen.symm ▸ hinv.lifted hdvd hspan⟩
  · rename_i hroom
    cases h
    refine ⟨hroom, ?_⟩
    rwa [Nat.sub_self, map_moved_zero]

theorem ensureRoom_error (hinv : Inv a held) (h : a.ensureRoom fault needed = (a', .error e)) :
    Inv a' held := by
  unfold ensureRoom at h
  split at h
  · exact growFor_error hinv h
  · cases h

theorem bump_fileLen (len needed : Nat) :
    (a.bump len needed r).1.fileLen = a.fileLen := by cases r <;> rfl

/-- An aligned extent is lent; the holders' tail extents move if the file grew. -/
theorem allocAligned_ok (hinv : Inv a held) {loc : BlockLoc}
    (h : a.allocAligned fault len r = (a', .ok loc)) :
    Inv a' (⟨loc.addr, len, .aligned r⟩ :: held.map (moved (a'.fileLen - a.fileLen))) := by
  rcases allocAligned_cases h with ⟨addr, hfit, hres, rfl⟩ |
    ⟨-, ⟨e, -, hres⟩ | ⟨a₁, hroom, hres, rfl⟩⟩ <;> cases hres
  · have hlen : ((a.setFreelist (removeRange (a.freelist r) addr (footprint len)) r).tag addr
        r).fileLen = a.fileLen :=
      a.setFreelist_fileLen _ _
    rw [hlen, Nat.sub_self, map_moved_zero]
    exact hinv.take hfit
  · obtain ⟨hfits, hinv₁⟩ := ensureRoom_ok hinv hroom
    have hlen : ((a₁.bump len (footprint len) r).1.tag
        (a₁.bump len (footprint len) r).2.addr r).fileLen = a₁.fileLen :=
      bump_fileLen _ _
    rw [hlen]
    exact hinv₁.bump hfits

theorem allocAligned_error (hinv : Inv a held) (h : a.allocAligned fault len r = (a', .error e)) :
    Inv a' held := by
  rcases allocAligned_cases h with ⟨_, -, hres, -⟩ | ⟨-, ⟨e, hroom, hres⟩ | ⟨_, -, hres, -⟩⟩ <;>
    cases hres
  exact ensureRoom_error hinv hroom

/-- The rest of the open pack block is lent piece by piece. -/
theorem Inv.pack_more (hinv : Inv a held) {base used : Nat} (hopen : a.openPack = some (base, used))
    (hpos : 0 < need)
    (hlt : need < baseBlock) (hfits : used + need ≤ baseBlock) :
    Inv { a with openPack := some (base, used + need) } (⟨base + used, need, .packed⟩ :: held) := by
  have ho := hinv.pack base used hopen
  have hbase := hinv.tagged base _ ho.tag
  have hlo := hbase.lo_le
  have hhi := hbase.le_hi
  simp only [lo, hi] at hlo hhi
  have hmem : ∀ x, x ∈ (⟨base + used, need, .packed⟩ : Held).extent.bytes ↔
      base + used ≤ x ∧ x < base + used + need :=
    fun x => Iff.rfl
  have hb := hinv.toBounds
  refine ⟨⟨hb.1, hb.2, hb.3, hb.4, hb.5, hb.6, hb.7, hb.8⟩, hinv.spaced, hinv.ends, hinv.free_within,
    hinv.free_once,
    ?_, ?_, ?_, fun b r hb' => ?_, fun base' used' hp => ?_⟩
  · rintro h (_ | ⟨_, hh⟩)
    · exact ⟨hpos, hlt, by show 2 * baseBlock ≤ base + used; omega,
        by show base + used + need ≤ a.liveHwm; omega⟩
    · exact hinv.placed h hh
  · refine pairwise_cons.mpr ⟨fun h hh => Set.disjoint_left.mpr fun x hx hx' => ?_, hinv.disjoint⟩
    rw [hmem] at hx
    exact ho.room x hx.1 (by omega) h hh hx'
  · rintro h (_ | ⟨_, hh⟩) x hx
    · rw [hmem] at hx
      exact hbase.not_free x ⟨by simp only [blockAt]; omega, by simp only [blockAt, stop]; omega⟩
    · exact hinv.not_free h hh x hx
  · have ht := hinv.tagged b r hb'
    refine ⟨ht.dvd, ht.lo_le, ht.le_hi, ht.not_free, ?_⟩
    rintro h (_ | ⟨_, hh⟩) r' hk hin
    · cases hk
    · exact ht.owner h hh r' hk hin
  · cases hp
    refine ⟨ho.tag, hfits, ?_⟩
    rintro x hx hx' h (_ | ⟨_, hh⟩) hin
    · rw [hmem] at hin
      omega
    · exact ho.room x (by omega) hx' h hh hin

/-- A block that was just lent can be opened for packing. -/
theorem Inv.open_pack (hinv : Inv a (⟨addr, len, .aligned .liveMid⟩ :: held))
    (htag : a.tags.get addr = some .liveMid) : Inv { a with openPack := some (addr, 0) } held := by
  have hrest := hinv.mono (sublist_cons_self _ held).subperm
  have hb := hrest.toBounds
  refine
    { hrest with
      tagged := fun b r hb' =>
        have ht := hrest.tagged b r hb'
        { ht with }
      pack := fun base used hp => ?_ }
  cases hp
  refine ⟨htag, Nat.zero_le _, fun x hx hx' h hh hin => ?_⟩
  have hdis := (pairwise_cons.mp hinv.disjoint).1 h hh
  refine Set.disjoint_left.mp hdis ?_ hin
  have := baseBlock_le_footprint len
  exact ⟨hx, by show x < addr + footprint len; omega⟩

theorem allocAligned_tag {loc : BlockLoc}
    (h : a.allocAligned fault len r = (a', .ok loc)) : a'.tags.get loc.addr = some r := by
  rcases allocAligned_cases h with ⟨_, -, hres, rfl⟩ | ⟨-, ⟨_, -, hres⟩ | ⟨_, -, hres, rfl⟩⟩ <;>
    cases hres <;>
    exact KeyMap.get_put_self _ _ _

theorem allocNewPack_ok (hinv : Inv a held)
    (hpos : 0 < need) (hlt : need < baseBlock) (h : a.allocNewPack fault need = (a', .ok addr)) :
    Inv a' (⟨addr, need, .packed⟩ :: held.map (moved (a'.fileLen - a.fileLen))) := by
  unfold allocNewPack at h
  rcases hal : a.allocAligned fault baseBlock .liveMid with ⟨a₁, res⟩
  cases res with
  | error e =>
    rw [hal] at h
    cases h
  | ok loc =>
    rw [hal] at h
    cases h
    have hopen := (allocAligned_ok hinv hal).open_pack (allocAligned_tag hal)
    simpa using hopen.pack_more rfl hpos hlt (by omega)

theorem allocNewPack_error (hinv : Inv a held) (h : a.allocNewPack fault need = (a', .error e)) :
    Inv a' held := by
  unfold allocNewPack at h
  rcases hal : a.allocAligned fault baseBlock .liveMid with ⟨a₁, res⟩
  cases res with
  | error e' =>
    rw [hal] at h
    cases h
    exact allocAligned_error hinv hal
  | ok loc =>
    rw [hal] at h
    cases h

/-- A packed extent is lent, in the open block or in a new one. -/
theorem allocPacked_ok (hinv : Inv a held)
    (hpos : 0 < need) (hlt : need < baseBlock) (h : a.allocPacked fault need = (a', .ok addr)) :
    Inv a' (⟨addr, need, .packed⟩ :: held.map (moved (a'.fileLen - a.fileLen))) := by
  unfold allocPacked at h
  split at h
  · exact allocNewPack_ok hinv hpos hlt h
  rename_i base used hpack
  split at h
  · rename_i hfits
    cases h
    rw [Nat.sub_self, map_moved_zero]
    exact hinv.pack_more hpack hpos hlt hfits
  · exact allocNewPack_ok hinv hpos hlt h

theorem allocPacked_error (hinv : Inv a held) (h : a.allocPacked fault need = (a', .error e)) :
    Inv a' held := by
  unfold allocPacked at h
  split at h
  · exact allocNewPack_error hinv h
  · split at h
    · cases h
    · exact allocNewPack_error hinv h

end

end Sfs.Container

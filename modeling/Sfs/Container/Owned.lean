import Sfs.Container.Alloc

/-!
# Who owns each address

`Held` is an extent that a caller of the allocator holds. `Inv` says who owns each address: the
free lists, the holders, the room of the open pack block and the block of every tag do not
overlap. A call that lends, frees or moves a frontier keeps it under the conditions stated here.
-/

namespace Sfs.Container

open Sfs.Lib Extent

open Allocator

inductive Kind where
  | aligned (region : Region)
  | packed
  deriving DecidableEq, Repr

/-- An extent that a caller holds. -/
structure Held where
  addr : Nat
  len : Nat
  kind : Kind
  deriving DecidableEq, Repr

namespace Held

def loc (h : Held) : BlockLoc := ⟨h.addr, h.len⟩

/-- A packed extent takes no more than its bytes. -/
def extent (h : Held) : Extent :=
  match h.kind with
  | .aligned _ => ⟨h.addr, footprint h.len⟩
  | .packed => ⟨h.addr, h.len⟩

def isTail (h : Held) : Prop := h.kind = .aligned .evictionTail

instance (h : Held) : Decidable h.isTail := inferInstanceAs (Decidable (_ = _))

/-- Where the extent is after the tail moved up by `d`. -/
def moved (d : Nat) (h : Held) : Held := if h.isTail then { h with addr := h.addr + d } else h

end Held

/-- The block at `addr`. -/
def blockAt (addr : Nat) : Extent := ⟨addr, baseBlock⟩

namespace Allocator

/-- Where the tail ends: at the log reservation or the end of the file. -/
def limit (a : Allocator) : Nat := a.wal.getD a.fileLen

/-- The bounds of a region. -/
def lo (a : Allocator) : Region → Nat
  | .evictionTail => a.tailLow
  | _ => 2 * baseBlock

def hi (a : Allocator) : Region → Nat
  | .evictionTail => a.limit
  | _ => a.liveHwm

def freeBytes (a : Allocator) : Set Nat := { x | ∃ r, x ∈ cover (a.freelist r) }

end Allocator

/-- The extent lies in its region; an aligned one at the start of a block. -/
def Placed (a : Allocator) (h : Held) : Prop :=
  match h.kind with
  | .aligned r => baseBlock ∣ h.addr ∧ a.lo r ≤ h.addr ∧ h.addr + footprint h.len ≤ a.hi r
  | .packed => 0 < h.len ∧ h.len < baseBlock ∧ 2 * baseBlock ≤ h.addr ∧ h.addr + h.len ≤ a.liveHwm

/-- The block of a tag is not free, and only the extent that starts there holds it. -/
structure Tagged (a : Allocator) (held : List Held) (b : Nat) (r : Region) : Prop where
  dvd : baseBlock ∣ b
  lo_le : a.lo r ≤ b
  le_hi : b + baseBlock ≤ a.hi r
  not_free : ∀ x ∈ (blockAt b).bytes, x ∉ a.freeBytes
  owner : ∀ h ∈ held, ∀ r', h.kind = .aligned r' → b ∈ h.extent.bytes → b = h.addr ∧ r' = r

/-- The rest of the open pack block is nobody's. -/
structure PackOpen (a : Allocator) (held : List Held) (base used : Nat) : Prop where
  tag : a.tags.get base = some .liveMid
  used_le : used ≤ baseBlock
  room : ∀ x, base + used ≤ x → x < base + baseBlock → ∀ h ∈ held, x ∉ h.extent.bytes

/-- The frontiers stand at blocks and in order. -/
structure Bounds (a : Allocator) : Prop where
  fileLen_dvd : baseBlock ∣ a.fileLen
  limit_dvd : baseBlock ∣ a.limit
  hwm_dvd : baseBlock ∣ a.liveHwm
  tail_dvd : baseBlock ∣ a.tailLow
  start_le : 2 * baseBlock ≤ a.liveHwm
  hwm_le : a.liveHwm ≤ a.tailLow
  tail_le : a.tailLow ≤ a.limit
  limit_le : a.limit ≤ a.fileLen

structure Inv (a : Allocator) (held : List Held) : Prop extends Bounds a where
  spaced : ∀ r, Spaced (a.freelist r)
  ends : ∀ r, EndsIn (baseBlock ∣ ·) (a.freelist r)
  free_within : ∀ r, ∀ x ∈ cover (a.freelist r), a.lo r ≤ x ∧ x < a.hi r
  free_once : ∀ r r', ∀ x ∈ cover (a.freelist r), x ∈ cover (a.freelist r') → r = r'
  placed : ∀ h ∈ held, Placed a h
  disjoint : held.Pairwise fun h g => Disjoint h.extent.bytes g.extent.bytes
  not_free : ∀ h ∈ held, ∀ x ∈ h.extent.bytes, x ∉ a.freeBytes
  tagged : ∀ b r, a.tags.get b = some r → Tagged a held b r
  pack : ∀ base used, a.openPack = some (base, used) → PackOpen a held base used

theorem disjoint_of_ne {l : List Held}
    (hl : l.Pairwise fun h g => Disjoint h.extent.bytes g.extent.bytes) {h g : Held} (hh : h ∈ l)
    (hg : g ∈ l) (hne : h ≠ g) : Disjoint h.extent.bytes g.extent.bytes :=
  have : Std.Symm fun h g : Held => Disjoint h.extent.bytes g.extent.bytes := ⟨fun _ _ hd => hd.symm⟩
  hl.forall hh hg hne

section

variable {a : Allocator} {held : List Held} {r : Region}

/-! ### Blocks -/

theorem baseBlock_pos : 0 < baseBlock := by decide

theorem le_roundUpToBlock (n : Nat) : n ≤ roundUpToBlock n := by
  unfold roundUpToBlock baseBlock
  split <;> omega

theorem dvd_roundUpToBlock (n : Nat) : baseBlock ∣ roundUpToBlock n := by
  unfold roundUpToBlock
  split
  · exact dvd_zero _
  · exact Dvd.intro_left _ rfl

theorem roundUpToBlock_le {n m : Nat} (hm : baseBlock ∣ m) (h : n ≤ m) : roundUpToBlock n ≤ m := by
  unfold roundUpToBlock baseBlock at *
  split <;> omega

theorem dvd_footprint (len : Nat) : baseBlock ∣ footprint len := by
  unfold footprint
  rcases le_total (roundUpToBlock len) baseBlock with h | h
  · rw [max_eq_right h]
  · rw [max_eq_left h]
    exact dvd_roundUpToBlock len

theorem baseBlock_le_footprint (len : Nat) : baseBlock ≤ footprint len := le_max_right _ _

theorem le_footprint (len : Nat) : len ≤ footprint len :=
  le_trans (le_roundUpToBlock len) (le_max_left _ _)

theorem footprint_of_packed {len : Nat} (h : len < baseBlock) : footprint len = baseBlock :=
  max_eq_right (roundUpToBlock_le (dvd_refl _) h.le)

/-- A range of whole blocks holds all of a block or nothing of it. -/
theorem blockAt_mem {x : Nat} {b s t : Nat} (hb : baseBlock ∣ b) (hs : baseBlock ∣ s)
    (ht : baseBlock ∣ t) (hx : x ∈ (blockAt b).bytes) (hin : s ≤ x ∧ x < t) : s ≤ b ∧ b < t := by
  simp only [blockAt, mem_bytes, stop, baseBlock] at *
  omega

/-! ### Fewer holders -/

theorem Inv.mono {held held' : List Held} (hinv : Inv a held) (h : held'.Subperm held) :
    Inv a held' := by
  obtain ⟨l, hperm, hsub⟩ := h
  have hmem : ∀ h ∈ held', h ∈ held := fun h hh => hsub.subset (hperm.mem_iff.mpr hh)
  exact
    { hinv with
      placed := fun h hh => hinv.placed h (hmem h hh)
      disjoint := (hperm.pairwise_iff fun hd => hd.symm).mp (hinv.disjoint.sublist hsub)
      not_free := fun h hh => hinv.not_free h (hmem h hh)
      tagged := fun b r hb =>
        have ht := hinv.tagged b r hb
        { ht with owner := fun h hh => ht.owner h (hmem h hh) }
      pack := fun base used hp =>
        have ho := hinv.pack base used hp
        { ho with room := fun x hx hx' h hh => ho.room x hx hx' h (hmem h hh) } }

theorem extent_start (h : Held) : h.extent.start = h.addr := by
  unfold Held.extent
  cases h.kind <;> rfl

theorem Placed.mem_bounds {x : Nat} {h : Held} (hp : Placed a h) (hfwd : ¬ h.isTail)
    (hx : x ∈ h.extent.bytes) : 2 * baseBlock ≤ x ∧ x < a.liveHwm := by
  unfold Placed at hp
  unfold Held.extent at hx
  cases hk : h.kind with
  | packed =>
    simp only [hk, mem_bytes, stop] at hp hx
    omega
  | aligned r =>
    simp only [hk, mem_bytes, stop] at hp hx
    cases r with
    | evictionTail => exact absurd hk hfwd
    | catalogHead =>
      simp only [lo, hi] at hp
      omega
    | liveMid =>
      simp only [lo, hi] at hp
      omega

theorem Placed.stop_le {h : Held} (hp : Placed a h) (hfwd : ¬ h.isTail) :
    h.extent.stop ≤ a.liveHwm := by
  unfold Placed at hp
  unfold Held.extent stop
  cases hk : h.kind with
  | packed =>
    simp only [hk] at hp ⊢
    exact hp.2.2.2
  | aligned r =>
    simp only [hk] at hp ⊢
    cases r with
    | evictionTail => exact absurd hk hfwd
    | catalogHead => exact hp.2.2
    | liveMid => exact hp.2.2

theorem Placed.addr_mem {h : Held} (hp : Placed a h) : h.addr ∈ h.extent.bytes := by
  have hpos := baseBlock_pos
  have hfp := baseBlock_le_footprint h.len
  unfold Placed at hp
  unfold Held.extent
  cases hk : h.kind with
  | packed =>
    simp only [hk] at hp
    exact ⟨le_rfl, Nat.lt_add_of_pos_right hp.1⟩
  | aligned r => exact ⟨le_rfl, Nat.lt_add_of_pos_right (hpos.trans_le hfp)⟩

theorem Placed.mem_tail_bounds {x : Nat} {h : Held} (hp : Placed a h) (ht : h.isTail)
    (hx : x ∈ h.extent.bytes) : a.tailLow ≤ x ∧ x < a.limit := by
  unfold Held.isTail at ht
  unfold Placed at hp
  unfold Held.extent at hx
  simp only [ht, mem_bytes, stop, lo, hi] at hp hx
  omega

theorem hi_of_forward (hr : r ≠ .evictionTail) : a.hi r = a.liveHwm := by
  cases r <;> first | rfl | exact absurd rfl hr

/-! ### Free lists that change

`Regions` is what the invariant says of the free lists alone. -/

theorem lo_setFreelist (l : List Extent) (r r' : Region) : (a.setFreelist l r).lo r' = a.lo r' := by
  cases r' <;> simp [lo]

theorem hi_setFreelist (l : List Extent) (r r' : Region) : (a.setFreelist l r).hi r' = a.hi r' := by
  cases r' <;> simp [hi, limit]

theorem mem_freeBytes_set {x : Nat} {l : List Extent} :
    x ∈ (a.setFreelist l r).freeBytes ↔ x ∈ cover l ∨ ∃ r', r' ≠ r ∧ x ∈ cover (a.freelist r') := by
  simp only [freeBytes, Set.mem_ofPred_eq, a.freelist_setFreelist]
  constructor
  · rintro ⟨r', hx⟩
    by_cases hr : r' = r
    · exact .inl (by simpa [hr] using hx)
    · exact .inr ⟨r', hr, by simpa [hr] using hx⟩
  · rintro (hx | ⟨r', hr, hx⟩)
    · exact ⟨r, by simpa using hx⟩
    · exact ⟨r', by simpa [hr] using hx⟩

/-- A free list may be replaced by one with whole blocks of its region that no other list has. -/
theorem Inv.setFreelist (hinv : Inv a held) {l : List Extent} (hsp : Spaced l)
    (hends : EndsIn (baseBlock ∣ ·) l) (hwithin : ∀ x ∈ cover l, a.lo r ≤ x ∧ x < a.hi r)
    (honce : ∀ r', ∀ x ∈ cover l, x ∈ cover (a.freelist r') → r' = r)
    (hheld : ∀ h ∈ held, ∀ x ∈ h.extent.bytes, x ∉ cover l)
    (htag : ∀ b r', a.tags.get b = some r' → ∀ x ∈ (blockAt b).bytes, x ∉ cover l) :
    Inv (a.setFreelist l r) held := by
  have hfree : ∀ x, x ∈ (a.setFreelist l r).freeBytes → x ∈ cover l ∨ x ∈ a.freeBytes := fun x hx =>
    (mem_freeBytes_set.mp hx).imp_right fun ⟨r', _, hr'⟩ => ⟨r', hr'⟩
  have hbounds : Bounds (a.setFreelist l r) := by
    have hb := hinv.toBounds
    cases r <;> exact ⟨hb.1, hb.2, hb.3, hb.4, hb.5, hb.6, hb.7, hb.8⟩
  refine ⟨hbounds, fun r' => ?_, fun r' => ?_, fun r' x hx => ?_, fun r₁ r₂ x h₁ h₂ => ?_,
    fun h hh => ?_, hinv.disjoint, fun h hh x hx hf => ?_, fun b r' hb => ?_, fun base used hp => ?_⟩
  · rw [a.freelist_setFreelist]
    split
    · exact hsp
    · exact hinv.spaced r'
  · rw [a.freelist_setFreelist]
    split
    · exact hends
    · exact hinv.ends r'
  · rw [a.freelist_setFreelist] at hx
    rw [lo_setFreelist, hi_setFreelist]
    split at hx
    · rename_i hr
      exact hr ▸ hwithin x hx
    · exact hinv.free_within r' x hx
  · rw [a.freelist_setFreelist] at h₁ h₂
    split at h₁ <;> split at h₂
    · rename_i e₁ e₂
      rw [e₁, e₂]
    · rename_i e₁ e₂
      exact absurd (honce r₂ x h₁ h₂) e₂
    · rename_i e₁ e₂
      exact absurd (honce r₁ x h₂ h₁) e₁
    · exact hinv.free_once r₁ r₂ x h₁ h₂
  · have := hinv.placed h hh
    unfold Placed at this ⊢
    cases hk : h.kind with
    | aligned r' => simpa only [hk, lo_setFreelist, hi_setFreelist] using this
    | packed => simpa only [hk, setFreelist_liveHwm] using this
  · exact (hfree x hf).elim (hheld h hh x hx) (hinv.not_free h hh x hx)
  · rw [setFreelist_tags] at hb
    have ht := hinv.tagged b r' hb
    refine ⟨ht.dvd, by rw [lo_setFreelist]; exact ht.lo_le, by rw [hi_setFreelist]; exact ht.le_hi,
      fun x hx hf => ?_, ht.owner⟩
    exact (hfree x hf).elim (htag b r' hb x hx) (ht.not_free x hx)
  · rw [setFreelist_openPack] at hp
    have ho := hinv.pack base used hp
    exact ⟨by rw [setFreelist_tags]; exact ho.tag, ho.used_le, ho.room⟩

/-! ### Giving back -/

/-- Dropping a tag keeps the invariant if the open pack block is not the one it names. -/
theorem Inv.eraseTag {addr : Nat} (hinv : Inv a held)
    (hpack : ∀ used, a.openPack ≠ some (addr, used)) :
    Inv { a with tags := a.tags.erase addr } held :=
  { hinv with
    tagged := fun b r hb =>
      have ht := hinv.tagged b r (KeyMap.get_erase_eq_some_iff.mp hb).2
      { ht with }
    pack := fun base used hp =>
      have ho := hinv.pack base used hp
      { ho with tag := KeyMap.get_erase_eq_some_iff.mpr ⟨fun he => hpack used (he ▸ hp), ho.tag⟩ } }

theorem Inv.closePack (hinv : Inv a held) : Inv { a with openPack := none } held :=
  { hinv with
    tagged := fun b r hb =>
      have ht := hinv.tagged b r hb
      { ht with }
    pack := fun _ _ hp => nomatch hp }

theorem Inv.packCloseIfFreed (hinv : Inv a held) (addr len : Nat) :
    Inv (a.packCloseIfFreed addr len) held := by
  unfold Allocator.packCloseIfFreed
  split
  · exact hinv
  · split
    · exact hinv.closePack
    · exact hinv

/-- Closing the open pack block changes nothing else. -/
theorem Allocator.packClose_frame (a : Allocator) (addr len : Nat) :
    (a.packCloseIfFreed addr len).tags = a.tags ∧
      (∀ r, (a.packCloseIfFreed addr len).freelist r = a.freelist r) ∧
      (∀ r, (a.packCloseIfFreed addr len).lo r = a.lo r) ∧ ∀ r,
        (a.packCloseIfFreed addr len).hi r = a.hi r := by
  unfold packCloseIfFreed
  split
  · exact ⟨rfl, fun _ => rfl, fun _ => rfl, fun _ => rfl⟩
  · split
    · exact ⟨rfl, fun r => by cases r <;> rfl, fun r => by cases r <;> rfl, fun r => by cases r <;>
        rfl⟩
    · exact ⟨rfl, fun _ => rfl, fun _ => rfl, fun _ => rfl⟩

theorem Allocator.packClose_eraseTag (a : Allocator) (addr len k : Nat) :
    { a with tags := a.tags.erase k }.packCloseIfFreed addr len =
      { a.packCloseIfFreed addr len with tags := a.tags.erase k } := by
  unfold packCloseIfFreed
  dsimp only
  split
  · rfl
  · split <;> rfl

theorem openPack_packClose {len addr : Nat} {base used : Nat}
    (h : (a.packCloseIfFreed addr len).openPack = some (base, used)) :
    a.openPack = some (base, used) ∧ ¬ (addr < base + baseBlock ∧ base < addr + len) := by
  unfold packCloseIfFreed at h
  split at h
  · rename_i hn
    rw [hn] at h
    cases h
  rename_i b u hs
  split at h
  · cases h
  · rename_i hout
    rw [hs] at h
    cases h
    exact ⟨hs, hout⟩

/-- What a free needs to know of the extent it is given, if the address has a tag. -/
structure Freeable (a : Allocator) (loc : BlockLoc) (r : Region) : Prop where
  dvd : baseBlock ∣ loc.addr
  lo_le : a.lo r ≤ loc.addr
  le_hi : loc.addr + footprint loc.len ≤ a.hi r
  not_free : ∀ x, loc.addr ≤ x → x < loc.addr + footprint loc.len → x ∉ a.freeBytes
  sole : ∀ b r', a.tags.get b = some r' → loc.addr ≤ b → b < loc.addr + footprint loc.len →
    b = loc.addr

/-- An extent that overlaps nothing held goes to the free list of its tag. -/
theorem Inv.free (hinv : Inv a held) {loc : BlockLoc}
    (hfree : ∀ r, a.tags.get loc.addr = some r → Freeable a loc r)
    (hheld : ∀ r, a.tags.get loc.addr = some r →
      ∀ h ∈ held, ∀ x ∈ h.extent.bytes, ¬ (loc.addr ≤ x ∧ x < loc.addr + footprint loc.len)) :
    Inv (a.free loc).1 held := by
  unfold Allocator.free
  cases htag : a.tags.get loc.addr with
  | none => exact hinv
  | some r =>
    have hf := hfree r htag
    have hsize : 0 < footprint loc.len := lt_of_lt_of_le baseBlock_pos (baseBlock_le_footprint _)
    -- the tag is dropped first, but the pack block it may name is closed
    have hclosed : Inv { a.packCloseIfFreed loc.addr (footprint loc.len)
        with tags := a.tags.erase loc.addr } held := by
      have htags : a.tags = (a.packCloseIfFreed loc.addr (footprint loc.len)).tags :=
        (a.packClose_frame _ _).1.symm
      rw [htags]
      refine (hinv.packCloseIfFreed _ _).eraseTag fun used hp => (openPack_packClose hp).2 ⟨?_, ?_⟩
      · exact Nat.lt_add_of_pos_right baseBlock_pos
      · exact Nat.lt_add_of_pos_right hsize
    rw [← a.packClose_eraseTag] at hclosed
    obtain ⟨htags, hsame, hlo, hhi⟩ := Allocator.packClose_frame
      { a with tags := a.tags.erase loc.addr } loc.addr (footprint loc.len)
    dsimp only
    generalize { a with tags := a.tags.erase loc.addr }.packCloseIfFreed loc.addr
      (footprint loc.len) = a₁ at *
    rw [hsame r]
    obtain ⟨hsp, hcover⟩ := insertRange_spec (hinv.spaced r) loc.addr hsize
    have hdvd : baseBlock ∣ loc.addr + footprint loc.len := Nat.dvd_add hf.dvd (dvd_footprint _)
    refine hclosed.setFreelist hsp ((hinv.ends r).insertRange (hinv.spaced r) hf.dvd hdvd) ?_ ?_ ?_ ?_
    · intro x hx
      have hlo : a₁.lo r = a.lo r := (hlo r).trans (by cases r <;> rfl)
      have hhi : a₁.hi r = a.hi r := (hhi r).trans (by cases r <;> rfl)
      rw [hlo, hhi]
      rcases (hcover x).mp hx with hin | hold
      · have := hf.lo_le
        have := hf.le_hi
        omega
      · exact hinv.free_within r x hold
    · intro r' x hx hr'
      rw [hsame] at hr'
      rcases (hcover x).mp hx with hin | hold
      · exact absurd ⟨r', hr'⟩ (hf.not_free x hin.1 hin.2)
      · exact hinv.free_once r' r x hr' hold
    · intro h hh x hx hc
      rcases (hcover x).mp hc with hin | hold
      · exact hheld r htag h hh x hx hin
      · exact hinv.not_free h hh x hx ⟨r, hold⟩
    · intro b r' hb x hx hc
      rw [htags] at hb
      obtain ⟨hne, hb⟩ := KeyMap.get_erase_eq_some_iff.mp hb
      have ht := hinv.tagged b r' hb
      rcases (hcover x).mp hc with hin | hold
      · obtain ⟨hlo, hhi⟩ := blockAt_mem ht.dvd hf.dvd hdvd hx hin
        exact hne (hf.sole b r' hb hlo hhi)
      · exact ht.not_free x hx ⟨r, hold⟩

theorem addr_mem_extent {h : Held} (hk : h.kind = .aligned r) : h.addr ∈ h.extent.bytes := by
  have := baseBlock_le_footprint h.len
  have := baseBlock_pos
  rw [Held.extent, hk, mem_bytes]
  simp only [stop]
  omega

/-- An aligned extent that is held can be given back. -/
theorem Inv.freeable_aligned {h : Held} {r r' : Region} (hinv : Inv a (h :: held))
    (hk : h.kind = .aligned r) (htag : a.tags.get h.addr = some r') : Freeable a h.loc r' := by
  have hmem : h ∈ h :: held := .head _
  have hext : h.extent = ⟨h.addr, footprint h.len⟩ := by rw [Held.extent, hk]
  have hpl := hinv.placed h hmem
  simp only [Placed, hk] at hpl
  have hstart := addr_mem_extent hk
  obtain ⟨-, rfl⟩ := (hinv.tagged h.addr r' htag).owner h hmem r hk hstart
  refine ⟨hpl.1, hpl.2.1, hpl.2.2, fun x hx hx' => hinv.not_free h hmem x ?_,
    fun b r₂ hb hlo hhi => ?_⟩
  · rw [hext]
    exact ⟨hx, hx'⟩
  · refine ((hinv.tagged b r₂ hb).owner h hmem r hk ?_).1
    rw [hext]
    exact ⟨hlo, hhi⟩

theorem Inv.free_aligned {h : Held} (hinv : Inv a (h :: held)) (hk : h.kind = .aligned r) :
    Inv (a.free h.loc).1 held := by
  refine (hinv.mono (List.sublist_cons_self h held).subperm).free
    (fun r' htag => hinv.freeable_aligned hk htag) ?_
  intro r' _ g hg x hx hin
  have hdis := (List.pairwise_cons.mp hinv.disjoint).1 g hg
  refine Set.disjoint_left.mp hdis ?_ hx
  rw [Held.extent, hk]
  exact hin

/-- A packed extent is given back with its whole block if it starts it, and not at all if it does
not. -/
theorem Inv.free_block (hinv : Inv a held) {loc : BlockLoc} (hlen : loc.len < baseBlock)
    (hsole : (a.tags.get loc.addr).isSome = true →
      ∀ g ∈ held, Disjoint g.extent.bytes (blockAt loc.addr).bytes) :
    Inv (a.free loc).1 held := by
  have hfoot : footprint loc.len = baseBlock := footprint_of_packed hlen
  refine hinv.free (fun r' htag => ?_) fun r' htag g hg x hx hin => ?_
  · have ht := hinv.tagged loc.addr r' htag
    refine ⟨ht.dvd, ht.lo_le, by rw [hfoot]; exact ht.le_hi,
      fun x hx hx' => ht.not_free x ⟨hx, by rwa [hfoot] at hx'⟩, fun b r₂ hb hlo hhi => ?_⟩
    have h₁ := (hinv.tagged b r₂ hb).dvd
    have h₂ := ht.dvd
    rw [hfoot] at hhi
    simp only [baseBlock] at *
    omega
  · rw [hfoot] at hin
    exact Set.disjoint_left.mp (hsole (by rw [htag]; rfl) g hg) hx hin

/-! ### Lending -/

/-- Wider regions do no harm. -/
theorem Inv.widen (hinv : Inv a held) {a' : Allocator} (hb : Bounds a')
    (hfree : ∀ r, a'.freelist r = a.freelist r) (htags : a'.tags = a.tags)
    (hpack : a'.openPack = a.openPack) (hlo : ∀ r, a'.lo r ≤ a.lo r) (hhi : ∀ r, a.hi r ≤ a'.hi r) :
    Inv a' held := by
  have hbytes : a'.freeBytes = a.freeBytes := by simp only [freeBytes, hfree]
  refine ⟨hb, fun r => hfree r ▸ hinv.spaced r, fun r => hfree r ▸ hinv.ends r, fun r x hx => ?_,
    fun r r' x => ?_, fun h hh => ?_, hinv.disjoint, hbytes ▸ hinv.not_free,
    fun b r hr => ?_, fun base used hp => ?_⟩
  · have := hinv.free_within r x (hfree r ▸ hx)
    have := hlo r
    have := hhi r
    omega
  · rw [hfree, hfree]
    exact hinv.free_once r r' x
  · have hp := hinv.placed h hh
    unfold Placed at hp ⊢
    cases hk : h.kind with
    | aligned r =>
      simp only [hk] at hp ⊢
      exact ⟨hp.1, (hlo r).trans hp.2.1, hp.2.2.trans (hhi r)⟩
    | packed =>
      simp only [hk] at hp ⊢
      exact ⟨hp.1, hp.2.1, hp.2.2.1, hp.2.2.2.trans (hhi .liveMid)⟩
  · have ht := hinv.tagged b r (htags ▸ hr)
    exact ⟨ht.dvd, (hlo r).trans ht.lo_le, ht.le_hi.trans (hhi r), hbytes ▸ ht.not_free, ht.owner⟩
  · have ho := hinv.pack base used (hpack ▸ hp)
    exact ⟨htags ▸ ho.tag, ho.used_le, ho.room⟩

/-- Space that nobody has can be lent. -/
theorem Inv.lend {len addr : Nat} (hinv : Inv a held) (hdvd : baseBlock ∣ addr) (hlo : a.lo r ≤ addr)
    (hhi : addr + footprint len ≤ a.hi r)
    (hfree : ∀ x, addr ≤ x → x < addr + footprint len → x ∉ a.freeBytes)
    (hheld : ∀ h ∈ held, ∀ x ∈ h.extent.bytes, ¬ (addr ≤ x ∧ x < addr + footprint len))
    (htags : ∀ b r', a.tags.get b = some r' → ¬ (addr ≤ b ∧ b < addr + footprint len)) :
    Inv (a.tag addr r) (⟨addr, len, .aligned r⟩ :: held) := by
  have hsize := baseBlock_le_footprint len
  have hpos := baseBlock_pos
  have hext : (⟨addr, len, .aligned r⟩ : Held).extent = ⟨addr, footprint len⟩ := rfl
  have hmem : ∀ x, x ∈ (⟨addr, len, .aligned r⟩ : Held).extent.bytes ↔
      addr ≤ x ∧ x < addr + footprint len := fun x => by
    rw [hext]
    rfl
  have hb := hinv.toBounds
  refine ⟨⟨hb.1, hb.2, hb.3, hb.4, hb.5, hb.6, hb.7, hb.8⟩, hinv.spaced, hinv.ends,
    hinv.free_within, hinv.free_once, ?_, ?_, ?_, ?_, ?_⟩
  · rintro h (_ | ⟨_, hh⟩)
    · exact ⟨hdvd, hlo, hhi⟩
    · exact hinv.placed h hh
  · refine List.pairwise_cons.mpr ⟨fun h hh => Set.disjoint_left.mpr fun x hx hx' => ?_, hinv.disjoint⟩
    exact hheld h hh x hx' ((hmem x).mp hx)
  · rintro h (_ | ⟨_, hh⟩) x hx
    · exact hfree x ((hmem x).mp hx).1 ((hmem x).mp hx).2
    · exact hinv.not_free h hh x hx
  · intro b r' hb
    rcases KeyMap.get_put_eq_some_iff.mp hb with ⟨rfl, rfl⟩ | ⟨hne, hold⟩
    · refine ⟨hdvd, hlo, show b + baseBlock ≤ a.hi r' by omega, fun x hx => ?_, ?_⟩
      · simp only [blockAt, mem_bytes, stop] at hx
        exact hfree x hx.1 (by omega)
      · rintro h (_ | ⟨_, hh⟩) r₂ hk hin
        · cases hk
          exact ⟨rfl, rfl⟩
        · exact absurd ⟨le_rfl, by omega⟩ (hheld h hh b hin)
    · have ht := hinv.tagged b r' hold
      refine ⟨ht.dvd, ht.lo_le, ht.le_hi, ht.not_free, ?_⟩
      rintro h (_ | ⟨_, hh⟩) r₂ hk hin
      · exact absurd ((hmem b).mp hin) (htags b r' hold)
      · exact ht.owner h hh r₂ hk hin
  · intro base used hp
    have ho := hinv.pack base used hp
    have hbase := hinv.tagged base _ ho.tag
    have hne : base ≠ addr := fun he => htags base _ ho.tag ⟨he.ge, by omega⟩
    refine ⟨KeyMap.get_put_eq_some_iff.mpr (.inr ⟨hne, ho.tag⟩), ho.used_le, ?_⟩
    rintro x hx hx' h (_ | ⟨_, hh⟩) hin
    · have hblock : x ∈ (blockAt base).bytes := ⟨by simp only [blockAt]; omega, hx'⟩
      exact htags base _ ho.tag
        (blockAt_mem hbase.dvd hdvd (Nat.dvd_add hdvd (dvd_footprint len)) hblock ((hmem x).mp hin))
    · exact ho.room x hx hx' h hh hin

theorem mem_freeBytes {x : Nat} (h : x ∈ cover (a.freelist r)) : x ∈ a.freeBytes := ⟨r, h⟩

theorem Inv.take {len addr : Nat} (hinv : Inv a held)
    (hfit : firstFit (a.freelist r) (footprint len) = some addr) :
    Inv ((a.setFreelist (removeRange (a.freelist r) addr (footprint len)) r).tag addr r)
      (⟨addr, len, .aligned r⟩ :: held) := by
  obtain ⟨e, he, rfl, hlen⟩ := firstFit_some hfit
  have hsize : 0 < footprint len := lt_of_lt_of_le baseBlock_pos (baseBlock_le_footprint len)
  have hstop : e.start + footprint len ≤ e.stop := Nat.add_le_add_left hlen _
  obtain ⟨hsp, hcover⟩ := removeRange_spec (hinv.spaced r) hsize he le_rfl hstop
  have hdvd := (hinv.ends r e he).1
  have hold : ∀ x, e.start ≤ x → x < e.start + footprint len → x ∈ cover (a.freelist r) :=
    fun x hx hx' => bytes_subset_cover he ⟨hx, by omega⟩
  have hset : Inv (a.setFreelist (removeRange (a.freelist r) e.start (footprint len)) r) held := by
    refine hinv.setFreelist hsp
      ((hinv.ends r).removeRange hdvd (Nat.dvd_add hdvd (dvd_footprint len))) ?_ ?_ ?_ ?_
    · exact fun x hx => hinv.free_within r x ((hcover x).mp hx).1
    · exact fun r' x hx hr' => hinv.free_once r' r x hr' ((hcover x).mp hx).1
    · exact fun h hh x hx hc => hinv.not_free h hh x hx (mem_freeBytes ((hcover x).mp hc).1)
    · exact fun b r' hb x hx hc =>
        (hinv.tagged b r' hb).not_free x hx (mem_freeBytes ((hcover x).mp hc).1)
  have hin := hinv.free_within r
  refine hset.lend hdvd ?_ ?_ ?_ ?_ ?_
  · rw [lo_setFreelist]
    exact (hin _ (hold _ le_rfl (by omega))).1
  · rw [hi_setFreelist]
    have := (hin _ (hold (e.start + footprint len - 1) (by omega) (by omega))).2
    omega
  · intro x hx hx' hf
    rcases mem_freeBytes_set.mp hf with hc | ⟨r', hne, hc⟩
    · exact ((hcover x).mp hc).2 ⟨hx, hx'⟩
    · exact hne (hinv.free_once r' r x hc (hold x hx hx'))
  · exact fun h hh x hx hr => hinv.not_free h hh x hx (mem_freeBytes (hold x hr.1 hr.2))
  · intro b r' hb hr
    rw [setFreelist_tags] at hb
    exact (hinv.tagged b r' hb).not_free b ⟨le_rfl, Nat.lt_add_of_pos_right baseBlock_pos⟩
      (mem_freeBytes (hold b hr.1 hr.2))

/-- What is owned lies below the forward frontier or above the tail's. -/
theorem Inv.outside {x : Nat} (hinv : Inv a held) (hlo : a.liveHwm ≤ x) (hhi : x < a.tailLow) :
    x ∉ a.freeBytes ∧ (∀ h ∈ held, x ∉ h.extent.bytes) ∧ ∀ b r,
      a.tags.get b = some r → x ∉ (blockAt b).bytes := by
  refine ⟨?_, fun h hh hx => ?_, fun b r hb hx => ?_⟩
  · rintro ⟨r, hx⟩
    have := hinv.free_within r x hx
    cases r <;> simp only [lo, hi] at this <;> omega
  · by_cases ht : h.isTail
    · have := (hinv.placed h hh).mem_tail_bounds ht hx
      omega
    · have := (hinv.placed h hh).mem_bounds ht hx
      omega
  · have ht := hinv.tagged b r hb
    have h₁ := ht.lo_le
    have h₂ := ht.le_hi
    simp only [blockAt, mem_bytes, stop] at hx
    cases r <;> simp only [lo, hi] at h₁ h₂ <;> omega

theorem mem_blockAt (b : Nat) : b ∈ (blockAt b).bytes :=
  ⟨le_rfl, Nat.lt_add_of_pos_right baseBlock_pos⟩

theorem Inv.bump_forward {len : Nat} (hinv : Inv a held) (hroom : ¬ a.collides (footprint len))
    (hr : r ≠ .evictionTail) (liveBase : Option Nat) (headHwm : Nat) :
    Inv (tag { a with liveBase, liveHwm := a.liveHwm + footprint len, headHwm } a.liveHwm r)
      (⟨a.liveHwm, len, .aligned r⟩ :: held) := by
  have hfit : a.liveHwm + footprint len ≤ a.tailLow := not_lt.mp hroom
  have hb := hinv.toBounds
  have hwide : Inv { a with liveBase, liveHwm := a.liveHwm + footprint len, headHwm } held := by
    refine hinv.widen ⟨hb.1, hb.2, Nat.dvd_add hb.3 (dvd_footprint len), hb.4,
      hb.5.trans (Nat.le_add_right _ _), hfit, hb.7, hb.8⟩ (fun r' => ?_) rfl rfl (fun r' => ?_) fun r' => ?_
    · cases r' <;> rfl
    · cases r' <;> exact le_rfl
    · cases r' <;> first | exact le_rfl | exact Nat.le_add_right _ _
  refine hwide.lend hb.hwm_dvd ?_ ?_ (fun x hx hx' => ?_) (fun h hh x hx hin => ?_)
    fun b r' hb' hin => ?_
  · cases r with
    | evictionTail => exact absurd rfl hr
    | _ => exact hb.start_le
  · cases r with
    | evictionTail => exact absurd rfl hr
    | _ => exact le_rfl
  · exact (hinv.outside hx (by omega)).1
  · exact (hinv.outside hin.1 (by omega)).2.1 h hh hx
  · exact (hinv.outside hin.1 (by omega)).2.2 b r' hb' (mem_blockAt b)

theorem Inv.bump_tail {len : Nat} (hinv : Inv a held) (hroom : ¬ a.collides (footprint len)) :
    Inv ({ a with tailLow := a.tailLow - footprint len }.tag (a.tailLow - footprint len) .evictionTail)
      (⟨a.tailLow - footprint len, len, .aligned .evictionTail⟩ :: held) := by
  have hfit : a.liveHwm + footprint len ≤ a.tailLow := not_lt.mp hroom
  have hb := hinv.toBounds
  have hdvd : baseBlock ∣ a.tailLow - footprint len := Nat.dvd_sub hb.4 (dvd_footprint len)
  have hlow : a.liveHwm ≤ a.tailLow - footprint len := Nat.le_sub_of_add_le hfit
  have hstop : a.tailLow - footprint len + footprint len = a.tailLow :=
    Nat.sub_add_cancel ((Nat.le_add_left _ _).trans hfit)
  have hwide : Inv { a with tailLow := a.tailLow - footprint len } held := by
    refine hinv.widen ⟨hb.1, hb.2, hb.3, hdvd, hb.5, hlow, (Nat.sub_le _ _).trans hb.7, hb.8⟩
      (fun r' => ?_) rfl rfl
      (fun r' => ?_) fun r' => ?_
    · cases r' <;> rfl
    · cases r' <;> first | exact le_rfl | exact Nat.sub_le _ _
    · cases r' <;> exact le_rfl
  refine hwide.lend hdvd le_rfl (hstop.le.trans hb.7) (fun x hx hx' => ?_) (fun h hh x hx hin => ?_)
    fun b r' hb' hin => ?_
  · exact (hinv.outside (hlow.trans hx) (hstop ▸ hx')).1
  · exact (hinv.outside (hlow.trans hin.1) (hstop ▸ hin.2)).2.1 h hh hx
  · exact (hinv.outside (hlow.trans hin.1) (hstop ▸ hin.2)).2.2 b r' hb' (mem_blockAt b)

theorem Inv.bump {len : Nat} (hinv : Inv a held) (hroom : ¬ a.collides (footprint len)) :
    Inv ((a.bump len (footprint len) r).1.tag (a.bump len (footprint len) r).2.addr r)
      (⟨(a.bump len (footprint len) r).2.addr, len, .aligned r⟩ :: held) := by
  cases r with
  | catalogHead => exact hinv.bump_forward hroom (by decide) _ _
  | liveMid => exact hinv.bump_forward hroom (by decide) _ _
  | evictionTail => exact hinv.bump_tail hroom

end

end Sfs.Container

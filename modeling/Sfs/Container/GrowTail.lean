import Sfs.Container.TailStore

/-!
# Growing keeps the tail

`GrownTail` says what a growth by `k` bytes owes: the bytes of the tail and of the log are found
`k` higher, everything the allocator knows about them moved by `k`, and the room that was asked
for is there. The copy is right in every state (`growBy` is at least the span that moves). The
room is there, whatever is asked for, iff the live frontier is not above the tail; a tail extent
that is waiting for a header commit keeps its old address (`grow_right_iff`).
-/

namespace Sfs.Container

open Sfs.Lib List

/-- Where a deferred free lies after the tail, from `low` on, moved up by `k`. -/
def liftedLoc (low k : Nat) (loc : BlockLoc) : BlockLoc :=
  if low ≤ loc.addr then ⟨loc.addr + k, loc.len⟩ else loc

structure GrownTail (d : Disk) (a : Allocator) (needed k : Nat) (a' : Allocator) : Prop where
  len : (relocated d a k).len = a'.fileLen
  /-- the tail's blocks and the log, byte for byte -/
  bytes : ∀ x, a.tailLow ≤ x → x < a.fileLen → (relocated d a k).byte (x + k) = d.byte x
  below : ∀ x, x < a.tailLow → x < a.fileLen → (relocated d a k).byte x = d.byte x
  fileLen : a'.fileLen = a.fileLen + k
  tailLow : a'.tailLow = a.tailLow + k
  wal : a'.wal = a.wal.map (· + k)
  tags : ∀ b r, a'.tags.get b = some r ↔
    (r = .evictionTail ∧ ∃ x, b = x + k ∧ a.tags.get x = some .evictionTail) ∨
      r ≠ .evictionTail ∧ a.tags.get b = some r
  freeTail : a'.freeTail = a.freeTail.map (Extent.shift k)
  deferred : a'.deferred = a.deferred.map (liftedLoc a.tailLow k)
  forward : a'.freeHead = a.freeHead ∧ a'.freeLive = a.freeLive ∧ a'.liveHwm = a.liveHwm ∧
    a'.openPack = a.openPack
  room : a'.liveHwm + needed ≤ a'.tailLow

section

variable {d : Disk} {a a' : Allocator} {needed : Nat}

theorem growFor_of_canGrow (hreg : Registered a) (hgrow : a.noGrow = false) (needed : Nat) :
    a.growFor none needed = (a.lifted (a.growBy needed), .ok ()) := by
  obtain ⟨a', ha'⟩ : ∃ a', a.growFor none needed = (a', .ok ()) := by
    unfold Allocator.growFor
    rw [hgrow]
    simp only [Bool.false_eq_true, if_false, reduceCtorEq]
    split <;> exact ⟨_, rfl⟩
  rw [ha', growFor_ok hreg ha']

theorem noGrow_of_growFor {fault : Option Allocator.GrowFault}
    (h : a.growFor fault needed = (a', .ok ())) : a.noGrow = false := by
  unfold Allocator.growFor at h
  split at h
  · cases h
  · rename_i hng
    exact Bool.eq_false_iff.mpr hng

theorem growBy_pos (a : Allocator) (needed : Nat) : 0 < a.growBy needed := by
  have := le_roundUpToBlock
    (max (max (needed - (a.tailLow - a.liveHwm)) growChunk) (a.fileLen - a.tailLow))
  have hchunk : 0 < growChunk := by decide
  show 0 < roundUpToBlock _
  omega

/-- A large request of whole blocks, with no slack left, grows the file by no more than itself. -/
theorem growBy_eq_self (hslack : a.tailLow ≤ a.liveHwm) (hdvd : baseBlock ∣ needed)
    (hchunk : growChunk ≤ needed) (hspan : a.fileLen ≤ needed) : a.growBy needed = needed := by
  have hmax : max (max (needed - (a.tailLow - a.liveHwm)) growChunk) (a.fileLen - a.tailLow) =
    needed := by omega
  unfold Allocator.growBy
  dsimp only
  rw [hmax]
  exact le_antisymm (roundUpToBlock_le hdvd le_rfl) (le_roundUpToBlock needed)

theorem liftedLoc_below {low k : Nat} {l : List BlockLoc} (h : ∀ loc ∈ l, loc.addr < low) :
    l.map (liftedLoc low k) = l := by
  conv_rhs => rw [← map_id l]
  exact map_congr_left fun loc hl => if_neg (not_le.mpr (h loc hl))

theorem GrownTail.of_frontiers (hreg : Registered a) (hlen : d.len = a.fileLen)
    (hwm : a.liveHwm ≤ a.tailLow) (hdef : ∀ loc ∈ a.deferred, loc.addr < a.tailLow) (needed : Nat) :
    GrownTail d a needed (a.growBy needed) (a.lifted (a.growBy needed)) := by
  obtain ⟨-, hroom, hspan⟩ := growBy_spec a needed
  rw [max_eq_right hwm] at hroom
  exact
    { len := len_relocated
      bytes := fun x hlo hhi => relocated_byte_tail hspan hlo hhi
      below := fun x hx hx' => relocated_byte_below hlen hx hx'
      fileLen := rfl
      tailLow := rfl
      wal := rfl
      tags := tags_lifted hreg hwm hspan
      freeTail := rfl
      deferred := (liftedLoc_below hdef).symm
      forward := ⟨rfl, rfl, rfl, rfl⟩
      room := hroom }

/-- Every growth, whatever is asked for and whatever may fail, is right iff the file has a fixed
length, or the live frontier is not above the tail and no free of the tail is deferred. -/
theorem grown_iff (hreg : Registered a) (hlen : d.len = a.fileLen) :
    (∀ fault needed a', a.growFor fault needed = (a', .ok ()) →
      GrownTail d a needed (a'.fileLen - a.fileLen) a') ↔
      a.noGrow = true ∨ (a.liveHwm ≤ a.tailLow ∧ ∀ loc ∈ a.deferred, loc.addr < a.tailLow) := by
  have hk : ∀ needed, (a.lifted (a.growBy needed)).fileLen - a.fileLen = a.growBy needed :=
    fun needed => Nat.add_sub_cancel_left ..
  constructor
  · intro hall
    cases hng : a.noGrow with
    | true => exact .inl rfl
    | false =>
      right
      have hgrown : ∀ needed, GrownTail d a needed (a.growBy needed) (a.lifted (a.growBy needed)) :=
          fun needed => by
        have := hall none needed _ (growFor_of_canGrow hreg hng needed)
        rwa [hk] at this
      constructor
      · -- a request as large as the file: nothing is left over to make up for the missing slack
        by_contra habove
        have hself : a.growBy (baseBlock * (growChunk + a.fileLen)) =
            baseBlock * (growChunk + a.fileLen) := by
          have hpos := baseBlock_pos
          have hle : growChunk + a.fileLen ≤ baseBlock * (growChunk + a.fileLen) :=
            Nat.le_mul_of_pos_left _ hpos
          exact growBy_eq_self (by omega) (Nat.dvd_mul_right _ _) (by omega) (by omega)
        have hroom := (hgrown (baseBlock * (growChunk + a.fileLen))).room
        rw [hself] at hroom
        have hroom : a.liveHwm + baseBlock * (growChunk + a.fileLen) ≤
          a.tailLow + baseBlock * (growChunk + a.fileLen) := hroom
        omega
      · intro loc hloc
        by_contra hin
        have hdef : a.deferred = a.deferred.map (liftedLoc a.tailLow (a.growBy 0)) :=
          (hgrown 0).deferred
        have hfix : liftedLoc a.tailLow (a.growBy 0) loc = loc := by
          rw [← map_id a.deferred, map_map] at hdef
          exact (map_inj_left.mp hdef loc hloc).symm
        rw [liftedLoc, if_pos (not_lt.mp hin)] at hfix
        have hpos := growBy_pos a 0
        have haddr := congrArg BlockLoc.addr hfix
        dsimp only at haddr
        omega
  · rintro (hng | ⟨hwm, hdef⟩) fault needed a' h
    · rw [noGrow_of_growFor h] at hng
      cases hng
    · rw [growFor_ok hreg h, hk]
      exact GrownTail.of_frontiers hreg hlen hwm hdef needed

end

/-- **Growing.** In every state with its tail registered, growing is right for every request iff the
live frontier is not above the tail and no free of the tail is deferred (or the file cannot grow);
and any run of `Safe` calls reaches such a state, if none of the retired extents is in the tail. -/
theorem grow_right_iff (fileLen : Nat) (noGrow : Bool) (calls : List AllocCall) :
    (∀ (d : Disk) (a : Allocator), Registered a → d.len = a.fileLen →
      ((∀ fault needed a', a.growFor fault needed = (a', .ok ()) →
        GrownTail d a needed (a'.fileLen - a.fileLen) a') ↔
        a.noGrow = true ∨ (a.liveHwm ≤ a.tailLow ∧ ∀ loc ∈ a.deferred, loc.addr < a.tailLow))) ∧
    (baseBlock ∣ fileLen → 2 * baseBlock ≤ fileLen →
      Along Arena.step (fun s call => Legal s call ∧ Safe s call) (Arena.init fileLen noGrow) calls →
      let s := run Arena.step (Arena.init fileLen noGrow) calls
      Registered s.alloc ∧ s.alloc.liveHwm ≤ s.alloc.tailLow ∧
        ((∀ h ∈ s.parked, ¬ h.isTail) → ∀ loc ∈ s.alloc.deferred, loc.addr < s.alloc.tailLow)) := by
  refine ⟨fun d a hreg hlen => grown_iff hreg hlen, fun hdvd hlen h => ?_⟩
  have hs := ArenaInv.run hdvd hlen noGrow h
  refine ⟨hs.inv.registered, hs.inv.hwm_le, fun hpark loc hloc => ?_⟩
  rw [hs.deferred] at hloc
  obtain ⟨g, hg, rfl⟩ := mem_map.mp hloc
  have hp := hs.inv.placed g (mem_append_right _ hg)
  exact (hp.mem_bounds (hpark g hg) hp.addr_mem).2.trans_le hs.inv.hwm_le

/-- A tail with a block and a free extent, and a log behind it. -/
theorem grow_right_with_log :
    let s := run Arena.step (Arena.init 32768 false)
      [.alloc none 4096 .evictionTail, .alloc none 4096 .evictionTail,
      .enableWal 40960, .free ⟨24576, 4096, .aligned .evictionTail⟩]
    s.alloc.tags.get 28672 = some .evictionTail ∧ s.alloc.freeTail = [⟨24576, 4096⟩] ∧
      s.alloc.wal = some 32768 ∧
      ∀ d : Disk, d.len = s.alloc.fileLen →
        ∀ fault needed a', s.alloc.growFor fault needed = (a', .ok ()) →
        GrownTail d s.alloc needed (a'.fileLen - s.alloc.fileLen) a' := by
  obtain ⟨hright, hrun⟩ :=
    grow_right_iff 32768 false [.alloc none 4096 .evictionTail, .alloc none 4096 .evictionTail,
      .enableWal 40960, .free ⟨24576, 4096, .aligned .evictionTail⟩]
  have hrun := hrun (by decide) (by decide)
    (.and (by decide) ⟨fun _ _ _ h hh => absurd hh not_mem_nil,
      fun _ _ _ h hh => absurd hh not_mem_nil, trivial, fun hk => (by cases hk), trivial⟩)
  refine ⟨by decide, by decide, by decide, fun d hd => ?_⟩
  exact (hright d _ hrun.1 hd).mpr (.inr ⟨hrun.2.1, hrun.2.2 fun h hh => absurd hh not_mem_nil⟩)

/-- Two packed extents in the last block below the tail, and the container opened again: the second
counts as a block of its own, the live frontier stands above the tail, and growing for 64 KiB
leaves only 60 KiB. -/
theorem grow_short_of_room :
    Along Arena.step Legal (Arena.init 16384 false) (reopenCalls.take 4) ∧
      let s := run Arena.step (Arena.init 16384 false) (reopenCalls.take 4)
      s.alloc.tags.get 12288 = some .evictionTail ∧ s.alloc.liveHwm = 16384 ∧
        ((s.alloc.growFor none 65536).2 = .ok () ∧ (s.alloc.growFor none 65536).1.tailLow = 77824) ∧
        ¬ (s.alloc.growFor none 65536).1.liveHwm + 65536 ≤ (s.alloc.growFor none 65536).1.tailLow := by
  decide

end Sfs.Container

import Sfs.Container.HeaderCrash
import Sfs.Container.TailStore

/-!
# Shrinking the file to fit

`seal_to_fit` commits a header with the new start of the tail and cuts the file off at the live
frontier, if the tail is empty. What anybody holds stays below the new end and keeps its bytes, and
the new header is there. The allocator is not told: its tail still starts at the old end, so it goes
on lending space that the file no longer has (`seal_to_fit_iff`).
-/

namespace Sfs.Container

open Sfs.Lib

/-- The header that publishes the new `tail_low`. -/
def Header.sealed (h : Header) (hwm : Nat) : Header where
  val := { h.val with commitSeq := h.val.commitSeq + 1, tailLow := UInt64.ofNat hwm }
  magic_eq := h.magic_eq
  version_eq := h.version_eq

section

variable (crc : Bytes → UInt32) (headerMac : RootKey → Bytes → Vector UInt8 32) (rootKey : RootKey)

/-- A device that cannot be shrunk is found out after the commit. -/
def Store.sealToFit (s : Store) (header : Header) : Store × Header × Result Nat :=
  let containerLen := s.alloc.fileLen
  let hwm := roundUpToBlock s.alloc.liveHwm
  if s.alloc.tailLow < containerLen then
    (s, header, .error (.integrity ("seal_to_fit: EvictionTail is not empty (tail_low=" ++
      toString s.alloc.tailLow ++ ", container_len=" ++ toString containerLen ++
        ") — refusing to truncate live history")))
  else if containerLen < hwm then
    (s, header, .error (.integrity ("seal_to_fit: live_hwm rounds up to " ++ toString hwm ++
      " which exceeds container_len " ++ toString containerLen)))
  else
    let next := header.sealed hwm
    match commit crc headerMac s.disk next.val (some rootKey) with
    | .error e => (s, header, .error e)
    | .ok disk =>
      if hwm < containerLen then
        if s.alloc.noGrow then
          (⟨disk, s.alloc⟩, next, .error (.io ("container is on a fixed " ++ toString containerLen ++
            "-byte device and cannot be shrunk")))
        else (⟨⟨hwm, disk.byte⟩, { s.alloc with fileLen := hwm }⟩, next, .ok hwm)
      else (⟨disk, s.alloc⟩, next, .ok hwm)

end

section

variable {crc : Bytes → UInt32} {headerMac : RootKey → Bytes → Vector UInt8 32} {rootKey : RootKey}
variable {d d' : Disk} {a : Allocator} {held : List Held} {st : Store} {header header' : Header}
  {n : Nat}

theorem roundUpToBlock_of_dvd {n : Nat} (h : baseBlock ∣ n) : roundUpToBlock n = n :=
  le_antisymm (roundUpToBlock_le h le_rfl) (le_roundUpToBlock n)

theorem commit_frame {k : Option RootKey} (h : commit crc headerMac d header.val k = .ok d') :
    d'.len = d.len ∧ ∀ x, 2 * baseBlock ≤ x → d'.byte x = d.byte x := by
  obtain ⟨off, wire, hstage, rfl⟩ := commit_ok h
  refine ⟨rfl, fun x hx => Disk.tear_byte_outside (.inr ?_)⟩
  unfold stageCommit at hstage
  split at hstage
  · cases hstage
  · split at hstage
    · cases hstage
    · cases hstage
      have hwire := (toWire_length_le crc headerMac header k).2
      have hsize : wireSize ≤ baseBlock := by decide
      rcases otherSlot_slot ‹Nat› with hoff | hoff <;> rw [hoff] <;>
        simp only [slot0Offset, slot1Offset] <;> omega

/-- The slots do not change with the length of the file. -/
theorem Settled.resize {k : Option RootKey} {h : ContainerHeader} {slot : Nat}
    (hs : Settled crc headerMac d k h slot) (hroom : slot1Offset + wireSize ≤ n) :
    Settled crc headerMac ⟨n, d.byte⟩ k h slot := by
  have hread : ∀ {off : Nat} (k : Option RootKey), off = slot0Offset ∨ off = slot1Offset →
      readSlot crc headerMac ⟨n, d.byte⟩ off k = readSlot crc headerMac d off k := by
    intro off k hoff
    rw [readSlot_of_room (slot_room hoff hroom), readSlot_of_room (slot_room hoff hs.room)]
    rfl
  refine ⟨hs.slot, hroom, (hread k hs.slot).trans hs.holds, fun h' hh' => hs.stale h' ?_⟩
  exact (hread none (otherSlot_slot slot)).symm.trans hh'

/-- It succeeds only with an empty tail; beside the header only the length of the file changes. -/
theorem sealToFit_ok (hinv : Inv a held) (hlen : d.len = a.fileLen)
    (h : Store.sealToFit crc headerMac rootKey ⟨d, a⟩ header = (st, header', .ok n)) :
    a.tailLow = a.fileLen ∧ n = a.liveHwm ∧ header' = header.sealed n ∧
      ∃ d', commit crc headerMac d header'.val (some rootKey) = .ok d' ∧
        st = ⟨⟨n, d'.byte⟩, { a with fileLen := n }⟩ := by
  have hb := hinv.toBounds
  have hround := roundUpToBlock_of_dvd hb.hwm_dvd
  unfold Store.sealToFit at h
  dsimp only at h
  rw [hround] at h
  split at h
  · cases h
  rename_i hlow
  have htail : a.tailLow = a.fileLen := le_antisymm (hb.tail_le.trans hb.limit_le) (not_lt.mp hlow)
  split at h
  · cases h
  rename_i hle
  split at h
  · cases h
  rename_i d' hcommit
  split at h
  · split at h
    · cases h
    · cases h
      exact ⟨htail, rfl, rfl, d', hcommit, rfl⟩
  rename_i hge
  cases h
  refine ⟨htail, rfl, rfl, d', hcommit, ?_⟩
  have heq : a.liveHwm = a.fileLen := le_antisymm (not_lt.mp hle) (not_lt.mp hge)
  have hlen' : d'.len = a.liveHwm := (commit_frame hcommit).1.trans (hlen.trans heq.symm)
  obtain ⟨len, byte⟩ := d'
  obtain rfl : len = a.liveHwm := hlen'
  cases a
  cases heq
  rfl

/-- It succeeds if the checks and the commit do and there is nothing that cannot be cut off. -/
theorem sealToFit_committed {hwm : Nat} (hhwm : roundUpToBlock a.liveHwm = hwm)
    (hlow : ¬ a.tailLow < a.fileLen) (hle : ¬ a.fileLen < hwm)
    (hcommit : commit crc headerMac d (header.sealed hwm).val (some rootKey) = .ok d')
    (hgrow : a.noGrow = false) :
    Store.sealToFit crc headerMac rootKey ⟨d, a⟩ header =
      (if hwm < a.fileLen then ⟨⟨hwm, d'.byte⟩, { a with fileLen := hwm }⟩ else ⟨d', a⟩,
        header.sealed hwm, .ok hwm) := by
  subst hhwm
  unfold Store.sealToFit
  dsimp only
  rw [if_neg hlow, if_neg hle, hcommit]
  dsimp only
  split
  · rw [if_neg (Bool.eq_false_iff.mp hgrow)]
  · rfl

/-- With an empty tail every extent lies between the header and the live frontier. -/
theorem mem_bounds_of_empty_tail (hinv : Inv a held) (htail : a.tailLow = a.fileLen) {h : Held}
    (hh : h ∈ held) {x : Nat} (hx : x ∈ h.extent.bytes) : 2 * baseBlock ≤ x ∧ x < a.liveHwm :=
  (hinv.placed h hh).mem_bounds (hinv.empty_tail (by omega) h hh) hx

/-- The first extent of an empty tail is lent where the tail starts, wherever the file ends. -/
theorem allocAligned_first_tail (hfree : a.freeTail = [])
    (hroom : a.liveHwm + baseBlock ≤ a.tailLow) :
    ∃ a', a.allocAligned none 1 .evictionTail = (a', .ok ⟨a.tailLow - baseBlock, 1⟩) ∧
      a'.fileLen = a.fileLen := by
  have hfoot : footprint 1 = baseBlock := by decide
  have hcol : ¬ a.collides baseBlock := not_lt.mpr hroom
  have hens : a.ensureRoom none baseBlock = (a, .ok ()) := if_neg hcol
  have hnone : firstFit (a.freelist .evictionTail) baseBlock = none := by
    rw [show a.freelist .evictionTail = [] from hfree]
    rfl
  have htag : ∀ (b : Allocator) (addr : Nat) (r : Region), (b.tag addr r).fileLen = b.fileLen :=
    fun _ _ _ => rfl
  refine ⟨(a.bump 1 baseBlock .evictionTail).1.tag (a.tailLow - baseBlock) .evictionTail, ?_,
    (htag _ _ _).trans (bump_fileLen 1 baseBlock)⟩
  unfold Allocator.allocAligned
  dsimp only
  rw [hfoot, hnone]
  rw [hens]
  rfl

end

/-- **Shrinking to fit.** After any run of `Safe` calls, a successful `seal_to_fit` leaves every
extent below the new end of the file and all bytes behind the header as they were, and the header
it committed is the one that is there; the calls that follow keep every extent inside the file and
apart iff nothing was cut off. -/
theorem seal_to_fit_iff {fileLen : Nat} (hdvd : baseBlock ∣ fileLen)
    (hlen : 2 * baseBlock ≤ fileLen) (noGrow : Bool) (calls : List AllocCall)
    (h : Along Arena.step (fun s call => Legal s call ∧ Safe s call) (Arena.init fileLen noGrow) calls)
    (crc : Bytes → UInt32) (headerMac : RootKey → Bytes → Vector UInt8 32) (rootKey : RootKey)
    (d : Disk) (header : Header) (st : Store) (header' : Header) (n : Nat) :
    let s := run Arena.step (Arena.init fileLen noGrow) calls
    d.len = s.alloc.fileLen →
      Store.sealToFit crc headerMac rootKey ⟨d, s.alloc⟩ header = (st, header', .ok n) →
      (∀ g ∈ s.held, ∀ x ∈ g.extent.bytes, 2 * baseBlock ≤ x ∧ x < n) ∧ st.disk.len = n ∧
        (∀ x, 2 * baseBlock ≤ x → x < n → st.disk.byte x = d.byte x) ∧
        (header' = header.sealed n ∧ ∀ slot, Settled crc headerMac d (some rootKey) header.val slot →
          load crc headerMac st.disk (some rootKey) = .ok header'.val) ∧
        ((∀ later, Along Arena.step (fun s call => Legal s call ∧ Safe s call)
          { s with alloc := st.alloc } later →
          Sound (run Arena.step { s with alloc := st.alloc } later)) ↔ n = s.alloc.fileLen) := by
  intro s hd hseal
  have hs : ArenaInv s := ArenaInv.run hdvd hlen noGrow h
  obtain ⟨htail, rfl, rfl, d', hcommit, rfl⟩ := sealToFit_ok hs.inv hd hseal
  have hlow : ¬ s.alloc.tailLow < s.alloc.fileLen := by omega
  have hroom : slot1Offset + wireSize ≤ s.alloc.liveHwm := le_trans (by decide) hs.inv.start_le
  refine ⟨fun g hg x hx => mem_bounds_of_empty_tail hs.inv htail hg hx, rfl,
    fun x hx _ => (commit_frame hcommit).2 x hx,
    ⟨rfl, fun slot hslot => ((hslot.commit hcommit).resize hroom).load⟩,
    fun hsound => ?_, fun hkept later hl => ?_⟩
  · -- one image is put into the tail: it lies where the file ended before
    by_contra hcut
    have hroom : s.alloc.liveHwm < s.alloc.fileLen := by
      have := hs.inv.hwm_le
      omega
    have hfit : s.alloc.liveHwm + baseBlock ≤ s.alloc.tailLow := by
      have h₁ := hs.inv.hwm_dvd
      have h₂ := hs.inv.fileLen_dvd
      unfold baseBlock at *
      omega
    have hfree : s.alloc.freeTail = [] := List.eq_nil_iff_forall_not_mem.mpr fun e he => by
      have := hs.inv.registered.free e he
      omega
    obtain ⟨a', hok, hfile⟩ :=
      allocAligned_first_tail (a := { s.alloc with fileLen := s.alloc.liveHwm }) hfree hfit
    have hafter := hsound [.alloc none 1 .evictionTail]
      ⟨⟨trivial, fun _ _ _ g hg => hs.inv.empty_tail hlow g (List.mem_append_right _ hg)⟩, trivial⟩
    rw [run_cons, run_nil, Arena.step, hok] at hafter
    have hend := (hafter.aligned _ (.head _) .evictionTail rfl).2
    have hend : s.alloc.tailLow - baseBlock + footprint 1 ≤ a'.fileLen := hend
    have hfoot : footprint 1 = baseBlock := by decide
    rw [hfile, hfoot] at hend
    dsimp only at hend
    omega
  · have hsame : ({ s.alloc with fileLen := s.alloc.liveHwm } : Allocator) = s.alloc := by rw [hkept]
    rw [hsame] at hl ⊢
    exact (ArenaInv.run_from hs hl).sound

theorem freshDisk_commit {n : Nat} (h : slot1Offset + wireSize ≤ n) (hwm : Nat) :
    ∃ d', commit crc32 demoMac ⟨n, freshDisk.byte⟩ ((blankHeader 0).sealed hwm).val (some demoKey) =
      .ok d' := by
  have hnext : ((blankHeader 0).sealed hwm).val.commitSeq.toNat =
    (blankHeader 0).val.commitSeq.toNat + 1 := rfl
  obtain ⟨d', hd, -⟩ := (freshDisk_settled.resize h).commit_load hnext
  exact ⟨d', hd⟩

/-- A file without slack at its end: nothing is cut, and what follows is sound. -/
theorem seal_to_fit_full :
    let s := run Arena.step (Arena.init 16384 false) [.alloc none 8192 .liveMid]
    ∃ st header', Store.sealToFit crc32 demoMac demoKey ⟨⟨16384, freshDisk.byte⟩, s.alloc⟩
      (blankHeader 0) =
        (st, header', .ok 16384) ∧ load crc32 demoMac st.disk (some demoKey) = .ok header'.val ∧
      Sound (run Arena.step s [.alloc none 4096 .liveMid]) := by
  intro s
  have hroom : slot1Offset + wireSize ≤ 16384 := by decide
  obtain ⟨d', hcommit⟩ := freshDisk_commit hroom 16384
  have hseal : Store.sealToFit crc32 demoMac demoKey ⟨⟨16384, freshDisk.byte⟩, s.alloc⟩
    (blankHeader 0) =
      (⟨d', s.alloc⟩, (blankHeader 0).sealed 16384, .ok 16384) :=
    sealToFit_committed (by decide) (by decide) (by decide) hcommit rfl
  have h := seal_to_fit_iff (show baseBlock ∣ 16384 by decide)
    (show 2 * baseBlock ≤ 16384 by decide) false
    [.alloc none 8192 .liveMid] ⟨⟨trivial, fun _ _ _ _ hg => absurd hg List.not_mem_nil⟩, trivial⟩
      crc32 demoMac demoKey
    ⟨16384, freshDisk.byte⟩ (blankHeader 0) _ _ 16384 rfl hseal
  refine ⟨_, _, hseal, h.2.2.2.1.2 _ (freshDisk_settled.resize hroom), ?_⟩
  exact h.2.2.2.2.mpr rfl [.alloc none 4096 .liveMid]
    ⟨⟨trivial, fun _ _ _ _ hg => absurd hg List.not_mem_nil⟩, trivial⟩

/-- A block is lent, the file is cut from 65536 to 12288 bytes, and the next block is lent at its
end: writing it fails. -/
theorem seal_to_fit_past_end :
    let s := run Arena.step (Arena.init 65536 false) [.alloc none 4096 .liveMid]
    ∃ st header', Store.sealToFit crc32 demoMac demoKey ⟨⟨65536, freshDisk.byte⟩, s.alloc⟩
      (blankHeader 0) =
        (st, header', .ok 12288) ∧ st.disk.len = 12288 ∧ st.alloc.tailLow = 65536 ∧
      (st.alloc.allocAligned none 4096 .liveMid).2 = .ok ⟨12288, 4096⟩ ∧
        ∀ b, st.disk.writeAt 12288 (List.replicate 4096 b) = none := by
  intro s
  obtain ⟨d', hcommit⟩ := freshDisk_commit (show slot1Offset + wireSize ≤ 65536 by decide) 12288
  have hseal : Store.sealToFit crc32 demoMac demoKey ⟨⟨65536, freshDisk.byte⟩, s.alloc⟩
    (blankHeader 0) =
      (⟨⟨12288, d'.byte⟩, { s.alloc with fileLen := 12288 }⟩, (blankHeader 0).sealed 12288,
        .ok 12288) :=
    sealToFit_committed (by decide) (by decide) (by decide) hcommit rfl
  have hlend : (({ s.alloc with fileLen := 12288 } : Allocator).allocAligned none 4096 .liveMid).2 =
      .ok ⟨12288, 4096⟩ := by decide
  refine ⟨_, _, hseal, rfl, rfl, hlend, fun b => if_neg ?_⟩
  rw [List.length_replicate]
  exact Nat.not_le.mpr (show 12288 < 12288 + 4096 by decide)

end Sfs.Container

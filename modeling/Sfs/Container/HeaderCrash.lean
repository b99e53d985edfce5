import Sfs.Container.Header

/-!
# Crash atomicity of the header commit

`commit` writes the inactive slot and flushes. A crash in between leaves an arbitrary set of
the written bytes on disk (`Disk.tear`). The bytes of a slot fall in two parts: body and CRC,
which stage 1 of `load` checks, and the MAC, which only stage 2 checks.

- `Settled b k h a`: slot `a` holds `h` under key `k`, and the other slot holds no header or
  one with a lower sequence number. Every state reached by commits and survived crashes is
  settled.
- A crash that leaves the body and CRC of the new header but not its MAC (`MacTorn`) makes
  `load` fail; every other crash leaves the old header or the new one.
-/

namespace Sfs.Container

open Sfs.Lib Disk
open List hiding Disjoint Vector

variable {raw : Bytes} {n off : Nat} {kk : Option RootKey}

section

variable (crc : Bytes → UInt32) (headerMac : RootKey → Bytes → Vector UInt8 32)

/-! ## Wire images -/

theorem toWire_take (h : ContainerHeader) (k : Option RootKey) :
    (toWire crc headerMac h k).take wireSizeNomac =
      serializeBody h ++ leU32 (crc (serializeBody h)) := by
  have hl : (serializeBody h ++ leU32 (crc (serializeBody h))).length = wireSizeNomac := by
    simp [wireSizeNomac]
  cases k with
  | none => exact take_of_length_le (le_of_eq hl)
  | some key =>
    simp only [toWire]
    split
    · exact take_left' hl
    · exact take_of_length_le (le_of_eq hl)

theorem toWire_none_length (h : ContainerHeader) :
    (toWire crc headerMac h none).length = wireSizeNomac := by
  simp [toWire, wireSizeNomac]

theorem toWire_some (h : Header) (key : RootKey) :
    toWire crc headerMac h.val (some key) = serializeBody h.val ++ leU32 (crc (serializeBody h.val)) ++
      (headerMac key (serializeBody h.val)).toList := by
  simp [toWire, h.version_eq]

theorem toWire_some_length (h : Header) (key : RootKey) :
    (toWire crc headerMac h.val (some key)).length = wireSize := by
  rw [toWire_some]
  simp [wireSize, headerMacSize]

theorem toWire_length_le (h : Header) (k : Option RootKey) :
    wireSizeNomac ≤ (toWire crc headerMac h.val k).length ∧
      (toWire crc headerMac h.val k).length ≤ wireSize := by
  cases k with
  | none => rw [toWire_none_length]; decide
  | some key => rw [toWire_some_length]; decide

/-- The MAC check of stage 2 alone. -/
def macOk (raw : Bytes) : Option RootKey → Prop
  | some key => slice (bodySize + 4) headerMacSize raw = (headerMac key (raw.take bodySize)).toList
  | none => True

/-- A slot that decodes under a key decodes without one, to the same header. -/
theorem fromWire_ok_iff {k : Option RootKey} {h : ContainerHeader} :
    fromWire crc headerMac raw k = .ok h ↔
      fromWire crc headerMac raw none = .ok h ∧ macOk headerMac raw k := by
  unfold fromWire macOk
  cases k with
  | none => simp
  | some key =>
    split
    · simp
    simp only
    split
    · simp
    split
    · simp
    split
    · rename_i hm
      simp [hm]
    · rename_i hm
      simp only [ne_eq, not_not] at hm
      simp [hm]

/-- Stage 1 reads the body and the CRC only. -/
theorem fromWire_none_congr {raw' : Bytes} (hl : raw.length = raw'.length)
    (ht : raw.take wireSizeNomac = raw'.take wireSizeNomac) :
    fromWire crc headerMac raw none = fromWire crc headerMac raw' none := by
  have hb : raw.take bodySize = raw'.take bodySize := by
    have := congrArg (take bodySize) ht
    simpa [take_take, wireSizeNomac] using this
  have hs : ∀ o n, o + n ≤ wireSizeNomac → slice o n raw = slice o n raw' := by
    intro o n hon
    have := congrArg (fun l => (l.drop o).take n) ht
    simpa [slice, drop_take, take_take, show min n (wireSizeNomac - o) = n by omega]
      using this
  simp only [fromWire, hl, hb, hs 8 2 (by decide), hs bodySize 4 (by decide)]

/-- A slot whose body and CRC are those of `h` decodes to `h`. -/
theorem fromWire_none_of_take {h : Header} (hl : raw.length = wireSize)
    (ht : raw.take wireSizeNomac = serializeBody h.val ++ leU32 (crc (serializeBody h.val))) :
    fromWire crc headerMac raw none = .ok h.val := by
  have hraw : raw = serializeBody h.val ++ (leU32 (crc (serializeBody h.val)) ++
      raw.drop wireSizeNomac) := by
    rw [← append_assoc, ← ht, take_append_drop]
  have hver : slice 8 2 raw = leU16 h.val.formatVersion := by
    rw [hraw]
    unfold serializeBody
    simp only [append_assoc]
    rw [slice_append_right (by simp), take_left' (by simp)]
  have hcrc : slice bodySize 4 raw = leU32 (crc (serializeBody h.val)) := by
    rw [hraw, slice_append_right (by simp), take_left' (by simp)]
  have hbody : raw.take bodySize = serializeBody h.val := by
    rw [hraw, take_left' (by simp)]
  have hparse := parseBody_serializeBody h []
  rw [append_nil] at hparse
  simp [fromWire, hl, hver, hcrc, hbody, h.version_eq, hparse]

/-! ## Settled containers -/

structure Settled (b : Disk) (k : Option RootKey) (h : ContainerHeader) (a : Nat) : Prop where
  slot : a = slot0Offset ∨ a = slot1Offset
  room : slot1Offset + wireSize ≤ b.len
  holds : readSlot crc headerMac b a k = .ok h
  stale : ∀ h', readSlot crc headerMac b (otherSlot a) none = .ok h' → h'.commitSeq < h.commitSeq

variable {crc headerMac} {b : Disk} {k k' : Option RootKey} {h : ContainerHeader} {a : Nat}

theorem fromWire_ok_crc (hf : fromWire crc headerMac raw k = .ok h) :
    ofLeU32 (slice bodySize 4 raw) = crc (raw.take bodySize) := by
  by_contra hne
  simp only [fromWire, ne_eq, hne, not_false_eq_true, if_true] at hf
  split at hf
  · cases hf
  · split at hf <;> cases hf

theorem readSlot_ok_iff {a : Nat} :
    readSlot crc headerMac b a k = .ok h ↔
      readSlot crc headerMac b a none = .ok h ∧ macOk headerMac (b.peek a wireSize) k := by
  unfold readSlot readAt
  by_cases hr : a + wireSize ≤ b.len
  · simp only [hr, if_true]
    exact fromWire_ok_iff crc headerMac
  · simp [hr]

theorem readSlot_of_room {a : Nat} (hr : a + wireSize ≤ b.len) :
    readSlot crc headerMac b a k = fromWire crc headerMac (b.peek a wireSize) k := by
  simp [readSlot, readAt, hr]

theorem otherSlot_slot (a : Nat) : otherSlot a = slot0Offset ∨ otherSlot a = slot1Offset := by
  unfold otherSlot
  split
  · exact .inr rfl
  · exact .inl rfl

theorem otherSlot_otherSlot (ha : a = slot0Offset ∨ a = slot1Offset) :
    otherSlot (otherSlot a) = a := by
  rcases ha with rfl | rfl <;> rfl

theorem otherSlot_disjoint (ha : a = slot0Offset ∨ a = slot1Offset) (hn : n ≤ wireSize) :
    a + wireSize ≤ otherSlot a ∨ otherSlot a + n ≤ a := by
  have : wireSize = 219 := rfl
  rcases ha with rfl | rfl
  · left; decide
  · right; show 0 + n ≤ 4096; omega

theorem slot_room (ha : a = slot0Offset ∨ a = slot1Offset)
    (hr : slot1Offset + n ≤ b.len) : a + n ≤ b.len := by
  rcases ha with rfl | rfl
  · exact le_trans (Nat.add_le_add_right (by decide) n) hr
  · exact hr

/-- The slot that stage 1 of `load` picks, from what the two slots decode to. -/
theorem activeSlot_of (ha : a = slot0Offset ∨ a = slot1Offset)
    (hk : readSlot crc headerMac b a none = .ok h)
    (hs : ∀ h', readSlot crc headerMac b (otherSlot a) none = .ok h' → h'.commitSeq < h.commitSeq) :
    activeSlot crc headerMac b = some (a, h.commitSeq) := by
  rcases ha with rfl | rfl
  · have ho : otherSlot slot0Offset = slot1Offset := rfl
    rw [ho] at hs
    simp only [activeSlot, hk]
    cases h1 : readSlot crc headerMac b slot1Offset none with
    | error e => rfl
    | ok h' => simp [UInt64.not_lt.mpr (UInt64.le_of_lt (hs h' h1))]
  · have ho : otherSlot slot1Offset = slot0Offset := rfl
    rw [ho] at hs
    simp only [activeSlot, hk]
    cases h0 : readSlot crc headerMac b slot0Offset none with
    | error e => rfl
    | ok h' => simp [hs h' h0]

theorem Settled.activeSlot (hs : Settled crc headerMac b k h a) :
    activeSlot crc headerMac b = some (a, h.commitSeq) :=
  activeSlot_of hs.slot (readSlot_ok_iff.mp hs.holds).1 hs.stale

theorem Settled.load (hs : Settled crc headerMac b k h a) : load crc headerMac b k = .ok h := by
  simp [Container.load, hs.activeSlot, hs.holds]

theorem stageCommit_ok {next : ContainerHeader} {wire : Bytes}
    (hs : Settled crc headerMac b k h a)
    (hc : stageCommit crc headerMac b next k' = .ok (off, wire)) :
    off = otherSlot a ∧ wire = toWire crc headerMac next k' ∧
      next.commitSeq.toNat = h.commitSeq.toNat + 1 := by
  simp only [stageCommit, hs.activeSlot] at hc
  split at hc
  · cases hc
  · rename_i hq
    simp only [Except.ok.injEq, Prod.mk.injEq] at hc
    exact ⟨hc.1.symm, hc.2.symm, by simpa using hq⟩

/-! ## Torn slots -/

variable (crc) in
/-- A torn slot passes the CRC only if its body and CRC are the old or the new ones. -/
def TearDetected (b : Disk) (off : Nat) (wire : Bytes) (landed : Nat → Bool) : Prop :=
  let raw := (b.tear off wire landed).peek off wireSize
  ofLeU32 (slice bodySize 4 raw) = crc (raw.take bodySize) →
    raw.take wireSizeNomac = (b.peek off wireSize).take wireSizeNomac ∨
      raw.take wireSizeNomac = wire.take wireSizeNomac

/-- The crash completes body and CRC of the slot and leaves one byte of its MAC behind. -/
def MacTorn (b : Disk) (off : Nat) (wire : Bytes) (landed : Nat → Bool) : Prop :=
  (∀ i, i < wireSizeNomac → landed i = true ∨ b.byte (off + i) = wire.getD i 0) ∧
    ∃ i, wireSizeNomac ≤ i ∧ i < wire.length ∧ landed i = false ∧ b.byte (off + i) ≠ wire.getD i 0

theorem peek_take {d : Disk} {m : Nat} (h : m ≤ n) : (d.peek off n).take m = d.peek off m := by
  rw [show n = m + (n - m) by omega, peek_add, take_left' (by simp)]

variable {next : Header} {landed : Nat → Bool} {wire : Bytes} {b' : Disk}

theorem readSlot_tear_outside (hroom : a + wireSize ≤ b.len)
    (hd : a + wireSize ≤ off ∨ off + wire.length ≤ a) (kk : Option RootKey) :
    readSlot crc headerMac (b.tear off wire landed) a kk = readSlot crc headerMac b a kk := by
  rw [readSlot_of_room (by simpa using hroom), readSlot_of_room hroom, peek_tear_outside hd]

theorem wire_length (hw : wire = toWire crc headerMac next.val k') :
    wireSizeNomac ≤ wire.length ∧ wire.length ≤ wireSize :=
  hw ▸ toWire_length_le crc headerMac next k'

/-- The active slot is out of reach of the commit's write. -/
theorem Settled.tear_active (hs : Settled crc headerMac b k h a) (hl : wire.length ≤ wireSize)
    (hb : b' = b.tear (otherSlot a) wire landed) (kk : Option RootKey) :
    readSlot crc headerMac b' a kk = readSlot crc headerMac b a kk := by
  rw [hb]
  exact readSlot_tear_outside (slot_room hs.slot hs.room) (otherSlot_disjoint hs.slot hl) kk

/-- A slot with the body and CRC of the new header decodes to it at stage 1. -/
theorem readSlot_tear_new (hroom : off + wireSize ≤ b.len)
    (hw : wire = toWire crc headerMac next.val k') (hb : b' = b.tear off wire landed)
    (hn : b'.peek off wireSizeNomac = wire.take wireSizeNomac) :
    readSlot crc headerMac b' off none = .ok next.val := by
  rw [readSlot_of_room (by subst hb; exact hroom)]
  apply fromWire_none_of_take
  · simp
  · rw [peek_take (by decide), hn, hw, toWire_take]

/-- Once body and CRC are there, the MAC verifies iff each of its bytes is there. -/
theorem macOk_tear_iff (hw : wire = toWire crc headerMac next.val k')
    (hb : b' = b.tear off wire landed)
    (hn : b'.peek off wireSizeNomac = wire.take wireSizeNomac) :
    macOk headerMac (b'.peek off wireSize) k' ↔ ¬ MacTorn b off wire landed := by
  have hfirst := (peek_tear_eq_iff (wire_length hw).1).mp (hb ▸ hn)
  cases k' with
  | none =>
    have hlen : wire.length = wireSizeNomac := by rw [hw]; exact toWire_none_length crc headerMac _
    simp only [macOk, true_iff]
    rintro ⟨-, i, h1, h2, -⟩
    omega
  | some key =>
    have hlen : wire.length = wireSize := by rw [hw]; exact toWire_some_length crc headerMac _ _
    have hbody : (b'.peek off wireSize).take bodySize = serializeBody next.val := by
      have := congrArg (take bodySize) hn
      rw [peek_take (by decide), hw, toWire_take, take_left' (by simp)] at this
      rw [peek_take (by decide), this]
    have hmac : wire.drop wireSizeNomac = (headerMac key (serializeBody next.val)).toList := by
      rw [hw, toWire_some, drop_left' (by simp [wireSizeNomac])]
    have hslice : slice (bodySize + 4) headerMacSize (b'.peek off wireSize) =
        (b'.peek off wireSize).drop wireSizeNomac := by
      apply take_of_length_le
      simp [wireSize]
    -- the MAC bytes agree iff the whole slot is the written one
    have hwhole : macOk headerMac (b'.peek off wireSize) (some key) ↔ b'.peek off wireSize = wire := by
      simp only [macOk, hbody, hslice, ← hmac]
      constructor
      · intro hd
        rw [← take_append_drop wireSizeNomac (b'.peek off wireSize), hd,
          peek_take (by decide), hn, take_append_drop]
      · intro he
        rw [he]
    have hall : b'.peek off wireSize = wire ↔
        ∀ i, i < wireSize → landed i = true ∨ b.byte (off + i) = wire.getD i 0 := by
      rw [hb, ← peek_tear_eq_iff (le_of_eq hlen.symm),
        take_of_length_le (le_of_eq hlen)]
    rw [hwhole, hall]
    constructor
    · rintro ha ⟨-, i, -, h2, h3, h4⟩
      rcases ha i (by omega) with h5 | h5
      · simp [h5] at h3
      · exact h4 h5
    · intro hnt i hi
      by_contra hc
      simp only [not_or, Bool.not_eq_true] at hc
      refine hnt ⟨hfirst, i, ?_, by omega, hc.1, hc.2⟩
      by_contra hlt
      rcases hfirst i (by omega) with h5 | h5
      · simp [h5] at hc
      · exact hc.2 h5

section

variable (hs : Settled crc headerMac b k h a) (hw : wire = toWire crc headerMac next.val k')
  (hb : b' = b.tear (otherSlot a) wire landed)
include hs hw hb

theorem Settled.tear_new (hn : b'.peek (otherSlot a) wireSizeNomac = wire.take wireSizeNomac) :
    readSlot crc headerMac b' (otherSlot a) none = .ok next.val :=
  readSlot_tear_new (slot_room (otherSlot_slot a) hs.room) hw hb hn

/-- If they are not, a crash whose tear the CRC detects leaves the container settled. -/
theorem Settled.tear_old (hd : TearDetected crc b (otherSlot a) wire landed)
    (hn : b'.peek (otherSlot a) wireSizeNomac ≠ wire.take wireSizeNomac) :
    Settled crc headerMac b' k h a := by
  have hroom : otherSlot a + wireSize ≤ b.len := slot_room (otherSlot_slot a) hs.room
  refine ⟨hs.slot, by subst hb; exact hs.room, ?_, ?_⟩
  · rw [hs.tear_active (wire_length hw).2 hb, hs.holds]
  intro h' hh
  rw [readSlot_of_room (by subst hb; exact hroom)] at hh
  have hcrc := fromWire_ok_crc hh
  subst hb
  rcases hd hcrc with hold | hnew
  · apply hs.stale h'
    rw [readSlot_of_room hroom, ← hh]
    exact fromWire_none_congr crc headerMac (by simp) hold.symm
  · rw [peek_take (by decide)] at hnew
    exact absurd hnew hn

variable (hq : next.val.commitSeq.toNat = h.commitSeq.toNat + 1)
include hq

theorem Settled.tear_new_wins :
    ∀ h', readSlot crc headerMac b' (otherSlot (otherSlot a)) none = .ok h' →
      h'.commitSeq < next.val.commitSeq := by
  intro h' hh
  rw [otherSlot_otherSlot hs.slot, hs.tear_active (wire_length hw).2 hb,
    (readSlot_ok_iff.mp hs.holds).1] at hh
  cases hh
  rw [UInt64.lt_iff_toNat_lt]
  omega

/-- If the new header's body and CRC are there, its slot is the one stage 2 decodes. -/
theorem Settled.load_tear_new (hn : b'.peek (otherSlot a) wireSizeNomac = wire.take wireSizeNomac)
    (kk : Option RootKey) :
    Container.load crc headerMac b' kk = readSlot crc headerMac b' (otherSlot a) kk := by
  have hact := activeSlot_of (otherSlot_slot a) (hs.tear_new hw hb hn) (hs.tear_new_wins hw hb hq)
  simp [Container.load, hact]

/-- If moreover its MAC verifies, the container is settled on the new header. -/
theorem Settled.tear_settled_new (hn : b'.peek (otherSlot a) wireSizeNomac = wire.take wireSizeNomac)
    (hm : macOk headerMac (b'.peek (otherSlot a) wireSize) kk) :
    Settled crc headerMac b' kk next.val (otherSlot a) :=
  ⟨otherSlot_slot a, by subst hb; exact hs.room,
    readSlot_ok_iff.mpr ⟨hs.tear_new hw hb hn, hm⟩, hs.tear_new_wins hw hb hq⟩

theorem Settled.load_tear_iff (hd : TearDetected crc b (otherSlot a) wire landed) :
    (Container.load crc headerMac b' k = .ok h ∨ Container.load crc headerMac b' k' = .ok next.val) ↔
      ¬ MacTorn b (otherSlot a) wire landed := by
  by_cases hn : b'.peek (otherSlot a) wireSizeNomac = wire.take wireSizeNomac
  · -- body and CRC are there: stage 2 decodes the new slot, and the MAC decides
    have hold : Container.load crc headerMac b' k ≠ .ok h := by
      intro ho
      rw [hs.load_tear_new hw hb hq hn] at ho
      have h1 := (readSlot_ok_iff.mp ho).1
      rw [hs.tear_new hw hb hn] at h1
      cases h1
      omega
    rw [← macOk_tear_iff hw hb hn, hs.load_tear_new hw hb hq hn k', readSlot_ok_iff,
      hs.tear_new hw hb hn]
    simp [hold]
  · -- otherwise the old header is still the one `load` finds
    have hnt : ¬ MacTorn b (otherSlot a) wire landed := by
      rintro ⟨hfirst, -⟩
      exact hn (hb ▸ (peek_tear_eq_iff (wire_length hw).1).mpr hfirst)
    simp only [hnt, not_false_eq_true, iff_true]
    exact .inl (hs.tear_old hw hb hd hn).load

end

/-! ## Runs of commits and crashes -/

variable (crc headerMac) in
/-- The containers reached by commits and by crashes that a later open survives, with the key
and the header that the last open or commit established. An open presents the key of before
or after the interrupted commit (they differ when it was a re-key). -/
inductive Reachable : Disk → Option RootKey → ContainerHeader → Prop
  | bootstrap {b : Disk} (h : Header) (k : Option RootKey)
      (room : slot1Offset + wireSize ≤ b.len)
      (blank : ∀ h', readSlot crc headerMac b slot1Offset none ≠ .ok h') :
      Reachable (b.poke slot0Offset (toWire crc headerMac h.val k)) k h.val
  | commit {b b' : Disk} {k : Option RootKey} {h : ContainerHeader} (next : Header)
      (k' : Option RootKey) (prev : Reachable b k h)
      (done : commit crc headerMac b next.val k' = .ok b') : Reachable b' k' next.val
  | crash {b : Disk} {k : Option RootKey} {h h' : ContainerHeader} (next : Header)
      (k' kk : Option RootKey) {off : Nat} {wire : Bytes} (landed : Nat → Bool)
      (prev : Reachable b k h)
      (staged : stageCommit crc headerMac b next.val k' = .ok (off, wire))
      (detected : TearDetected crc b off wire landed) (key : kk = k ∨ kk = k')
      (opened : load crc headerMac (b.tear off wire landed) kk = .ok h') :
      Reachable (b.tear off wire landed) kk h'

/-- A write that lands whole leaves body, CRC and MAC. -/
theorem poke_landed (hw : wire = toWire crc headerMac next.val k')
    (hb : b' = b.poke off wire) :
    b'.peek off wireSizeNomac = wire.take wireSizeNomac ∧
      macOk headerMac (b'.peek off wireSize) k' := by
  have hn : b'.peek off wireSizeNomac = wire.take wireSizeNomac := by
    rw [hb]
    exact (peek_tear_eq_iff (wire_length hw).1).mpr fun i _ => .inl rfl
  refine ⟨hn, (macOk_tear_iff hw hb hn).mpr ?_⟩
  rintro ⟨-, i, -, -, hl, -⟩
  cases hl

theorem bootstrap_settled (room : slot1Offset + wireSize ≤ b.len)
    (blank : ∀ h', readSlot crc headerMac b slot1Offset none ≠ .ok h') :
    Settled crc headerMac (b.poke slot0Offset (toWire crc headerMac next.val k)) k next.val
      slot0Offset := by
  have hland : (b.poke slot0Offset (toWire crc headerMac next.val k)).peek slot0Offset wireSizeNomac =
        (toWire crc headerMac next.val k).take wireSizeNomac ∧ macOk headerMac
        ((b.poke slot0Offset (toWire crc headerMac next.val k)).peek slot0Offset wireSize) k :=
    poke_landed rfl rfl
  obtain ⟨hn, hm⟩ := hland
  have hroom0 : slot0Offset + wireSize ≤ b.len := slot_room (.inl rfl) room
  refine ⟨.inl rfl, room, readSlot_ok_iff.mpr ⟨readSlot_tear_new hroom0 rfl rfl hn, hm⟩, ?_⟩
  intro h' hh
  have hdis : slot1Offset + wireSize ≤ slot0Offset ∨
      slot0Offset + (toWire crc headerMac next.val k).length ≤ slot1Offset :=
    otherSlot_disjoint (a := slot1Offset) (.inr rfl) (toWire_length_le crc headerMac next k).2
  rw [show otherSlot slot0Offset = slot1Offset from rfl, poke,
    readSlot_tear_outside room hdis] at hh
  exact absurd hh (blank h')

theorem commit_ok {b' : Disk} {n : ContainerHeader}
    (hc : commit crc headerMac b n k' = .ok b') :
    ∃ off wire, stageCommit crc headerMac b n k' = .ok (off, wire) ∧ b' = b.poke off wire := by
  unfold commit at hc
  cases hst : stageCommit crc headerMac b n k' with
  | error e => simp [hst, bind, Except.bind] at hc
  | ok p =>
    refine ⟨p.1, p.2, rfl, ?_⟩
    simp only [hst, bind, Except.bind, writeAt] at hc
    split at hc
    · rename_i hw
      split at hw
      · cases hw
        cases hc
        rfl
      · cases hw
    · cases hc

theorem Settled.commit (hs : Settled crc headerMac b k h a)
    (hc : Container.commit crc headerMac b next.val k' = .ok b') :
    Settled crc headerMac b' k' next.val (otherSlot a) := by
  obtain ⟨off, wire, hst, hb⟩ := commit_ok hc
  obtain ⟨rfl, hw, hq⟩ := stageCommit_ok hs hst
  obtain ⟨hn, hm⟩ := poke_landed hw hb
  exact hs.tear_settled_new hw hb hq hn hm

/-- An open that succeeds under another key finds the same header. -/
theorem Settled.opened {h' : ContainerHeader}
    (hs : Settled crc headerMac b k h a) (ho : Container.load crc headerMac b kk = .ok h') :
    Settled crc headerMac b kk h' a := by
  simp only [Container.load, hs.activeSlot] at ho
  have h1 := (readSlot_ok_iff.mp hs.holds).1
  have h2 := (readSlot_ok_iff.mp ho).1
  have he : h = h' := by
    rw [h1] at h2
    exact Except.ok.inj h2
  exact ⟨hs.slot, hs.room, ho, he ▸ hs.stale⟩

theorem Settled.crash {h' : ContainerHeader}
    (hs : Settled crc headerMac b k h a)
    (hst : stageCommit crc headerMac b next.val k' = .ok (off, wire))
    (hd : TearDetected crc b off wire landed)
    (ho : Container.load crc headerMac (b.tear off wire landed) kk = .ok h') :
    ∃ a', Settled crc headerMac (b.tear off wire landed) kk h' a' := by
  obtain ⟨rfl, hw, hq⟩ := stageCommit_ok hs hst
  by_cases hn : (b.tear (otherSlot a) wire landed).peek (otherSlot a) wireSizeNomac =
      wire.take wireSizeNomac
  · rw [hs.load_tear_new hw rfl hq hn] at ho
    have h1 := readSlot_ok_iff.mp ho
    rw [hs.tear_new hw rfl hn] at h1
    obtain ⟨he, hm⟩ := h1
    cases he
    exact ⟨_, hs.tear_settled_new hw rfl hq hn hm⟩
  · exact ⟨a, (hs.tear_old hw rfl hd hn).opened ho⟩

theorem Reachable.settled (hr : Reachable crc headerMac b k h) :
    ∃ a, Settled crc headerMac b k h a := by
  induction hr with
  | bootstrap h k room blank => exact ⟨_, bootstrap_settled room blank⟩
  | commit next k' prev done ih =>
    obtain ⟨a, hs⟩ := ih
    exact ⟨_, hs.commit done⟩
  | crash next k' kk landed prev staged detected key opened ih =>
    obtain ⟨a, hs⟩ := ih
    exact hs.crash staged detected opened

section

variable (hs : Settled crc headerMac b k h a) (hq : next.val.commitSeq.toNat = h.commitSeq.toNat + 1)
include hs hq

/-! ## The crash theorem -/

theorem Settled.stageCommit :
    stageCommit crc headerMac b next.val k' = .ok (otherSlot a, toWire crc headerMac next.val k') := by
  simp [Container.stageCommit, hs.activeSlot, hq]

theorem Settled.commit_load :
    ∃ b', Container.commit crc headerMac b next.val k' = .ok b' ∧
      Container.load crc headerMac b' k' = .ok next.val := by
  have hfit : otherSlot a + (toWire crc headerMac next.val k').length ≤ b.len := by
    have h1 := slot_room (otherSlot_slot a) hs.room
    have h2 := (toWire_length_le crc headerMac next k').2
    omega
  have hc : Container.commit crc headerMac b next.val k' =
      .ok (b.poke (otherSlot a) (toWire crc headerMac next.val k')) := by
    simp [Container.commit, hs.stageCommit hq, writeAt, hfit, bind, Except.bind, pure, Except.pure]
  exact ⟨_, hc, (hs.commit hc).load⟩

end

/-- In every container reached by commits and survived crashes, a crash during the next
commit leaves the old header or the new one, and the finished commit leaves the new one,
exactly when it does not tear the slot between its CRC and its MAC. -/
theorem commit_crash_atomic_iff {off : Nat} (hr : Reachable crc headerMac b k h) (next : Header)
    (hst : stageCommit crc headerMac b next.val k' = .ok (off, wire))
    (hd : TearDetected crc b off wire landed) :
    ((load crc headerMac (b.tear off wire landed) k = .ok h ∨
        load crc headerMac (b.tear off wire landed) k' = .ok next.val) ∧
      ∃ b', commit crc headerMac b next.val k' = .ok b' ∧ load crc headerMac b' k' = .ok next.val) ↔
      ¬ MacTorn b off wire landed := by
  obtain ⟨a, hs⟩ := hr.settled
  obtain ⟨rfl, hw, hq⟩ := stageCommit_ok hs hst
  rw [hs.load_tear_iff hw rfl hq hd]
  exact and_iff_left (hs.commit_load hq)

end

/-! ## A fresh container -/

/-- A header with sequence number `seq` and all other fields blank. -/
def blankHeader (seq : UInt64) : Header where
  val := {
    magic := magic
    formatVersion := formatVersion
    cipher := 1
    contentCipher := 1
    params := { maxFragsizeExp := 22, evictionCode := 0, baseBlock := 4096 }
    roots := { keyRoot := 0, idRoot := 0 }
    writerSet := none
    commitSeq := seq
    walAppliedSeq := 0
    walRegionOffset := 0
    signMode := .unsigned
    writerPubkey := Vector.replicate 32 0
    ownerPubkey := Vector.replicate 32 0
    writerSetEpoch := 0
    keyEpoch := 0
    tailLow := 8192
    salt := Vector.replicate 16 0
    padBlocks := false }
  magic_eq := rfl
  version_eq := rfl

def blankDisk : Disk := ⟨2 * baseBlock, fun _ => 0⟩

def demoKey : RootKey := Vector.replicate 32 7

/-- A stand-in tag that is not all zero. -/
def demoMac (key : RootKey) (_ : Bytes) : Vector UInt8 32 := key

def freshDisk : Disk :=
  blankDisk.poke slot0Offset (toWire crc32 demoMac (blankHeader 0).val (some demoKey))

theorem blankDisk_slot1 (h : ContainerHeader) :
    readSlot crc32 demoMac blankDisk slot1Offset none ≠ .ok h := by
  have hv : ofLeU16 (slice 8 2 (blankDisk.peek slot1Offset wireSize)) = 0 := by decide
  have hr : slot1Offset + wireSize ≤ blankDisk.len := by decide
  rw [readSlot_of_room hr]
  simp [fromWire, hv, formatVersion]

theorem freshDisk_reachable : Reachable crc32 demoMac freshDisk (some demoKey) (blankHeader 0).val :=
  .bootstrap (blankHeader 0) (some demoKey) (by decide) blankDisk_slot1

theorem freshDisk_settled :
    Settled crc32 demoMac freshDisk (some demoKey) (blankHeader 0).val slot0Offset :=
  bootstrap_settled (by decide) blankDisk_slot1

/-- Commit 1 of the fresh container, up to the bytes it hands to the disk. -/
def freshWire : Bytes := toWire crc32 demoMac (blankHeader 1).val (some demoKey)

theorem freshDisk_stageCommit :
    stageCommit crc32 demoMac freshDisk (blankHeader 1).val (some demoKey) =
      .ok (slot1Offset, freshWire) :=
  freshDisk_settled.stageCommit rfl

theorem freshWire_detected {landed : Nat → Bool} (h : ∀ i, i < wireSizeNomac → landed i = true) :
    TearDetected crc32 freshDisk slot1Offset freshWire landed := by
  intro _
  right
  rw [peek_take (by decide)]
  apply (peek_tear_eq_iff (toWire_length_le crc32 demoMac (blankHeader 1) (some demoKey)).1).mpr
  intro i hi
  exact .inl (h i hi)

theorem freshDisk_slot1 (i : Nat) : freshDisk.byte (slot1Offset + i) = 0 := by
  rw [freshDisk, poke, tear_byte_outside (.inr ?_)]
  · rfl
  rw [toWire_some_length]
  exact le_add_right (by decide)

theorem freshWire_body {i : Nat} (h : i < bodySize) :
    freshWire.getD i 0 = (serializeBody (blankHeader 1).val).getD i 0 := by
  rw [freshWire, toWire_some, append_assoc,
    getD_append _ _ _ _ (by rw [length_serializeBody]; exact h)]

/-- The first 100 bytes of the slot land. -/
def tornLanded (i : Nat) : Bool := i < 100

theorem peek_tornDisk : (freshDisk.tear slot1Offset freshWire tornLanded).peek slot1Offset wireSize =
    (serializeBody (blankHeader 1).val).take 100 ++ replicate 119 0 := by
  have hlen : freshWire.length = wireSize := toWire_some_length ..
  apply ext_getElem
  · rw [length_peek, length_append, length_take, length_serializeBody, length_replicate]
    decide
  intro i hi _
  rw [length_peek] at hi
  rw [getElem_peek, tear_byte_at (by omega), freshDisk_slot1]
  by_cases hlt : i < 100
  · have hbody : i < bodySize := hlt.trans (by decide)
    rw [if_pos (show tornLanded i = true from decide_eq_true hlt),
      getElem_append_left (by simp [hlt, hbody]), getElem_take]
    rw [← getD_eq_getElem _ 0, freshWire_body hbody, getD_eq_getElem]
  · have hpast : ((serializeBody (blankHeader 1).val).take 100).length ≤ i :=
      (length_take_le _ _).trans (not_lt.mp hlt)
    rw [if_neg (by simpa [tornLanded] using hlt), getElem_append_right hpast, getElem_replicate]

/-- The CRC field is still blank, and the CRC of the torn body is not. -/
theorem freshWire_torn : TearDetected crc32 freshDisk slot1Offset freshWire tornLanded := by
  intro hcrc
  rw [peek_tornDisk] at hcrc
  have hfield : ofLeU32
      (slice bodySize 4 ((serializeBody (blankHeader 1).val).take 100 ++ replicate 119 0)) = 0 := by
    decide +kernel
  have hbody : ((serializeBody (blankHeader 1).val).take 100 ++ replicate 119 0).take bodySize =
      (serializeBody (blankHeader 1).val).take 50 ++
        ((serializeBody (blankHeader 1).val).drop 50).take 50 ++
        replicate 50 0 ++ replicate 33 0 := by decide +kernel
  -- fifty bytes at a time are within reach of the kernel
  have h₁ : ((serializeBody (blankHeader 1).val).take 50).foldl crcUpdate 0xFFFFFFFF =
    3453950071 := by decide +kernel
  have h₂ : (((serializeBody (blankHeader 1).val).drop 50).take 50).foldl crcUpdate 3453950071 =
      889854490 := by
    decide +kernel
  have h₃ : (replicate 50 0).foldl crcUpdate 889854490 = 3256342114 := by decide +kernel
  have h₄ : (replicate 33 0).foldl crcUpdate 3256342114 = 2285788255 := by decide +kernel
  rw [hfield, hbody, crc32, foldl_append, foldl_append, foldl_append, h₁, h₂, h₃, h₄] at hcrc
  exact absurd hcrc (by decide)

/-- A crash in the middle of the commit. -/
theorem commit_crash_atomic_torn :
    (load crc32 demoMac (freshDisk.tear slot1Offset freshWire tornLanded) (some demoKey) =
        .ok (blankHeader 0).val ∨
      load crc32 demoMac (freshDisk.tear slot1Offset freshWire tornLanded) (some demoKey) =
        .ok (blankHeader 1).val) ∧
      ∃ b', commit crc32 demoMac freshDisk (blankHeader 1).val (some demoKey) = .ok b' ∧
        load crc32 demoMac b' (some demoKey) = .ok (blankHeader 1).val := by
  refine (commit_crash_atomic_iff freshDisk_reachable (blankHeader 1) freshDisk_stageCommit
    freshWire_torn).mpr fun hmac => ?_
  -- a byte of `tail_low` has not landed
  rcases hmac.1 160 (by decide) with hland | hsame
  · cases hland
  · rw [freshDisk_slot1, freshWire_body (by decide)] at hsame
    exact absurd hsame (by decide)

theorem freshWire_macTorn :
    MacTorn freshDisk slot1Offset freshWire fun i => decide (i < wireSizeNomac) := by
  refine ⟨fun i hi => .inl (by simpa using hi), wireSizeNomac, le_rfl, ?_, by simp, ?_⟩
  · rw [freshWire, toWire_some_length]
    decide
  have hw : freshWire.getD wireSizeNomac 0 = 7 := by
    rw [freshWire, toWire_some, getD_eq_getElem?_getD,
      getElem?_append_right (by simp [wireSizeNomac])]
    simp [wireSizeNomac, demoMac, demoKey]
  rw [freshDisk_slot1, hw]
  decide

/-- The commit of the fresh container torn after body and CRC: neither header loads. -/
theorem commit_crash_not_atomic :
    ¬ ∀ (crc : Bytes → UInt32) (headerMac : RootKey → Bytes → Vector UInt8 32) (b : Disk)
        (k k' : Option RootKey) (h : ContainerHeader) (next : Header) (off : Nat) (wire : Bytes)
        (landed : Nat → Bool), Reachable crc headerMac b k h →
      stageCommit crc headerMac b next.val k' = .ok (off, wire) →
      TearDetected crc b off wire landed →
      load crc headerMac (b.tear off wire landed) k = .ok h ∨
        load crc headerMac (b.tear off wire landed) k' = .ok next.val := by
  intro hall
  have hd : TearDetected crc32 freshDisk slot1Offset freshWire fun i => decide (i < wireSizeNomac) :=
    freshWire_detected (by simp)
  have hor := hall _ _ _ _ _ _ (blankHeader 1) _ _ _ freshDisk_reachable freshDisk_stageCommit hd
  exact (freshDisk_settled.load_tear_iff rfl rfl rfl hd).mp hor freshWire_macTorn

end Sfs.Container

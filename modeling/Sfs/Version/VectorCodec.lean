import Sfs.Basic
import Sfs.Version.Vector

/-!
# The wire form of a version vector

A `u16` count and an entry of ten bytes per alias. `fromBytes` accepts exactly the images of
`toBytes` on vectors of fewer than 65536 entries (`fromBytes_eq_ok_iff`).
-/

namespace Sfs.Version

open Sfs.Lib List

def vvEntryBytes (e : HostAlias × Nat) : Bytes := leBytes 2 e.1 ++ leBytes 8 e.2

/-- The number of entries is cut to a `u16`: a vector of all 65536 aliases announces none. -/
def VersionVector.toBytes (vv : VersionVector) : Bytes :=
  leBytes 2 vv.entries.length ++ vv.entries.flatMap vvEntryBytes

/-- `count` entries of ten bytes. -/
def readEntries : Nat → Bytes → List (HostAlias × Nat)
  | 0, _ => []
  | count + 1, bs =>
    (Fin.ofNat 65536 (leNat (bs.take 2)), leNat ((bs.drop 2).take 8)) ::
      readEntries count (bs.drop 10)

/-- The checks made on each entry, with the alias before it. -/
def checkEntries : Option HostAlias → List (HostAlias × Nat) → Result Unit
  | _, [] => .ok ()
  | prev, (host, syncId) :: es =>
    if prev.any (host ≤ ·) then .error (.integrity "version vector aliases not strictly ascending")
    else if syncId = 0 then .error
      (.integrity "version vector entry has sync_id == 0 (must be absent)")
    else checkEntries (some host) es

theorem checkEntries_ok_iff {prev : Option HostAlias} {es : List (HostAlias × Nat)} :
    checkEntries prev es = .ok () ↔ (∀ p, prev = some p → ∀ e ∈ es, p < e.1) ∧ Sparse es := by
  induction es generalizing prev with
  | nil => simp [checkEntries, Sparse.nil]
  | cons e es ih =>
    obtain ⟨host, syncId⟩ := e
    have hprev : prev.any (host ≤ ·) = true ↔ ∃ p, prev = some p ∧ host ≤ p := by cases prev <;> simp
    unfold checkEntries
    constructor
    · intro h
      split_ifs at h with hp hs
      obtain ⟨hlt, hsp⟩ := ih.mp h
      rw [hprev] at hp
      push Not at hp
      refine ⟨?_, Sparse.cons hs (hlt host rfl) hsp⟩
      rintro p rfl e he
      rcases mem_cons.mp he with rfl | he
      · exact hp p rfl
      · exact (hp p rfl).trans (hlt host rfl e he)
    · rintro ⟨hlt, hsp⟩
      have hp : ¬ prev.any (host ≤ ·) = true := by
        rw [hprev]
        rintro ⟨p, hp, hle⟩
        exact absurd (hlt p hp _ (.head _)) (not_lt.mpr hle)
      rw [if_neg hp, if_neg (hsp.nonzero _ (.head _))]
      refine ih.mpr ⟨?_, hsp.tail⟩
      rintro p hp e he
      cases hp
      exact hsp.head_lt e he

def VersionVector.fromBytes (buf : Bytes) : Result VersionVector :=
  if buf.length < 2 then .error (.integrity "version vector buffer too short (need ≥2 bytes)")
  else
    let count := leNat (buf.take 2)
    let expected := 2 + count * 10
    if buf.length ≠ expected then
      .error (.integrity
        ("version vector buffer length mismatch: expected " ++ toString expected ++ ", got " ++
        toString buf.length))
    else
      let entries := readEntries count (buf.drop 2)
      match h : checkEntries none entries with
      | .error e => .error e
      | .ok () => .ok ⟨entries, (checkEntries_ok_iff.mp h).2⟩

/-! ## What is accepted -/

/-- The vector has a wire form: its count and its counters fit their fields. -/
structure VersionVector.Fits (vv : VersionVector) : Prop where
  count : vv.entries.length < 65536
  counters : ∀ e ∈ vv.entries, e.2 < 2 ^ 64

@[simp] theorem length_vvEntryBytes (e : HostAlias × Nat) : (vvEntryBytes e).length = 10 := by
  simp [vvEntryBytes]

theorem length_flatMap_vvEntryBytes (es : List (HostAlias × Nat)) :
    (es.flatMap vvEntryBytes).length = es.length * 10 := by
  simp

theorem VersionVector.length_toBytes (vv : VersionVector) :
    vv.toBytes.length = 2 + vv.entries.length * 10 := by
  rw [toBytes, length_append, length_leBytes, length_flatMap_vvEntryBytes]

theorem length_readEntries (n : Nat) (bs : Bytes) : (readEntries n bs).length = n := by
  induction n generalizing bs with
  | zero => rfl
  | succ n ih => simp [readEntries, ih]

theorem readEntries_flatMap {es : List (HostAlias × Nat)} (h : ∀ e ∈ es, e.2 < 2 ^ 64) :
    readEntries es.length (es.flatMap vvEntryBytes) = es := by
  induction es with
  | nil => rfl
  | cons e es ih =>
    obtain ⟨host, syncId⟩ := e
    have hs : leNat (leBytes 8 syncId) = syncId := leNat_leBytes_of_lt (h _ (.head _))
    have ha : leNat (leBytes 2 host.1) = host.1 := leNat_leBytes_of_lt host.2
    rw [length_cons, flatMap_cons, readEntries, drop_left' (length_vvEntryBytes _),
      ih fun e he => h e (.tail _ he), vvEntryBytes, append_assoc, take_left' (length_leBytes ..),
      drop_left' (length_leBytes ..), take_left' (length_leBytes ..), hs, ha]
    exact congrArg (fun host => (host, syncId) :: es) (Fin.ext (Nat.mod_eq_of_lt host.2))

theorem flatMap_readEntries {n : Nat} {bs : Bytes} (h : bs.length = n * 10) :
    (readEntries n bs).flatMap vvEntryBytes = bs := by
  induction n generalizing bs with
  | zero => simpa [readEntries] using (length_eq_zero_iff.mp (by omega)).symm
  | succ n ih =>
    have h2 : (bs.take 2).length = 2 := by rw [length_take]; omega
    have h8 : ((bs.drop 2).take 8).length = 8 := by rw [length_take, length_drop]; omega
    have ha : leNat (bs.take 2) % 65536 = leNat (bs.take 2) := Nat.mod_eq_of_lt (leNat_lt_of_length h2)
    have e1 := leBytes_leNat_of_length h2
    have e2 := leBytes_leNat_of_length h8
    simp only [readEntries, flatMap_cons, vvEntryBytes, Fin.val_ofNat]
    rw [ha, e1, e2, ih (by rw [length_drop]; omega)]
    have hsplit : bs.drop 10 = (bs.drop 2).drop 8 := by rw [drop_drop]
    rw [hsplit, append_assoc, take_append_drop, take_append_drop]

theorem counters_readEntries {n : Nat} {bs : Bytes} : ∀ e ∈ readEntries n bs, e.2 < 2 ^ 64 := by
  induction n generalizing bs with
  | zero => simp [readEntries]
  | succ n ih =>
    intro e he
    rcases mem_cons.mp he with rfl | he
    · have hlt := leNat_lt ((bs.drop 2).take 8)
      have hle : 256 ^ ((bs.drop 2).take 8).length ≤ 256 ^ 8 :=
        Nat.pow_le_pow_right (by decide) (by rw [length_take]; omega)
      exact hlt.trans_le hle
    · exact ih e he

theorem VersionVector.entries_inj {a b : VersionVector} (h : a.entries = b.entries) : a = b := by
  cases a
  cases b
  cases h
  rfl

theorem VersionVector.toBytes_inj {a b : VersionVector} (ha : ∀ e ∈ a.entries, e.2 < 2 ^ 64)
    (hb : ∀ e ∈ b.entries, e.2 < 2 ^ 64) (h : a.toBytes = b.toBytes) : a = b := by
  have hlen := congrArg List.length h
  rw [length_toBytes, length_toBytes] at hlen
  have hes := (append_inj h (by simp)).2
  refine entries_inj ?_
  rw [← readEntries_flatMap ha, ← readEntries_flatMap hb, hes,
    show a.entries.length = b.entries.length by omega]

/-- The decoder accepts exactly the images of the vectors that have a wire form. -/
theorem VersionVector.fromBytes_eq_ok_iff {bs : Bytes} {vv : VersionVector} :
    fromBytes bs = .ok vv ↔ vv.Fits ∧ bs = vv.toBytes := by
  unfold fromBytes
  constructor
  · intro h
    split_ifs at h
    simp only at h
    split at h
    · cases h
    split at h
    · cases h
    cases h
    have h2 : (bs.take 2).length = 2 := by rw [length_take]; omega
    have hc := leNat_lt_of_length h2
    have e1 := leBytes_leNat_of_length h2
    refine ⟨⟨by simpa [length_readEntries] using hc, counters_readEntries⟩, ?_⟩
    rw [toBytes, length_readEntries, e1, flatMap_readEntries (by rw [length_drop]; omega),
      take_append_drop]
  · rintro ⟨hfits, rfl⟩
    have hlen := vv.length_toBytes
    have htake : vv.toBytes.take 2 = leBytes 2 vv.entries.length := take_left' (length_leBytes ..)
    have hdrop : vv.toBytes.drop 2 = vv.entries.flatMap vvEntryBytes := drop_left' (length_leBytes ..)
    have hcount : leNat (vv.toBytes.take 2) = vv.entries.length := by
      rw [htake]
      exact leNat_leBytes_of_lt hfits.count
    have hread : readEntries (leNat (vv.toBytes.take 2)) (vv.toBytes.drop 2) = vv.entries := by
      rw [hcount, hdrop, readEntries_flatMap hfits.counters]
    rw [if_neg (by omega)]
    simp only
    rw [if_neg (by rw [hcount]; omega)]
    split
    · rename_i e he
      rw [hread, checkEntries_ok_iff.mpr ⟨by simp, vv.sparse⟩] at he
      cases he
    · exact congrArg Except.ok (entries_inj hread)

theorem VersionVector.Fits.fromBytes {vv : VersionVector} (h : vv.Fits) :
    VersionVector.fromBytes vv.toBytes = .ok vv :=
  fromBytes_eq_ok_iff.mpr ⟨h, rfl⟩

/-- A vector that has no wire form is refused; it can only have too many entries. -/
theorem VersionVector.fromBytes_toBytes_isOk_iff {vv : VersionVector}
    (hc : ∀ e ∈ vv.entries, e.2 < 2 ^ 64) :
    (fromBytes vv.toBytes).isOk = true ↔ vv.entries.length < 65536 := by
  constructor
  · intro h
    cases hf : fromBytes vv.toBytes with
    | error e =>
      rw [hf] at h
      cases h
    | ok vv' =>
      obtain ⟨hfits, heq⟩ := fromBytes_eq_ok_iff.mp hf
      have := congrArg List.length heq
      rw [length_toBytes, length_toBytes] at this
      have := hfits.count
      omega
  · intro h
    rw [fromBytes_eq_ok_iff.mpr ⟨⟨h, hc⟩, rfl⟩]
    rfl

/-- There are 65536 aliases. -/
theorem VersionVector.length_entries_le (vv : VersionVector) : vv.entries.length ≤ 65536 := by
  have hnodup : (vv.entries.map Prod.fst).Nodup :=
    pairwise_map.mpr (vv.sparse.sorted.imp fun h => h.ne)
  have := hnodup.length_le_card
  rwa [length_map, Fintype.card_fin] at this

/-- An entry for every alias. -/
def VersionVector.full : VersionVector where
  entries := (finRange 65536).map fun host => (host, 1)
  sparse := ⟨pairwise_map.mpr (pairwise_lt_finRange 65536), by simp⟩

namespace VersionVector

/-- `bump` panics at the largest counter. -/
inductive Built : VersionVector → Prop
  | new : Built new
  | bump {v h} : Built v → v.get h + 1 < 2 ^ 64 → Built (v.bump h)
  | join {v w} : Built v → Built w → Built (v.join w)
  | fromBytes {bs v} : fromBytes bs = .ok v → Built v

variable {v : VersionVector}

theorem Built.get_lt (hv : v.Built) (k : HostAlias) : v.get k < 2 ^ 64 := by
  induction hv with
  | new => exact Nat.pow_pos (by decide)
  | bump _ hlt ih =>
    rw [get_bump]
    split
    · exact hlt
    · exact ih
  | join _ _ ihv ihw => exact get_join .. ▸ max_lt ihv ihw
  | @fromBytes _ v hv =>
    by_cases hz : v.get k = 0
    · exact hz ▸ Nat.pow_pos (by decide)
    · exact (fromBytes_eq_ok_iff.mp hv).1.counters _ (mem_of_lookup hz)

/-- The built vectors are a join semilattice, and exactly those that leave an alias out come back
from their wire form. -/
theorem vector_lawful_iff (hv : v.Built) :
    (Sparse v.entries ∧ (∀ w, v.dominates w ∧ w.dominates v ↔ v = w) ∧
      (∀ w u, v.dominates w → w.dominates u → v.dominates u) ∧
      (∀ w u : VersionVector, u.dominates (v.join w) ↔ u.dominates v ∧ u.dominates w) ∧
      (∀ h k, (v.bump h).get k = if k = h then v.get h + 1 else v.get k) ∧
      fromBytes v.toBytes = .ok v ∧ ∀ bs, fromBytes bs = .ok v ↔ bs = v.toBytes) ↔
        v.entries.length < 65536 := by
  refine ⟨fun hall => (fromBytes_eq_ok_iff.mp hall.2.2.2.2.2.1).1.count, fun hlen => ?_⟩
  have hfits : v.Fits := ⟨hlen, fun e he => lookup_mem v.sparse he ▸ hv.get_lt e.1⟩
  refine ⟨v.sparse, fun w => ?_, fun w u => dominates_trans, fun w u => ?_, get_bump v,
    hfits.fromBytes, fun bs => fromBytes_eq_ok_iff.trans (and_iff_right hfits)⟩
  · exact and_comm.trans (le_antisymm_iff (a := v) (b := w)).symm
  · simp only [dominates_iff, get_join, max_le_iff, forall_and]

/-- Host 1 and host 2 wrote once, host 3 twice. -/
def three : VersionVector := ((new.bump 1).bump 2).join ((new.bump 3).bump 3)

theorem built_three : three.Built := by
  have h : ∀ v : VersionVector, v.Built → ∀ k, v.get k < 5 → (v.bump k).Built :=
    fun v hv k hk => hv.bump (by omega)
  have h1 := h _ .new 1 (by decide)
  have h3 := h _ .new 3 (by decide)
  exact (h _ h1 2 (by decide)).join (h _ h3 3 (by decide))

theorem vector_lawful_three :
    three.entries = [(1, 1), (2, 1), (3, 2)] ∧
      (∀ w u : VersionVector, u.dominates (three.join w) ↔ u.dominates three ∧ u.dominates w) ∧
      (∀ h k, (three.bump h).get k = if k = h then three.get h + 1 else three.get k) ∧
      three.toBytes.length = 32 ∧ fromBytes three.toBytes = .ok three ∧
      ∀ bs, fromBytes bs = .ok three ↔ bs = three.toBytes := by
  obtain ⟨-, -, -, hjoin, hbump, hround, hwire⟩ := (vector_lawful_iff built_three).mpr (by decide)
  exact ⟨by decide, hjoin, hbump, by decide, hround, hwire⟩

/-- Every vector of counters that fit is built: its first entry and the rest have wire forms. -/
theorem Built.of_counters (hc : ∀ e ∈ v.entries, e.2 < 2 ^ 64) : v.Built := by
  obtain ⟨_ | ⟨e, es⟩, hsp⟩ := v
  · exact .new
  have hlen := length_entries_le ⟨e :: es, hsp⟩
  have hfirst : Fits ⟨[e], pairwise_singleton ..,
      fun x hx => hsp.nonzero x (mem_singleton.mp hx ▸ .head _)⟩ :=
    ⟨by norm_num, fun x hx => hc x (mem_singleton.mp hx ▸ .head _)⟩
  have hrest : Fits ⟨es, hsp.tail⟩ := ⟨Nat.lt_of_succ_le hlen, fun x hx => hc x (.tail _ hx)⟩
  have hjoin := (Built.fromBytes hfirst.fromBytes).join (.fromBytes hrest.fromBytes)
  convert hjoin
  cases es with
  | nil => rfl
  | cons f es => exact (if_pos (hsp.head_lt f (.head _))).symm

theorem full_not_lawful : full.Built ∧ (fromBytes full.toBytes).isOk = false := by
  have hc : ∀ e ∈ full.entries, e.2 < 2 ^ 64 := by simp [full]
  refine ⟨.of_counters hc, ?_⟩
  rw [← Bool.not_eq_true, fromBytes_toBytes_isOk_iff hc]
  simp [full]

end VersionVector

end Sfs.Version

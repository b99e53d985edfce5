import Sfs.Lib.Run
import Sfs.Version.Pending
import Sfs.Version.Sealing

/-!
# Padded blocks

In a `pad_blocks` container a write, a truncation and a re-chunk seal whole fragments, so that a
ciphertext tells the suite and the size of a fragment only (`Uniform`). `recipher` cuts the last
fragment to its logical length and pads it to the minimum of the new suite. Reads cut at the
logical length, whatever was stored.
-/

namespace Sfs.Version

open Sfs.Lib StreamMeta List

/-- The content of one unit of a `pad_blocks` container and the container's suite; `file` is what
the accepted calls made. -/
structure PaddedUnit where
  stream : StreamMeta Bytes
  fragSuite : Nat → Suite
  suite : Suite
  file : Bytes

inductive PadOp where
  | content (op : ContentOp)
  /-- up to this unit, or to the end -/
  | recipher (target : Suite) (ends : Bool)
  deriving DecidableEq, Repr

def ContentOp.file (b : Bytes) : ContentOp → Bytes
  | .write offset data | .writeRawKey offset data => splice offset data b
  | .truncate newSize => b.take newSize
  | .extend newSize => resize (max b.length newSize) b
  | .resolveConflict _ => b

namespace PaddedUnit

def created (suite : Suite) : PaddedUnit := ⟨.empty, fun _ => suite, suite, []⟩

def opSuite (u : PaddedUnit) : ContentOp → Suite
  | .truncate newSize => u.fragSuite (fragCount newSize u.stream.fragsizeExp - 1)
  | _ => u.suite

def step (host : HostAlias) (u : PaddedUnit) : PadOp → PaddedUnit
  | .content op =>
    match stage true (u.opSuite op) host ⟨some u.stream, []⟩ [] op with
    | .ok (some st) =>
      { u with
        stream := st.stream
        fragSuite := fun f => if f ∈ st.dirty then u.opSuite op else u.fragSuite f
        file := op.file u.file }
    | _ => u
  | .recipher target ends =>
    if target = u.suite then u
    else
      { u with
        stream := resealStream target u.fragSuite u.stream
        fragSuite := if resealDirty target u.fragSuite u.stream = [] then u.fragSuite else fun _ =>
          target
        suite := if ends then target else u.suite }

/-- A stored ciphertext is as long as that of a whole fragment under its suite. -/
def Uniform (u : PaddedUnit) : Prop :=
  ∀ f d, u.stream.block f = some d →
    (u.fragSuite f).cipherLen d.length = (u.fragSuite f).cipherLen u.stream.fragsize

/-- `recipher` seals no last fragment anew that is not full. -/
def Safe (u : PaddedUnit) : PadOp → Prop
  | .content _ => True
  | .recipher target _ => target ≠ u.suite →
    toReseal target u.fragSuite u.stream (u.stream.frags.length - 1) = true →
      u.stream.lastFragLength = u.stream.fragsize

end PaddedUnit

variable {s : StreamMeta Bytes} {st : Staged} {suite target : Suite} {host : HostAlias}
  {offset newSize f : Nat} {data b : Bytes}
  {fragSuite : Nat → Suite} {u : PaddedUnit}

/-! ## Whole fragments -/

def WholeBlocks (s : StreamMeta Bytes) : Prop := ∀ f d, s.block f = some d → d.length = s.fragsize

theorem uniform_iff (u : PaddedUnit) : u.Uniform ↔ WholeBlocks u.stream := by
  have hinj : ∀ (suite : Suite) (m n : Nat), suite.cipherLen m = suite.cipherLen n ↔ m = n := by
    intro suite m n
    cases suite <;> simp [Suite.cipherLen]
  simp only [PaddedUnit.Uniform, WholeBlocks, hinj]

theorem length_padPlain_whole {exp : Nat} {plain : Bytes} (h : plain.length ≤ 2 ^ exp) :
    (padPlain true suite exp plain).length = 2 ^ exp := by
  rw [padPlain, if_pos rfl]
  split
  · exact length_resize _ _
  · omega

namespace WholeBlocks

theorem stageOverwrite (h : WholeBlocks s) (hwf : Wf s) (hd : data ≠ []) :
    WholeBlocks (Version.stageOverwrite true suite host s (contentExp s (offset + data.length))
      (max s.byteLen (offset + data.length)) offset data).stream := by
  intro f d hb
  rw [block_stageOverwrite (hwf.length_le (le_max_left _ _) _) hd (le_max_right _ _)] at hb
  split at hb
  · rename_i hr
    cases hb
    refine length_padPlain_whole ?_
    rw [length_writePlain hd (le_max_right _ _) hr]
    exact Nat.min_le_right _ _
  · have := lt_of_block hb
    exact (h f d hb).trans (congrArg (2 ^ ·) (contentExp_of_pos (by omega) _).symm)

theorem stageRechunk {newExp : Nat} :
    WholeBlocks (Version.stageRechunk true suite host s offset data newSize newExp).stream := by
  intro f d hb
  rw [block_stageRechunk] at hb
  split at hb
  · cases hb
    refine length_padPlain_whole ?_
    rw [slice, length_take]
    omega
  · cases hb

theorem stageCut {content : Bytes} (h : WholeBlocks s) (hwf : Wf s) (hlt : newSize < s.byteLen) :
    WholeBlocks (Version.stageCut true suite host s newSize content).stream := by
  intro f d hb
  have hf : f < fragCount newSize s.fragsizeExp :=
    length_stageCut true suite host content hwf.toStored hlt ▸ lt_of_block hb
  rcases frag_stageCut true suite host content hwf.toStored hlt hf with ⟨hfr, -⟩ | ⟨hfr, hr, hlast⟩
  · rw [block_of_get hfr] at hb
    exact h f d hb
  rw [block_of_get hfr] at hb
  cases hb
  refine length_padPlain_whole ?_
  have := hr.2
  rw [← hlast, Nat.add_sub_cancel] at this
  rw [slice, length_take]
  omega

end WholeBlocks

/-! ## The calls -/

/-- The raw-key write makes the stream of an ordinary one that does not re-chunk, pins apart. -/
theorem stageOverwriteRaw_eq (padBlocks : Bool) (h : Wf s) (hd : data ≠ [])
    (hoff : offset ≤ s.byteLen) :
    (stageOverwriteRaw padBlocks suite host s (contentExp s (offset + data.length))
        (max s.byteLen (offset + data.length)) offset data).stream =
      { (stageOverwrite padBlocks suite host s (contentExp s (offset + data.length))
          (max s.byteLen (offset + data.length)) offset data).stream with pins := s.pins } := by
  have hpos := length_pos_iff.mpr hd
  unfold stageOverwriteRaw stageOverwrite
  dsimp only
  congr 1
  generalize he : contentExp s (offset + data.length) = e
  have hw := Nat.two_pow_pos e
  have hsz := @fragCount_size (max s.byteLen (offset + data.length)) e (by omega)
  have hle := lastFragLength_le (max s.byteLen (offset + data.length)) e
  split
  · rename_i hlast
    rw [← hlast, Nat.add_sub_cancel] at hsz
    omega
  -- the write ends before the last fragment, which is an old one
  have hmem : fragOf (offset + data.length - 1) e <
      fragCount (max s.byteLen (offset + data.length)) e :=
    lt_fragCount_of_range hd (le_max_right s.byteLen (offset + data.length))
      ⟨Nat.div_le_div_right (by omega), le_rfl⟩
  have hend : offset + data.length ≤ (fragOf (offset + data.length - 1) e + 1) * 2 ^ e := by
    have := Nat.lt_mul_div_succ (offset + data.length - 1) hw
    rw [fragOf, mul_comm]
    omega
  have hnext : (fragOf (offset + data.length - 1) e + 1) * 2 ^ e <
      max s.byteLen (offset + data.length) :=
    lt_fragCount_iff.mp (by omega)
  have hmax : max s.byteLen (offset + data.length) = s.byteLen := by omega
  have hn : 0 < s.frags.length := h.byteLen_pos.mp (by omega)
  rw [contentExp_of_pos hn] at he
  rw [hmax, ← he, byteLen, if_neg (by omega)]
  exact (lastFragLength_eq (h.last_pos hn) h.last_le).symm

/-- What a call stages shows the file with the call made, in whole blocks if they were whole. -/
theorem staged_spec {op : ContentOp} (h : Shows s [] b)
    (hst : stage true suite host ⟨some s, []⟩ [] op = .ok (some st)) :
    Shows st.stream [] (op.file b) ∧ (WholeBlocks s → WholeBlocks st.stream) := by
  cases op with
  | write offset data =>
    obtain ⟨st', hw, he⟩ := exists_of_map_ok hst
    cases he
    refine ⟨h.write hw fun _ hv => (by cases hv), fun hb => ?_⟩
    obtain ⟨hd, -, -, ⟨-, rfl⟩ | ⟨-, rfl⟩⟩ := stageWrite_ok hw
    · exact .stageRechunk
    · exact hb.stageOverwrite h.wf hd
  | writeRawKey offset data =>
    obtain ⟨st', hw, he⟩ := exists_of_map_ok hst
    cases he
    obtain ⟨hd, hoff, rfl⟩ := stageWriteRawKey_ok hw
    have heq : (stageOverwriteRaw true suite host s _ _ offset data).stream = _ :=
      stageOverwriteRaw_eq true h.wf hd hoff
    have hfits := h.wf.fits (le_max_left s.byteLen (offset + data.length)) (offset + data.length)
    have hwf : Wf (stageOverwrite true suite host s (contentExp s (offset + data.length))
        (max s.byteLen (offset + data.length)) offset data).stream :=
      h.wf.stageOverwrite (h.wf.floor_le_contentExp _) hfits
        (fun hn => contentExp_of_pos (by omega) _) hd (le_max_right _ _)
    rw [UnitRecord.stream, Option.getD_some, heq]
    refine ⟨h.patched
      ⟨⟨⟨hwf.floor, hwf.short, hwf.last_pos, hwf.last_le, hwf.hole, hwf.seen⟩, hwf.hidden⟩, ?_,
        funext fun i => byteAt_stageOverwrite hfits hd (le_max_right _ _) i⟩ fun _ hv =>
        (by cases hv), fun hb => hb.stageOverwrite h.wf hd⟩
    exact (byteLen_stageOverwrite hfits.count hd (le_max_right _ _)).trans (max_comm _ _)
  | truncate newSize =>
    refine ⟨h.truncate (fun _ hv => (by cases hv)) (fun _ hv => (by cases hv)) (Except.ok.inj hst),
      fun hb => ?_⟩
    obtain ⟨hlt, ⟨-, rfl⟩ | ⟨hpos, rfl⟩⟩ := truncateWith_some (Except.ok.inj hst)
    · exact fun f d hb => (by cases hb)
    · exact hb.stageCut h.wf (by omega)
  | extend newSize =>
    have he : Version.extend host s newSize = some st := Except.ok.inj hst
    refine ⟨h.extend he, fun hb f d hd => ?_⟩
    rw [(extend_frags he f).2] at hd
    have hexp : st.stream.fragsizeExp = s.fragsizeExp := by
      have := lt_of_block hd
      unfold Version.extend at he
      split at he
      · cases he
      · cases he
        exact contentExp_of_pos (by omega) _
    exact (hb f d hd).trans (congrArg (2 ^ ·) hexp.symm)
  | resolveConflict r => cases hst

/-! ## Re-ciphering -/

theorem block_resealStream (f : Nat) : (resealStream target fragSuite s).block f =
    if toReseal target fragSuite s f then (s.block f).map (resealPlain target s f) else s.block f := by
  simp only [block, resealStream, getElem?_mapIdx]
  cases s.frags[f]? with
  | none => exact (ite_self _).symm
  | some fr =>
    simp only [Option.map_some]
    split <;> rfl

theorem dot_resealStream (f : Nat) : (resealStream target fragSuite s).dot f = s.dot f := by
  simp only [dot, resealStream, getElem?_mapIdx]
  cases s.frags[f]? with
  | none => rfl
  | some fr =>
    simp only [Option.map_some]
    split <;> rfl

theorem byteLen_resealStream : (resealStream target fragSuite s).byteLen = s.byteLen := by
  simp only [byteLen, resealStream, length_mapIdx]
  rfl

/-- The bytes cut off were hidden. -/
theorem getD_resealPlain {d : Bytes} (h : Wf s) (hd : s.block f = some d) (j : Nat) :
    (resealPlain target s f d).getD j 0 = d.getD j 0 := by
  have := h.getD_take_logical hd j
  rw [resealPlain, getD_padToMin]
  split
  · rename_i hlast
    rwa [if_pos hlast] at this
  · rfl

theorem byteAt_resealStream (h : Wf s) (i : Nat) :
    byteAt (resealStream target fragSuite s) i = byteAt s i := by
  show (((resealStream target fragSuite s).block (i / s.fragsize)).getD []).getD (i % s.fragsize) 0 = _
  rw [block_resealStream, byteAt]
  split
  · cases hd : s.block (i / s.fragsize) with
    | none => rfl
    | some d => exact getD_resealPlain h hd _
  · rfl

theorem length_resealPlain_le {d : Bytes} (h : Wf s) (hd : s.block f = some d) :
    (resealPlain target s f d).length ≤ s.fragsize := by
  have h16 : 2 ^ 12 ≤ 2 ^ s.fragsizeExp := Nat.pow_le_pow_right (by decide) h.floor
  have hm := target.minPlaintextLen_le
  have hs : d.length ≤ 2 ^ s.fragsizeExp := h.short f d hd
  rw [resealPlain, length_padToMin, fragsize]
  split
  · rw [length_take]
    omega
  · omega

theorem Wf.resealStream (h : Wf s) : Wf (resealStream target fragSuite s) where
  floor := h.floor
  short := by
    intro f d hb
    rw [block_resealStream] at hb
    split at hb
    · obtain ⟨d', hd', rfl⟩ := Option.map_eq_some_iff.mp hb
      exact length_resealPlain_le h hd'
    · exact h.short f d hb
  last_pos := fun hn => h.last_pos (by simpa [Version.resealStream] using hn)
  last_le := h.last_le
  hidden := fun i hi => (byteAt_resealStream h i).trans (h.hidden i (byteLen_resealStream ▸ hi))
  hole := by
    intro f
    rw [dot_resealStream, block_resealStream, h.hole f]
    split
    · exact Option.map_eq_none_iff.symm
    · rfl
  seen := fun f => (dot_resealStream f).symm ▸ h.seen f

/-- Re-ciphering leaves whole blocks exactly if it leaves the last fragment or that one is full. -/
theorem wholeBlocks_resealStream_iff (h : Wf s) (hb : WholeBlocks s) :
    WholeBlocks (resealStream target fragSuite s) ↔
      (toReseal target fragSuite s (s.frags.length - 1) = true → s.lastFragLength = s.fragsize) := by
  have h16 : 2 ^ 12 ≤ s.fragsize := Nat.pow_le_pow_right (by decide) h.floor
  have hm := target.minPlaintextLen_le
  have hl := h.last_le
  constructor
  · intro hw hr
    obtain ⟨d, hd⟩ := Option.isSome_iff_exists.mp (Bool.and_eq_true_iff.mp hr).1
    have hn := lt_of_block hd
    have := hw (s.frags.length - 1) (resealPlain target s (s.frags.length - 1) d) (by
      rw [block_resealStream, if_pos hr, hd]
      rfl)
    rw [resealPlain, length_padToMin, if_pos (by omega), length_take, hb _ d hd] at this
    change max _ _ = s.fragsize at this
    omega
  · intro hfull f d hd
    rw [block_resealStream] at hd
    split at hd
    · obtain ⟨d', hd', rfl⟩ := Option.map_eq_some_iff.mp hd
      have hlen := hb f d' hd'
      rw [resealPlain, length_padToMin]
      show _ = s.fragsize
      split
      · rename_i hlast
        rw [length_take, hfull (by rwa [← hlast, Nat.add_sub_cancel])]
        omega
      · omega
    · exact hb f d hd

/-! ## Runs -/

namespace PaddedUnit

theorem shows_step (h : Shows u.stream [] u.file) (op : PadOp) :
    Shows (u.step host op).stream [] (u.step host op).file := by
  cases op with
  | content op =>
    unfold step
    dsimp only
    split
    · rename_i st hst
      exact (staged_spec h hst).1
    · exact h
  | recipher target ends =>
    unfold step
    dsimp only
    split
    · exact h
    · exact ⟨h.wf.resealStream, byteLen_resealStream.trans h.length,
        (funext (byteAt_resealStream h.wf)).trans h.bytes, fun i hi =>
          (h.filled i hi).imp_left fun hs => byteLen_resealStream.symm ▸ hs⟩

theorem wholeBlocks_step_iff (h : Shows u.stream [] u.file) (hb : WholeBlocks u.stream) (op : PadOp) :
    WholeBlocks (u.step host op).stream ↔ u.Safe op := by
  cases op with
  | content op =>
    refine iff_of_true ?_ trivial
    unfold step
    dsimp only
    split
    · rename_i st hst
      exact (staged_spec h hst).2 hb
    · exact hb
  | recipher target ends =>
    unfold step Safe
    dsimp only
    split
    · rename_i heq
      exact iff_of_true hb fun hne => absurd heq hne
    · rename_i hne
      rw [wholeBlocks_resealStream_iff h.wf hb]
      exact ⟨fun hw _ => hw, fun hw => hw hne⟩

theorem shows_run (host : HostAlias) (suite : Suite) (ops : List PadOp) :
    Shows (run (step host) (created suite) ops).stream [] (run (step host) (created suite) ops).file :=
  run_inv (I := fun u : PaddedUnit => Shows u.stream [] u.file) (fun _ op h _ => shows_step h op)
    ⟨.empty, rfl, rfl, fun _ hi => (by cases hi)⟩ (along_true _ ops)

end PaddedUnit

end Sfs.Version

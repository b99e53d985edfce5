import Sfs.Version.Content

/-!
# The bytes of a file

A content stream stands for a file: `byteLen` bytes, byte `i` being `byteAt s i`. Every local
operation acts on the file as its name says (`byteAt_stageWrite`, `byteAt_truncate`,
`byteAt_extend`) and keeps the stream well formed. Well-formedness includes that bytes beyond
the end are stored as zeros, which is what makes a later extension read as zeros.
-/

namespace Sfs.Version

open Sfs.Lib StreamMeta List VersionVector Option

variable {s : StreamMeta Bytes} {exp newSize f : Nat}

/-- Whatever a stream has been through, local edits or merges. -/
structure Stored (s : StreamMeta Bytes) : Prop where
  floor : fragsizeFloorExp ≤ s.fragsizeExp
  short : ∀ f d, s.block f = some d → d.length ≤ s.fragsize
  last_pos : 0 < s.frags.length → 0 < s.lastFragLength
  last_le : s.lastFragLength ≤ s.fragsize
  /-- exactly the zero dots have no block -/
  hole : ∀ f, s.dot f = 0 ↔ s.block f = none
  /-- the vector covers every dot of the stream -/
  seen : ∀ f, hasSeenDot s.vv (s.dot f) = true

/-- A stream that only local edits have changed. A merge may leave a longer block under a shorter
last length. -/
structure Wf (s : StreamMeta Bytes) : Prop extends Stored s where
  /-- bytes stored beyond the end are zeros -/
  hidden : ∀ i, s.byteLen ≤ i → byteAt s i = 0

theorem Stored.geometry (h : Stored s) : Geometry s := ⟨h.short, h.last_le⟩

theorem Wf.empty : Wf .empty where
  floor := le_rfl
  short := by
    intro f d h
    cases h
  last_pos := by decide
  last_le := Nat.zero_le _
  hidden := fun _ _ => rfl
  hole := fun _ => ⟨fun _ => rfl, fun _ => rfl⟩
  seen := fun _ => hasSeenDot_zero _

theorem byteAt_of_block_none {i : Nat} (h : s.block (i / s.fragsize) = none) :
    byteAt s i = 0 := by
  simp [byteAt, h]

/-- The byte at `i`, for fragments of `2 ^ exp` bytes. -/
theorem byteAt_of_exp (h : s.fragsizeExp = exp) (i : Nat) :
    byteAt s i = ((s.block (i / 2 ^ exp)).getD []).getD (i % 2 ^ exp) 0 := by
  rw [← h]
  rfl

theorem Stored.fragCount_byteLen (h : Stored s) :
    fragCount s.byteLen s.fragsizeExp = s.frags.length := by
  unfold byteLen
  split
  · rename_i hn
    rw [hn, fragCount, zero_add]
    exact Nat.div_eq_of_lt (by have := Nat.two_pow_pos s.fragsizeExp; omega)
  · exact fragCount_eq (by omega) (h.last_pos (by omega)) h.last_le

theorem Stored.byteLen_pos (h : Stored s) : 0 < s.byteLen ↔ 0 < s.frags.length := by
  unfold byteLen
  split
  · omega
  · have := h.last_pos (by omega)
    omega

/-- A stream cut for `size` bytes has `size` bytes. -/
theorem byteLen_of_fragCount {size : Nat} (hp : 0 < size)
    (hn : s.frags.length = fragCount size s.fragsizeExp)
    (hl : s.lastFragLength = lastFragLength size s.fragsizeExp) : s.byteLen = size := by
  have h1 := fragCount_pos s.fragsizeExp hp
  unfold byteLen
  rw [if_neg (by omega), hn, hl]
  exact fragCount_size _ hp

/-! ## Padding and the read-modify-write of one fragment -/

section

variable {padBlocks : Bool} {suite : Suite} {host : HostAlias}

theorem getD_resize_of_length_lt {n : Nat} {bs : Bytes} (h : bs.length < n) (j : Nat) :
    (resize n bs).getD j 0 = bs.getD j 0 := by
  rw [getD_resize]
  split
  · rfl
  · rw [getD_of_length_le (by omega)]

theorem length_padToMin (plain : Bytes) :
    (padToMin suite plain).length = max plain.length suite.minPlaintextLen := by
  unfold padToMin
  split
  · rw [length_resize]
    omega
  · omega

theorem getD_padToMin (plain : Bytes) (j : Nat) :
    (padToMin suite plain).getD j 0 = plain.getD j 0 := by
  unfold padToMin
  split
  · exact getD_resize_of_length_lt (by assumption) j
  · rfl

/-- Padding adds zeros only. -/
theorem getD_padPlain (exp : Nat) (plain : Bytes) (j : Nat) :
    (padPlain padBlocks suite exp plain).getD j 0 = plain.getD j 0 := by
  unfold padPlain
  split
  · split
    · exact getD_resize_of_length_lt (by assumption) j
    · rfl
  · exact getD_padToMin plain j

theorem Suite.minPlaintextLen_le (suite : Suite) : suite.minPlaintextLen ≤ 16 := by
  cases suite <;> decide

theorem length_padPlain_le {plain : Bytes} (he : fragsizeFloorExp ≤ exp)
    (hp : plain.length ≤ 2 ^ exp) : (padPlain padBlocks suite exp plain).length ≤ 2 ^ exp := by
  have h16 : 2 ^ 12 ≤ 2 ^ exp := Nat.pow_le_pow_right (by decide) he
  have hm := suite.minPlaintextLen_le
  unfold padPlain
  split
  · split
    · rw [length_resize]
    · exact hp
  · rw [length_padToMin]
    omega

theorem length_writePlain {offset : Nat} {data : Bytes} {existing : Option Bytes} (hd : data ≠ [])
    (hs : offset + data.length ≤ newSize)
    (hf : fragOf offset exp ≤ f ∧ f ≤ fragOf (offset + data.length - 1) exp) :
    (writePlain exp newSize offset data f existing).length =
      min (newSize - f * 2 ^ exp) (2 ^ exp) := by
  have hpos : 0 < data.length := length_pos_iff.mpr hd
  rw [frag_mem_range_iff (by omega)] at hf
  generalize hw : 2 ^ exp = w at *
  generalize hst : f * w = st at *
  simp only [writePlain, hw, hst]
  rw [length_overlay]
  · rw [length_resize]
  · rw [length_resize]
    simp only [length_take, length_drop]
    omega

/-- Byte `j` of a rewritten fragment: the written byte, else the stored one below the new size. -/
theorem getD_writePlain {offset : Nat} {data : Bytes} {existing : Option Bytes}
    (hd : data ≠ []) (hs : offset + data.length ≤ newSize)
    (hf : fragOf offset exp ≤ f ∧ f ≤ fragOf (offset + data.length - 1) exp) {j : Nat}
    (hj : j < 2 ^ exp) :
    (writePlain exp newSize offset data f existing).getD j 0 =
      if offset ≤ f * 2 ^ exp + j ∧ f * 2 ^ exp + j < offset + data.length then
        data.getD (f * 2 ^ exp + j - offset) 0
      else if f * 2 ^ exp + j < newSize then (existing.getD []).getD j 0
      else 0 := by
  have hpos : 0 < data.length := length_pos_iff.mpr hd
  rw [frag_mem_range_iff (by omega)] at hf
  generalize hw : 2 ^ exp = w at *
  generalize hst : f * w = st at *
  simp only [writePlain, hw, hst]
  rw [getD_overlay (by rw [length_resize]; simp only [length_take, length_drop]; omega)]
  simp only [length_take, length_drop]
  by_cases hin : offset ≤ st + j ∧ st + j < offset + data.length
  · rw [if_pos (by omega), if_pos hin]
    simp only [getD_eq_getElem?_getD, getElem?_take, getElem?_drop]
    rw [if_pos (by omega)]
    congr 3
    omega
  · rw [if_neg (by omega), if_neg hin, getD_resize]
    by_cases hn : st + j < newSize
    · rw [if_pos hn, if_pos (by omega)]
    · rw [if_neg hn, if_neg (by omega)]

/-- What is sealed under a fresh dot is no hole, and the bumped vector has seen the dot. -/
theorem Stored.staged {st : Staged} (h : Stored s) (hf : Fresh host s st s.vv) :
    (∀ f, st.stream.dot f = 0 ↔ st.stream.block f = none) ∧ ∀ f,
      hasSeenDot st.stream.vv (st.stream.dot f) = true := by
  refine ⟨fun f => ?_, fun f => ?_⟩
  · by_cases hd : f ∈ st.dirty
    · rw [hf.dirty_dot f hd]
      exact iff_of_false (packDot_ne_zero (by omega)) (isSome_iff_ne_none.mp (hf.dirty_block f hd))
    · rcases hf.others f hd with ⟨hdot, hb⟩ | ⟨hdot, hb⟩
      · exact iff_of_true hdot hb
      · rw [hdot, hb]
        exact h.hole f
  · rw [hf.vv]
    by_cases hd : f ∈ st.dirty
    · rw [hf.dirty_dot f hd, hasSeenDot_packDot (by omega), get_bump_self]
    · rcases hf.others f hd with ⟨hdot, -⟩ | ⟨hdot, -⟩ <;> rw [hdot]
      · exact hasSeenDot_zero _
      · exact hasSeenDot_mono (s.vv.get_le_get_bump host) (h.seen f)

/-! ## Writing inside the geometry -/

theorem contentExp_of_pos (h : 0 < s.frags.length) (size : Nat) :
    contentExp s size = s.fragsizeExp := by
  rw [contentExp, if_neg (by omega)]

theorem Stored.floor_le_contentExp (h : Stored s) (size : Nat) :
    fragsizeFloorExp ≤ contentExp s size := by
  unfold contentExp
  split
  · exact fragsizeFloorExp_le_deriveExp size
  · exact h.floor

theorem byteAt_of_frags_nil (h : s.frags.length = 0) (i : Nat) :
    byteAt s i = 0 :=
  byteAt_of_block_none (block_of_ge (by rw [h]; exact Nat.zero_le _))

/-- The byte at `i` in the geometry a stream of `size` bytes will have. -/
theorem byteAt_contentExp (s : StreamMeta Bytes) (size i : Nat) :
    ((s.block (i / 2 ^ contentExp s size)).getD []).getD (i % 2 ^ contentExp s size) 0 =
      byteAt s i := by
  by_cases hn : s.frags.length = 0
  · rw [byteAt_of_frags_nil hn, block_of_ge (by rw [hn]; exact Nat.zero_le _)]
    rfl
  · rw [contentExp_of_pos (by omega)]
    rfl

/-- The bytes of `s` fit a geometry of `newSize` bytes in fragments of `2 ^ e`. -/
structure Fits (s : StreamMeta Bytes) (e newSize : Nat) : Prop where
  bytes : ∀ i, ((s.block (i / 2 ^ e)).getD []).getD (i % 2 ^ e) 0 = byteAt s i
  count : s.frags.length ≤ fragCount newSize e
  hidden : ∀ i, newSize ≤ i → byteAt s i = 0

theorem Stored.length_le (h : Stored s) (hle : s.byteLen ≤ newSize) (size : Nat) :
    s.frags.length ≤ fragCount newSize (contentExp s size) := by
  by_cases hn : s.frags.length = 0
  · rw [hn]
    exact Nat.zero_le _
  · rw [contentExp_of_pos (by omega), ← h.fragCount_byteLen]
    exact fragCount_mono hle

theorem Wf.fits (h : Wf s) (hle : s.byteLen ≤ newSize) (size : Nat) :
    Fits s (contentExp s size) newSize where
  bytes := byteAt_contentExp s size
  count := h.length_le hle size
  hidden := fun i hi => h.hidden i (le_trans hle hi)

section

variable {s : StreamMeta Bytes} {e newSize offset : Nat} {data : Bytes}

theorem length_stageOverwrite (hle : s.frags.length ≤ fragCount newSize e) :
    (stageOverwrite padBlocks suite host s e newSize offset data).stream.frags.length =
      fragCount newSize e := by
  simp only [stageOverwrite, length_writtenFrags]
  omega

theorem frag_stageOverwrite (hlt : f < fragCount newSize e) :
    (stageOverwrite padBlocks suite host s e newSize offset data).stream.frags[f]? = some
      (if fragOf offset e ≤ f ∧ f ≤ fragOf (offset + data.length - 1) e then
        ⟨packDot host (s.vv.get host + 1), some (padPlain padBlocks suite e
          (writePlain e newSize offset data f (s.block f)))⟩
      else ⟨s.dot f, s.block f⟩) := by
  simp only [stageOverwrite, get_bump_self]
  exact writtenFrags_get (by omega)

theorem block_stageOverwrite (hle : s.frags.length ≤ fragCount newSize e) (hd : data ≠ [])
    (hs : offset + data.length ≤ newSize) (f : Nat) :
    (stageOverwrite padBlocks suite host s e newSize offset data).stream.block f =
      if fragOf offset e ≤ f ∧ f ≤ fragOf (offset + data.length - 1) e then
        some (padPlain padBlocks suite e (writePlain e newSize offset data f (s.block f)))
      else s.block f := by
  by_cases hlt : f < fragCount newSize e
  · rw [block, frag_stageOverwrite hlt]
    dsimp only
    split <;> rfl
  · rw [if_neg fun hr => hlt (lt_fragCount_of_range hd hs hr),
      block_of_ge (by rw [length_stageOverwrite hle]; omega), block_of_ge (by omega)]

theorem byteLen_stageOverwrite (hle : s.frags.length ≤ fragCount newSize e) (hd : data ≠ [])
    (hs : offset + data.length ≤ newSize) :
    (stageOverwrite padBlocks suite host s e newSize offset data).stream.byteLen = newSize := by
  have hpos : 0 < data.length := length_pos_iff.mpr hd
  exact byteLen_of_fragCount (by omega) (length_stageOverwrite hle) rfl

theorem byteAt_stageOverwrite (hf : Fits s e newSize) (hd : data ≠ [])
    (hs : offset + data.length ≤ newSize) (i : Nat) :
    byteAt (stageOverwrite padBlocks suite host s e newSize offset data).stream i =
      if offset ≤ i ∧ i < offset + data.length then data.getD (i - offset) 0 else byteAt s i := by
  have hpos : 0 < data.length := length_pos_iff.mpr hd
  have hw : 0 < 2 ^ e := Nat.two_pow_pos e
  have hj := Nat.mod_lt i hw
  have hdm := Nat.div_add_mod' i (2 ^ e)
  rw [@byteAt_of_exp _ e rfl, block_stageOverwrite hf.count hd hs]
  by_cases hr : fragOf offset e ≤ i / 2 ^ e ∧ i / 2 ^ e ≤ fragOf (offset + data.length - 1) e
  · rw [if_pos hr, getD_some, getD_padPlain, getD_writePlain hd hs hr hj, hdm]
    split
    · rfl
    · split
      · exact hf.bytes i
      · exact (hf.hidden i (by omega)).symm
  · rw [if_neg hr, hf.bytes, if_neg]
    rw [frag_mem_range_iff (by omega)] at hr
    omega

theorem Stored.stageOverwrite (h : Stored s) (he : fragsizeFloorExp ≤ e)
    (hle : s.frags.length ≤ fragCount newSize e) (hx : s.frags.length ≠ 0 → e = s.fragsizeExp)
    (hd : data ≠ []) (hs : offset + data.length ≤ newSize) :
    Stored (stageOverwrite padBlocks suite host s e newSize offset data).stream where
  floor := he
  short := by
    intro f d hb
    rw [block_stageOverwrite hle hd hs] at hb
    split at hb
    · rename_i hr
      cases hb
      apply length_padPlain_le he
      rw [length_writePlain hd hs hr]
      omega
    · have hlt := lt_of_block hb
      have := h.short f d hb
      rwa [fragsize, ← hx (by omega)] at this
  last_pos := fun _ => lastFragLength_pos _ (by have := length_pos_iff.mpr hd; omega)
  last_le := lastFragLength_le newSize e
  hole := (h.staged (.stageOverwrite hd hs)).1
  seen := (h.staged (.stageOverwrite hd hs)).2

theorem Wf.stageOverwrite (h : Wf s) (he : fragsizeFloorExp ≤ e) (hf : Fits s e newSize)
    (hx : s.frags.length ≠ 0 → e = s.fragsizeExp) (hd : data ≠ [])
    (hs : offset + data.length ≤ newSize) :
    Wf (stageOverwrite padBlocks suite host s e newSize offset data).stream where
  toStored := h.toStored.stageOverwrite he hf.count hx hd hs
  hidden := by
    intro i hi
    rw [byteLen_stageOverwrite hf.count hd hs] at hi
    rw [byteAt_stageOverwrite hf hd hs, if_neg (by omega)]
    exact hf.hidden i hi

end

/-! ## Re-chunking -/

theorem byteAt_add {j : Nat} (hj : j < s.fragsize) :
    byteAt s (f * s.fragsize + j) = ((s.block f).getD []).getD j 0 := by
  rw [byteAt, mul_comm, Nat.mul_add_div s.fragsize_pos, Nat.div_eq_of_lt hj, Nat.mul_add_mod,
    Nat.mod_eq_of_lt hj, add_zero]

/-- Cutting a block at its logical length takes zeros away. -/
theorem Wf.getD_take_logical {d : Bytes} (h : Wf s) (hd : s.block f = some d) (j : Nat) :
    (d.take (if f + 1 = s.frags.length then s.lastFragLength else s.fragsize)).getD j 0 =
      d.getD j 0 := by
  have hshort := h.short f d hd
  split
  · rename_i hlast
    by_cases hj : s.lastFragLength ≤ j ∧ j < s.fragsize
    · have hz := h.hidden (f * s.fragsize + j)
        (by rw [byteLen, if_neg (by omega), ← hlast, Nat.add_sub_cancel]; omega)
      rw [byteAt_add hj.2, hd] at hz
      rw [getD_of_length_le (by rw [length_take]; omega)]
      exact hz.symm
    · rw [getD_eq_getElem?_getD, getElem?_take]
      split
      · rfl
      · exact (getD_of_length_le (by omega)).symm
  · rw [take_of_length_le hshort]

/-- Content that has the bytes of the fragments before `f` gets those of the others. -/
theorem materialise_getD (h : Wf s) {size : Nat} (hsize : s.byteLen ≤ size)
    (rest : List (Frag Bytes)) (f : Nat) (content : Bytes) (hdrop : s.frags.drop f = rest)
    (hlen : content.length = size)
    (hc : ∀ i, content.getD i 0 = if i < f * s.fragsize then byteAt s i else 0) :
    (materialise s f rest content).length = size ∧ ∀ i,
      (materialise s f rest content).getD i 0 = byteAt s i := by
  induction rest generalizing f content with
  | nil =>
    refine ⟨hlen, fun i => (hc i).trans ?_⟩
    split
    · rfl
    · rename_i hi
      have hge : s.frags.length ≤ f := drop_eq_nil_iff.mp hdrop
      have hfi : f ≤ i / s.fragsize := (Nat.le_div_iff_mul_le s.fragsize_pos).mpr (by omega)
      rw [byteAt_of_block_none (block_of_ge (by omega))]
  | cons fr rest ih =>
    have hlt : f < s.frags.length := by
      by_contra hge
      rw [drop_eq_nil_of_le (by omega)] at hdrop
      cases hdrop
    rw [drop_eq_getElem_cons hlt] at hdrop
    obtain ⟨hget, hrest⟩ := List.cons.inj hdrop
    have hblock : s.block f = fr.block := by rw [block_of_lt hlt, hget]
    have hsucc : (f + 1) * s.fragsize = f * s.fragsize + s.fragsize := Nat.succ_mul _ _
    have hfrag : ∀ i, f * s.fragsize ≤ i → i < (f + 1) * s.fragsize →
        byteAt s i = (fr.block.getD []).getD (i - f * s.fragsize) 0 := by
      intro i h1 h2
      obtain ⟨j, rfl⟩ := Nat.exists_eq_add_of_le h1
      rw [byteAt_add (by omega), hblock, Nat.add_sub_cancel_left]
    cases hb : fr.block with
    | none =>
      simp only [materialise, hb]
      refine ih (f + 1) content hrest hlen fun i => (hc i).trans ?_
      split
      · rw [if_pos (by omega)]
      · split
        · rw [hfrag i (by omega) (by assumption), hb]
          rfl
        · rfl
    | some plain =>
      have hcut := h.getD_take_logical (hblock.trans hb)
      have hshort := h.short f plain (hblock.trans hb)
      simp only [materialise, hb]
      generalize (if f + 1 = s.frags.length then s.lastFragLength else s.fragsize) = logical at hcut ⊢
      generalize hp : plain.take logical = cut at hcut ⊢
      have hle : cut.length ≤ s.fragsize := le_trans (hp ▸ length_take_le' _ _) hshort
      have hstart : f * s.fragsize < s.byteLen := lt_fragCount_iff.mp (h.fragCount_byteLen.symm ▸ hlt)
      have hbound : f * s.fragsize + (cut.take (content.length - f * s.fragsize)).length ≤
          content.length := by
        rw [length_take]
        omega
      refine ih (f + 1) _ hrest ((length_overlay hbound).trans hlen) fun i => ?_
      rw [getD_overlay hbound, length_take, hc]
      split
      · rw [if_pos (by omega), hfrag i (by omega) (by omega), hb, getD_some, ← hcut,
          getD_eq_getElem?_getD, getElem?_take, if_pos (by omega)]
        rfl
      split
      · rw [if_pos (by omega)]
      split
      · -- behind the cut of the block, or behind the end of the file
        by_cases hend : cut.length ≤ i - f * s.fragsize
        · rw [hfrag i (by omega) (by assumption), hb, getD_some, ← hcut, getD_of_length_le hend]
        · exact (h.hidden i (by omega)).symm
      · rfl

section

variable {s : StreamMeta Bytes} {offset newSize newExp : Nat} {data : Bytes}

/-- The content a re-chunk cuts anew: the old bytes with the written ones on top. -/
def rechunkContent (s : StreamMeta Bytes) (offset newSize : Nat) (data : Bytes) : Bytes :=
  overlay (materialise s 0 s.frags (replicate newSize 0)) offset data

theorem getD_rechunkContent (h : Wf s) (hle : s.byteLen ≤ newSize)
    (hs : offset + data.length ≤ newSize) (i : Nat) :
    (rechunkContent s offset newSize data).getD i 0 =
      if offset ≤ i ∧ i < offset + data.length then data.getD (i - offset) 0 else byteAt s i := by
  have hm := materialise_getD h hle s.frags 0 (replicate newSize 0) rfl (by simp) fun i => by
    rw [Nat.zero_mul, if_neg (Nat.not_lt_zero i), getD_replicate_zero]
  rw [rechunkContent, getD_overlay (by rw [hm.1]; exact hs), hm.2 i]

theorem frag_stageRechunk (hf : f < fragCount newSize newExp) :
    (stageRechunk padBlocks suite host s offset data newSize newExp).stream.frags[f]? = some
      ⟨packDot host (s.vv.get host + 1), some (padPlain padBlocks suite newExp
        (slice (f * 2 ^ newExp) (min (newSize - f * 2 ^ newExp) (2 ^ newExp))
          (rechunkContent s offset newSize data)))⟩ := by
  simp [stageRechunk, rechunkContent, hf, get_bump_self]

theorem length_stageRechunk :
    (stageRechunk padBlocks suite host s offset data newSize newExp).stream.frags.length =
      fragCount newSize newExp := by
  simp [stageRechunk]

theorem byteLen_stageRechunk (hp : 0 < newSize) :
    (stageRechunk padBlocks suite host s offset data newSize newExp).stream.byteLen = newSize :=
  byteLen_of_fragCount hp length_stageRechunk rfl

theorem block_stageRechunk (f : Nat) :
    (stageRechunk padBlocks suite host s offset data newSize newExp).stream.block f =
      if f < fragCount newSize newExp then some (padPlain padBlocks suite newExp
        (slice (f * 2 ^ newExp) (min (newSize - f * 2 ^ newExp) (2 ^ newExp))
          (rechunkContent s offset newSize data)))
      else none := by
  by_cases hf : f < fragCount newSize newExp
  · rw [block, frag_stageRechunk hf, if_pos hf]
  · rw [block_of_ge (by rw [length_stageRechunk]; omega), if_neg hf]

theorem byteAt_stageRechunk (h : Wf s) (hle : s.byteLen ≤ newSize)
    (hs : offset + data.length ≤ newSize) (i : Nat) :
    byteAt (stageRechunk padBlocks suite host s offset data newSize newExp).stream i =
      if offset ≤ i ∧ i < offset + data.length then data.getD (i - offset) 0 else byteAt s i := by
  have hw : 0 < 2 ^ newExp := Nat.two_pow_pos newExp
  have hj := Nat.mod_lt i hw
  have hdm := Nat.div_add_mod' i (2 ^ newExp)
  rw [@byteAt_of_exp _ newExp rfl, block_stageRechunk]
  by_cases hi : i < newSize
  · rw [if_pos (lt_fragCount_iff.mpr (by omega)), getD_some, getD_padPlain, getD_slice,
      if_pos (by omega), hdm]
    exact getD_rechunkContent h hle hs i
  · have hout : ¬ (offset ≤ i ∧ i < offset + data.length) := by omega
    rw [if_neg hout, h.hidden i (by omega)]
    split
    · rw [getD_some, getD_padPlain, getD_slice, if_neg (by omega)]
    · rfl

theorem Stored.stageRechunk (h : Stored s) (he : fragsizeFloorExp ≤ newExp) (hp : 0 < newSize) :
    Stored (stageRechunk padBlocks suite host s offset data newSize newExp).stream where
  floor := he
  short := by
    intro f d hb
    rw [block_stageRechunk] at hb
    split at hb
    · cases hb
      apply length_padPlain_le he
      simp only [slice, length_take]
      omega
    · cases hb
  last_pos := fun _ => lastFragLength_pos _ hp
  last_le := lastFragLength_le newSize newExp
  hole := (h.staged (.stageRechunk s _ _ _ _)).1
  seen := (h.staged (.stageRechunk s _ _ _ _)).2

theorem Wf.stageRechunk (h : Wf s) (he : fragsizeFloorExp ≤ newExp) (hp : 0 < newSize)
    (hle : s.byteLen ≤ newSize) (hs : offset + data.length ≤ newSize) :
    Wf (stageRechunk padBlocks suite host s offset data newSize newExp).stream where
  toStored := h.toStored.stageRechunk he hp
  hidden := by
    intro i hi
    rw [byteLen_stageRechunk hp] at hi
    rw [byteAt_stageRechunk h hle hs, if_neg (by omega)]
    exact h.hidden i (by omega)

end

/-! ## Writing -/

section

variable {s : StreamMeta Bytes} {st : Staged} {offset : Nat} {data : Bytes}

theorem Stored.stageWrite (h : Stored s)
    (hst : stageWrite padBlocks suite host s offset data = .ok st) : Stored st.stream := by
  obtain ⟨hd, -, -, ⟨-, rfl⟩ | ⟨-, rfl⟩⟩ := stageWrite_ok hst
  · have := length_pos_iff.mpr hd
    exact h.stageRechunk (fragsizeFloorExp_le_deriveExp _) (by omega)
  · exact h.stageOverwrite (h.floor_le_contentExp _) (h.length_le (by omega) _)
      (fun hn => contentExp_of_pos (by omega) _) hd (by omega)

theorem Wf.stageWrite (h : Wf s) (hst : stageWrite padBlocks suite host s offset data = .ok st) :
    Wf st.stream := by
  obtain ⟨hd, -, -, ⟨-, rfl⟩ | ⟨-, rfl⟩⟩ := stageWrite_ok hst
  · have := length_pos_iff.mpr hd
    exact h.stageRechunk (fragsizeFloorExp_le_deriveExp _) (by omega) (by omega) (by omega)
  · exact h.stageOverwrite (h.floor_le_contentExp _) (h.fits (by omega) _)
      (fun hn => contentExp_of_pos (by omega) _) hd (by omega)

theorem byteLen_stageWrite (h : Stored s)
    (hst : stageWrite padBlocks suite host s offset data = .ok st) :
    st.stream.byteLen = max s.byteLen (offset + data.length) := by
  obtain ⟨hd, -, -, ⟨-, rfl⟩ | ⟨-, rfl⟩⟩ := stageWrite_ok hst
  · have := length_pos_iff.mpr hd
    exact byteLen_stageRechunk (by omega)
  · exact byteLen_stageOverwrite (h.length_le (by omega) _) hd (by omega)

/-- A write puts its data at its offset and changes nothing else. -/
theorem byteAt_stageWrite (h : Wf s) (hst : stageWrite padBlocks suite host s offset data = .ok st)
    (i : Nat) :
    byteAt st.stream i =
      if offset ≤ i ∧ i < offset + data.length then data.getD (i - offset) 0 else byteAt s i := by
  obtain ⟨hd, -, -, ⟨-, rfl⟩ | ⟨-, rfl⟩⟩ := stageWrite_ok hst
  · exact byteAt_stageRechunk h (by omega) (by omega) i
  · exact byteAt_stageOverwrite (h.fits (by omega) _) hd (by omega) i

end

/-! ## Truncating -/

section

variable {s : StreamMeta Bytes} {newSize : Nat} {content : Bytes}

/-- The cut re-seals its last fragment. -/
def Reseals (s : StreamMeta Bytes) (newSize : Nat) : Prop :=
  (s.block (fragCount newSize s.fragsizeExp - 1)).isSome = true ∧
    newSize - (fragCount newSize s.fragsizeExp - 1) * 2 ^ s.fragsizeExp < 2 ^ s.fragsizeExp

theorem frags_stageCut : (stageCut padBlocks suite host s newSize content).stream.frags =
    if (s.block (fragCount newSize s.fragsizeExp - 1)).isSome &&
        newSize - (fragCount newSize s.fragsizeExp - 1) * 2 ^ s.fragsizeExp < 2 ^ s.fragsizeExp then
      (s.frags.take (fragCount newSize s.fragsizeExp)).set (fragCount newSize s.fragsizeExp - 1)
        ⟨packDot host (s.vv.get host + 1), some (padPlain padBlocks suite s.fragsizeExp
          (slice ((fragCount newSize s.fragsizeExp - 1) * 2 ^ s.fragsizeExp)
            (newSize - (fragCount newSize s.fragsizeExp - 1) * 2 ^ s.fragsizeExp) content))⟩
    else s.frags.take (fragCount newSize s.fragsizeExp) := by
  simp only [stageCut, get_bump_self]

theorem Stored.fragCount_le (h : Stored s) (hlt : newSize < s.byteLen) :
    fragCount newSize s.fragsizeExp ≤ s.frags.length := by
  rw [← h.fragCount_byteLen]
  exact fragCount_mono hlt.le

variable (padBlocks suite host content) in
theorem length_stageCut (h : Stored s) (hlt : newSize < s.byteLen) :
    (stageCut padBlocks suite host s newSize content).stream.frags.length =
      fragCount newSize s.fragsizeExp := by
  have hle := h.fragCount_le hlt
  rw [frags_stageCut]
  split
  · rw [length_set, length_take]
    omega
  · rw [length_take]
    omega

variable (padBlocks suite host content) in
theorem frag_stageCut (h : Stored s) (hlt : newSize < s.byteLen)
    (hf : f < fragCount newSize s.fragsizeExp) :
    (stageCut padBlocks suite host s newSize content).stream.frags[f]? = some ⟨s.dot f, s.block f⟩ ∧
        ¬ (Reseals s newSize ∧ f + 1 = fragCount newSize s.fragsizeExp) ∨
      (stageCut padBlocks suite host s newSize content).stream.frags[f]? = some
          ⟨packDot host (s.vv.get host + 1), some (padPlain padBlocks suite s.fragsizeExp
            (slice (f * 2 ^ s.fragsizeExp) (newSize - f * 2 ^ s.fragsizeExp) content))⟩ ∧
        Reseals s newSize ∧ f + 1 = fragCount newSize s.fragsizeExp := by
  have hle := h.fragCount_le hlt
  have hfl : f < s.frags.length := by omega
  have hold : (s.frags.take (fragCount newSize s.fragsizeExp))[f]? = some ⟨s.dot f, s.block f⟩ := by
    rw [getElem?_take_of_lt hf, getElem?_eq_getElem hfl, dot_of_lt hfl, block_of_lt hfl]
  rw [frags_stageCut]
  by_cases hr : Reseals s newSize
  · rw [if_pos (by simpa [Reseals] using hr), getElem?_set]
    by_cases hl : f + 1 = fragCount newSize s.fragsizeExp
    · right
      rw [if_pos (by omega), if_pos (by rw [length_take]; omega)]
      rw [show fragCount newSize s.fragsizeExp - 1 = f by omega]
      exact ⟨rfl, hr, hl⟩
    · left
      rw [if_neg (by omega)]
      exact ⟨hold, fun hh => hl hh.2⟩
  · left
    rw [if_neg (by simpa [Reseals] using hr)]
    exact ⟨hold, fun hh => hr hh.1⟩

theorem lastFragLength_stageCut (hpos : 0 < newSize) :
    (stageCut padBlocks suite host s newSize content).stream.lastFragLength =
      lastFragLength newSize s.fragsizeExp := by
  have hsz := fragCount_size s.fragsizeExp hpos
  show newSize - (fragCount newSize s.fragsizeExp - 1) * 2 ^ s.fragsizeExp = _
  omega

theorem byteLen_stageCut (h : Stored s) (hpos : 0 < newSize) (hlt : newSize < s.byteLen) :
    (stageCut padBlocks suite host s newSize content).stream.byteLen = newSize :=
  byteLen_of_fragCount hpos (length_stageCut _ _ _ _ h hlt) (lastFragLength_stageCut hpos)

/-- Below the cut a byte is the stored one, or that of `content` in a last fragment that is
re-sealed; above it nothing is stored any more. -/
theorem byteAt_stageCut_cases (h : Stored s) (hlt : newSize < s.byteLen) (i : Nat) :
    i < newSize ∧ (byteAt (stageCut padBlocks suite host s newSize content).stream i = byteAt s i ∨
        byteAt (stageCut padBlocks suite host s newSize content).stream i = content.getD i 0) ∨
      newSize ≤ i ∧ byteAt (stageCut padBlocks suite host s newSize content).stream i = 0 := by
  have hw : 0 < 2 ^ s.fragsizeExp := Nat.two_pow_pos _
  have hj := Nat.mod_lt i hw
  have hdm := Nat.div_add_mod' i (2 ^ s.fragsizeExp)
  have hold := @byteAt_of_exp s _ rfl i
  rw [@byteAt_of_exp (stageCut padBlocks suite host s newSize content).stream s.fragsizeExp rfl]
  by_cases hf : i / 2 ^ s.fragsizeExp < fragCount newSize s.fragsizeExp
  · have hstart := lt_fragCount_iff.mp hf
    rcases frag_stageCut padBlocks suite host content h hlt hf with ⟨hfr, hr⟩ | ⟨hfr, -⟩
    · rw [block_of_get hfr, ← hold]
      by_cases hi : i < newSize
      · exact .inl ⟨hi, .inl rfl⟩
      -- the cut lands in this fragment, which was not re-sealed: it is a hole
      have hlast : i / 2 ^ s.fragsizeExp + 1 = fragCount newSize s.fragsizeExp := by
        have : ¬ i / 2 ^ s.fragsizeExp + 1 < fragCount newSize s.fragsizeExp := by
          rw [lt_fragCount_iff, Nat.succ_mul]
          omega
        omega
      refine .inr ⟨by omega, byteAt_of_block_none ?_⟩
      by_contra hne
      apply hr
      refine ⟨⟨?_, ?_⟩, hlast⟩
      · rw [← hlast, Nat.add_sub_cancel]
        exact isSome_iff_ne_none.mpr hne
      · rw [← hlast, Nat.add_sub_cancel]
        omega
    · rw [block_of_get hfr, getD_some, getD_padPlain, getD_slice, hdm]
      by_cases hi : i < newSize
      · rw [if_pos (by omega)]
        exact .inl ⟨hi, .inr rfl⟩
      · rw [if_neg (by omega)]
        exact .inr ⟨by omega, rfl⟩
  · have hge := length_stageCut padBlocks suite host content h hlt
    rw [block_of_ge (by omega)]
    rw [lt_fragCount_iff] at hf
    exact .inr ⟨by omega, rfl⟩

/-- A truncation keeps the bytes below the cut. -/
theorem byteAt_stageCut (h : Stored s) (hlt : newSize < s.byteLen)
    (hc : ∀ i, i < newSize → content.getD i 0 = byteAt s i) (i : Nat) :
    byteAt (stageCut padBlocks suite host s newSize content).stream i =
      if i < newSize then byteAt s i else 0 := by
  rcases byteAt_stageCut_cases h hlt i with ⟨hi, hb | hb⟩ | ⟨hi, hb⟩
  · rw [hb, if_pos hi]
  · rw [hb, if_pos hi, hc i hi]
  · rw [hb, if_neg (by omega)]

theorem Stored.stageCut (h : Stored s) (hpos : 0 < newSize) (hlt : newSize < s.byteLen) :
    Stored (stageCut padBlocks suite host s newSize content).stream where
  floor := h.floor
  short := by
    intro f d hb
    by_cases hf : f < fragCount newSize s.fragsizeExp
    · rcases frag_stageCut padBlocks suite host content h hlt hf with ⟨hfr, -⟩ | ⟨hfr, -, hl⟩
      · rw [block_of_get hfr] at hb
        exact h.short f d hb
      rw [block_of_get hfr] at hb
      cases hb
      apply length_padPlain_le h.floor
      have hsz := fragCount_size s.fragsizeExp hpos
      have hll := lastFragLength_le newSize s.fragsizeExp
      rw [show fragCount newSize s.fragsizeExp - 1 = f by omega] at hsz
      simp only [slice, length_take]
      omega
    · have hge := length_stageCut padBlocks suite host content h hlt
      rw [block_of_ge (by omega)] at hb
      cases hb
  last_pos := fun _ =>
    (lastFragLength_pos s.fragsizeExp hpos).trans_eq (lastFragLength_stageCut hpos).symm
  last_le := (lastFragLength_stageCut hpos).trans_le (lastFragLength_le newSize s.fragsizeExp)
  hole := (h.staged (.stageCut content hpos)).1
  seen := (h.staged (.stageCut content hpos)).2

/-- Whatever was stored beyond the end, a cut leaves zeros there. -/
theorem Stored.wf_stageCut (h : Stored s) (hpos : 0 < newSize) (hlt : newSize < s.byteLen) :
    Wf (Version.stageCut padBlocks suite host s newSize content).stream where
  toStored := h.stageCut hpos hlt
  hidden := by
    intro i hi
    rw [byteLen_stageCut h hpos hlt] at hi
    rcases byteAt_stageCut_cases h hlt i with ⟨hlt', -⟩ | ⟨-, hb⟩
    · omega
    · exact hb

end

/-! ## Extending -/

section

variable {s : StreamMeta Bytes} {st : Staged} {newSize : Nat}

/-- An extension adds holes and changes no stored fragment. -/
theorem extend_frags (hst : extend host s newSize = some st) (f : Nat) :
    st.stream.dot f = s.dot f ∧ st.stream.block f = s.block f := by
  unfold extend at hst
  split at hst
  · cases hst
  · cases hst
    exact ⟨s.dot_grow _ f, s.block_grow _ f⟩

theorem byteLen_extend (h : Stored s) (hst : extend host s newSize = some st) :
    s.byteLen < newSize ∧ st.stream.byteLen = newSize := by
  unfold extend at hst
  split_ifs at hst
  cases hst
  refine ⟨by omega, byteLen_of_fragCount (by omega) ?_ rfl⟩
  have := h.length_le (show s.byteLen ≤ newSize by omega) newSize
  rw [length_grow]
  dsimp only
  omega

/-- The bytes of an extended file: those it had, and zeros. -/
theorem byteAt_extend (hst : extend host s newSize = some st) (i : Nat) :
    byteAt st.stream i = byteAt s i := by
  have hfr := extend_frags hst
  have hexp : st.stream.fragsizeExp = contentExp s newSize := by
    unfold extend at hst
    split at hst
    · cases hst
    · cases hst
      rfl
  rw [byteAt_of_exp hexp, (hfr _).2]
  exact byteAt_contentExp s newSize i

theorem Stored.extend (h : Stored s) (hst : extend host s newSize = some st) :
    Stored st.stream := by
  have hfr := extend_frags hst
  have hnew := h.staged (.extend hst)
  unfold Version.extend at hst
  split_ifs at hst
  cases hst
  refine ⟨h.floor_le_contentExp newSize, fun f d hb => ?_,
    fun _ => lastFragLength_pos _ (by omega), lastFragLength_le newSize _, hnew.1, hnew.2⟩
  rw [(hfr f).2] at hb
  have hf := lt_of_block hb
  have := h.short f d hb
  rwa [fragsize, ← contentExp_of_pos (s := s) (by omega) newSize] at this

theorem Wf.extend (h : Wf s) (hst : extend host s newSize = some st) : Wf st.stream where
  toStored := h.toStored.extend hst
  hidden := by
    intro i hi
    obtain ⟨hlt, hlen⟩ := byteLen_extend h.toStored hst
    rw [byteAt_extend hst]
    exact h.hidden i (by omega)

end

/-! ## Edits -/

/-- A local content operation on its host; an append is a write at the end. -/
inductive Edit where
  | write (offset : Nat) (data : Bytes)
  | truncate (newSize : Nat)
  | extend (newSize : Nat)
  deriving DecidableEq, Repr

variable (padBlocks suite host)

/-- The head stream after an edit; one that is refused or stages nothing leaves it. -/
def edit (s : StreamMeta Bytes) : Edit → StreamMeta Bytes
  | .write offset data =>
    match stageWrite padBlocks suite host s offset data with
    | .ok st => st.stream
    | .error _ => s
  | .truncate newSize =>
    match truncate padBlocks suite host s newSize with
    | some st => st.stream
    | none => s
  | .extend newSize =>
    match extend host s newSize with
    | some st => st.stream
    | none => s

variable {padBlocks suite host}

theorem getD_take_read (h : Stored s) (hlt : newSize < s.byteLen)
    {i : Nat} (hi : i < newSize) : ((read s).take newSize).getD i 0 = byteAt s i := by
  rw [read_eq h.geometry]
  simp only [getD_eq_getElem?_getD, getElem?_take, if_pos hi, getElem?_map]
  rw [getElem?_range (by omega)]
  rfl

theorem length_take_read (h : Stored s) (hlt : newSize < s.byteLen) :
    ((read s).take newSize).length = newSize := by
  rw [length_take, length_read h.geometry]
  omega

/-- A truncation below the end clears the stream or cuts it at the new size. -/
theorem truncate_cases (h : Stored s) {st : Staged}
    (hst : truncate padBlocks suite host s newSize = some st) :
    newSize < s.byteLen ∧ (newSize = 0 ∧ st = ⟨.empty, []⟩ ∨
      0 < newSize ∧ st = stageCut padBlocks suite host s newSize ((read s).take newSize)) := by
  obtain ⟨hlt, hcase⟩ := truncateWith_some hst
  rw [length_take_read h hlt, min_self] at hcase
  exact ⟨hlt, hcase⟩

theorem Stored.wf_truncate (h : Stored s) {st : Staged}
    (hst : truncate padBlocks suite host s newSize = some st) : Wf st.stream := by
  obtain ⟨hlt, ⟨-, rfl⟩ | ⟨hpos, rfl⟩⟩ := truncate_cases h hst
  · exact Wf.empty
  · exact h.wf_stageCut hpos hlt

/-- What the three operations keep, an edit keeps. -/
theorem edit_inv {P : StreamMeta Bytes → Prop} (h : P s)
    (hwrite : ∀ offset data st, stageWrite padBlocks suite host s offset data = .ok st → P st.stream)
    (hcut : ∀ newSize st, truncate padBlocks suite host s newSize = some st → P st.stream)
    (hextend : ∀ newSize st, extend host s newSize = some st → P st.stream) (e : Edit) :
    P (edit padBlocks suite host s e) := by
  cases e with
  | write offset data =>
    simp only [edit]
    split
    · exact hwrite _ _ _ (by assumption)
    · exact h
  | truncate newSize =>
    simp only [edit]
    split
    · exact hcut _ _ (by assumption)
    · exact h
  | extend newSize =>
    simp only [edit]
    split
    · exact hextend _ _ (by assumption)
    · exact h

theorem Stored.edit (h : Stored s) (e : Edit) : Stored (edit padBlocks suite host s e) :=
  edit_inv h (fun _ _ _ => h.stageWrite) (fun _ _ hst => (h.wf_truncate hst).toStored)
    (fun _ _ => h.extend) e

theorem Wf.edit (h : Wf s) (e : Edit) : Wf (edit padBlocks suite host s e) :=
  edit_inv h (fun _ _ _ => h.stageWrite) (fun _ _ => h.toStored.wf_truncate)
    (fun _ _ => h.extend) e

end

/-! ## What a stream reads as -/

theorem getD_read (h : Wf s) (i : Nat) : (read s).getD i 0 = byteAt s i := by
  by_cases hi : i < s.byteLen
  · rw [read_eq h.geometry, getD_eq_getElem?_getD, getElem?_map, getElem?_range hi]
    rfl
  · rw [getD_of_length_le (by rw [length_read h.geometry]; omega), h.hidden i (by omega)]

end Sfs.Version

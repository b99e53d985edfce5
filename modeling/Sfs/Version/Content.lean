import Sfs.Unit

/-!
# Content streams by value

The local content operations on a stream that holds each fragment's block by value, as the
plaintext sealed in it: `read`, `stage_write` with its re-chunking path, `truncate` and
`extend`. Where blocks are placed and what becomes of the superseded ones is the engine's
part and does not show here. Fragments are counted without bound (`fragOf`); up to 2^54 bytes
that is the source's `u32` index (`geometry_exact`).
-/

namespace Sfs.Version

open Sfs.Lib List StreamMeta

variable {s : StreamMeta Bytes} {f offset newSize exp : Nat} {data : Bytes}

inductive Suite where
  | none
  | gcm
  | xts
  deriving DecidableEq, Repr

def Suite.minPlaintextLen : Suite → Nat
  | .none => 0
  | .gcm => 0
  | .xts => 16

def padToMin (suite : Suite) (plain : Bytes) : Bytes :=
  if plain.length < suite.minPlaintextLen then resize suite.minPlaintextLen plain else plain

/-- Padding before sealing: to the whole fragment in a `pad_blocks` container, else to the
least length the suite can seal. -/
def padPlain (padBlocks : Bool) (suite : Suite) (exp : Nat) (plain : Bytes) : Bytes :=
  if padBlocks then
    if plain.length < 2 ^ exp then resize (2 ^ exp) plain else plain
  else padToMin suite plain

/-! ## Reading -/

/-- What `read` emits for fragment `f`. -/
def fragOut (s : StreamMeta Bytes) (f : Nat) (block : Option Bytes) : Bytes :=
  let isLast := f + 1 = s.frags.length
  match block with
  | none => replicate (if isLast then s.lastFragLength else s.fragsize) 0
  | some plain =>
    if isLast then resize s.lastFragLength plain
    else if plain.length < s.fragsize then resize s.fragsize plain
    else plain

def read (s : StreamMeta Bytes) : Bytes := (s.frags.mapIdx fun f fr => fragOut s f fr.block).flatten

/-- The byte at position `i`, zero where nothing is stored. -/
def byteAt (s : StreamMeta Bytes) (i : Nat) : UInt8 :=
  ((s.block (i / s.fragsize)).getD []).getD (i % s.fragsize) 0

/-- No fragment stores more than a fragment, and the last one has a length. -/
structure Geometry (s : StreamMeta Bytes) : Prop where
  short : ∀ f d, s.block f = some d → d.length ≤ s.fragsize
  last : s.lastFragLength ≤ s.fragsize

theorem length_fragOut (hg : Geometry s) (f : Nat) :
    (fragOut s f (s.block f)).length =
      if f + 1 = s.frags.length then s.lastFragLength else s.fragsize := by
  unfold fragOut
  cases hb : s.block f with
  | none => simp
  | some d =>
    have := hg.short f d hb
    by_cases hl : f + 1 = s.frags.length
    · simp [hl]
    · simp only [hl, if_false]
      split
      · simp
      · omega

theorem getD_fragOut (hg : Geometry s) {j : Nat}
    (hj : j < if f + 1 = s.frags.length then s.lastFragLength else s.fragsize) :
    (fragOut s f (s.block f)).getD j 0 = ((s.block f).getD []).getD j 0 := by
  unfold fragOut
  cases hb : s.block f with
  | none => simp only [getD_replicate_zero, Option.getD_none, getD_nil]
  | some d =>
    have := hg.short f d hb
    by_cases hl : f + 1 = s.frags.length
    · simp only [hl, if_true, Option.getD_some, getD_resize] at hj ⊢
      simp [hj]
    · simp only [hl, if_false, Option.getD_some] at hj ⊢
      split
      · rw [getD_resize, if_pos hj]
      · rfl

theorem read_eq_flatten (s : StreamMeta Bytes) :
    read s = ((range s.frags.length).map fun f => fragOut s f (s.block f)).flatten := by
  unfold read
  congr 1
  apply ext_getElem (by simp)
  intro f h1 h2
  simp only [length_mapIdx] at h1
  simp [block_of_lt h1]

/-- `read` returns the bytes of the stream in order. -/
theorem read_eq (hg : Geometry s) :
    read s = (range s.byteLen).map (byteAt s) := by
  rw [read_eq_flatten]
  cases hn : s.frags.length with
  | zero => simp [byteLen, hn]
  | succ n =>
    have hlen : s.byteLen = n * s.fragsize + s.lastFragLength := by
      simp [byteLen, hn]
    rw [range_succ, map_append, flatten_append, hlen, range_add, map_append]
    congr 1
    · -- the full fragments
      rw [flatten_map_range s.fragsize_pos]
      · apply map_congr_left
        intro i hi
        have hi' : i < n * s.fragsize := mem_range.mp hi
        have hf : i / s.fragsize < n := (Nat.div_lt_iff_lt_mul s.fragsize_pos).mpr hi'
        have hne : ¬ i / s.fragsize + 1 = s.frags.length := by omega
        rw [getD_fragOut hg (by rw [if_neg hne]; exact Nat.mod_lt _ s.fragsize_pos)]
        rfl
      · intro f hf
        have hne : ¬ f + 1 = s.frags.length := by omega
        rw [length_fragOut hg, if_neg hne]
    · -- the last fragment
      have hlast : n + 1 = s.frags.length := hn.symm
      simp only [map_cons, map_nil, flatten_cons, flatten_nil, append_nil, map_map]
      apply ext_getElem
      · rw [length_fragOut hg, if_pos hlast]
        simp
      intro j h1 h2
      have hj : j < s.lastFragLength := by simpa using h2
      have hjf : j < s.fragsize := lt_of_lt_of_le hj hg.last
      have hg1 := getD_fragOut hg (f := n) (j := j) (by rw [if_pos hlast]; exact hj)
      rw [getD_eq_getElem _ _ h1] at hg1
      rw [hg1]
      simp only [getElem_map, getElem_range, Function.comp, byteAt]
      rw [mul_comm n, Nat.mul_add_div s.fragsize_pos, Nat.div_eq_of_lt hjf, add_zero,
        Nat.mul_add_mod, Nat.mod_eq_of_lt hjf]

theorem length_read (hg : Geometry s) : (read s).length = s.byteLen := by
  rw [read_eq hg]
  simp

/-- A stream of positive length reads as at least as many bytes, whatever it stores. -/
theorem byteLen_le_length_read (s : StreamMeta Bytes) : s.byteLen ≤ (read s).length := by
  have hfrag : ∀ f, (if f + 1 = s.frags.length then s.lastFragLength else s.fragsize) ≤
      (fragOut s f (s.block f)).length := by
    intro f
    unfold fragOut
    cases s.block f with
    | none => simp
    | some d =>
      by_cases hl : f + 1 = s.frags.length
      · simp [hl]
      · simp only [hl, if_false]
        split
        · simp
        · omega
  have hsum : ∀ k, k < s.frags.length → k * s.fragsize ≤
      ((range k).map fun f => fragOut s f (s.block f)).flatten.length := by
    intro k hk
    induction k with
    | zero => simp
    | succ k ih =>
      have h1 := ih (by omega)
      have h2 := hfrag k
      rw [if_neg (by omega)] at h2
      rw [range_succ, map_append, flatten_append, length_append, Nat.succ_mul]
      simp only [map_cons, map_nil, flatten_cons, flatten_nil, append_nil]
      omega
  rw [read_eq_flatten, byteLen]
  split
  · omega
  rename_i hn
  have h1 := hsum (s.frags.length - 1) (by omega)
  have h2 := hfrag (s.frags.length - 1)
  rw [if_pos (by omega)] at h2
  have hr : range s.frags.length = range (s.frags.length - 1) ++ [s.frags.length - 1] := by
    rw [← range_succ]
    congr 1
    omega
  rw [hr, map_append, flatten_append, length_append]
  simp only [map_cons, map_nil, flatten_cons, flatten_nil, append_nil]
  omega

/-! ## Writing -/

/-- The new plaintext of fragment `f`: what is stored, cut or extended to the new length,
with the written bytes on top. -/
def writePlain (exp newSize offset : Nat) (data : Bytes) (f : Nat) (existing : Option Bytes) : Bytes :=
  let fragsize := 2 ^ exp
  let fragStart := f * fragsize
  let fragLenNew := min (newSize - fragStart) fragsize
  let plain := resize fragLenNew (existing.getD [])
  let stop := offset + data.length
  let writeLo := max offset fragStart
  let writeHi := min stop (fragStart + fragsize)
  overlay plain (writeLo - fragStart) ((data.drop (writeLo - offset)).take (writeHi - writeLo))

/-- Clear the bits of fragments `first … last`. -/
def clearPins (first last : Nat) (pins : List CommitBitmap) : List CommitBitmap :=
  pins.map fun p =>
    { p with bits := p.bits.mapIdx fun f b => if first ≤ f ∧ f ≤ last then false else b }

/-- A staged stream and the indices of the fragments sealed for it, in order. -/
structure Staged where
  stream : StreamMeta Bytes
  dirty : List Nat

section

variable (padBlocks : Bool) (suite : Suite) (host : HostAlias)

/-- Copy the stored fragments from `f` on into `content`. -/
def materialise (s : StreamMeta Bytes) : Nat → List (Frag Bytes) → Bytes → Bytes
  | _, [], content => content
  | f, fr :: rest, content =>
    match fr.block with
    | none => materialise s (f + 1) rest content
    | some plain =>
      let logical := if f + 1 = s.frags.length then s.lastFragLength else s.fragsize
      let start := f * s.fragsize
      let plain := (plain.take logical).take (content.length - start)
      materialise s (f + 1) rest (overlay content start plain)

def stageRechunk (s : StreamMeta Bytes) (offset : Nat) (data : Bytes) (newSize newExp : Nat) :
    Staged :=
  let content := overlay (materialise s 0 s.frags (replicate newSize 0)) offset data
  let vv := s.vv.bump host
  let newVer := packDot host (vv.get host)
  let newFragsize := 2 ^ newExp
  let newN := fragCount newSize newExp
  { stream := {
      frags := (range newN).map fun f =>
        ⟨newVer, some (padPlain padBlocks suite newExp
          (slice (f * newFragsize) (min (newSize - f * newFragsize) newFragsize) content))⟩
      vv
      fragsizeExp := newExp
      lastFragLength := lastFragLength newSize newExp
      pins := s.pins.map fun p => { p with bits := [] } }
    dirty := range newN }

/-- The exponent of a stream about to hold `size` bytes: derived anew while it has no fragment,
else the stored one. -/
def contentExp (s : StreamMeta Bytes) (size : Nat) : Nat :=
  if s.frags.length = 0 then deriveExp size else s.fragsizeExp

/-- The fragments of `s` grown to `newSize` bytes, those under the written range re-sealed with
the dot `newVer`. -/
def writtenFrags (s : StreamMeta Bytes) (exp newSize offset : Nat) (data : Bytes)
    (newVer : BlockVersion) : List (Frag Bytes) :=
  let first := fragOf offset exp
  let last := fragOf (offset + data.length - 1) exp
  (s.grow (fragCount newSize exp)).frags.mapIdx fun f fr =>
    if first ≤ f ∧ f ≤ last then
      ⟨newVer, some (padPlain padBlocks suite exp (writePlain exp newSize offset data f fr.block))⟩
    else fr

/-- The fragment loop of `stage_write`. -/
def stageOverwrite (s : StreamMeta Bytes) (exp newSize offset : Nat) (data : Bytes) : Staged :=
  let first := fragOf offset exp
  let last := fragOf (offset + data.length - 1) exp
  let vv := s.vv.bump host
  { stream := {
      frags := writtenFrags padBlocks suite s exp newSize offset data (packDot host (vv.get host))
      vv
      fragsizeExp := exp
      lastFragLength := lastFragLength newSize exp
      pins := clearPins first last s.pins }
    dirty := range' first (last + 1 - first) }

def stageWrite (s : StreamMeta Bytes) (offset : Nat) (data : Bytes) : Result Staged :=
  if data = [] then .error (.integrity "write: empty data")
  else if 2 ^ 64 ≤ offset + data.length then .error (.integrity "write: offset overflow")
  else
    let exp := contentExp s (offset + data.length)
    let oldSize := s.byteLen
    if oldSize < offset then
      .error (.integrity ("gap write unsupported: offset " ++ toString offset ++
        " is past current size " ++ toString oldSize ++
        "; call extend() first to create a sparse region"))
    else
      let newSize := max oldSize (offset + data.length)
      let neededExp := deriveExp newSize
      if exp < neededExp then .ok (stageRechunk padBlocks suite host s offset data newSize neededExp)
      else .ok (stageOverwrite padBlocks suite host s exp newSize offset data)

/-- The fragment loop of `write_raw_key`: it leaves the pins alone and sets the last length only
when it writes the last fragment. -/
def stageOverwriteRaw (s : StreamMeta Bytes) (exp newSize offset : Nat) (data : Bytes) : Staged :=
  let first := fragOf offset exp
  let last := fragOf (offset + data.length - 1) exp
  let vv := s.vv.bump host
  { stream := {
      frags := writtenFrags padBlocks suite s exp newSize offset data (packDot host (vv.get host))
      vv
      fragsizeExp := exp
      lastFragLength :=
        if last + 1 = fragCount newSize exp then min (newSize - last * 2 ^ exp) (2 ^ exp)
        else s.lastFragLength
      pins := s.pins }
    dirty := range' first (last + 1 - first) }

/-- The staging part of `write_raw_key`, which never re-chunks. -/
def stageWriteRawKey (s : StreamMeta Bytes) (offset : Nat) (data : Bytes) : Result Staged :=
  if data = [] then .error (.integrity "write_raw_key: empty data")
  else if 2 ^ 64 ≤ offset + data.length then .error (.integrity "write_raw_key: offset overflow")
  else
    let exp := contentExp s (offset + data.length)
    let oldSize := s.byteLen
    if oldSize < offset then
      .error (.integrity ("write_raw_key: gap write: offset " ++ toString offset ++
        " > size " ++ toString oldSize))
    else
      .ok (stageOverwriteRaw padBlocks suite host s exp
        (max oldSize (offset + data.length)) offset data)

/-- The cut of `truncate` to `newSize > 0` bytes, where `content` holds the kept bytes: the last
kept fragment is re-sealed under a fresh dot when the cut lands inside a stored fragment. -/
def stageCut (s : StreamMeta Bytes) (newSize : Nat) (content : Bytes) : Staged :=
  let exp := s.fragsizeExp
  let n := fragCount newSize exp
  let startOfLast := (n - 1) * 2 ^ exp
  let lfl := newSize - startOfLast
  let vv := s.vv.bump host
  let reseal := (s.block (n - 1)).isSome && lfl < 2 ^ exp
  let resealed : Frag Bytes :=
    ⟨packDot host (vv.get host), some (padPlain padBlocks suite exp (slice startOfLast lfl content))⟩
  { stream := {
      frags := if reseal then (s.frags.take n).set (n - 1) resealed else s.frags.take n
      vv
      fragsizeExp := exp
      lastFragLength := lfl
      pins := s.pins.map fun p => { p with bits := p.bits.take (8 * ((n + 7) / 8)) } }
    dirty := if reseal then [n - 1] else [] }

/-- `truncate` with `content`, what `read_at(0, new_size)` returned; `none` is the early
`Ok(())` that stages nothing. -/
def truncateWith (s : StreamMeta Bytes) (newSize : Nat) (content : Bytes) : Option Staged :=
  if s.byteLen ≤ newSize then none
  else
    let actualNewSize := min content.length newSize
    if actualNewSize = 0 then some ⟨.empty, []⟩
    else some (stageCut padBlocks suite host s actualNewSize content)

def truncate (s : StreamMeta Bytes) (newSize : Nat) : Option Staged :=
  truncateWith padBlocks suite host s newSize ((read s).take newSize)

def extend (s : StreamMeta Bytes) (newSize : Nat) : Option Staged :=
  if newSize ≤ s.byteLen then none
  else
    let exp := contentExp s newSize
    some {
      stream := { s.grow (fragCount newSize exp) with
        vv := s.vv.bump host
        fragsizeExp := exp
        lastFragLength := lastFragLength newSize exp }
      dirty := [] }

/-! ## What the operations stage -/

variable {padBlocks suite host} {s : StreamMeta Bytes} {st : Staged}

theorem exists_stageWrite (hd : data ≠ []) (hlt : offset + data.length < 2 ^ 64)
    (hoff : offset ≤ s.byteLen) : ∃ st, stageWrite padBlocks suite host s offset data = .ok st := by
  unfold stageWrite
  rw [if_neg hd, if_neg (by omega), if_neg (by omega)]
  simp only
  split
  · exact ⟨_, rfl⟩
  · exact ⟨_, rfl⟩

theorem stageWrite_ok (h : stageWrite padBlocks suite host s offset data = .ok st) :
    data ≠ [] ∧ offset + data.length < 2 ^ 64 ∧ offset ≤ s.byteLen ∧
      (contentExp s (offset + data.length) < deriveExp (max s.byteLen (offset + data.length)) ∧
          st = stageRechunk padBlocks suite host s offset data (max s.byteLen (offset + data.length))
            (deriveExp (max s.byteLen (offset + data.length))) ∨
        deriveExp (max s.byteLen (offset + data.length)) ≤ contentExp s (offset + data.length) ∧
          st = stageOverwrite padBlocks suite host s (contentExp s (offset + data.length))
            (max s.byteLen (offset + data.length)) offset data) := by
  unfold stageWrite at h
  split_ifs at h with hne hov
  dsimp only at h
  split at h
  · cases h
  rename_i hgap
  refine ⟨hne, by omega, by omega, ?_⟩
  split at h
  · rename_i he
    cases h
    exact .inl ⟨he, rfl⟩
  · rename_i he
    cases h
    exact .inr ⟨by omega, rfl⟩

theorem stageWriteRawKey_ok (h : stageWriteRawKey padBlocks suite host s offset data = .ok st) :
    data ≠ [] ∧ offset ≤ s.byteLen ∧
      st = stageOverwriteRaw padBlocks suite host s (contentExp s (offset + data.length))
        (max s.byteLen (offset + data.length)) offset data := by
  unfold stageWriteRawKey at h
  split_ifs at h with hne _
  dsimp only at h
  split at h
  · cases h
  · rename_i hgap
    cases h
    exact ⟨hne, by omega, rfl⟩

/-- A truncation that stages something starts the stream over or cuts it. -/
theorem truncateWith_some {content : Bytes}
    (h : truncateWith padBlocks suite host s newSize content = some st) :
    newSize < s.byteLen ∧
      (min content.length newSize = 0 ∧ st = ⟨.empty, []⟩ ∨ 0 < min content.length newSize ∧
          st = stageCut padBlocks suite host s (min content.length newSize) content) := by
  unfold truncateWith at h
  split_ifs at h with hlt
  refine ⟨Nat.lt_of_not_le hlt, ?_⟩
  dsimp only at h
  split at h
  · rename_i hz
    cases h
    exact .inl ⟨hz, rfl⟩
  · rename_i hz
    cases h
    exact .inr ⟨pos_of_ne_zero hz, rfl⟩

theorem truncateWith_eq_none_iff {content : Bytes} :
    truncateWith padBlocks suite host s newSize content = none ↔ s.byteLen ≤ newSize := by
  unfold truncateWith
  constructor
  · intro h
    split at h
    · assumption
    · dsimp only at h
      split at h <;> cases h
  · intro h
    rw [if_pos h]

/-! ## Fresh dots -/

/-- `st` is staged over `s` with the vector `w` bumped, `w` at least the vector of `s`: every
fragment it seals carries the one fresh dot, every other is a hole or as it was. -/
structure Fresh (host : HostAlias) (s : StreamMeta Bytes) (st : Staged) (w : VersionVector) :
    Prop where
  dominates : w.dominates s.vv = true
  vv : st.stream.vv = w.bump host
  dirty_dot : ∀ f, f ∈ st.dirty → st.stream.dot f = packDot host (w.get host + 1)
  dirty_block : ∀ f, f ∈ st.dirty → (st.stream.block f).isSome = true
  others : ∀ f, f ∉ st.dirty → st.stream.dot f = 0 ∧ st.stream.block f = none ∨
    st.stream.dot f = s.dot f ∧ st.stream.block f = s.block f

/-- Fragment `f` after a write: re-sealed under the new dot, or as it was. -/
theorem writtenFrags_get {newVer : BlockVersion}
    (hf : f < max s.frags.length (fragCount newSize exp)) :
    (writtenFrags padBlocks suite s exp newSize offset data newVer)[f]? = some
      (if fragOf offset exp ≤ f ∧ f ≤ fragOf (offset + data.length - 1) exp then
        ⟨newVer, some (padPlain padBlocks suite exp
          (writePlain exp newSize offset data f (s.block f)))⟩
      else ⟨s.dot f, s.block f⟩) := by
  have hl : f < (s.grow (fragCount newSize exp)).frags.length := by
    rw [length_grow]
    exact hf
  have hd := dot_of_lt hl
  have hb := block_of_lt hl
  rw [dot_grow] at hd
  rw [block_grow] at hb
  simp only [writtenFrags, getElem?_mapIdx, getElem?_eq_getElem hl, Option.map_some, hd, hb]

theorem length_writtenFrags {newVer : BlockVersion} :
    (writtenFrags padBlocks suite s exp newSize offset data newVer).length =
      max s.frags.length (fragCount newSize exp) := by
  simp [writtenFrags, length_grow]

/-- Fragment `f` meets the byte range from `offset` to `stop`. -/
theorem frag_mem_range_iff {stop : Nat} (h : offset < stop) :
    fragOf offset exp ≤ f ∧ f ≤ fragOf (stop - 1) exp ↔
      offset < f * 2 ^ exp + 2 ^ exp ∧ f * 2 ^ exp < stop := by
  have hw : 0 < 2 ^ exp := Nat.two_pow_pos exp
  unfold fragOf
  rw [Nat.le_div_iff_mul_le hw, ← Nat.lt_succ_iff, Nat.div_lt_iff_lt_mul hw, Nat.succ_mul]
  omega

theorem lt_fragCount_of_range (hd : data ≠ [])
    (hs : offset + data.length ≤ newSize)
    (hr : fragOf offset exp ≤ f ∧ f ≤ fragOf (offset + data.length - 1) exp) :
    f < fragCount newSize exp := by
  have hpos : 0 < data.length := length_pos_iff.mpr hd
  rw [frag_mem_range_iff (by omega)] at hr
  rw [lt_fragCount_iff]
  omega

theorem Fresh.of_get {w : VersionVector} (hw : w.dominates s.vv = true)
    (hvv : st.stream.vv = w.bump host)
    (hsealed : ∀ f, f ∈ st.dirty →
      ∃ b, st.stream.frags[f]? = some ⟨packDot host (w.get host + 1), some b⟩)
    (hrest : ∀ f, f ∉ st.dirty → st.stream.frags[f]? = none ∨
      st.stream.frags[f]? = some ⟨s.dot f, s.block f⟩) :
    Fresh host s st w := by
  refine ⟨hw, hvv, fun f hf => ?_, fun f hf => ?_, fun f hf => ?_⟩
  · obtain ⟨b, hb⟩ := hsealed f hf
    exact dot_of_get hb
  · obtain ⟨b, hb⟩ := hsealed f hf
    rw [block_of_get hb]
    rfl
  · rcases hrest f hf with h | h
    · have hge := getElem?_eq_none_iff.mp h
      exact .inl ⟨dot_of_ge hge, block_of_ge hge⟩
    · exact .inr ⟨dot_of_get h, block_of_get h⟩

variable (padBlocks suite) in
/-- A stream whose fragments are `writtenFrags` and whose dirty list is the written range. -/
theorem Fresh.of_writtenFrags (hd : data ≠ [])
    (hs : offset + data.length ≤ newSize) (hvv : st.stream.vv = s.vv.bump host)
    (hfr : st.stream.frags = writtenFrags padBlocks suite s exp newSize offset data
      (packDot host (s.vv.get host + 1)))
    (hdirty : st.dirty = range' (fragOf offset exp)
      (fragOf (offset + data.length - 1) exp + 1 - fragOf offset exp)) :
    Fresh host s st s.vv := by
  have hmem : ∀ f, f ∈ st.dirty ↔
      fragOf offset exp ≤ f ∧ f ≤ fragOf (offset + data.length - 1) exp := by
    intro f
    rw [hdirty, mem_range'_1]
    omega
  have hget : ∀ {f : Nat}, f < max s.frags.length (fragCount newSize exp) → st.stream.frags[f]? = some
      (if fragOf offset exp ≤ f ∧ f ≤ fragOf (offset + data.length - 1) exp then
        ⟨packDot host (s.vv.get host + 1), some (padPlain padBlocks suite exp
          (writePlain exp newSize offset data f (s.block f)))⟩
      else ⟨s.dot f, s.block f⟩) := by
    intro f hf
    rw [hfr]
    exact writtenFrags_get hf
  refine .of_get s.vv.dominates_refl hvv (fun f hf => ?_) fun f hf => ?_ <;> rw [hmem] at hf
  · have hlt := lt_fragCount_of_range hd hs hf
    exact ⟨_, (hget (by omega)).trans (congrArg some (if_pos hf))⟩
  · by_cases hlt : f < max s.frags.length (fragCount newSize exp)
    · exact .inr ((hget hlt).trans (congrArg some (if_neg hf)))
    · exact .inl (getElem?_eq_none (by rw [hfr, length_writtenFrags]; omega))

/-- A stream cut anew into `n` fragments, all of them sealed. -/
theorem Fresh.of_all {w : VersionVector} {n : Nat} (hw : w.dominates s.vv = true)
    (hvv : st.stream.vv = w.bump host) (hlen : st.stream.frags.length = n)
    (hget : ∀ f, f < n → ∃ b, st.stream.frags[f]? = some ⟨packDot host (w.get host + 1), some b⟩)
    (hdirty : st.dirty = range n) : Fresh host s st w := by
  refine .of_get hw hvv (fun f hf => ?_) fun f hf => ?_ <;> rw [hdirty, mem_range] at hf
  · exact hget f hf
  · exact .inl (getElem?_eq_none (by omega))

theorem Fresh.stageRechunk (s : StreamMeta Bytes) (offset : Nat) (data : Bytes)
    (newSize newExp : Nat) :
    Fresh host s (stageRechunk padBlocks suite host s offset data newSize newExp) s.vv := by
  refine .of_all (n := fragCount newSize newExp) s.vv.dominates_refl rfl ?_ ?_ rfl
  · simp [Version.stageRechunk]
  · intro f hf
    simp [Version.stageRechunk, hf, VersionVector.get_bump_self]

theorem Fresh.stageOverwrite (hd : data ≠ []) (hs : offset + data.length ≤ newSize) :
    Fresh host s (stageOverwrite padBlocks suite host s exp newSize offset data) s.vv :=
  .of_writtenFrags padBlocks suite hd hs rfl
    (by simp only [Version.stageOverwrite, VersionVector.get_bump_self]) rfl

theorem Fresh.stageWrite (h : stageWrite padBlocks suite host s offset data = .ok st) :
    Fresh host s st s.vv := by
  obtain ⟨hd, -, -, ⟨-, rfl⟩ | ⟨-, rfl⟩⟩ := stageWrite_ok h
  · exact .stageRechunk s _ _ _ _
  · exact .stageOverwrite hd (le_max_right _ _)

theorem Fresh.stageWriteRawKey (h : stageWriteRawKey padBlocks suite host s offset data = .ok st) :
    Fresh host s st s.vv := by
  obtain ⟨hd, -, rfl⟩ := stageWriteRawKey_ok h
  exact .of_writtenFrags padBlocks suite hd (le_max_right s.byteLen _) rfl
    (by simp only [stageOverwriteRaw, VersionVector.get_bump_self]) rfl

theorem Fresh.extend (h : extend host s newSize = some st) : Fresh host s st s.vv := by
  unfold Version.extend at h
  split at h
  · cases h
  · cases h
    exact ⟨s.vv.dominates_refl, rfl, fun f hf => (not_mem_nil hf).elim,
      fun f hf => (not_mem_nil hf).elim, fun f _ => .inr ⟨s.dot_grow _ f, s.block_grow _ f⟩⟩

theorem Fresh.stageCut (content : Bytes) (hp : 0 < newSize) :
    Fresh host s (stageCut padBlocks suite host s newSize content) s.vv := by
  have hn := fragCount_pos s.fragsizeExp hp
  have hkept : ∀ f, (s.frags.take (fragCount newSize s.fragsizeExp))[f]? = none ∨
      (s.frags.take (fragCount newSize s.fragsizeExp))[f]? = some (Frag.mk (s.dot f) (s.block f)) :=
        fun f => by
    rw [getElem?_take]
    split
    · exact s.frag_cases f
    · exact .inl rfl
  by_cases hr : ((s.block (fragCount newSize s.fragsizeExp - 1)).isSome &&
      decide (newSize - (fragCount newSize s.fragsizeExp - 1) * 2 ^ s.fragsizeExp <
        2 ^ s.fragsizeExp)) =
        true
  · obtain ⟨d, hd⟩ := Option.isSome_iff_exists.mp (Bool.and_eq_true_iff.mp hr).1
    have hlt := lt_of_block hd
    refine .of_get s.vv.dominates_refl rfl (fun f hf => ?_) fun f hf => ?_ <;>
      simp only [Version.stageCut, hr, if_true, mem_singleton, VersionVector.get_bump_self] at hf ⊢
    · subst hf
      rw [getElem?_set_self (by rw [length_take]; omega)]
      exact ⟨_, rfl⟩
    · rw [getElem?_set_ne (by omega)]
      exact hkept f
  · refine .of_get s.vv.dominates_refl rfl (fun f hf => ?_) fun f hf => ?_
    · simp [Version.stageCut, hr] at hf
    · simpa [Version.stageCut, hr] using hkept f

end

end Sfs.Version

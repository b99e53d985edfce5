import Sfs.Sync.ImportBlock
import Sfs.Version.FileBytes

/-!
# Strains read and resolved

A file may store less of a fragment than it has: `extend` grows the length and leaves the blocks.
`read` fills up what is missing with zeros. `read_raw_key`, from which a resolution takes the
primary, and `read_strain` do not; they show the file iff nothing is missing (`FullBlocks`).

A stream arrives at another replica as a record without blocks and the blocks one by one.
`importAll_spec` says that the stream to which all blocks of another went is that stream.
-/

namespace Sfs.Sync

open Sfs.Lib Sfs.Version List StreamMeta VersionVector

/-- How much of fragment `f` the file has. -/
def fragLen (s : StreamMeta Bytes) (f : Nat) : Nat :=
  if f + 1 = s.frags.length then s.lastFragLength else s.fragsize

/-- Every block is as long as the file's part of it. -/
def FullBlocks (s : StreamMeta Bytes) : Prop := ∀ f b, s.block f = some b → fragLen s f ≤ b.length

/-! ## The raw read -/

theorem flatten_eq_iff_of_prefix {α : Type} {g h : Nat → List α} {l : List Nat}
    (hp : ∀ f ∈ l, g f <+: h f) : (l.map g).flatten = (l.map h).flatten ↔ ∀ f ∈ l, g f = h f := by
  have hlen : ∀ l : List Nat, (∀ f ∈ l, g f <+: h f) →
      (l.map g).flatten.length ≤ (l.map h).flatten.length := by
    intro l hp
    induction l with
    | nil => exact le_rfl
    | cons a l ih =>
      have ha := (hp a (.head _)).length_le
      have hl := ih fun f hf => hp f (.tail _ hf)
      simp only [map_cons, flatten_cons, length_append]
      omega
  induction l with
  | nil => simp
  | cons a l ih =>
    have ha := hp a (.head _)
    have hl : ∀ f ∈ l, g f <+: h f := fun f hf => hp f (.tail _ hf)
    rw [map_cons, map_cons, flatten_cons, flatten_cons, forall_mem_cons]
    constructor
    · intro heq
      -- what follows is not longer, so the first is not shorter
      have hsum := congrArg length heq
      rw [length_append, length_append] at hsum
      have hrest := hlen l hl
      have hfirst := ha.eq_of_length (by have := ha.length_le; omega)
      rw [hfirst] at heq
      exact ⟨hfirst, (ih hl).mp (append_cancel_left heq)⟩
    · rintro ⟨hfirst, hrest⟩
      rw [hfirst, (ih hl).mpr hrest]

/-- What `read_raw_key` emits for fragment `f`. -/
def rawOut (s : StreamMeta Bytes) (f : Nat) (block : Option Bytes) : Bytes :=
  match block with
  | none => replicate (fragLen s f) 0
  | some plain => if f + 1 = s.frags.length then plain.take s.lastFragLength else plain

theorem readRawKey_eq_flatten (s : StreamMeta Bytes) :
    readRawKey s = ((range s.frags.length).map fun f => rawOut s f (s.block f)).flatten := by
  unfold readRawKey
  congr 1
  apply ext_getElem (by simp)
  intro f h1 h2
  simp only [length_mapIdx] at h1
  simp only [getElem_mapIdx, getElem_map, getElem_range, block_of_lt h1]
  rfl

theorem take_prefix_resize (n : Nat) (bs : Bytes) :
    bs.take n <+: resize n bs ∧ (bs.take n = resize n bs ↔ n ≤ bs.length) := by
  unfold resize
  refine ⟨prefix_append _ _, ?_⟩
  rw [self_eq_append_right, replicate_eq_nil_iff]
  omega

theorem rawOut_spec (s : StreamMeta Bytes) (f : Nat) (block : Option Bytes) :
    rawOut s f block <+: fragOut s f block ∧
      (rawOut s f block = fragOut s f block ↔ ∀ b, block = some b → fragLen s f ≤ b.length) := by
  cases block with
  | none => exact ⟨prefix_rfl, by simp [rawOut, fragOut, fragLen]⟩
  | some b =>
    simp only [Option.some.injEq, forall_eq']
    unfold rawOut fragOut fragLen
    dsimp only
    split
    · exact take_prefix_resize s.lastFragLength b
    split
    · have hspec := take_prefix_resize s.fragsize b
      rwa [take_of_length_le (by omega)] at hspec
    · exact ⟨prefix_rfl, by simp; omega⟩

/-- The raw read shows the file iff no block is short. -/
theorem readRawKey_eq_read_iff (s : StreamMeta Bytes) : readRawKey s = read s ↔ FullBlocks s := by
  rw [readRawKey_eq_flatten, read_eq_flatten,
    flatten_eq_iff_of_prefix fun f _ => (rawOut_spec s f (s.block f)).1]
  constructor
  · intro h f b hb
    exact (rawOut_spec s f (s.block f)).2.mp (h f (mem_range.mpr (lt_of_block hb))) b hb
  · intro h f _
    exact (rawOut_spec s f (s.block f)).2.mpr fun b hb => h f b hb

/-! ## Reading a strain -/

/-! ## A stream and its blocks at another replica -/

section

variable (scheme : SignatureScheme) (signer : Signer) (u : Uuid) (a : StreamMeta Bytes)

/-- The blocks of `a` imported one by one, each with its version and the length of its fragment. -/
def importAll : List (Nat × Bytes) → Namespace → Result Namespace
  | [], s => .ok s
  | (f, b) :: rest, s => do
    let s ← s.importBlock scheme signer u f (a.dot f) b (fragLen a f)
    importAll rest s

/-- All blocks that `a` has, in any order. -/
structure BlocksOf (bs : List (Nat × Bytes)) : Prop where
  sound : ∀ p ∈ bs, a.block p.1 = some p.2
  complete : ∀ f b, a.block f = some b → (f, b) ∈ bs

end

section

variable {scheme : SignatureScheme} {signer : Signer} {u : Uuid} {a t : StreamMeta Bytes}
  {s s' : Namespace} {ch : Chain}
  {bs : List (Nat × Bytes)} {c : Option Nat}

theorem length_of_shape (h : shape t = shape a) : t.frags.length = a.frags.length := by
  simpa [unitMap] using congrArg length (Prod.mk.inj h).1

theorem eq_of_blocks (hs : signedFields t = signedFields a)
    (hb : ∀ f < a.frags.length, t.block f = a.block f) : t = { a with pins := t.pins } := by
  obtain ⟨hshape, hlast⟩ := Prod.mk.inj hs
  obtain ⟨-, hrest⟩ := Prod.mk.inj hshape
  obtain ⟨hvv, hexp⟩ := Prod.mk.inj hrest
  have hlen := length_of_shape hshape
  have hfrags : t.frags = a.frags := by
    refine ext_getElem hlen fun f h1 h2 => ?_
    have hdot := dot_of_shape hshape f
    have hblock := hb f h2
    rw [dot_of_lt h1, dot_of_lt h2] at hdot
    rw [block_of_lt h1, block_of_lt h2] at hblock
    generalize t.frags[f] = x, a.frags[f] = y at hdot hblock
    cases x
    cases y
    simp_all
  obtain ⟨frags, vv, exp, last, pins⟩ := t
  subst hfrags hvv hexp hlast
  rfl

/-- The stream that the blocks of `a` go to keeps what is signed and has them in the end. -/
theorem importAll_blocks (hdots : ∀ f b, a.block f = some b → a.dot f ≠ 0)
    (hs : s.units u = some ch) (hat : ch.head.at c = some t)
    (hsigned : signedFields t = signedFields a)
    (htarget : ∀ f b, a.block f = some b → target ch.head f (a.dot f) = c)
    (hbs : ∀ p ∈ bs, a.block p.1 = some p.2) (h : importAll scheme signer u a bs s = .ok s') :
    ∃ ch' t', s'.units u = some ch' ∧ SameShape ch.head ch'.head ∧ ch'.head.at c = some t' ∧
      signedFields t' = signedFields a ∧
      ∀ f, t'.block f = if f ∈ bs.map Prod.fst then a.block f else t.block f := by
  induction bs generalizing s ch t with
  | nil =>
    cases h
    exact ⟨ch, t, hs, .refl _, hat, hsigned, fun f => (if_neg not_mem_nil).symm⟩
  | cons p bs ih =>
    obtain ⟨f, b⟩ := p
    obtain ⟨s₁, himp, h⟩ := exists_of_bind_ok h
    obtain ⟨ch₀, stored, hch₀, -, -, hw, rfl⟩ := importBlock_eq_ok_iff.mp himp
    cases hs.symm.trans hch₀
    cases (writeUnitRecord_preserve_iff.mp hw).1
    have hb := hbs (f, b) (.head _)
    have hv := hdots f b hb
    obtain ⟨hshape, hlast⟩ := Prod.mk.inj hsigned
    have hdot : t.dot f = a.dot f := dot_of_shape hshape f
    have hlt : f < t.frags.length := lt_of_dot_ne_zero (hdot ▸ hv)
    have hlen := length_of_shape hshape
    obtain ⟨hsame, -⟩ := placeBlock_spec (b := b) (n := fragLen a f) ⟨c, t, hat, hdot⟩ hv
    have hat' : (Namespace.placeBlock ch.head f (a.dot f) b (fragLen a f)).at c =
        some (Version.importBlock t f (a.dot f) b (fragLen a f)) := by
      rw [at_placeBlock, if_pos (htarget f b hb).symm, hat]
      rfl
    have hsigned' : signedFields (Version.importBlock t f (a.dot f) b (fragLen a f)) =
        signedFields a := by
      refine (signedFields_importBlock_iff.mpr ⟨hlt, hdot, fun hend => ?_⟩).trans hsigned
      rw [fragLen, if_pos (hlen ▸ hend), ← hlast]
    obtain ⟨ch', t', hs', hshape', hat'', hsigned'', hblocks⟩ := ih (if_pos rfl) hat' hsigned'
      (fun g d hg => hsame.target.trans (htarget g d hg)) (fun p hp => hbs p (.tail _ hp)) h
    refine ⟨ch', t', hs', hsame.trans hshape', hat'', hsigned'', fun g => ?_⟩
    rw [hblocks, block_importBlock_of_lt hlt, map_cons]
    by_cases hg : g ∈ bs.map Prod.fst
    · rw [if_pos hg, if_pos (.tail _ hg)]
    rw [if_neg hg]
    by_cases hgf : g = f
    · subst hgf
      rw [if_pos rfl, if_pos (.head _), hb]
    · rw [if_neg hgf, if_neg fun hm => (mem_cons.mp hm).elim hgf hg]

/-- The stream that all blocks of `a` went to is `a`, the pins apart. -/
theorem importAll_spec (hdots : ∀ f b, a.block f = some b → a.dot f ≠ 0)
    (hall : ∀ f < a.frags.length, (a.block f).isSome) (hs : s.units u = some ch)
    (hat : ch.head.at c = some t) (hsigned : signedFields t = signedFields a)
    (htarget : ∀ f b, a.block f = some b → target ch.head f (a.dot f) = c) (hbs : BlocksOf a bs)
    (h : importAll scheme signer u a bs s = .ok s') :
    ∃ ch' pins, s'.units u = some ch' ∧ SameShape ch.head ch'.head ∧
      ch'.head.at c = some { a with pins } := by
  obtain ⟨ch', t', hs', hshape, hat', hsigned', hblocks⟩ :=
    importAll_blocks hdots hs hat hsigned htarget hbs.sound h
  refine ⟨ch', t'.pins, hs', hshape, hat'.trans (congrArg some (eq_of_blocks hsigned' fun f hf => ?_))⟩
  obtain ⟨b, hb⟩ := Option.isSome_iff_exists.mp (hall f hf)
  rw [hblocks, if_pos (mem_map_of_mem (hbs.complete f b hb))]

end

/-- The file of host 1 after some edits. -/
def authored (edits : List Edit) : StreamMeta Bytes := run (edit false .gcm 1) .empty edits

/-! ## Resolving -/

theorem read_eq_of_byteAt {s : StreamMeta Bytes} {bs : Bytes} (hg : Geometry s)
    (hlen : s.byteLen = bs.length) (hat : ∀ i < bs.length, byteAt s i = bs.getD i 0) :
    read s = bs := by
  rw [read_eq hg, hlen]
  refine ext_getElem (by simp) fun i h1 h2 => ?_
  rw [getElem_map, getElem_range, hat i h2, getD_eq_getElem _ _ h2]

section

variable (padBlocks : Bool) (suite : Suite) (host : HostAlias) (r : UnitRecord) (bytes : Bytes)

/-- Resolving is re-chunking into an empty file. -/
theorem stageResolved_eq (hne : bytes ≠ []) : ∃ vv exp,
    (exp = r.stream.fragsizeExp ∧ r.stream.frags ≠ [] ∨ exp = deriveExp (max bytes.length 1)) ∧
      (stageResolved padBlocks suite host r bytes).stream =
        (stageRechunk padBlocks suite host
          ⟨[], vv, fragsizeFloorExp, 0, []⟩ 0 bytes bytes.length exp).stream := by
  have hpos : 0 < bytes.length := length_pos_of_ne_nil hne
  have hne' : bytes.length ≠ 0 := ne_of_gt hpos
  have hmin : ∀ a b, min (a + b) bytes.length - a = min (bytes.length - a) b := fun a b => by omega
  refine ⟨r.strains.foldl (fun vv s => vv.join s.vv) r.stream.vv,
    if r.stream.frags.length = 0 then deriveExp (max bytes.length 1) else r.stream.fragsizeExp, ?_, ?_⟩
  · split
    · exact .inr rfl
    · rename_i hn
      exact .inl ⟨rfl, fun h => hn (by rw [h]; rfl)⟩
  · unfold stageResolved stageRechunk
    simp only [hne', if_false, ne_of_gt (fragCount_pos _ hpos), materialise, overlay, take_zero,
      nil_append, zero_add, drop_replicate, Nat.sub_self, replicate_zero, append_nil, map_nil, hmin]

theorem read_stageResolved (hexp : r.stream.frags ≠ [] → fragsizeFloorExp ≤ r.stream.fragsizeExp) :
    read (stageResolved padBlocks suite host r bytes).stream = bytes := by
  by_cases hne : bytes = []
  · subst hne
    rfl
  obtain ⟨vv, exp, hexp', heq⟩ := stageResolved_eq padBlocks suite host r bytes hne
  have hfloor : fragsizeFloorExp ≤ exp := by
    rcases hexp' with ⟨rfl, hn⟩ | rfl
    · exact hexp hn
    · exact fragsizeFloorExp_le_deriveExp _
  have hempty : Wf (⟨[], vv, fragsizeFloorExp, 0, []⟩ : StreamMeta Bytes) :=
    { Wf.empty with seen := fun _ => hasSeenDot_zero vv }
  have hpos : 0 < bytes.length := length_pos_of_ne_nil hne
  have hend : 0 + bytes.length ≤ bytes.length := by omega
  rw [heq]
  refine read_eq_of_byteAt (hempty.stageRechunk hfloor hpos (Nat.zero_le _) hend).geometry
    (byteLen_stageRechunk hpos) fun i hi => ?_
  rw [byteAt_stageRechunk hempty (Nat.zero_le _) hend, if_pos ⟨Nat.zero_le i, by omega⟩]
  rfl

theorem stored_stageResolved {f : Nat}
    (hf : f < (stageResolved padBlocks suite host r bytes).stream.frags.length) :
    ((stageResolved padBlocks suite host r bytes).stream.block f).isSome ∧
      (stageResolved padBlocks suite host r bytes).stream.dot f ≠ 0 := by
  have hdot : packDot host ((r.strains.foldl (fun vv s => vv.join s.vv) r.stream.vv).get host + 1) ≠
    0 := packDot_ne_zero (by omega)
  rw [block_of_lt hf, dot_of_lt hf]
  simp only [stageResolved, getElem_map, get_bump_self]
  exact ⟨rfl, hdot⟩

end

/-- What a resolution is asked for: what `read_strain` shows of the strain, or the bytes themselves.
`read_strain` does not show the zeros that an extension put behind a strain's last block, so for
such a strain this is less than its author reads. -/
def chosenBytes (r : Record Bytes) : Resolution → Result Bytes
  | .chooseStrain 0 => .ok (read r.stream)
  | .chooseStrain i => readStrain r.strains i
  | .mergedContent b => .ok b

/-- The conflict of `r` has ended in `r'`, here and at every replica of the unit that has seen
nothing else. -/
structure Ended (u : Uuid) (r : Record Bytes) (res : Resolution) (r' : Record Bytes) : Prop where
  strains : r'.strains = []
  content : .ok (read r'.stream) = chosenBytes r res
  above : ∀ v ∈ frontier (some r), v < r'.vv
  /-- what was seen before is ignored -/
  ignored : ∀ scheme signer inc out,
    inc.hasContent = true → (∃ v ∈ frontier (some r), inc.content.vv ≤ v) →
    importRecord scheme signer id u (some r') inc = .ok out → out = none
  /-- where some of it was seen, the record takes its place -/
  spreads : ∀ scheme signer cur inc out,
    inc.hasContent = true → inc.content = Version.projectRecord r'.stream →
    (∀ v ∈ frontier cur, ∃ w ∈ frontier (some r), v ≤ w) →
      importRecord scheme signer id u cur inc = .ok out →
    ∃ imp, out = some imp ∧ imp.record.strains = [] ∧ ∀ s s' past rooted bs,
      s.units u = some ⟨imp.record, past, rooted⟩ → BlocksOf r'.stream bs →
      importAll scheme signer u r'.stream bs s = .ok s' →
      ∃ ch, s'.units u = some ch ∧ ch.head.strains = [] ∧ read ch.head.stream = read r'.stream

section

variable {scheme : SignatureScheme} {signer : Signer} {u : Uuid} {padBlocks : Bool} {suite : Suite}
  {host : HostAlias}
  {r r' : Record Bytes} {res : Resolution}

theorem lt_of_seen {v : VersionVector} (habove : ∀ v ∈ frontier (some r), v < r'.vv)
    (h : ∃ w ∈ frontier (some r), v ≤ w) : v < r'.vv := by
  obtain ⟨w, hw, hle⟩ := h
  exact hle.trans_lt (habove w hw)

/-- A record above all that a replica has seen replaces it, strains and all. -/
theorem fastForward_of_above {cur : Option (Record Bytes)} {inc : Incoming}
    {out : Option (Imported Bytes)} (hc : inc.hasContent = true)
    (habove : ∀ v ∈ frontier cur, v < inc.content.vv)
    (h : importRecord scheme signer id u cur inc = .ok out) :
    ∃ imp, out = some imp ∧ imp.record.strains = [] ∧
      imp.record.content = some (fastForwarded (headStream cur) inc.content) := by
  have hlt := habove _ (.head _)
  cases importRecord_accepts hc h with
  | ignored ahead => exact absurd (strictlyAhead_iff.mp ahead) (lt_asymm hlt)
  | fastForward q _ _ content strains =>
    refine ⟨_, rfl, strains.trans (filter_eq_nil_iff.mpr fun x hx => ?_), content⟩
    rw [strictlyAhead_iff.mpr (habove x.vv (.tail _ (mem_map_of_mem hx)))]
    simp
  | autoMerge _ concurrent => exact absurd hlt.le (incompRel_iff.mpr concurrent).1
  | strainSplit _ _ _ concurrent => exact absurd hlt.le (incompRel_iff.mpr concurrent).1

theorem lt_bump {v w : VersionVector} (h : v ≤ w) (host : HostAlias) : v < w.bump host := by
  refine lt_of_le_of_ne (h.trans (w.le_bump host)) fun heq => ?_
  have hle := le_iff_get.mp h host
  rw [heq, get_bump_self] at hle
  omega

/-- What a resolution writes. -/
theorem contentOp_resolve
    (h : contentOp scheme signer u padBlocks suite host r (.resolveConflict res) = .ok (some r')) :
    ∃ bytes, resolvedBytes r.unitRecord res = .ok bytes ∧ r'.strains = [] ∧
      r'.stream = (stageResolved padBlocks suite host r.unitRecord bytes).stream ∧
      read r'.stream = bytes := by
  obtain ⟨st, hst, hcontent, hstrains⟩ := contentOp_some h
  obtain ⟨r₁, hread, -⟩ := exists_of_bind_ok h
  obtain ⟨-, hdecodes, -⟩ := readUnitRecord_ok_iff.mp hread
  have hexp : r.unitRecord.stream.frags ≠ [] → fragsizeFloorExp ≤ r.unitRecord.stream.fragsizeExp := by
    intro hne
    cases hc : r.content with
    | none =>
      refine absurd ?_ hne
      show (r.content.getD .empty).frags = []
      rw [hc]
      rfl
    | some x =>
      have hx := (decodeRecord_ok_iff.mp hdecodes).2.1 x hc
      simp only [contentDecodes, Bool.and_eq_true, decide_eq_true_eq] at hx
      show fragsizeFloorExp ≤ (r.content.getD .empty).fragsizeExp
      rw [hc]
      exact hx.1.1
  simp only [stage] at hst
  split at hst
  · cases hst
  · obtain ⟨bytes, hbytes, hst⟩ := exists_of_map_ok hst
    cases hst
    have hstream : r'.stream = (stageResolved padBlocks suite host r.unitRecord bytes).stream := by
      rw [Record.stream, hcontent]; rfl
    exact ⟨bytes, hbytes, hstrains, hstream,
      hstream ▸ read_stageResolved padBlocks suite host r.unitRecord bytes hexp⟩

theorem signedFields_fastForwarded (l a : StreamMeta Bytes) :
    signedFields (fastForwarded l (Version.projectRecord a)) = signedFields a := by
  simp [signedFields, shape, fastForwarded, Version.projectRecord, unitMap, mapIdx_eq_zipIdx_map,
    Function.comp_def]

/-- **Resolving.** A conflict that was resolved has ended iff the primary was not chosen while it
stores less than the file has. -/
theorem resolve_conflict_iff
    (h : contentOp scheme signer u padBlocks suite host r (.resolveConflict res) = .ok (some r')) :
    Ended u r res r' ↔ (res = .chooseStrain 0 → FullBlocks r.stream) := by
  obtain ⟨bytes, hbytes, hstrains, hstream, hread⟩ := contentOp_resolve h
  have habove : ∀ v ∈ frontier (some r), v < r'.vv := by
    intro v hv
    rw [show r'.vv = _ from congrArg StreamMeta.vv hstream]
    refine lt_bump ?_ host
    rcases mem_cons.mp hv with rfl | hv
    · exact foldl_join_dominates r.strains r.stream.vv
    · obtain ⟨x, hx, rfl⟩ := mem_map.mp hv
      exact le_foldl_join hx r.stream.vv
  have hchosen : .ok (read r'.stream) = chosenBytes r res ↔
      (res = .chooseStrain 0 → FullBlocks r.stream) := by
    rw [hread, ← hbytes]
    cases res with
    | mergedContent b => exact iff_of_true rfl fun h => by cases h
    | chooseStrain i =>
      cases i with
      | succ i => exact iff_of_true rfl fun h => by cases h
      | zero =>
        rw [← readRawKey_eq_read_iff]
        simp only [resolvedBytes] at hbytes ⊢
        split at hbytes
        · cases hbytes
        · exact ⟨fun h _ => Except.ok.inj h, fun h => congrArg Except.ok (h trivial)⟩
  refine ⟨fun hended => hchosen.mp hended.content,
    fun hfull => ⟨hstrains, hchosen.mpr hfull, habove, ?_, ?_⟩⟩
  · intro scheme signer inc out hc hseen himp
    have hlt := lt_of_seen habove hseen
    cases importRecord_accepts hc himp with
    | ignored => rfl
    | fastForward _ ahead => exact absurd hlt (strictlyAhead_eq_false_iff.mp ahead)
    | autoMerge _ concurrent => exact absurd hlt.le (incompRel_iff.mpr concurrent).2
    | strainSplit _ _ _ concurrent => exact absurd hlt.le (incompRel_iff.mpr concurrent).2
  · intro scheme signer cur inc out hc hinc hseen himp
    have hvv : inc.content.vv = r'.vv := by rw [hinc]; rfl
    obtain ⟨imp, rfl, hnone, hcontent⟩ :=
      fastForward_of_above hc (fun v hv => hvv ▸ lt_of_seen habove (hseen v hv)) himp
    refine ⟨imp, rfl, hnone, fun s s' past rooted bs hs hbs hblocks => ?_⟩
    rw [hinc] at hcontent
    have hsigned := signedFields_fastForwarded (headStream cur) r'.stream
    have hstored : ∀ f < r'.stream.frags.length, (r'.stream.block f).isSome ∧ r'.stream.dot f ≠ 0 := by
      rw [hstream]
      exact fun f hf => stored_stageResolved padBlocks suite host r.unitRecord bytes hf
    have htarget : ∀ f b, r'.stream.block f = some b →
        target imp.record f (r'.stream.dot f) = none := by
      refine fun f b _ => if_pos ?_
      rw [Record.stream, hcontent]
      exact dot_of_shape (Prod.mk.inj hsigned).1 f
    obtain ⟨ch, pins, hch, hshape, hat⟩ :=
      importAll_spec (c := none) (fun f b hb => (hstored f (lt_of_block hb)).2)
      (fun f hf => (hstored f hf).1) hs hcontent hsigned htarget hbs hblocks
    refine ⟨ch, hch, ?_, ?_⟩
    · have hmap := hshape.strains
      rw [show (Chain.head ⟨imp.record, past, rooted⟩).strains = [] from hnone] at hmap
      exact map_eq_nil_iff.mp hmap
    · rw [Record.stream, show ch.head.content = _ from hat]
      rfl

end

/-- The file of host 2 with that of host 1 beside it. -/
def conflicted (edits : List Edit) : Record Bytes :=
  ⟨some (run (edit false .gcm 2) .empty edits), none, [authored [.write 0 [7]]], none, none⟩

theorem resolve_conflict_merged :
    ∃ r', contentOp checksumScheme .unsigned 7 false .gcm 2 (conflicted [.write 0 [8]])
      (.resolveConflict (.mergedContent [9])) = .ok (some r') ∧
      Ended 7 (conflicted [.write 0 [8]]) (.mergedContent [9]) r' :=
  have h : contentOp checksumScheme .unsigned 7 false .gcm 2 (conflicted [.write 0 [8]])
    (.resolveConflict (.mergedContent [9])) = .ok (some _) := rfl
  ⟨_, h, (resolve_conflict_iff h).mpr fun h => by cases h⟩

/-- The primary was extended after it was written: keeping it loses the zero. -/
theorem resolve_conflict_extended :
    let r := conflicted [.write 0 [8], .extend 2]
    ∃ r', contentOp checksumScheme .unsigned 7 false .gcm 2 r (.resolveConflict (.chooseStrain 0)) =
      .ok (some r') ∧
      read r.stream = [8, 0] ∧ read r'.stream = [8] :=
  ⟨_, rfl, by decide, by decide⟩

end Sfs.Sync

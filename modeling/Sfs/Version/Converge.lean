import Sfs.Version.Content
import Sfs.Version.ImportRecord

/-!
# Convergence of auto-merge

Two replicas hold concurrent streams `L` and `P` of one unit and import each other's record.
The merged dots come from a classification that is symmetric up to exchanging the two winners
(`classify_swap`), except that a fragment whose dots both sides have seen is won by whoever is
local. The merged geometry is not symmetric: the fragment size is the local one, and at equal
fragment counts the last length is the peer's.
-/

namespace Sfs.Version

open Sfs.Lib StreamMeta FragClass

variable {lvv pvv : VersionVector} {ldot pdot : BlockVersion} {p : Projection} {f : Nat}

variable {β : Type}

/-! ## Classification from both sides -/

def FragClass.swap : FragClass → FragClass
  | .same => .same
  | .localWins => .peerWins
  | .peerWins => .localWins
  | .conflict => .conflict

/-- Both sides have seen the other's dot, and still the dots differ. -/
def BothSeen (lvv pvv : VersionVector) (ldot pdot : BlockVersion) : Prop :=
  ldot ≠ pdot ∧ hasSeenDot lvv pdot = true ∧ hasSeenDot pvv ldot = true

instance (lvv pvv : VersionVector) (ldot pdot : BlockVersion) :
    Decidable (BothSeen lvv pvv ldot pdot) :=
  inferInstanceAs (Decidable (_ ∧ _ ∧ _))

theorem classify_swap (h : ¬ BothSeen lvv pvv ldot pdot) :
    classify pvv lvv pdot ldot = (classify lvv pvv ldot pdot).swap := by
  by_cases he : ldot = pdot
  · simp [classify, he, swap]
  have he' : ¬ pdot = ldot := fun h' => he h'.symm
  by_cases hl : hasSeenDot lvv pdot = true
  · have hp : ¬ hasSeenDot pvv ldot = true := fun hp => h ⟨he, hl, hp⟩
    simp [classify, he, he', hl, hp, swap]
  · by_cases hp : hasSeenDot pvv ldot = true
    · simp [classify, he, he', hl, hp, swap]
    · simp [classify, he, he', hl, hp, swap]

theorem classify_of_bothSeen (h : BothSeen lvv pvv ldot pdot) :
    classify lvv pvv ldot pdot = .localWins := by
  simp [classify, h.1, h.2.1]

theorem BothSeen.symm (h : BothSeen lvv pvv ldot pdot) : BothSeen pvv lvv pdot ldot :=
  ⟨fun he => h.1 he.symm, h.2.2, h.2.1⟩

theorem classify_conflict_comm (lvv pvv : VersionVector) (ldot pdot : BlockVersion) :
    classify pvv lvv pdot ldot = .conflict ↔ classify lvv pvv ldot pdot = .conflict := by
  by_cases h : BothSeen lvv pvv ldot pdot
  · rw [classify_of_bothSeen h, classify_of_bothSeen h.symm]
  · rw [classify_swap h]
    cases classify lvv pvv ldot pdot <;> simp [swap]

/-! ## The two projections -/

@[simp] theorem dot_projectRecord (s : StreamMeta β) (f : Nat) :
    (projectRecord s).dot f = s.dot f := by
  by_cases hf : f < s.frags.length
  · simp [projectRecord, Projection.dot, StreamMeta.unitMap, dot_of_lt hf, hf]
  · have : s.frags.length ≤ f := by omega
    simp [projectRecord, Projection.dot, StreamMeta.unitMap, dot_of_ge this, this]

@[simp] theorem vv_projectRecord (s : StreamMeta β) : (projectRecord s).vv = s.vv := rfl

@[simp] theorem length_projectRecord (s : StreamMeta β) :
    (projectRecord s).unitMap.length = s.frags.length := by
  simp [projectRecord, StreamMeta.unitMap]

theorem totalFrags_comm (l p : StreamMeta β) :
    totalFrags p (projectRecord l) = totalFrags l (projectRecord p) := by
  simp only [totalFrags, length_projectRecord]
  exact max_comm _ _

theorem hasConflictFrag_comm (l p : StreamMeta β) :
    hasConflictFrag p (projectRecord l) = hasConflictFrag l (projectRecord p) := by
  unfold hasConflictFrag
  rw [totalFrags_comm]
  congr 1
  simp only [dot_projectRecord, vv_projectRecord, classify_conflict_comm]

theorem importRecord_autoMerge {l : StreamMeta β}
    (hc : l.vv.concurrentWith p.vv = true) (hn : hasConflictFrag l p = false) :
    importRecord l p = .autoMerge (autoMerged l p) := by
  have hd : l.vv.dominates p.vv = false := by
    simp only [VersionVector.concurrentWith, Bool.and_eq_true, Bool.not_eq_true'] at hc
    exact hc.1
  simp [importRecord, hd, hc, hn]

/-! ## The merged stream -/

@[simp] theorem length_autoMerged (l : StreamMeta β) (p : Projection) :
    (autoMerged l p).frags.length = totalFrags l p := by
  simp [autoMerged]

theorem autoMerged_frag {l : StreamMeta β} (hf : f < totalFrags l p) :
    (autoMerged l p).frags[f]? = some (mergeFrag l p f) := by
  simp [autoMerged, hf]

theorem dot_autoMerged {l : StreamMeta β} (hf : f < totalFrags l p) :
    (autoMerged l p).dot f = (mergeFrag l p f).version := by
  simp [dot, autoMerged_frag hf]

theorem block_autoMerged {l : StreamMeta β} (hf : f < totalFrags l p) :
    (autoMerged l p).block f = (mergeFrag l p f).block := by
  simp [block, autoMerged_frag hf]

/-- Without a conflict the two merges give fragment `f` the same dot unless both sides had
seen the other's. -/
theorem mergeFrag_version_comm_iff {l p : StreamMeta β}
    (hn : classify l.vv p.vv (l.dot f) (p.dot f) ≠ .conflict) :
    (mergeFrag l (projectRecord p) f).version = (mergeFrag p (projectRecord l) f).version ↔
      ¬ BothSeen l.vv p.vv (l.dot f) (p.dot f) := by
  simp only [mergeFrag, dot_projectRecord, vv_projectRecord]
  by_cases hb : BothSeen l.vv p.vv (l.dot f) (p.dot f)
  · rw [classify_of_bothSeen hb, classify_of_bothSeen hb.symm]
    simp [hb, hb.1]
  rw [classify_swap hb]
  simp only [hb, not_false_iff, iff_true]
  cases hk : classify l.vv p.vv (l.dot f) (p.dot f) with
  | same =>
    have he : l.dot f = p.dot f := by
      by_contra hne
      simp only [classify, hne, if_false] at hk
      split at hk
      · cases hk
      · split at hk <;> cases hk
    simp [swap, he]
  | localWins => simp [swap]
  | peerWins => simp [swap]
  | conflict => exact absurd hk hn

/-- Each stored block of `s` is the one `blocks` gives for its dot, and a zero dot has none. -/
structure Holds (blocks : Nat → BlockVersion → β) (s : StreamMeta β) : Prop where
  stored : ∀ f d, s.block f = some d → d = blocks f (s.dot f)
  hole : ∀ f, s.dot f = 0 → s.block f = none

theorem Holds.autoMerged {blocks : Nat → BlockVersion → β} {l : StreamMeta β}
    (h : Holds blocks l) : Holds blocks (autoMerged l p) := by
  have key : ∀ f, f < totalFrags l p →
      (∀ d, (mergeFrag l p f).block = some d → d = blocks f (mergeFrag l p f).version) ∧
        ((mergeFrag l p f).version = 0 → (mergeFrag l p f).block = none) := by
    intro f _
    unfold mergeFrag
    split
    · exact ⟨fun d hd => by simp at hd, fun _ => rfl⟩
    · exact ⟨h.stored f, h.hole f⟩
  constructor
  · intro f d hd
    by_cases hf : f < totalFrags l p
    · rw [block_autoMerged hf] at hd
      rw [dot_autoMerged hf]
      exact (key f hf).1 d hd
    · rw [block_of_ge (by simpa using hf)] at hd
      cases hd
  · intro f hd
    by_cases hf : f < totalFrags l p
    · rw [dot_autoMerged hf] at hd
      rw [block_autoMerged hf]
      exact (key f hf).2 hd
    · exact block_of_ge (by simpa using hf)

/-- After the pull every fragment's block is determined by its dot. -/
theorem Holds.block_pullBlocks {blocks : Nat → BlockVersion → β} {s : StreamMeta β}
    (h : Holds blocks s) (f : Nat) :
    (pullBlocks blocks s).block f = if s.dot f = 0 then none else some (blocks f (s.dot f)) := by
  rw [pullBlocks_block]
  by_cases hz : s.dot f = 0
  · simp [missing, hz, h.hole f hz]
  · cases hb : s.block f with
    | none => simp [missing, hz, hb]
    | some d => simp [missing, hz, hb, h.stored f d hb]

theorem read_congr {s t : StreamMeta Bytes} (hn : s.frags.length = t.frags.length)
    (he : s.fragsizeExp = t.fragsizeExp) (hl : s.lastFragLength = t.lastFragLength)
    (hb : ∀ f, s.block f = t.block f) : read s = read t := by
  rw [read_eq_flatten, read_eq_flatten, hn]
  congr 1
  apply List.map_congr_left
  intro f _
  rw [hb f]
  unfold fragOut fragsize
  by_cases h : f + 1 = t.frags.length <;> cases t.block f <;> simp [h, hn, hl, he]

/-! ## Symmetry of the merge -/

/-- The two replicas' merged streams agree on causal history, dots and geometry. -/
structure Agree (vv : VersionVector) (m m' : StreamMeta β) : Prop where
  vv_left : m.vv = vv
  vv_right : m'.vv = vv
  unitMap : m.unitMap = m'.unitMap
  fragsizeExp : m.fragsizeExp = m'.fragsizeExp
  lastFragLength : m.lastFragLength = m'.lastFragLength

theorem Agree.read_pullBlocks {vv : VersionVector} {m m' : StreamMeta Bytes} (ha : Agree vv m m')
    {blocks : Nat → BlockVersion → Bytes} (hm : Holds blocks m) (hm' : Holds blocks m') :
    read (pullBlocks blocks m) = read (pullBlocks blocks m') := by
  have hlen : m.frags.length = m'.frags.length := by
    simpa [StreamMeta.unitMap] using congrArg List.length ha.unitMap
  have hdot : ∀ f, m.dot f = m'.dot f := by
    intro f
    rw [← dot_projectRecord m, ← dot_projectRecord m']
    simp only [projectRecord, Projection.dot, ha.unitMap]
  apply read_congr
  · simpa using hlen
  · simpa using ha.fragsizeExp
  · simpa using ha.lastFragLength
  · intro f
    rw [hm.block_pullBlocks, hm'.block_pullBlocks, hdot f]

/-- The geometry of the two streams is compatible, and no fragment's dots differ although each
side has seen the other's. -/
def SameOutlook (l p : StreamMeta β) : Prop :=
  l.fragsizeExp = p.fragsizeExp ∧
    (l.frags.length = p.frags.length → l.lastFragLength = p.lastFragLength) ∧
    ∀ f, f < max l.frags.length p.frags.length → ¬ BothSeen l.vv p.vv (l.dot f) (p.dot f)

theorem unitMap_autoMerged (l : StreamMeta β) (p : Projection) :
    (autoMerged l p).unitMap = (List.range (totalFrags l p)).map fun f =>
      (mergeFrag l p f).version := by
  simp [StreamMeta.unitMap, autoMerged, Function.comp_def]

theorem unitMap_autoMerged_comm_iff {l p : StreamMeta β}
    (hn : hasConflictFrag l (projectRecord p) = false) :
    (autoMerged l (projectRecord p)).unitMap = (autoMerged p (projectRecord l)).unitMap ↔
      ∀ f, f < max l.frags.length p.frags.length → ¬ BothSeen l.vv p.vv (l.dot f) (p.dot f) := by
  have htot : totalFrags l (projectRecord p) = max l.frags.length p.frags.length := by
    simp only [totalFrags, length_projectRecord]
    exact max_comm _ _
  rw [unitMap_autoMerged, unitMap_autoMerged, totalFrags_comm l p, List.map_inj_left, htot]
  simp only [List.mem_range]
  refine forall_congr' fun f => imp_congr_right fun hf => ?_
  apply mergeFrag_version_comm_iff
  simp only [hasConflictFrag, htot, List.any_eq_false, List.mem_range, dot_projectRecord,
    vv_projectRecord] at hn
  simpa using hn f hf

theorem mergedLastFragLength_comm_iff (l p : StreamMeta β) :
    mergedLastFragLength l (projectRecord p) = mergedLastFragLength p (projectRecord l) ↔
      (l.frags.length = p.frags.length → l.lastFragLength = p.lastFragLength) := by
  simp only [mergedLastFragLength, length_projectRecord]
  rcases Nat.lt_trichotomy l.frags.length p.frags.length with h | h | h
  · simp [h.le, h.not_ge, h.ne, projectRecord]
  · simp [h, projectRecord, eq_comm]
  · simp [h.le, h.not_ge, h.ne', projectRecord]

theorem agree_autoMerged_iff {l p : StreamMeta β} (hn : hasConflictFrag l (projectRecord p) = false) :
    Agree (l.vv.join p.vv) (autoMerged l (projectRecord p)) (autoMerged p (projectRecord l)) ↔
      SameOutlook l p := by
  constructor
  · intro ha
    refine ⟨ha.fragsizeExp, ?_, ?_⟩
    · exact (mergedLastFragLength_comm_iff l p).mp ha.lastFragLength
    · exact (unitMap_autoMerged_comm_iff hn).mp ha.unitMap
  · rintro ⟨he, hl, hd⟩
    refine ⟨rfl, p.vv.join_comm l.vv, ?_, he, ?_⟩
    · exact (unitMap_autoMerged_comm_iff hn).mpr hd
    · exact (mergedLastFragLength_comm_iff l p).mpr hl

/-- Importing each other's record, two replicas with concurrent conflict-free streams end with
the same vector, dots and geometry, and read the same bytes after the pull, exactly when the
streams have the same outlook. -/
theorem autoMerge_converges_iff (l p : StreamMeta Bytes) (hc : l.vv.concurrentWith p.vv = true)
    (hn : hasConflictFrag l (projectRecord p) = false) :
    (∃ m m', importRecord l (projectRecord p) = .autoMerge m ∧
        importRecord p (projectRecord l) = .autoMerge m' ∧ Agree (l.vv.join p.vv) m m' ∧
        ∀ blocks, Holds blocks l → Holds blocks p →
          read (pullBlocks blocks m) = read (pullBlocks blocks m')) ↔
      SameOutlook l p := by
  have hl := importRecord_autoMerge (l := l) (p := projectRecord p) hc hn
  have hp := importRecord_autoMerge (l := p) (p := projectRecord l)
    (by rw [vv_projectRecord, VersionVector.concurrentWith_comm]; exact hc)
    (by rw [hasConflictFrag_comm]; exact hn)
  rw [← agree_autoMerged_iff hn]
  constructor
  · rintro ⟨m, m', hm, hm', ha, _⟩
    rw [hl] at hm
    rw [hp] at hm'
    cases hm
    cases hm'
    exact ha
  · intro ha
    exact ⟨_, _, hl, hp, ha, fun blocks hbl hbp => ha.read_pullBlocks hbl.autoMerged hbp.autoMerged⟩

/-- Overwriting the first of ten bytes on one host while the other extends the file by a whole
fragment: both sides end with the same file. -/
theorem autoMerge_converges_overwrite_extend :
    ∃ o l p, stageWrite false .none 1 .empty 0 (List.replicate 10 7) = .ok o ∧
      stageWrite false .none 1 o.stream 0 [9] = .ok l ∧ extend 2 o.stream 5000 = some p ∧
      l.stream.vv.concurrentWith p.stream.vv = true ∧
      hasConflictFrag l.stream (projectRecord p.stream) = false ∧
      ∃ m m', importRecord l.stream (projectRecord p.stream) = .autoMerge m ∧
        importRecord p.stream (projectRecord l.stream) = .autoMerge m' ∧
        Agree (l.stream.vv.join p.stream.vv) m m' ∧
        ∀ blocks, Holds blocks l.stream → Holds blocks p.stream →
          read (pullBlocks blocks m) = read (pullBlocks blocks m') :=
  ⟨_, _, _, rfl, rfl, rfl, by decide, by decide,
    (autoMerge_converges_iff _ _ (by decide) (by decide)).mpr ⟨by decide, by decide, by decide⟩⟩

/-- The same overwrite against an extension inside the fragment: the dots merge, and each side
takes the other's last length. -/
theorem autoMerge_not_symmetric :
    ∃ o l p, stageWrite false .none 1 .empty 0 (List.replicate 10 7) = .ok o ∧
      stageWrite false .none 1 o.stream 0 [9] = .ok l ∧ extend 2 o.stream 20 = some p ∧
      l.stream.vv.concurrentWith p.stream.vv = true ∧
      hasConflictFrag l.stream (projectRecord p.stream) = false ∧
      ∃ m m', importRecord l.stream (projectRecord p.stream) = .autoMerge m ∧
        importRecord p.stream (projectRecord l.stream) = .autoMerge m' ∧
        m.lastFragLength = 20 ∧ m'.lastFragLength = 10 :=
  ⟨_, _, _, rfl, rfl, rfl, by decide, by decide, _, _, rfl, rfl, by decide, by decide⟩

end Sfs.Version

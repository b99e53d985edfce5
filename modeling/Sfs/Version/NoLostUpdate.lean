import Sfs.Lib.Run
import Sfs.Version.Converge
import Sfs.Version.FileBytes

/-!
# Updates across an auto-merge

A common ancestor `o` and two descendants of it, `l` edited on one host and `p` on another.
The merge takes the peer's fragment where its dot is new here, and the length from the side
with more fragments. But a truncation or an extension may change the file without any fresh
dot, and without a fragment more. `Compatible` is exactly what is needed for a merge without a
clash to lose nothing.
-/

namespace Sfs.Version

open Sfs.Lib StreamMeta

variable {x o : StreamMeta Bytes} {i : Nat}

/-! ## The merged file -/

/-- All of `p`'s blocks arrive at the replica that merged `p`'s record. -/
def deliver (p m : StreamMeta Bytes) : StreamMeta Bytes :=
  pullBlocks (fun f _ => (p.block f).getD []) m

/-- Some fragment was rewritten on both sides: neither has seen the other's dot. -/
def Clash (l p : StreamMeta Bytes) : Prop :=
  ∃ f, l.dot f ≠ p.dot f ∧ hasSeenDot l.vv (p.dot f) = false ∧ hasSeenDot p.vv (l.dot f) = false

theorem classify_eq_conflict_iff {lvv pvv : VersionVector} {ldot pdot : BlockVersion} :
    classify lvv pvv ldot pdot = .conflict ↔
      ldot ≠ pdot ∧ hasSeenDot lvv pdot = false ∧ hasSeenDot pvv ldot = false := by
  by_cases he : ldot = pdot
  · simp [classify, he]
  by_cases hl : hasSeenDot lvv pdot = true
  · simp [classify, he, hl]
  · by_cases hp : hasSeenDot pvv ldot = true
    · simp [classify, he, hl, hp]
    · simp [classify, he, hl, hp]

theorem hasConflictFrag_iff (l p : StreamMeta Bytes) :
    hasConflictFrag l (projectRecord p) = true ↔ Clash l p := by
  simp only [hasConflictFrag, List.any_eq_true, List.mem_range, decide_eq_true_eq, dot_projectRecord,
    vv_projectRecord, classify_eq_conflict_iff, totalFrags, length_projectRecord]
  constructor
  · rintro ⟨f, -, h⟩
    exact ⟨f, h⟩
  rintro ⟨f, h⟩
  refine ⟨f, ?_, h⟩
  by_contra hge
  apply h.1
  rw [dot_of_ge (by omega), dot_of_ge (by omega)]

section

variable {l p : StreamMeta Bytes}

/-- Without a clash the peer's fragment wins exactly when its dot is new here. -/
theorem peerWins_iff (hl : Stored l) (hn : ¬ Clash l p) (f : Nat) :
    classify l.vv p.vv (l.dot f) (p.dot f) = .peerWins ↔ hasSeenDot l.vv (p.dot f) = false := by
  have hcl : ¬ (l.dot f ≠ p.dot f ∧ hasSeenDot l.vv (p.dot f) = false ∧
    hasSeenDot p.vv (l.dot f) = false) := fun h => hn ⟨f, h⟩
  by_cases he : l.dot f = p.dot f
  · have hs := hl.seen f
    rw [he] at hs
    simp [classify, he, hs]
  by_cases hs : hasSeenDot l.vv (p.dot f) = true
  · simp [classify, he, hs]
  · have hp : hasSeenDot p.vv (l.dot f) = true := by
      by_contra hp
      exact hcl ⟨he, by simpa using hs, by simpa using hp⟩
    simp [classify, he, hs, hp]

theorem frag_merged (hl : Stored l) (hn : ¬ Clash l p) (f : Nat) :
    ((autoMerged l (projectRecord p)).dot f, (autoMerged l (projectRecord p)).block f) =
      if hasSeenDot l.vv (p.dot f) = false then (p.dot f, none) else (l.dot f, l.block f) := by
  have hw := peerWins_iff hl hn f
  by_cases hf : f < totalFrags l (projectRecord p)
  · rw [dot_autoMerged hf, block_autoMerged hf, mergeFrag, vv_projectRecord, dot_projectRecord]
    by_cases hs : hasSeenDot l.vv (p.dot f) = false
    · rw [hw.mpr hs, if_pos hs]
    · rw [if_neg hs]
      split
      · exact absurd (hw.mp (by assumption)) hs
      · rfl
  · have hlen := length_autoMerged l (projectRecord p)
    have hge : (autoMerged l (projectRecord p)).frags.length ≤ f := by omega
    simp only [totalFrags, length_projectRecord] at hf
    rw [dot_of_ge hge, block_of_ge hge, dot_of_ge (s := p) (by omega), dot_of_ge (s := l) (by omega),
      block_of_ge (s := l) (by omega), ite_self]

theorem dot_deliver (hl : Stored l) (hn : ¬ Clash l p) (f : Nat) :
    (deliver p (autoMerged l (projectRecord p))).dot f =
      if hasSeenDot l.vv (p.dot f) = false then p.dot f else l.dot f := by
  rw [deliver, pullBlocks_dot]
  exact (congrArg Prod.fst (frag_merged hl hn f)).trans (apply_ite Prod.fst ..)

theorem block_deliver (hl : Stored l) (hp : Stored p) (hn : ¬ Clash l p) (f : Nat) :
    (deliver p (autoMerged l (projectRecord p))).block f =
      if hasSeenDot l.vv (p.dot f) = false then p.block f else l.block f := by
  have hfrag := frag_merged hl hn f
  rw [deliver, pullBlocks_block, missing]
  by_cases hs : hasSeenDot l.vv (p.dot f) = false
  · -- a new dot is not zero, so its block is there to be fetched
    have h0 : p.dot f ≠ 0 := by
      intro h0
      rw [h0, hasSeenDot_zero] at hs
      cases hs
    obtain ⟨d, hd⟩ := Option.ne_none_iff_exists'.mp (mt (hp.hole f).mpr h0)
    rw [if_pos hs] at hfrag
    obtain ⟨hdot, hblock⟩ := Prod.mk.inj hfrag
    simp [hdot, hblock, hs, h0, hd]
  · rw [if_neg hs] at hfrag
    obtain ⟨hdot, hblock⟩ := Prod.mk.inj hfrag
    rw [hdot, hblock, if_neg hs]
    cases hb : l.block f with
    | none => simp [(hl.hole f).mpr hb]
    | some d => simp

/-- Byte `i` of the merged file: the peer's where its fragment's dot is new here. -/
theorem byteAt_deliver (hl : Stored l) (hp : Stored p) (hn : ¬ Clash l p)
    (he : l.fragsizeExp = p.fragsizeExp) (i : Nat) :
    byteAt (deliver p (autoMerged l (projectRecord p))) i =
      if hasSeenDot l.vv (p.dot (i / l.fragsize)) = false then byteAt p i else byteAt l i := by
  have hfs : (deliver p (autoMerged l (projectRecord p))).fragsize = l.fragsize := by
    simp [deliver, fragsize, autoMerged]
  have hpf : p.fragsize = l.fragsize := by rw [fragsize, fragsize, he]
  rw [byteAt, hfs, block_deliver hl hp hn]
  unfold byteAt
  rw [hpf]
  split <;> rfl

theorem byteLen_deliver (he : l.fragsizeExp = p.fragsizeExp) :
    (deliver p (autoMerged l (projectRecord p))).byteLen =
      if l.frags.length ≤ p.frags.length then p.byteLen else l.byteLen := by
  have hpf : p.fragsize = l.fragsize := by rw [fragsize, fragsize, he]
  have hfs : (deliver p (autoMerged l (projectRecord p))).fragsize = l.fragsize := by
    simp [deliver, fragsize, autoMerged]
  have hlen : (deliver p (autoMerged l (projectRecord p))).frags.length =
      max p.frags.length l.frags.length := by
    simp [deliver, totalFrags]
  have hll : (deliver p (autoMerged l (projectRecord p))).lastFragLength =
      if l.frags.length ≤ p.frags.length then p.lastFragLength else l.lastFragLength := by
    simp [deliver, autoMerged, mergedLastFragLength, projectRecord, unitMap]
  unfold byteLen
  rw [hlen, hll, hfs, hpf]
  by_cases hle : l.frags.length ≤ p.frags.length
  · rw [Nat.max_eq_left hle, if_pos hle, if_pos hle]
  · rw [Nat.max_eq_right (by omega), if_neg hle, if_neg hle]

/-- A merged file is one like any other, unless the peer's fragments are larger. -/
theorem Stored.autoMerge (hl : Stored l) (hp : Stored p) (hn : ¬ Clash l p)
    (he : p.fragsizeExp ≤ l.fragsizeExp) :
    Stored (deliver p (autoMerged l (projectRecord p))) := by
  have hfs : p.fragsize ≤ l.fragsize := Nat.pow_le_pow_right (by decide) he
  have hlast : (deliver p (autoMerged l (projectRecord p))).lastFragLength =
      if l.frags.length ≤ p.frags.length then p.lastFragLength else l.lastFragLength := by
    simp [deliver, autoMerged, mergedLastFragLength, projectRecord, unitMap]
  have hfsm : (deliver p (autoMerged l (projectRecord p))).fragsize = l.fragsize := by
    simp [deliver, fragsize, autoMerged]
  have hdot := dot_deliver hl hn
  have hblock := block_deliver hl hp hn
  refine ⟨?_, fun f d hd => ?_, fun h => ?_, ?_, fun f => ?_, fun f => ?_⟩
  · simpa [deliver, autoMerged] using hl.floor
  · rw [hblock] at hd
    rw [hfsm]
    split at hd
    · exact (hp.short f d hd).trans hfs
    · exact hl.short f d hd
  · have hlen : (deliver p (autoMerged l (projectRecord p))).frags.length =
        max p.frags.length l.frags.length := by simp [deliver, totalFrags]
    rw [hlast]
    split
    · exact hp.last_pos (by omega)
    · exact hl.last_pos (by omega)
  · rw [hlast, hfsm]
    split
    · exact hp.last_le.trans hfs
    · exact hl.last_le
  · rw [hdot, hblock]
    split
    · exact hp.hole f
    · exact hl.hole f
  · have hvv : (deliver p (autoMerged l (projectRecord p))).vv = l.vv.join p.vv := by
      simp [deliver, autoMerged]
    rw [hdot, hvv]
    split
    · exact hasSeenDot_mono (fun h => by rw [VersionVector.get_join]; omega) (hp.seen f)
    · exact hasSeenDot_mono (fun h => by rw [VersionVector.get_join]; omega) (hl.seen f)

end

/-! ## Lost updates -/

/-- What reading shows at `i`, none beyond the end. -/
def valAt (s : StreamMeta Bytes) (i : Nat) : Option UInt8 := (read s)[i]?

/-- `x` changed position `i` relative to `o`: another byte, one more or one less. -/
def ChangedAt (o x : StreamMeta Bytes) (i : Nat) : Prop := valAt x i ≠ valAt o i

def ChangedIn (o x : StreamMeta Bytes) (f : Nat) : Prop := ∃ i, i / x.fragsize = f ∧ ChangedAt o x i

/-- `x` changed a byte in fragment `f` to one that `y` does not store there. -/
def RewroteIn (o x y : StreamMeta Bytes) (f : Nat) : Prop :=
  ∃ i, i / x.fragsize = f ∧ i < x.byteLen ∧ ChangedAt o x i ∧ byteAt x i ≠ byteAt y i

/-- `m` carries each side's value at every position that side changed. -/
structure CarriesBoth (o l p m : StreamMeta Bytes) : Prop where
  ofLocal : ∀ i, ChangedAt o l i → valAt m i = valAt l i
  ofPeer : ∀ i, ChangedAt o p i → valAt m i = valAt p i

/-- Importing `p`'s record over `l` loses no update of either side, and refuses to merge when
the fragment sizes differ or a common fragment changed. -/
structure NoLostUpdate (o l p : StreamMeta Bytes) : Prop where
  carries : ∀ m, importRecord l (projectRecord p) = .autoMerge m → CarriesBoth o l p (deliver p m)
  strain : l.fragsizeExp ≠ p.fragsizeExp ∨ (∃ f, ChangedIn o l f ∧ ChangedIn o p f) →
    ∃ t, importRecord l (projectRecord p) = .strainSplit t

/-- One fragment size, no fragment changed by both, every fragment with a changed byte of the
peer's marked by a dot new here and every one with a changed byte of ours by none, unless the
other side stores the same byte, and a side that changed the length is the one whose fragment
count decides it. -/
structure Compatible (o l p : StreamMeta Bytes) : Prop where
  exp : l.fragsizeExp = p.fragsizeExp
  apart : ∀ f, ¬ (ChangedIn o l f ∧ ChangedIn o p f)
  peerDot : ∀ f, RewroteIn o p l f → hasSeenDot l.vv (p.dot f) = false
  localDot : ∀ f, RewroteIn o l p f → hasSeenDot l.vv (p.dot f) = true
  peerSize : p.byteLen ≠ o.byteLen → l.frags.length ≤ p.frags.length
  localSize : l.byteLen ≠ o.byteLen → p.frags.length < l.frags.length

section

variable {m x y o l p : StreamMeta Bytes} {c : Prop} [Decidable c]

theorem valAt_of_geometry (h : Geometry x) (i : Nat) :
    valAt x i = if i < x.byteLen then some (byteAt x i) else none := by
  rw [valAt, read_eq h, List.getElem?_map]
  split
  · rename_i hi
    rw [List.getElem?_range hi]
    rfl
  · rename_i hi
    rw [List.getElem?_eq_none (by simpa using hi)]
    rfl

theorem valAt_eq_iff (hx : Geometry x) (hy : Geometry y) : valAt x i = valAt y i ↔
    (i < x.byteLen ↔ i < y.byteLen) ∧ (i < y.byteLen → byteAt x i = byteAt y i) := by
  rw [valAt_of_geometry hx, valAt_of_geometry hy]
  by_cases h1 : i < x.byteLen <;> by_cases h2 : i < y.byteLen <;> simp [h1, h2]

theorem exists_changedAt_of_byteLen_ne (ho : Geometry o) (hx : Geometry x)
    (h : x.byteLen ≠ o.byteLen) :
    ∃ i, ¬ (i < x.byteLen ↔ i < o.byteLen) ∧ ChangedAt o x i := by
  refine ⟨min x.byteLen o.byteLen, ?_, fun he => ?_⟩
  · omega
  · have := ((valAt_eq_iff hx ho).mp he).1
    omega

/-- At a position that `y` left alone, a merge of `x` and `y` has `x`'s value if it takes from `x`
what `x` changed: the presence of the position, or its byte. -/
theorem valAt_merge_iff {d : Prop} [Decidable d] (hm : Geometry m) (hx : Geometry x)
    (hlen : m.byteLen = if c then x.byteLen else y.byteLen)
    (hbyte : byteAt m i = if d then byteAt x i else byteAt y i)
    (hsame : i < y.byteLen ↔ i < o.byteLen) :
    valAt m i = valAt x i ↔
      (¬ (i < x.byteLen ↔ i < o.byteLen) → c) ∧ (i < x.byteLen → byteAt x i ≠ byteAt y i → d) := by
  have hin : (i < m.byteLen ↔ i < x.byteLen) ↔ (¬ (i < x.byteLen ↔ i < o.byteLen) → c) := by
    rw [hlen, ← hsame]
    by_cases hc : c
    · simp [hc]
    · simp [hc, iff_comm]
  have hval : byteAt m i = byteAt x i ↔ (byteAt x i ≠ byteAt y i → d) := by
    rw [hbyte]
    by_cases hd : d
    · simp [hd]
    · simp [hd, eq_comm]
  rw [valAt_eq_iff hm hx, hin, hval]

/-- A merge has all that `x` changed, where `y` changed nothing, if `x` decides the length when it
changed it and every fragment in which it wrote. -/
theorem carries_iff {d : Nat → Prop} [DecidablePred d] (ho : Geometry o) (hx : Geometry x)
    (hy : Geometry y) (hm : Geometry m) (hlen : m.byteLen = if c then x.byteLen else y.byteLen)
    (hbyte : ∀ i, byteAt m i = if d (i / x.fragsize) then byteAt x i else byteAt y i)
    (hsame : ∀ i, ChangedAt o x i → ¬ ChangedAt o y i) :
    (∀ i, ChangedAt o x i → valAt m i = valAt x i) ↔
      (x.byteLen ≠ o.byteLen → c) ∧ ∀ f, RewroteIn o x y f → d f := by
  have hat := fun i hi => valAt_merge_iff hm hx hlen (hbyte i)
    ((valAt_eq_iff hy ho).mp (not_not.mp (hsame i hi))).1
  constructor
  · intro h
    refine ⟨fun hne => ?_, ?_⟩
    · obtain ⟨i, hst, hch⟩ := exists_changedAt_of_byteLen_ne ho hx hne
      exact ((hat i hch).mp (h i hch)).1 hst
    · rintro f ⟨i, rfl, hi, hch, hne⟩
      exact ((hat i hch).mp (h i hch)).2 hi hne
  · rintro ⟨hsize, hdot⟩ i hch
    exact (hat i hch).mpr ⟨fun hst => hsize fun he => hst (by rw [he]),
      fun hi hne => hdot _ ⟨i, rfl, hi, hch, hne⟩⟩

theorem carriesBoth_iff (ho : Stored o) (hl : Stored l) (hp : Stored p) (hn : ¬ Clash l p)
    (he : l.fragsizeExp = p.fragsizeExp) (ha : ∀ f, ¬ (ChangedIn o l f ∧ ChangedIn o p f)) :
    CarriesBoth o l p (deliver p (autoMerged l (projectRecord p))) ↔ Compatible o l p := by
  have hfs : p.fragsize = l.fragsize := by rw [fragsize, fragsize, he]
  have hbyte := byteAt_deliver hl hp hn he
  have hlen := byteLen_deliver (l := l) (p := p) he
  have hm := (hl.autoMerge hp hn he.ge).geometry
  have hone : ∀ i, ¬ (ChangedAt o l i ∧ ChangedAt o p i) := fun i h =>
    ha (i / l.fragsize) ⟨⟨i, rfl, h.1⟩, i, by rw [hfs], h.2⟩
  have hlocal := carries_iff (c := ¬ l.frags.length ≤ p.frags.length)
    (d := fun f => ¬ hasSeenDot l.vv (p.dot f) = false) ho.geometry hl.geometry hp.geometry hm
    (by rw [hlen, ite_not]) (fun i => by rw [hbyte, ite_not]) fun i hi h => hone i ⟨hi, h⟩
  have hpeer := carries_iff (d := fun f => hasSeenDot l.vv (p.dot f) = false) ho.geometry hp.geometry
    hl.geometry hm hlen (fun i => by rw [hfs, hbyte]) fun i hi h => hone i ⟨h, hi⟩
  constructor
  · intro hc
    obtain ⟨hlsize, hldot⟩ := hlocal.mp hc.ofLocal
    obtain ⟨hpsize, hpdot⟩ := hpeer.mp hc.ofPeer
    exact ⟨he, ha, hpdot, fun f hf => by simpa using hldot f hf, hpsize,
      fun hne => Nat.lt_of_not_le (hlsize hne)⟩
  · intro hc
    exact ⟨hlocal.mpr ⟨fun hne => not_le.mpr (hc.localSize hne),
      fun f hf => by simp [hc.localDot f hf]⟩, hpeer.mpr ⟨hc.peerSize, hc.peerDot⟩⟩

end

/-- Importing `p`'s record over a concurrent `l` loses no update exactly when the two clash on
some fragment or are compatible. -/
theorem noLostUpdate_iff {l p : StreamMeta Bytes} (ho : Stored o) (hl : Stored l) (hp : Stored p)
    (hc : l.vv.concurrentWith p.vv = true) :
    NoLostUpdate o l p ↔ Clash l p ∨ Compatible o l p := by
  by_cases hcl : Clash l p
  · have hconf := (hasConflictFrag_iff l p).mpr hcl
    have hd : l.vv.dominates p.vv = false := by simp_all [VersionVector.concurrentWith]
    have himp : importRecord l (projectRecord p) = .strainSplit (strainOf (projectRecord p)) := by
      simp [importRecord, hd, hc, hconf]
    refine iff_of_true ⟨fun m hm => ?_, fun _ => ⟨_, himp⟩⟩ (.inl hcl)
    rw [himp] at hm
    cases hm
  · have hconf : hasConflictFrag l (projectRecord p) = false := by
      rw [← Bool.not_eq_true, hasConflictFrag_iff]
      exact hcl
    have himp := importRecord_autoMerge (p := projectRecord p) hc hconf
    constructor
    · intro h
      have hnot : ¬ (l.fragsizeExp ≠ p.fragsizeExp ∨ ∃ f, ChangedIn o l f ∧ ChangedIn o p f) := by
        intro hs
        obtain ⟨t, ht⟩ := h.strain hs
        rw [himp] at ht
        cases ht
      rw [not_or, not_not, not_exists] at hnot
      exact .inr ((carriesBoth_iff ho hl hp hcl hnot.1 hnot.2).mp (h.carries _ himp))
    · rintro (h | h)
      · exact absurd h hcl
      refine ⟨fun m hm => ?_, fun hs => ?_⟩
      · rw [himp] at hm
        cases hm
        exact (carriesBoth_iff ho hl hp hcl h.exp h.apart).mpr h
      · rcases hs with hs | ⟨f, hs⟩
        · exact absurd h.exp hs
        · exact absurd hs (h.apart f)

theorem stored_run {padBlocks : Bool} {suite : Suite} {host : HostAlias}
    (ho : Stored o) (es : List Edit) : Stored (run (edit padBlocks suite host) o es) :=
  run_inv (P := fun _ _ => True) (fun _ e h _ => h.edit e) ho (along_true o es)

/-- Two replicas edit one file, each on its own host and with its own suite; then the second
one's record is imported at the first. The file they start from is any that edits and merges have
left (`Stored.edit`, `Stored.autoMerge`). -/
theorem merge_noLostUpdate_iff {o : StreamMeta Bytes} (ho : Stored o) (padA padB : Bool)
    (suiteA suiteB : Suite) (a b : HostAlias) (es fs : List Edit)
    (hc : (run (edit padA suiteA a) o es).vv.concurrentWith
      (run (edit padB suiteB b) o fs).vv = true) :
    NoLostUpdate o (run (edit padA suiteA a) o es) (run (edit padB suiteB b) o fs) ↔
      Clash (run (edit padA suiteA a) o es) (run (edit padB suiteB b) o fs) ∨
        Compatible o (run (edit padA suiteA a) o es) (run (edit padB suiteB b) o fs) :=
  noLostUpdate_iff ho (stored_run ho es) (stored_run ho fs) hc

/-- A ten-byte file, as host 1 creates it. -/
def tenBytes : StreamMeta Bytes := run (edit false .none 1) .empty [.write 0 (List.replicate 10 7)]

/-- Host 1 writes twenty bytes over them while host 2 extends the file to twelve: the merge keeps
the longer block under the shorter length. -/
def merged : StreamMeta Bytes :=
  deliver (run (edit false .none 2) tenBytes [.extend 12]) (autoMerged
    (run (edit false .none 1) tenBytes [.write 0 (List.replicate 20 9)])
    (projectRecord (run (edit false .none 2) tenBytes [.extend 12])))

theorem stored_tenBytes : Stored tenBytes := stored_run Wf.empty.toStored _

theorem stored_merged : Stored merged :=
  (stored_run stored_tenBytes _).autoMerge (stored_run stored_tenBytes _)
    (by rw [← hasConflictFrag_iff]; decide) (by decide)

/-- Writing the byte that is there changes nothing but the dot. -/
theorem same_write {st : Staged} (h : stageWrite false .xts 2 tenBytes 0 [7] = .ok st) :
    st.stream.byteLen = tenBytes.byteLen ∧ ∀ i, byteAt st.stream i = byteAt tenBytes i := by
  have hwf : Wf tenBytes := Wf.empty.edit (.write 0 (List.replicate 10 7))
  refine ⟨byteLen_stageWrite hwf.toStored h, fun i => (byteAt_stageWrite hwf h i).trans ?_⟩
  split
  · rename_i hi
    obtain rfl : i = 0 := by simpa using hi.2
    decide
  · rfl

/-- Host 1 extends the file by a fragment while host 2 writes the byte that is there: merged, and
nothing lost. Both hosts overwrite the first byte of the merged file: a strain, and nothing lost. -/
theorem merge_noLostUpdate_extend :
    NoLostUpdate tenBytes (run (edit false .none 1) tenBytes [.extend 5000])
        (run (edit false .xts 2) tenBytes [.write 0 [7]]) ∧
      NoLostUpdate merged (run (edit false .none 1) merged [.write 0 [8]])
        (run (edit false .xts 2) merged [.write 0 [6]]) := by
  constructor
  · obtain ⟨hlen, hbyte⟩ := same_write rfl
    have hext : extend 1 tenBytes 5000 = some _ := rfl
    have hsame : ∀ i, byteAt (run (edit false .none 1) tenBytes [.extend 5000]) i =
        byteAt (run (edit false .xts 2) tenBytes [.write 0 [7]]) i :=
      fun i => (byteAt_extend hext i).trans (hbyte i).symm
    refine (merge_noLostUpdate_iff stored_tenBytes false false .none .xts 1 2 [.extend 5000]
      [.write 0 [7]] (by decide)).mpr (.inr ⟨by decide, ?_, ?_, ?_, ?_, ?_⟩)
    · rintro f ⟨-, i, -, hi⟩
      refine hi ((valAt_eq_iff (stored_run stored_tenBytes _).geometry
        stored_tenBytes.geometry).mpr ?_)
      exact ⟨by rw [← hlen]; rfl, fun _ => hbyte i⟩
    · rintro f ⟨i, -, -, -, hne⟩
      exact absurd (hsame i).symm hne
    · rintro f ⟨i, -, -, -, hne⟩
      exact absurd (hsame i) hne
    · decide
    · decide
  · exact (merge_noLostUpdate_iff stored_merged false false .none .xts 1 2 [.write 0 [8]]
      [.write 0 [6]] (by decide)).mpr (.inl ⟨0, by decide, by decide, by decide⟩)

/-- Host 1 extends the file to twenty bytes while host 2 overwrites the first: both changed
fragment 0, the records merge all the same, and the extension is lost. -/
theorem merge_loses_extension :
    ¬ NoLostUpdate tenBytes (run (edit false .none 1) tenBytes [.extend 20])
      (run (edit false .none 2) tenBytes [.write 0 [9]]) := by
  intro h
  have hm := h.carries _ (importRecord_autoMerge (by decide) (by decide))
  exact absurd (hm.ofLocal 15 (by unfold ChangedAt; decide)) (by decide)

end Sfs.Version

import Sfs.Unit

/-!
# Importing a record

`import_record` on a unit with content: the incoming projection `P` against the local
content stream `L`. The causal classification ignores a dominated projection, fast-forwards
to a dominating one and otherwise compares the two streams fragment by fragment. Blocks that
come from the peer are holes until `import_block` delivers them.
-/

namespace Sfs.Version

open StreamMeta

variable {β : Type}

/-- The content part of a record projection. -/
structure Projection where
  unitMap : List BlockVersion
  vv : VersionVector
  fragsizeExp : Nat
  lastFragLength : Nat

def projectRecord (s : StreamMeta β) : Projection :=
  ⟨s.unitMap, s.vv, s.fragsizeExp, s.lastFragLength⟩

def Projection.dot (p : Projection) (f : Nat) : BlockVersion := p.unitMap.getD f 0

/-- What happens to one fragment of two concurrent streams. -/
inductive FragClass where
  | same
  | localWins
  | peerWins
  | conflict
  deriving DecidableEq, Repr

def classify (lvv pvv : VersionVector) (ldot pdot : BlockVersion) : FragClass :=
  if ldot = pdot then .same
  else if hasSeenDot lvv pdot then .localWins
  else if hasSeenDot pvv ldot then .peerWins
  else .conflict

inductive ImportOutcome (β : Type) where
  /-- the local stream is strictly ahead -/
  | ignored
  | fastForward (s : StreamMeta β)
  | autoMerge (s : StreamMeta β)
  /-- the projection becomes a concurrent strain, the primary stays -/
  | strainSplit (strain : StreamMeta β)

/-- The merged fragment `f`: the local one, or the peer's dot with its block still to come. -/
def mergeFrag (l : StreamMeta β) (p : Projection) (f : Nat) : Frag β :=
  match classify l.vv p.vv (l.dot f) (p.dot f) with
  | .peerWins => ⟨p.dot f, none⟩
  | _ => ⟨l.dot f, l.block f⟩

def totalFrags (l : StreamMeta β) (p : Projection) : Nat := max p.unitMap.length l.frags.length

def hasConflictFrag (l : StreamMeta β) (p : Projection) : Bool :=
  (List.range (totalFrags l p)).any fun f => classify l.vv p.vv (l.dot f) (p.dot f) = .conflict

def mergedLastFragLength (l : StreamMeta β) (p : Projection) : Nat :=
  if l.frags.length ≤ p.unitMap.length then p.lastFragLength else l.lastFragLength

def autoMerged (l : StreamMeta β) (p : Projection) : StreamMeta β where
  frags := (List.range (totalFrags l p)).map (mergeFrag l p)
  vv := l.vv.join p.vv
  fragsizeExp := l.fragsizeExp
  lastFragLength := mergedLastFragLength l p
  pins := []

/-- The incoming stream, keeping the local block of each fragment whose dot is unchanged. -/
def fastForwarded (l : StreamMeta β) (p : Projection) : StreamMeta β where
  frags := p.unitMap.mapIdx fun f v =>
    ⟨v, if f < l.frags.length ∧ l.dot f = v then l.block f else none⟩
  vv := p.vv
  fragsizeExp := p.fragsizeExp
  lastFragLength := p.lastFragLength
  pins := []

def strainOf (p : Projection) : StreamMeta β where
  frags := p.unitMap.map fun v => ⟨v, none⟩
  vv := p.vv
  fragsizeExp := p.fragsizeExp
  lastFragLength := p.lastFragLength
  pins := []

def importRecord (l : StreamMeta β) (p : Projection) : ImportOutcome β :=
  if l.vv.dominates p.vv && l.vv ≠ p.vv then .ignored
  else if !l.vv.concurrentWith p.vv then .fastForward (fastForwarded l p)
  else if hasConflictFrag l p then .strainSplit (strainOf p)
  else .autoMerge (autoMerged l p)

/-! ## Blocks that follow a record -/

/-- `import_block` where the primary owns the version (or no strain does). -/
def importBlock (s : StreamMeta β) (frag : Nat) (version : BlockVersion) (b : β) (fragLen : Nat) :
    StreamMeta β :=
  let g := s.grow (frag + 1)
  { g with
    frags := g.frags.set frag ⟨version, some b⟩
    lastFragLength := if frag + 1 = g.frags.length then fragLen else s.lastFragLength }

/-- The fragments of `s` whose block is still to come. -/
def missing (s : StreamMeta β) (f : Nat) : Bool := s.dot f ≠ 0 && (s.block f).isNone

/-- The sync round's block pull for the fragments below `k`: one `import_block` for each
missing block, with the fragment length of the manifest taken after the record import.
`blocks f v` is the block the transport holds for fragment `f` at version `v`. -/
def pullUpTo (blocks : Nat → BlockVersion → β) (s : StreamMeta β) : Nat → StreamMeta β
  | 0 => s
  | k + 1 =>
    let t := pullUpTo blocks s k
    if missing s k then
      importBlock t k (s.dot k) (blocks k (s.dot k))
        (if k + 1 = s.frags.length then s.lastFragLength else s.fragsize)
    else t

def pullBlocks (blocks : Nat → BlockVersion → β) (s : StreamMeta β) : StreamMeta β :=
  pullUpTo blocks s s.frags.length

theorem importBlock_of_lt {s : StreamMeta β} {f : Nat} {v : BlockVersion} {b : β} {n : Nat}
    (h : f < s.frags.length) :
    importBlock s f v b n = { s with
      frags := s.frags.set f ⟨v, some b⟩
      lastFragLength := if f + 1 = s.frags.length then n else s.lastFragLength } := by
  have hz : f + 1 - s.frags.length = 0 := by omega
  simp [importBlock, grow, hz]

/-- After pulling below `k`: blocks are filled in below `k`, and nothing else has changed. -/
theorem pullUpTo_spec (blocks : Nat → BlockVersion → β) (s : StreamMeta β) {k : Nat}
    (hk : k ≤ s.frags.length) :
    (pullUpTo blocks s k).frags = (s.frags.mapIdx fun f fr =>
        if f < k ∧ missing s f then ⟨fr.version, some (blocks f fr.version)⟩ else fr) ∧
      (pullUpTo blocks s k).vv = s.vv ∧ (pullUpTo blocks s k).fragsizeExp = s.fragsizeExp ∧
      (pullUpTo blocks s k).lastFragLength = s.lastFragLength := by
  induction k with
  | zero =>
    refine ⟨?_, rfl, rfl, rfl⟩
    apply List.ext_getElem (by simp [pullUpTo])
    simp [pullUpTo]
  | succ k ih =>
    obtain ⟨hf, hv, he, hl⟩ := ih (by omega)
    have hlen : (pullUpTo blocks s k).frags.length = s.frags.length := by simp [hf]
    by_cases hm : missing s k = true
    · simp only [pullUpTo, hm, if_true]
      rw [importBlock_of_lt (by omega)]
      refine ⟨?_, hv, he, ?_⟩
      · simp only [hf]
        apply List.ext_getElem (by simp)
        intro f h1 h2
        have hfl : f < s.frags.length := by simpa using h2
        by_cases hkf : k = f
        · subst hkf
          simp [hm, dot_of_lt hfl]
        · have hlt : f ≤ k ↔ f < k := by omega
          simp [hkf, hlt]
      · simp only [hlen, hl]
        split <;> rfl
    · simp only [pullUpTo, if_neg hm]
      refine ⟨?_, hv, he, hl⟩
      rw [hf]
      apply List.ext_getElem (by simp)
      intro f h1 h2
      have hiff : (f < k + 1 ∧ missing s f = true) ↔ (f < k ∧ missing s f = true) := by
        constructor
        · rintro ⟨h3, h4⟩
          refine ⟨?_, h4⟩
          by_contra hge
          have : f = k := by omega
          subst this
          exact hm h4
        · rintro ⟨h3, h4⟩
          exact ⟨by omega, h4⟩
      simp only [List.getElem_mapIdx, hiff]

section

variable (blocks : Nat → BlockVersion → β) (s : StreamMeta β)

theorem pullBlocks_frags : (pullBlocks blocks s).frags = (s.frags.mapIdx fun f fr =>
    if missing s f then ⟨fr.version, some (blocks f fr.version)⟩ else fr) := by
  rw [pullBlocks, (pullUpTo_spec blocks s le_rfl).1]
  apply List.ext_getElem (by simp)
  intro f h1 h2
  have hfl : f < s.frags.length := by simpa using h2
  simp [hfl]

@[simp] theorem pullBlocks_fragsizeExp : (pullBlocks blocks s).fragsizeExp = s.fragsizeExp :=
  (pullUpTo_spec blocks s le_rfl).2.2.1

@[simp] theorem pullBlocks_lastFragLength :
    (pullBlocks blocks s).lastFragLength = s.lastFragLength :=
  (pullUpTo_spec blocks s le_rfl).2.2.2

@[simp] theorem pullBlocks_length : (pullBlocks blocks s).frags.length = s.frags.length := by
  simp [pullBlocks_frags]

@[simp] theorem pullBlocks_vv : (pullBlocks blocks s).vv = s.vv :=
  (pullUpTo_spec blocks s le_rfl).2.1

@[simp] theorem pullBlocks_dot (f : Nat) : (pullBlocks blocks s).dot f = s.dot f := by
  by_cases hf : f < s.frags.length
  · rw [dot_of_lt (by simpa using hf), dot_of_lt hf]
    simp only [pullBlocks_frags, List.getElem_mapIdx]
    split <;> rfl
  · rw [dot_of_ge (by simpa using hf), dot_of_ge (by omega)]

theorem pullBlocks_block (f : Nat) :
    (pullBlocks blocks s).block f =
      if missing s f then some (blocks f (s.dot f)) else s.block f := by
  by_cases hf : f < s.frags.length
  · rw [block_of_lt (by simpa using hf)]
    simp only [pullBlocks_frags, List.getElem_mapIdx]
    split
    · rw [dot_of_lt hf]
    · rw [block_of_lt hf]
  · have hm : missing s f = false := by
      simp [missing, dot_of_ge (by omega : s.frags.length ≤ f)]
    rw [block_of_ge (by simpa using hf), block_of_ge (by omega), hm]
    rfl

end

end Sfs.Version

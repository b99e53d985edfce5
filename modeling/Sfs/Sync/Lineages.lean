import Sfs.Sync.Import

/-!
# Content and Meta lineages under sync

The Meta stream of a unit has a version vector of its own. An import should leave the causally
newer of the two Meta streams, whatever happens to the content; a projection without content
should leave the local content, and the database head should stay. `lineagesKept_iff` says
exactly for which heads and projections it does.
-/

namespace Sfs.Sync

open Sfs.Lib Sfs.Version Option
open Sfs.Container (SignMode)

variable {β : Type}

/-! ## The law -/

open Record

def streamVv (m : Option (StreamMeta β)) : VersionVector := (m.map StreamMeta.vv).getD .new

/-- The incoming Meta stream `p` is causally newer than the local one. -/
def MetaNewer (l p : Option (StreamMeta β)) : Prop :=
  ∃ s, p = some s ∧ (l = none ∨ strictlyAhead s.vv (streamVv l) = true)

/-- `new` is the causally newer of the Meta streams `l` (local) and `p` (incoming); of two
concurrent ones it is either. -/
structure MetaLineage (l p new : Option (StreamMeta β)) : Prop where
  either : new = l ∨ new = p
  kept : l.isSome → new.isSome
  notOlder : new ≠ l → strictlyAhead (streamVv l) (streamVv p) = false
  newer : MetaNewer l p → new = p

/-- An import that turned the head `cur` into `next` kept the two lineages apart. -/
structure LineagesKept (place : Bytes → β) (cur : Option (Record β)) (inc : Incoming)
    (next : Option (Record β)) : Prop where
  metadata : MetaLineage (cur.bind metadata) (incomingMeta place inc) (next.bind metadata)
  content : inc.hasContent = false → ∀ s, cur.bind content = some s → next.bind content = some s
  db : ∀ d, headDb cur = some d → headDb next = some d

/-! ## When it holds -/

/-- The incoming Meta stream is newer than the local one. -/
def IncomingMetaNewer (cur : Option (Record β)) (inc : Incoming) : Prop :=
  ∃ m, inc.metadata = some m ∧
    (cur.bind metadata = none ∨ strictlyAhead m.vv (headMetaVv cur) = true)

/-- Nothing is lost when the record is built anew without its Meta stream: there is none, or the
projection brings one that replaces it and is not older. -/
def MetaReplaceable (mode : SignMode) (cur : Option (Record β)) (inc : Incoming) : Prop :=
  if mode = .unsigned then
    cur.bind metadata = none ∨
      ∃ m, inc.metadata = some m ∧ strictlyAhead (headMetaVv cur) m.vv = false
  else cur.bind metadata = none ∧ inc.metadata = none

/-- The projection keeps the lineages of `cur`: split over what `import_record` does with it. -/
def LineageSafe (mode : SignMode) (cur : Option (Record β)) (inc : Incoming) : Prop :=
  if inc.hasContent = false then
    cur.bind content = none ∨
      ∃ m, inc.metadata = some m ∧ strictlyAhead (headMetaVv cur) m.vv = true
  else if strictlyAhead (headStream cur).vv inc.content.vv then ¬ IncomingMetaNewer cur inc
  else if (headStream cur).vv.concurrentWith inc.content.vv then
    if hasConflictFrag (headStream cur) inc.content then mode = .unsigned ∨ ¬ IncomingMetaNewer cur inc
    else MetaReplaceable mode cur inc ∧ headDb cur = none
  else MetaReplaceable mode cur inc

section

variable {l p : Option (StreamMeta β)}

theorem metaLineage_local_iff : MetaLineage l p l ↔ ¬ MetaNewer l p := by
  constructor
  · rintro h hn
    have heq := h.newer hn
    obtain ⟨s, hs, rfl | ha⟩ := hn
    · rw [hs] at heq
      cases heq
    · rw [heq, hs] at ha
      exact absurd ha (by simp [streamVv, strictlyAhead_irrefl])
  · intro h
    exact ⟨.inl rfl, id, fun hne => absurd rfl hne, fun hn => absurd hn h⟩

theorem metaLineage_incoming_iff {s : StreamMeta β} :
    MetaLineage l (some s) (some s) ↔ strictlyAhead (streamVv l) s.vv = false := by
  constructor
  · intro h
    by_cases he : some s = l
    · rw [← he]
      exact strictlyAhead_irrefl _
    · exact h.notOlder he
  · intro h
    exact ⟨.inr rfl, fun _ => rfl, fun _ => h, fun _ => rfl⟩

theorem metaLineage_none_iff : MetaLineage l p none ↔ l = none ∧ p = none := by
  constructor
  · intro h
    have hl : l = none := by
      cases l with
      | none => rfl
      | some s => exact absurd (h.kept rfl) (by simp)
    refine ⟨hl, ?_⟩
    cases p with
    | none => rfl
    | some s => cases h.newer ⟨s, rfl, .inl hl⟩
  · rintro ⟨rfl, rfl⟩
    refine ⟨.inl rfl, id, fun hne => absurd rfl hne, ?_⟩
    rintro ⟨s, hs, -⟩
    cases hs

end

section

variable {mode : SignMode} {place : Bytes → β} {cur : Option (Record β)} {inc : Incoming}

theorem metaNewer_incoming :
    MetaNewer (cur.bind metadata) (incomingMeta place inc) ↔ IncomingMetaNewer cur inc := by
  unfold MetaNewer IncomingMetaNewer incomingMeta
  cases inc.metadata with
  | none => simp
  | some m =>
    simp only [map_some, Option.some.injEq, exists_eq_left']
    rfl

/-- A record that had no Meta stream when step 4c began. -/
theorem metaLineage_attached_none :
    MetaLineage (cur.bind metadata) (incomingMeta place inc)
      (attachedMeta mode place none inc.metadata) ↔ MetaReplaceable mode cur inc := by
  unfold MetaReplaceable
  by_cases hmode : mode = .unsigned
  · subst hmode
    cases hm : inc.metadata with
    | none =>
      simp only [attachedMeta, incomingMeta, hm, map_none, metaLineage_none_iff]
      simp
    | some m =>
      have ha : attachedMeta .unsigned place (none : Option (StreamMeta β)) (some m) =
          some (stageMetaFromImport place m) := by
        simp [attachedMeta, new_not_strictlyAhead]
      rw [ha]
      simp only [incomingMeta, hm, map_some, metaLineage_incoming_iff]
      simp only [Option.some.injEq, exists_eq_left']
      constructor
      · exact .inr
      · rintro (hn | h)
        · rw [streamVv, hn]
          exact new_not_strictlyAhead _
        · exact h
  · rw [if_neg hmode]
    have ha : attachedMeta mode place (none : Option (StreamMeta β)) inc.metadata = none := by
      unfold attachedMeta
      split
      · exact absurd rfl hmode
      · rfl
    rw [ha, metaLineage_none_iff]
    simp [incomingMeta]

/-- A record that kept its Meta stream until step 4c. -/
theorem metaLineage_attached_own :
    MetaLineage (cur.bind metadata) (incomingMeta place inc)
      (attachedMeta mode place (cur.bind metadata) inc.metadata) ↔
        mode = .unsigned ∨ ¬ IncomingMetaNewer cur inc := by
  by_cases hmode : mode = .unsigned
  · subst hmode
    simp only [true_or, iff_true]
    cases hm : inc.metadata with
    | none =>
      simp only [attachedMeta, metaLineage_local_iff]
      rintro ⟨s, hs, -⟩
      simp [incomingMeta, hm] at hs
    | some m =>
      simp only [attachedMeta, incomingMeta, hm, map_some]
      split
      · rename_i h
        rw [metaLineage_local_iff]
        rintro ⟨s, hs, hn | ha⟩
        · rw [hn] at h
          exact absurd h (by simp [new_not_strictlyAhead])
        · cases hs
          cases (strictlyAhead_asymm h).symm.trans ha
      · rename_i h
        exact metaLineage_incoming_iff.mpr (by simpa [streamVv, stageMetaFromImport] using h)
  · have ha : attachedMeta mode place (cur.bind metadata) inc.metadata = cur.bind metadata := by
      unfold attachedMeta
      split
      · exact absurd rfl hmode
      · rfl
    rw [ha, metaLineage_local_iff, metaNewer_incoming]
    simp [hmode]

end

/-- An accepted projection leaves the causally newer Meta stream, the local content if it has
none itself, and the database head, exactly when it is `LineageSafe`. -/
theorem lineagesKept_iff (scheme : SignatureScheme) (signer : Signer) (place : Bytes → β) (u : Uuid)
    (cur : Option (Record β)) (inc : Incoming) (res : Option (Imported β))
    (h : importRecord scheme signer place u cur inc = .ok res) :
    LineagesKept place cur inc (headAfter cur res) ↔ LineageSafe signer.mode cur inc := by
  by_cases hc : inc.hasContent = false
  · unfold LineageSafe
    rw [if_pos hc]
    rw [importRecord_metaOnly hc] at h
    obtain ⟨m, hm, ⟨ha, rfl⟩ | ⟨ha, r, rfl, hcont, hmeta, -, hdb⟩⟩ := importMetaOnly_cases h
    · -- the local Meta stream is ahead: nothing is written
      refine iff_of_true ⟨metaLineage_local_iff.mpr ?_, fun _ s hs => hs, fun d hd => hd⟩
        (.inr ⟨m, hm, ha⟩)
      rw [metaNewer_incoming]
      rintro ⟨m', hm', hn⟩
      cases hm.symm.trans hm'
      rcases hn with hn | hn
      · rw [headMetaVv, hn] at ha
        exact absurd ha (by simp [new_not_strictlyAhead])
      · rw [strictlyAhead_asymm ha] at hn
        cases hn
    · -- the record is built anew, without content
      have hsafe : (∃ m', inc.metadata = some m' ∧ strictlyAhead (headMetaVv cur) m'.vv = true) ↔
          False := by
        simp [hm, ha]
      rw [hsafe, or_false]
      constructor
      · intro hk
        cases hcur : cur.bind Record.content with
        | none => rfl
        | some s =>
          have := hk.content hc s hcur
          rw [headAfter, bind_some, hcont] at this
          cases this
      · intro hnone
        refine ⟨?_, fun _ s hs => ?_, fun d hd => ?_⟩
        · rw [headAfter, bind_some, hmeta, incomingMeta, hm]
          exact metaLineage_incoming_iff.mpr ha
        · rw [hnone] at hs
          cases hs
        · rw [headAfter, headDb, bind_some, hdb, hd]
  · have hct : inc.hasContent = true := by simpa using hc
    unfold LineageSafe
    rw [if_neg hc]
    have hlaw : ∀ {next : Option (Record β)}, LineagesKept place cur inc next ↔
        MetaLineage (cur.bind Record.metadata) (incomingMeta place inc) (next.bind Record.metadata) ∧
          ∀ d, headDb cur = some d → headDb next = some d := fun {next} =>
      ⟨fun hk => ⟨hk.metadata, hk.db⟩, fun hk => ⟨hk.1, fun hf => absurd hf hc, hk.2⟩⟩
    rw [hlaw]
    cases importRecord_accepts hct h with
    | ignored ahead =>
      rw [if_pos ahead, headAfter, metaLineage_local_iff, metaNewer_incoming]
      exact and_iff_left fun d hd => hd
    | fastForward r ahead ordered content strains db metadata =>
      rw [if_neg (by simp [ahead]), if_neg (by simp [ordered]), headAfter, bind_some, metadata,
        metaLineage_attached_none]
      exact and_iff_left fun d hd => by rw [headDb, bind_some, db, hd]
    | autoMerge r concurrent agree content strains db metadata =>
      rw [if_neg (by simp [strictlyAhead_eq_false_of_concurrent concurrent]), if_pos concurrent,
        if_neg (by simp [agree]), headAfter, bind_some, metadata, metaLineage_attached_none]
      rw [headDb, headDb, bind_some, db]
      cases cur.bind Record.db <;> simp
    | strainSplit head r known concurrent conflict content strains db metadata =>
      rw [if_neg (by simp [strictlyAhead_eq_false_of_concurrent concurrent]), if_pos concurrent,
        if_pos conflict, headAfter, bind_some, metadata]
      have hown : head.metadata = cur.bind Record.metadata := by rw [known, bind_some]
      rw [hown, metaLineage_attached_own]
      exact and_iff_left fun d hd => by rw [headDb, bind_some, db, ← hd, headDb, known, bind_some]

/-- A file whose content host 1 wrote and whose mode it then changed. -/
def chmodded : Record Bytes where
  content := some ⟨[⟨packDot 1 1, some [7]⟩], VersionVector.new.bump 1, 12, 1, []⟩
  metadata := some (stageMetaFromImport id ⟨packDot 1 1, VersionVector.new.bump 1, [0o64]⟩)
  strains := []
  db := none
  signature := none

/-- Host 2 overwrote the content and knows of no Meta stream, or of the one in `m`. -/
def overwrittenBy2 (m : Option IncomingMeta) : Incoming where
  key := [97]
  content := ⟨[packDot 2 1], (VersionVector.new.bump 1).bump 2, 12, 1⟩
  carried := none
  hasContent := true
  metadata := m

/-- The peer's content is newer and it has the Meta stream too: it stays. -/
theorem lineagesKept_newer_content :
    LineagesKept id (some chmodded)
      (overwrittenBy2 (some ⟨packDot 1 1, VersionVector.new.bump 1, [0o64]⟩))
      (headAfter (some chmodded) (some ⟨{ chmodded with
        content := some ⟨[⟨packDot 2 1, none⟩], (VersionVector.new.bump 1).bump 2, 12, 1, []⟩ },
          true⟩)) :=
  (lineagesKept_iff checksumScheme .unsigned id 5 _ _ _ rfl).mpr (by
    rw [LineageSafe, if_neg (by decide), if_neg (by decide), if_neg (by decide), MetaReplaceable,
      if_pos (by decide)]
    exact .inr ⟨_, rfl, by decide⟩)

/-- A mode change is lost: the fast-forward to content written by a peer that has not seen it
builds the record without a Meta stream. -/
theorem metadata_lost_by_fastForward :
    ∃ r, importRecord checksumScheme .unsigned id 5 (some chmodded) (overwrittenBy2 none) =
      .ok (some ⟨r, true⟩) ∧
      ¬ LineagesKept id (some chmodded) (overwrittenBy2 none)
        (headAfter (some chmodded) (some ⟨r, true⟩)) :=
  ⟨_, rfl, fun h => absurd (h.metadata.kept rfl) (by decide)⟩

end Sfs.Sync

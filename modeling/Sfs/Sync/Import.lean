import Sfs.Sync.Record

/-!
# Importing a projection into a unit

`import_record` on the head record of one unit, after the projection was parsed and its
signature block checked. The content part is classified against the local content stream
(`Version.importRecord`); this module adds what the record carries besides: the Meta stream,
the strains, the database head and the signature. The result says which record becomes the new
head, if any, and whether the old head is its parent.

The names of the unit are not touched here; `Sfs.Sync.Namespace` has them.
-/

namespace Sfs.Sync

open Sfs.Lib Sfs.Version

variable {a b : VersionVector}
open Sfs.Container (SignMode)

variable {β : Type}

/-- The Meta stream of a projection travels as plaintext. -/
structure IncomingMeta where
  version : BlockVersion
  vv : VersionVector
  plain : Bytes
  deriving DecidableEq

/-- A parsed projection. In the signed modes `carried` is the verified signature. -/
structure Incoming where
  key : Bytes
  content : Projection
  carried : Option Signature
  hasContent : Bool
  metadata : Option IncomingMeta

/-- A record to become the head of a unit; `supersedes` says that the old head is its parent. -/
structure Imported (β : Type) where
  record : Record β
  supersedes : Bool

/-- The head after an import. -/
def headAfter (cur : Option (Record β)) : Option (Imported β) → Option (Record β)
  | none => cur
  | some imp => some imp.record

/-- `a` dominates `b` and is not equal to it. -/
def strictlyAhead (a b : VersionVector) : Bool := a.dominates b && a ≠ b

theorem strictlyAhead_iff : strictlyAhead a b = true ↔ b < a := by
  simp only [strictlyAhead, Bool.and_eq_true, decide_eq_true_eq, lt_iff_le_and_ne]
  exact and_congr_right fun _ => ⟨Ne.symm, Ne.symm⟩

theorem strictlyAhead_eq_false_iff : strictlyAhead a b = false ↔ ¬ b < a := by
  rw [← strictlyAhead_iff, Bool.not_eq_true]

theorem strictlyAhead_asymm (h : strictlyAhead a b = true) : strictlyAhead b a = false :=
  strictlyAhead_eq_false_iff.mpr (lt_asymm (strictlyAhead_iff.mp h))

theorem strictlyAhead_irrefl (a : VersionVector) : strictlyAhead a a = false :=
  strictlyAhead_eq_false_iff.mpr (lt_irrefl a)

theorem new_not_strictlyAhead (b : VersionVector) : strictlyAhead .new b = false :=
  strictlyAhead_eq_false_iff.mpr (VersionVector.new_le b).not_gt

/-- Concurrent streams are not ahead of each other. -/
theorem strictlyAhead_eq_false_of_concurrent (h : a.concurrentWith b = true) :
    strictlyAhead a b = false :=
  strictlyAhead_eq_false_iff.mpr fun hlt => (VersionVector.incompRel_iff.mpr h).2 hlt.le

/-- A stream that is neither ahead nor concurrent is behind or equal. -/
theorem le_of_ordered (ha : strictlyAhead a b = false) (hc : a.concurrentWith b = false) :
    a ≤ b := by
  by_contra hab
  have hba : b ≤ a := by
    by_contra hba
    rw [VersionVector.incompRel_iff.mp ⟨hab, hba⟩] at hc
    cases hc
  exact strictlyAhead_eq_false_iff.mp ha (lt_of_le_not_ge hba hab)

/-- The content stream of a unit that may not exist; none counts as empty. -/
def headStream (cur : Option (Record β)) : StreamMeta β := (cur.bind Record.content).getD .empty

/-- The vector of the local Meta stream; none counts as empty. -/
def headMetaVv (cur : Option (Record β)) : VersionVector :=
  ((cur.bind Record.metadata).map StreamMeta.vv).getD .new

def headStrains (cur : Option (Record β)) : List (StreamMeta β) := (cur.map Record.strains).getD []

def headDb (cur : Option (Record β)) : Option DbHead := cur.bind Record.db

/-- The strains that stay beside a head with vector `vv`: those that can be read and that `vv`
is not ahead of. -/
def preservedStrains (cur : Option (Record β)) (vv : VersionVector) : List (StreamMeta β) :=
  (headStrains cur).filter fun s => contentDecodes s && !strictlyAhead vv s.vv

/-- A strain (or the primary) has that vector already. -/
def alreadyPresent (head : Record β) (vv : VersionVector) : Bool :=
  head.vv = vv || head.strains.any fun s => contentDecodes s && s.vv = vv

/-- `stage_meta_from_import`: the dot and the vector of the author are kept. A sealed block has
28 bytes more than its plaintext. -/
def stageMetaFromImport (place : Bytes → β) (m : IncomingMeta) : StreamMeta β where
  frags := [⟨m.version, some (place m.plain)⟩]
  vv := m.vv
  fragsizeExp := 0
  lastFragLength := m.plain.length + 28
  pins := []

/-- The Meta stream of the projection as it would be stored. -/
def incomingMeta (place : Bytes → β) (inc : Incoming) : Option (StreamMeta β) :=
  inc.metadata.map (stageMetaFromImport place)

section

variable (scheme : SignatureScheme) (signer : Signer) (place : Bytes → β) (u : Uuid)

/-- The head record, if the unit is known. -/
def readHead (cur : Option (Record β)) : Result (Option (Record β)) :=
  match cur with
  | none => .ok none
  | some r => (readUnitRecord scheme signer u r).map some

/-- The projection of a unit without content. -/
def importMetaOnly (cur : Option (Record β)) (inc : Incoming) : Result (Option (Imported β)) :=
  match inc.metadata with
  | none => .error (.integrity "import_record: meta-only unit projection carries no meta stream")
  | some m => do
    let cur ← readHead scheme signer u cur
    if strictlyAhead (headMetaVv cur) m.vv then .ok none
    else
      let rec' : Record β := ⟨none, some (stageMetaFromImport place m), [], headDb cur, none⟩
      let stored ← writeUnitRecord scheme signer u rec' .fresh
      .ok (some ⟨stored, true⟩)

/-- Step 4c: in an unsigned container the Meta stream of the projection is attached to the
record just written. -/
def attachMeta (imp : Imported β) (inc : Incoming) : Result (Imported β) :=
  if signer.mode = .unsigned then
    match inc.metadata with
    | none => .ok imp
    | some m => do
      let cur ← readUnitRecord scheme signer u imp.record
      if strictlyAhead (headMetaVv (some cur)) m.vv then .ok imp
      else
        let stored ← writeUnitRecord scheme signer u
          { cur with metadata := some (stageMetaFromImport place m) } .fresh
        .ok { imp with record := stored }
  else .ok imp

/-- The record written for the content of a projection; `none` if it is ignored. -/
def importContent (cur : Option (Record β)) (inc : Incoming) : Result (Option (Imported β)) :=
  match Version.importRecord (headStream cur) inc.content with
  | .ignored => .ok none
  | .fastForward s => do
    let stored ← writeUnitRecord scheme signer u
      ⟨some s, none, preservedStrains cur inc.content.vv, headDb cur, inc.carried⟩ .preserve
    .ok (some ⟨stored, true⟩)
  | .autoMerge s => do
    let stored ← writeUnitRecord scheme signer u
      ⟨some s, none, preservedStrains cur s.vv, none, none⟩ .fresh
    .ok (some ⟨stored, true⟩)
  | .strainSplit s => do
    let _ ← writeUnitRecord scheme signer u ⟨some s, none, [], none, inc.carried⟩ .preserve
    match cur with
    | none => .error (.integrity "import_record strain-split: no existing head for primary")
    | some head =>
      let strains := if alreadyPresent head inc.content.vv then head.strains else head.strains ++ [s]
      let stored ← writeUnitRecord scheme signer u { head with strains } .preserve
      .ok (some ⟨stored, false⟩)

/-- `import_record` on the head `cur` of unit `u`. -/
def importRecord (cur : Option (Record β)) (inc : Incoming) : Result (Option (Imported β)) :=
  if inc.hasContent then do
    let cur ← readHead scheme signer u cur
    match ← importContent scheme signer u cur inc with
    | none => .ok none
    | some imp => (attachMeta scheme signer place u imp inc).map some
  else importMetaOnly scheme signer place u cur inc

end

/-! ## What an accepted import writes -/

section

variable {l s : StreamMeta β} {p : Projection}

theorem ahead_of_ignored (h : Version.importRecord l p = .ignored) :
    strictlyAhead l.vv p.vv = true := by
  unfold Version.importRecord at h
  split at h
  · assumption
  · split at h
    · cases h
    · split at h <;> cases h

theorem ordered_of_fastForward (h : Version.importRecord l p = .fastForward s) :
    strictlyAhead l.vv p.vv = false ∧ l.vv.concurrentWith p.vv = false ∧ s = fastForwarded l p := by
  unfold Version.importRecord at h
  split at h
  · cases h
  rename_i ha
  split at h
  · rename_i hc
    cases h
    exact ⟨Bool.not_eq_true _ ▸ ha, by simpa using hc, rfl⟩
  · split at h <;> cases h

theorem agree_of_autoMerge (h : Version.importRecord l p = .autoMerge s) :
    l.vv.concurrentWith p.vv = true ∧ hasConflictFrag l p = false ∧ s = autoMerged l p := by
  unfold Version.importRecord at h
  split at h
  · cases h
  split at h
  · cases h
  rename_i hc
  split at h
  · cases h
  · rename_i hf
    cases h
    exact ⟨by simpa using hc, by simpa using hf, rfl⟩

theorem conflict_of_strainSplit (h : Version.importRecord l p = .strainSplit s) :
    l.vv.concurrentWith p.vv = true ∧ hasConflictFrag l p = true ∧ s = strainOf p := by
  unfold Version.importRecord at h
  split at h
  · cases h
  split at h
  · cases h
  rename_i hc
  split at h
  · rename_i hf
    cases h
    exact ⟨by simpa using hc, hf, rfl⟩
  · cases h

end

section

variable {scheme : SignatureScheme} {signer : Signer} {place : Bytes → β} {u : Uuid}
  {cur cur' : Option (Record β)} {inc : Incoming}

theorem readHead_eq (h : readHead scheme signer u cur = .ok cur') : cur' = cur := by
  cases cur with
  | none => exact (Except.ok.inj h).symm
  | some r =>
    obtain ⟨r₁, hr, rfl⟩ := exists_of_map_ok h
    rw [readUnitRecord_eq hr]

theorem importMetaOnly_cases {res : Option (Imported β)}
    (h : importMetaOnly scheme signer place u cur inc = .ok res) :
    ∃ m, inc.metadata = some m ∧
      ((strictlyAhead (headMetaVv cur) m.vv = true ∧ res = none) ∨
        (strictlyAhead (headMetaVv cur) m.vv = false ∧ ∃ r, res = some ⟨r, true⟩ ∧ r.content = none ∧
          r.metadata = some (stageMetaFromImport place m) ∧ r.strains = [] ∧ r.db = headDb cur)) := by
  unfold importMetaOnly at h
  split at h
  · cases h
  rename_i m hm
  refine ⟨m, hm, ?_⟩
  obtain ⟨cur₁, hc, h⟩ := exists_of_bind_ok h
  cases readHead_eq hc
  split at h
  · rename_i hd
    cases h
    exact .inl ⟨hd, rfl⟩
  · rename_i hd
    obtain ⟨r, hr, h⟩ := exists_of_bind_ok h
    cases h
    obtain ⟨h1, h2, h3, h4⟩ := writeUnitRecord_sameData hr
    exact .inr ⟨by simpa using hd, r, rfl, h1, h2, h3, h4⟩

/-- The Meta stream of the record after step 4c. -/
def attachedMeta (mode : SignMode) (place : Bytes → β) (own : Option (StreamMeta β))
    (incoming : Option IncomingMeta) : Option (StreamMeta β) :=
  match mode, incoming with
  | .unsigned, some m =>
    if strictlyAhead ((own.map StreamMeta.vv).getD .new) m.vv then own
    else some (stageMetaFromImport place m)
  | _, _ => own

theorem attachMeta_spec {imp imp' : Imported β}
    (h : attachMeta scheme signer place u imp inc = .ok imp') :
    imp'.supersedes = imp.supersedes ∧ imp'.record.content = imp.record.content ∧
      imp'.record.strains = imp.record.strains ∧ imp'.record.db = imp.record.db ∧
      imp'.record.metadata = attachedMeta signer.mode place imp.record.metadata inc.metadata := by
  unfold attachMeta at h
  split at h
  · rename_i hmode
    split at h
    · rename_i hm
      cases h
      simp [attachedMeta, hm]
    rename_i m hm
    obtain ⟨r, hr, h⟩ := exists_of_bind_ok h
    cases readUnitRecord_eq hr
    split at h
    · rename_i hd
      cases h
      simp only [headMetaVv, Option.bind_some] at hd
      simp [attachedMeta, hmode, hm, hd]
    · rename_i hd
      obtain ⟨r', hw, h⟩ := exists_of_bind_ok h
      cases h
      obtain ⟨h1, h2, h3, h4⟩ := writeUnitRecord_sameData hw
      simp only [headMetaVv, Option.bind_some] at hd
      exact ⟨rfl, h1, h3, h4, by simp [attachedMeta, hmode, hm, hd, h2]⟩
  · rename_i hmode
    cases h
    refine ⟨rfl, rfl, rfl, rfl, ?_⟩
    unfold attachedMeta
    split
    · rename_i hu _
      exact absurd hu hmode
    · rfl

/-- What an accepted content projection does to the head `cur`: it is ignored, or it makes a new
head that is fast-forwarded to, merged with the local stream, or kept beside it as a strain. -/
inductive Accepts (mode : SignMode) (place : Bytes → β) (cur : Option (Record β)) (inc : Incoming) :
    Option (Imported β) → Prop
  | ignored (ahead : strictlyAhead (headStream cur).vv inc.content.vv = true) :
    Accepts mode place cur inc none
  | fastForward (r : Record β) (ahead : strictlyAhead (headStream cur).vv inc.content.vv = false)
      (ordered : (headStream cur).vv.concurrentWith inc.content.vv = false)
      (content : r.content = some (fastForwarded (headStream cur) inc.content))
      (strains : r.strains = preservedStrains cur inc.content.vv) (db : r.db = headDb cur)
      (metadata : r.metadata = attachedMeta mode place none inc.metadata) :
      Accepts mode place cur inc (some ⟨r, true⟩)
  | autoMerge (r : Record β) (concurrent : (headStream cur).vv.concurrentWith inc.content.vv = true)
      (agree : hasConflictFrag (headStream cur) inc.content = false)
      (content : r.content = some (autoMerged (headStream cur) inc.content))
      (strains : r.strains = preservedStrains cur ((headStream cur).vv.join inc.content.vv))
        (db : r.db = none)
      (metadata : r.metadata = attachedMeta mode place none inc.metadata) :
      Accepts mode place cur inc (some ⟨r, true⟩)
  | strainSplit (head r : Record β) (known : cur = some head)
      (concurrent : (headStream cur).vv.concurrentWith inc.content.vv = true)
      (conflict : hasConflictFrag (headStream cur) inc.content = true)
        (content : r.content = head.content)
      (strains : r.strains = if alreadyPresent head inc.content.vv then head.strains
        else head.strains ++ [strainOf inc.content])
      (db : r.db = head.db)
        (metadata : r.metadata = attachedMeta mode place head.metadata inc.metadata) :
      Accepts mode place cur inc (some ⟨r, false⟩)

/-- The record written for the content keeps everything but its Meta stream in step 4c. -/
theorem attach_sameData {w stored : Record β} {sup : Bool} {imp : Imported β}
    (hw : w.SameData stored) (ha : attachMeta scheme signer place u ⟨stored, sup⟩ inc = .ok imp) :
    imp = ⟨imp.record, sup⟩ ∧ imp.record.content = w.content ∧ imp.record.strains = w.strains ∧
      imp.record.db = w.db ∧ imp.record.metadata =
        attachedMeta signer.mode place w.metadata inc.metadata := by
  obtain ⟨h1, h2, h3, h4, h5⟩ := attachMeta_spec ha
  obtain ⟨w1, w2, w3, w4⟩ := hw
  obtain ⟨r, sup'⟩ := imp
  cases h1
  exact ⟨rfl, h2.trans w1, h3.trans w3, h4.trans w4, by rw [h5, w2]⟩

theorem importRecord_accepts {res : Option (Imported β)} (hc : inc.hasContent = true)
    (h : importRecord scheme signer place u cur inc = .ok res) :
    Accepts signer.mode place cur inc res := by
  unfold importRecord at h
  rw [if_pos hc] at h
  obtain ⟨cur₁, hcur, h⟩ := exists_of_bind_ok h
  cases readHead_eq hcur
  obtain ⟨res₁, hcont, h⟩ := exists_of_bind_ok h
  unfold importContent at hcont
  split at hcont
  · rename_i hi
    cases hcont
    cases h
    exact .ignored (ahead_of_ignored hi)
  · rename_i s hi
    obtain ⟨ahead, ordered, rfl⟩ := ordered_of_fastForward hi
    obtain ⟨stored, hw, hcont⟩ := exists_of_bind_ok hcont
    cases hcont
    obtain ⟨imp, ha, rfl⟩ := exists_of_map_ok h
    obtain ⟨hi, h1, h2, h3, h4⟩ := attach_sameData (writeUnitRecord_sameData hw) ha
    rw [hi]
    exact .fastForward _ ahead ordered h1 h2 h3 h4
  · rename_i s hi
    obtain ⟨concurrent, agree, rfl⟩ := agree_of_autoMerge hi
    obtain ⟨stored, hw, hcont⟩ := exists_of_bind_ok hcont
    cases hcont
    obtain ⟨imp, ha, rfl⟩ := exists_of_map_ok h
    obtain ⟨hi, h1, h2, h3, h4⟩ := attach_sameData (writeUnitRecord_sameData hw) ha
    rw [hi]
    exact .autoMerge _ concurrent agree h1 h2 h3 h4
  · rename_i s hi
    obtain ⟨concurrent, conflict, rfl⟩ := conflict_of_strainSplit hi
    obtain ⟨_, -, hcont⟩ := exists_of_bind_ok hcont
    cases hcur' : cur with
    | none =>
      rw [hcur'] at hcont
      cases hcont
    | some head =>
      rw [hcur'] at hcont
      obtain ⟨stored, hw, hcont⟩ := exists_of_bind_ok hcont
      cases hcont
      obtain ⟨imp, ha, rfl⟩ := exists_of_map_ok h
      obtain ⟨hi, h1, h2, h3, h4⟩ := attach_sameData (writeUnitRecord_sameData hw) ha
      rw [hi]
      rw [hcur'] at concurrent conflict
      exact .strainSplit head _ rfl concurrent conflict h1 h2 h3 h4

theorem importRecord_metaOnly (hc : inc.hasContent = false) :
    importRecord scheme signer place u cur inc = importMetaOnly scheme signer place u cur inc := by
  simp [importRecord, hc]

end

end Sfs.Sync

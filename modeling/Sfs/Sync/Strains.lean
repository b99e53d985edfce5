import Sfs.Lib.Frontier
import Sfs.Lib.Run
import Sfs.Sync.Import
import Sfs.Version.History

/-!
# Strains are the causal frontier

The primary stream of a unit and its concurrent strains should be the frontier of all versions
the replica has seen of it: pairwise concurrent, and above every version that was ever imported
or written. Events are imports in any order and local rewrites of the head record. A step keeps
the frontier if it meets `Keeps`; `frontier_run` is the statement for whole runs.
-/

namespace Sfs.Sync

open Sfs.Lib Sfs.Version VersionVector List

variable {r r' : Record Bytes} {op : ContentOp}

variable {β : Type}

/-- The head record as the content operations see it. -/
def Record.unitRecord (r : Record Bytes) : UnitRecord := ⟨r.content, r.strains⟩

open Record

/-- The versions a unit shows: the primary's and the strains'. -/
def frontier (cur : Option (Record β)) : List VersionVector :=
  (headStream cur).vv :: (headStrains cur).map StreamMeta.vv

inductive UnitEvent where
  | importRecord (inc : Incoming)
  | content (op : ContentOp)
  | writeMeta (plain : Bytes)

/-- `stage_meta_stream_versioned`. -/
def stageMetaStream (host : HostAlias) (prior : VersionVector) (plain : Bytes) : StreamMeta Bytes :=
  stageMetaFromImport id ⟨packDot host (prior.get host + 1), prior.bump host, plain⟩

section

variable (scheme : SignatureScheme) (signer : Signer) (u : Uuid)
variable (padBlocks : Bool) (suite : Suite) (host : HostAlias)

def readStrainRecords : List (StreamMeta Bytes) → Result Unit
  | [] => .ok ()
  | s :: rest =>
    match decodeRecord (⟨some s, none, [], none, none⟩ : Record Bytes) with
    | .error e => .error e
    | .ok _ => readStrainRecords rest

/-- The strain records an operation reads: resolving reads all of them. -/
def readStrainsFor (r : Record Bytes) : ContentOp → Result Unit
  | .resolveConflict _ => readStrainRecords r.strains
  | _ => .ok ()

/-- `write`, `truncate`, `extend` and `resolve_conflict`: the new head has no strains. -/
def contentOp (r : Record Bytes) (op : ContentOp) : Result (Option (Record Bytes)) := do
  let r ← readUnitRecord scheme signer u r
  let _ ← readStrainsFor r op
  match ← stage padBlocks suite host r.unitRecord [] op with
  | none => .ok none
  | some st =>
    let stored ← writeUnitRecord scheme signer u
      { r with content := some st.stream, strains := [], signature := none } .fresh
    .ok (some stored)

def writeMeta (r : Record Bytes) (plain : Bytes) : Result (Option (Record Bytes)) := do
  let r ← readUnitRecord scheme signer u r
  let stored ← writeUnitRecord scheme signer u
    { r with
      metadata := some (stageMetaStream host (headMetaVv (some r)) plain)
      strains := []
      signature := none }
    .fresh
  .ok (some stored)

/-- A local rewrite; a call that fails leaves the head as it was. -/
def rewrite (f : Record Bytes → Result (Option (Record Bytes))) (cur : Option (Record Bytes)) :
    Option (Record Bytes) :=
  match cur with
  | none => none
  | some r =>
    match f r with
    | .ok (some r') => some r'
    | _ => some r

def unitStep (cur : Option (Record Bytes)) : UnitEvent → Option (Record Bytes)
  | .importRecord inc =>
    match importRecord scheme signer id u cur inc with
    | .ok res => headAfter cur res
    | .error _ => cur
  | .content op => rewrite (fun r => contentOp scheme signer u padBlocks suite host r op) cur
  | .writeMeta plain => rewrite (fun r => writeMeta scheme signer u host r plain) cur

/-- The content versions an event brings: the one imported, or the one written. -/
def brings (cur : Option (Record Bytes)) (ev : UnitEvent) : List VersionVector :=
  match ev with
  | .importRecord inc =>
    match importRecord scheme signer id u cur inc with
    | .ok _ => if inc.hasContent then [inc.content.vv] else []
    | .error _ => []
  | _ => [(headStream (unitStep scheme signer u padBlocks suite host cur ev)).vv]

/-- A unit with all versions it ever imported or wrote. -/
abbrev Traced := Option (Record Bytes) × List VersionVector

def tracedStep (t : Traced) (ev : UnitEvent) : Traced :=
  (unitStep scheme signer u padBlocks suite host t.1 ev,
    brings scheme signer u padBlocks suite host t.1 ev ++ t.2)

/-! ## The condition -/

/-- No strain is dropped or doubled by the import of `inc`, and no known version forgotten. -/
def ImportKeeps (cur : Option (Record Bytes)) (inc : Incoming) : Prop :=
  if inc.hasContent = false then
    -- a Meta stream that is applied replaces the whole record
    (headStream cur).vv = .new ∨ (inc.metadata.any fun m => strictlyAhead (headMetaVv cur) m.vv) = true
  else if strictlyAhead (headStream cur).vv inc.content.vv then True
  else if (headStream cur).vv.concurrentWith inc.content.vv then
    if hasConflictFrag (headStream cur) inc.content then
      -- a new strain is compared with the others for equality only
      ∀ s ∈ headStrains cur, s.vv.concurrentWith inc.content.vv = true ∨
        contentDecodes s = true ∧ s.vv = inc.content.vv
    else ∀ s ∈ headStrains cur, contentDecodes s = true ∨
      s.vv ≤ (headStream cur).vv.join inc.content.vv
  else ∀ s ∈ headStrains cur, contentDecodes s = true ∨ s.vv ≤ inc.content.vv

instance (cur : Option (Record Bytes)) (inc : Incoming) : Decidable (ImportKeeps cur inc) :=
  inferInstanceAs (Decidable (ite _ _ _))

/-- A rewrite by `op` writes on: it does not start the stream over, and no strain is left behind. -/
def RewriteKeeps (host : HostAlias) (r : Record Bytes) (op : ContentOp) : Prop :=
  op.Stages r.unitRecord → ¬ op.Empties r.unitRecord ∧ ∀ s ∈ r.strains, s.vv ≤ r.vv.bump host

instance (host : HostAlias) (r : Record Bytes) (op : ContentOp) : Decidable (RewriteKeeps host r op) :=
  inferInstanceAs (Decidable (_ → _))

def Keeps (cur : Option (Record Bytes)) : UnitEvent → Prop
  | .importRecord inc => (importRecord scheme signer id u cur inc).isOk → ImportKeeps cur inc
  | .content (.resolveConflict _) => True
  | .content op => cur.all fun r => RewriteKeeps host r op
  | .writeMeta _ => headStrains cur = []

instance (cur : Option (Record Bytes)) :
    (ev : UnitEvent) → Decidable (Keeps scheme signer u host cur ev)
  | .importRecord _ => inferInstanceAs (Decidable (_ → _))
  | .content (.resolveConflict _) => isTrue trivial
  | .content (.write _ _) => inferInstanceAs (Decidable (Option.all _ _ = true))
  | .content (.writeRawKey _ _) => inferInstanceAs (Decidable (Option.all _ _ = true))
  | .content (.truncate _) => inferInstanceAs (Decidable (Option.all _ _ = true))
  | .content (.extend _) => inferInstanceAs (Decidable (Option.all _ _ = true))
  | .writeMeta _ => inferInstanceAs (Decidable (headStrains cur = []))

end

/-! ## One step -/

section

variable {place : Bytes → Bytes} {signer : Signer} {cur : Option (Record Bytes)} {inc : Incoming}

theorem frontier_some (r : Record β) : frontier (some r) = r.vv :: r.strains.map StreamMeta.vv := rfl

/-- A new head above the old one, with the strains it is not ahead of. -/
theorem frontier_preserved {vv : VersionVector} (h : Antichain (frontier cur))
    (hle : (headStream cur).vv ≤ vv)
    (hd : ∀ s ∈ headStrains cur, contentDecodes s = true ∨ s.vv ≤ vv) :
    Antichain (vv :: (preservedStrains cur vv).map StreamMeta.vv) ∧
      Covers (vv :: (preservedStrains cur vv).map StreamMeta.vv) (frontier cur) := by
  constructor
  · refine h.replace hle (filter_sublist.map _) ?_
    intro v hv hlt
    obtain ⟨s, hs, rfl⟩ := mem_map.mp hv
    have hs := (mem_filter.mp hs).2
    simp only [Bool.and_eq_true, Bool.not_eq_true'] at hs
    exact strictlyAhead_eq_false_iff.mp hs.2 hlt
  · refine covers_replace hle fun v hv => ?_
    obtain ⟨s, hs, rfl⟩ := mem_map.mp hv
    by_cases hk : s ∈ preservedStrains cur vv
    · exact .inl (mem_map_of_mem hk)
    right
    rcases hd s hs with hdec | hle
    · by_contra hn
      refine hk (mem_filter.mpr ⟨hs, ?_⟩)
      simp only [hdec, Bool.true_and, Bool.not_eq_true']
      exact strictlyAhead_eq_false_iff.mpr fun hlt => hn hlt.le
    · exact hle

theorem frontier_import {res : Option (Imported Bytes)} (h : Antichain (frontier cur))
    (hacc : Accepts signer.mode place cur inc res) (hk : ImportKeeps cur inc)
    (hc : inc.hasContent = true) :
    Antichain (frontier (headAfter cur res)) ∧ Covers (frontier (headAfter cur res)) (frontier cur) ∧
      Covers (frontier (headAfter cur res)) [inc.content.vv] := by
  unfold ImportKeeps at hk
  rw [if_neg (by simp [hc])] at hk
  cases hacc with
  | ignored ahead =>
    refine ⟨h, .refl _, covers_singleton.mpr ⟨_, .head _, ?_⟩⟩
    exact (strictlyAhead_iff.mp ahead).le
  | fastForward r ahead ordered content strains db metadata =>
    rw [if_neg (by simp [ahead]), if_neg (by simp [ordered])] at hk
    have hf : frontier (headAfter cur (some ⟨r, true⟩)) =
        inc.content.vv :: (preservedStrains cur inc.content.vv).map StreamMeta.vv := by
      rw [headAfter, frontier_some, strains, vv, stream, content]
      rfl
    obtain ⟨h1, h2⟩ := frontier_preserved h (le_of_ordered ahead ordered) hk
    rw [hf]
    exact ⟨h1, h2, covers_singleton.mpr ⟨_, .head _, le_refl _⟩⟩
  | autoMerge r concurrent agree content strains db metadata =>
    rw [if_neg (by simp [strictlyAhead_eq_false_of_concurrent concurrent]), if_pos concurrent,
      if_neg (by simp [agree])] at hk
    have hf : frontier (headAfter cur (some ⟨r, true⟩)) = (headStream cur).vv.join inc.content.vv ::
        (preservedStrains cur ((headStream cur).vv.join inc.content.vv)).map StreamMeta.vv := by
      rw [headAfter, frontier_some, strains, vv, stream, content]
      rfl
    obtain ⟨h1, h2⟩ := frontier_preserved h (join_dominates_left _ _) hk
    rw [hf]
    exact ⟨h1, h2, covers_singleton.mpr ⟨_, .head _, join_dominates_right _ _⟩⟩
  | strainSplit head r known concurrent conflict content strains db metadata =>
    rw [if_neg (by simp [strictlyAhead_eq_false_of_concurrent concurrent]), if_pos concurrent,
      if_pos conflict] at hk
    have hvv : r.vv = (headStream cur).vv := by
      rw [vv, stream, content, known]
      rfl
    rw [headAfter, frontier_some, hvv, strains]
    have hstr : headStrains cur = head.strains := by rw [known]; rfl
    have hfr : frontier cur = (headStream cur).vv :: head.strains.map StreamMeta.vv := by
      rw [frontier, hstr]
    rw [hstr] at hk
    split
    · rename_i hp
      rw [← hfr]
      refine ⟨h, .refl _, covers_singleton.mpr ?_⟩
      simp only [alreadyPresent, Bool.or_eq_true, decide_eq_true_eq, any_eq_true, Bool.and_eq_true]
        at hp
      rcases hp with hp | ⟨s, hs, -, hp⟩
      · refine ⟨(headStream cur).vv, .head _, le_of_eq ?_⟩
        rw [known, ← hp]
        rfl
      · exact ⟨s.vv, by rw [hfr]; exact .tail _ (mem_map_of_mem hs), le_of_eq hp.symm⟩
    · rename_i hp
      have hnew : (strainOf inc.content : StreamMeta Bytes).vv = inc.content.vv := rfl
      have hsplit : (headStream cur).vv :: (head.strains ++ [strainOf inc.content]).map StreamMeta.vv =
          frontier cur ++ [inc.content.vv] := by rw [hfr, map_append]; rfl
      rw [hsplit]
      refine ⟨h.concat fun v hv => ?_, fun v hv => ⟨v, mem_append_left _ hv, le_refl v⟩,
        covers_singleton.mpr ⟨_, by simp, le_refl _⟩⟩
      rw [hfr] at hv
      rcases mem_cons.mp hv with rfl | hv
      · exact incompRel_iff.mpr concurrent
      obtain ⟨s, hs, rfl⟩ := mem_map.mp hv
      rcases hk s hs with hcc | ⟨hdec, heq⟩
      · exact incompRel_iff.mpr hcc
      · refine absurd ?_ hp
        simp only [alreadyPresent, Bool.or_eq_true, any_eq_true, Bool.and_eq_true, decide_eq_true_eq]
        exact .inr ⟨s, hs, hdec, heq⟩

/-- A Meta stream that is applied replaces the record; nothing is forgotten if it held nothing. -/
theorem frontier_importMetaOnly {scheme : SignatureScheme} {u : Uuid}
    {res : Option (Imported Bytes)} (h : Antichain (frontier cur)) (hc : inc.hasContent = false)
    (hk : ImportKeeps cur inc) (hi : importMetaOnly scheme signer place u cur inc = .ok res) :
    Antichain (frontier (headAfter cur res)) ∧
      Covers (frontier (headAfter cur res)) (frontier cur) := by
  obtain ⟨m, hm, ⟨-, rfl⟩ | ⟨ha, r, rfl, hcont, -, hstr, -⟩⟩ := importMetaOnly_cases hi
  · exact ⟨h, .refl _⟩
  have hf : frontier (headAfter cur (some ⟨r, true⟩)) = [.new] := by
    rw [headAfter, frontier_some, hstr, vv, stream, hcont]
    rfl
  have hnew : (headStream cur).vv = .new := by
    simpa [ImportKeeps, hc, hm, ha] using hk
  unfold frontier at h
  have hnil := h.eq_nil_of_le (by rw [hnew]; exact new_le)
  rw [hf]
  refine ⟨pairwise_singleton _ _, ?_⟩
  rw [frontier, hnil, hnew]
  exact .refl _

end

section

variable {scheme : SignatureScheme} {signer : Signer} {u : Uuid} {padBlocks : Bool} {suite : Suite}
  {host : HostAlias}

/-- A content operation that wrote something staged it over the head. -/
theorem contentOp_some (h : contentOp scheme signer u padBlocks suite host r op = .ok (some r')) :
    ∃ st, stage padBlocks suite host r.unitRecord [] op = .ok (some st) ∧ r'.content = some st.stream ∧
      r'.strains = [] := by
  obtain ⟨r₁, hr, h⟩ := exists_of_bind_ok h
  cases readUnitRecord_eq hr
  obtain ⟨_, -, h⟩ := exists_of_bind_ok h
  obtain ⟨staged, hst, h⟩ := exists_of_bind_ok h
  cases staged with
  | none => cases h
  | some st =>
    obtain ⟨stored, hw, h⟩ := exists_of_bind_ok h
    cases h
    obtain ⟨h1, -, h3, -⟩ := writeUnitRecord_sameData hw
    exact ⟨st, hst, h1, h3⟩

theorem writeMeta_some {plain : Bytes} {res : Option (Record Bytes)}
    (h : writeMeta scheme signer u host r plain = .ok res) :
    ∃ r', res = some r' ∧ r'.content = r.content ∧ r'.strains = [] := by
  obtain ⟨r₁, hr, h⟩ := exists_of_bind_ok h
  cases readUnitRecord_eq hr
  obtain ⟨stored, hw, h⟩ := exists_of_bind_ok h
  cases h
  obtain ⟨h1, -, h3, -⟩ := writeUnitRecord_sameData hw
  exact ⟨stored, rfl, h1, h3⟩

/-- A head without strains that has seen the primary and every strain. -/
theorem frontier_collapse {s : StreamMeta Bytes} (hc : r'.content = some s)
    (hstr : r'.strains = []) (hle : r.vv ≤ s.vv) (hall : ∀ t ∈ r.strains, t.vv ≤ s.vv) :
    Antichain (frontier (some r')) ∧ Covers (frontier (some r')) (frontier (some r)) := by
  have hf : frontier (some r') = [s.vv] := by
    rw [frontier_some, hstr, vv, stream, hc]
    rfl
  rw [hf]
  refine ⟨pairwise_singleton _ _, covers_replace hle fun v hv => ?_⟩
  obtain ⟨t, ht, rfl⟩ := mem_map.mp hv
  exact .inr (hall t ht)

theorem keeps_content_cases (h : Keeps scheme signer u host (some r) (.content op)) :
    (∃ res, op = .resolveConflict res) ∨ RewriteKeeps host r op := by
  cases op with
  | resolveConflict res => exact .inl ⟨res, rfl⟩
  | write | writeRawKey | truncate | extend =>
    simp only [Keeps, Option.all_some, decide_eq_true_eq] at h
    exact .inr h

theorem frontier_contentOp (h : contentOp scheme signer u padBlocks suite host r op = .ok (some r'))
    (hk : Keeps scheme signer u host (some r) (.content op)) :
    Antichain (frontier (some r')) ∧ Covers (frontier (some r')) (frontier (some r)) := by
  obtain ⟨st, hst, hc, hstr⟩ := contentOp_some h
  rcases keeps_content_cases hk with ⟨res, rfl⟩ | hk
  · refine frontier_collapse hc hstr ?_ fun t ht => strain_le_of_resolve (r := r.unitRecord) ht hst
    exact le_trans (le_bump _ host) (bump_le_of_stage hst fun he => by cases he.1)
  · obtain ⟨he, hall⟩ := hk (stages_of_stage hst)
    have hle := bump_le_of_stage hst he
    exact frontier_collapse hc hstr (le_trans (le_bump _ host) hle) fun t ht =>
      le_trans (hall t ht) hle

/-- One event keeps the frontier, and it covers what the event brings. -/
theorem frontier_step (padBlocks : Bool) (suite : Suite) {cur : Option (Record Bytes)} {ev : UnitEvent}
    (h : Antichain (frontier cur)) (hk : Keeps scheme signer u host cur ev) :
    Antichain (frontier (unitStep scheme signer u padBlocks suite host cur ev)) ∧
      Covers (frontier (unitStep scheme signer u padBlocks suite host cur ev)) (frontier cur) ∧
      Covers (frontier (unitStep scheme signer u padBlocks suite host cur ev))
        (brings scheme signer u padBlocks suite host cur ev) := by
  cases ev with
  | importRecord inc =>
    simp only [unitStep, brings]
    cases hi : importRecord scheme signer id u cur inc with
    | error e => exact ⟨h, .refl _, by simp [Covers]⟩
    | ok res =>
      have hik : ImportKeeps cur inc := hk (by rw [hi]; rfl)
      by_cases hc : inc.hasContent = true
      · obtain ⟨h1, h2, h3⟩ := frontier_import h (importRecord_accepts hc hi) hik hc
        exact ⟨h1, h2, by simpa only [hc, if_true] using h3⟩
      · have hc : inc.hasContent = false := by simpa using hc
        rw [importRecord_metaOnly hc] at hi
        obtain ⟨h1, h2⟩ := frontier_importMetaOnly h hc hik hi
        exact ⟨h1, h2, by simp [hc, Covers]⟩
  | content op =>
    refine and_assoc.mp ⟨?_, covers_singleton.mpr ⟨_, .head _, le_refl _⟩⟩
    cases cur with
    | none => exact ⟨h, .refl _⟩
    | some r =>
      simp only [unitStep, rewrite]
      split
      · rename_i r' hr
        exact frontier_contentOp hr hk
      · exact ⟨h, .refl _⟩
  | writeMeta plain =>
    refine and_assoc.mp ⟨?_, covers_singleton.mpr ⟨_, .head _, le_refl _⟩⟩
    cases cur with
    | none => exact ⟨h, .refl _⟩
    | some r =>
      simp only [unitStep, rewrite]
      split
      · rename_i r' hr
        obtain ⟨r₁, hr₁, hc, hstr⟩ := writeMeta_some hr
        cases hr₁
        have hf : frontier (some r') = frontier (some r) := by
          rw [frontier_some, frontier_some, hstr, vv, stream, hc, show r.strains = [] from hk]
          rfl
        rw [hf]
        exact ⟨h, .refl _⟩
      · exact ⟨h, .refl _⟩

end

/-- The primary and the strains of a unit are pairwise concurrent and above every version that
was ever imported or written, and no step lets go of a strain that nothing is above, in every
run of imports and local rewrites whose steps meet `Keeps`. -/
theorem frontier_run (scheme : SignatureScheme) (signer : Signer) (u : Uuid) (padBlocks : Bool)
    (suite : Suite) (host : HostAlias) (t : Traced) (events : List UnitEvent)
    (h : Antichain (frontier t.1)) (hseen : Covers (frontier t.1) t.2)
    (hk : Along (tracedStep scheme signer u padBlocks suite host)
      (fun t ev => Keeps scheme signer u host t.1 ev) t events) :
    Antichain (frontier (run (tracedStep scheme signer u padBlocks suite host) t events).1) ∧
      Covers (frontier (run (tracedStep scheme signer u padBlocks suite host) t events).1)
        (run (tracedStep scheme signer u padBlocks suite host) t events).2 ∧
      Along (tracedStep scheme signer u padBlocks suite host)
        (fun t ev => Covers (frontier (unitStep scheme signer u padBlocks suite host t.1 ev))
          (frontier t.1))
        t events := by
  induction events generalizing t with
  | nil => exact ⟨h, hseen, trivial⟩
  | cons ev rest ih =>
    obtain ⟨h1, h2, h3⟩ := frontier_step padBlocks suite h hk.1
    obtain ⟨i1, i2, i3⟩ := ih (tracedStep scheme signer u padBlocks suite host t ev) h1
      (h3.append (h2.trans hseen)) hk.2
    exact ⟨i1, i2, h2, i3⟩

/-- A new unit, and a peer's version of it that was written apart. -/
def freshUnit : Record Bytes := ⟨some .empty, none, [], none, none⟩

def writtenBy2 : Incoming := ⟨[97], ⟨[packDot 2 1], VersionVector.new.bump 2, 12, 1⟩, none, true, none⟩

/-- A conflict that is resolved before the next write. -/
theorem frontier_run_resolved :
    let events := [UnitEvent.content (.write 0 [7]), .importRecord writtenBy2,
      .content (.resolveConflict (.chooseStrain 0)), .content (.write 0 [8])]
    let t := run (tracedStep checksumScheme .unsigned 5 false .none 1) (some freshUnit, []) events
    Antichain (frontier t.1) ∧ Covers (frontier t.1) t.2 ∧
      Along (tracedStep checksumScheme .unsigned 5 false .none 1)
        (fun t ev => Covers (frontier (unitStep checksumScheme .unsigned 5 false .none 1 t.1 ev))
          (frontier t.1))
        (some freshUnit, []) events :=
  frontier_run checksumScheme .unsigned 5 false .none 1 _ _ (pairwise_singleton _ _) (by simp [Covers])
    (by decide)

/-- A write to a unit in conflict drops the strain: the version imported is above nothing. -/
theorem strain_lost_by_write :
    let t := run (tracedStep checksumScheme .unsigned 5 false .none 1) (some freshUnit, [])
      [.content (.write 0 [7]), .importRecord writtenBy2, .content (.write 0 [8])]
    writtenBy2.content.vv ∈ t.2 ∧ ¬ Covers (frontier t.1) t.2 := by
  refine ⟨by decide, fun h => ?_⟩
  obtain ⟨w, hw, hle⟩ := h writtenBy2.content.vv (by decide)
  revert w
  decide

/-- The order in which two related versions of a peer arrive is not kept: the older one becomes
a strain beside the newer. -/
example :
    let older : Incoming := writtenBy2
    let newer : Incoming := { writtenBy2 with
      content := ⟨[packDot 2 2], (VersionVector.new.bump 2).bump 2, 12, 1⟩ }
    let t := run (tracedStep checksumScheme .unsigned 5 false .none 1) (some freshUnit, [])
      [.content (.write 0 [7]), .importRecord newer, .importRecord older]
    ∃ a ∈ frontier t.1, ∃ b ∈ frontier t.1, a ≤ b ∧ a ≠ b := by
  decide

end Sfs.Sync

import Sfs.Sync.Wire

/-!
# Imported bytes and the records they leave

From the bytes of a projection to the bytes of the records stored for it. `import_record` copies
the exponent of the projection into the record without the range check that `UnitRecord::decode`
makes, and a merged vector can have more entries than its count can say; `Storable` is what is
left to ask of an accepted projection.
-/

namespace Sfs.Sync

open Sfs.Lib Sfs.Version

variable {s : StreamMeta BlockLoc}
open Sfs.Container (SignMode)

variable {β : Type}

/-- The records written for an accepted projection: the new head, and the record of a strain. -/
def recordsWritten (cur : Option (Record β)) (inc : Incoming) (imp : Imported β) : List (Record β) :=
  imp.record ::
    if inc.hasContent then
      match Version.importRecord (headStream cur) inc.content with
      | .strainSplit s => [⟨some s, none, [], none, inc.carried⟩]
      | _ => []
    else []

/-- The exponent of the projection is one the decoder allows. -/
def ExpAllowed (p : Projection) : Prop :=
  minFragsizeExp ≤ p.fragsizeExp ∧ p.fragsizeExp ≤ maxFragsizeExp

/-- The projection can be stored over the head `cur`: split over what `import_record` does with
its content. -/
def Storable (cur : Option (Record β)) (inc : Incoming) : Prop :=
  if inc.hasContent = false ∨ strictlyAhead (headStream cur).vv inc.content.vv = true then True
  else if (headStream cur).vv.concurrentWith inc.content.vv = true ∧
      hasConflictFrag (headStream cur) inc.content = false then
    ((headStream cur).vv.join inc.content.vv).entries.length < 65536
  else ExpAllowed inc.content

/-! ## Sizes -/

theorem counters_iff {vv : VersionVector} :
    (∀ e ∈ vv.entries, e.2 < 2 ^ 64) ↔ ∀ h, vv.get h < 2 ^ 64 := by
  constructor
  · intro hall h
    by_cases hz : vv.get h = 0
    · omega
    · exact hall _ (mem_of_lookup hz)
  · rintro hall ⟨h, v⟩ he
    have : vv.get h = v := lookup_mem vv.sparse he
    exact this ▸ hall h

theorem counters_join {a b : VersionVector} (ha : ∀ e ∈ a.entries, e.2 < 2 ^ 64)
    (hb : ∀ e ∈ b.entries, e.2 < 2 ^ 64) : ∀ e ∈ (a.join b).entries, e.2 < 2 ^ 64 := by
  rw [counters_iff] at *
  intro h
  rw [VersionVector.get_join]
  exact max_lt (ha h) (hb h)

theorem streamFits_empty : StreamFits .empty :=
  ⟨by decide, by simp [StreamMeta.empty, VersionVector.new], by decide, by decide, by
    simp [StreamMeta.empty]⟩

section

variable {cur : Option (Record BlockLoc)} {l : StreamMeta BlockLoc} {p : Projection}
  {place : Bytes → BlockLoc}
  {u : Uuid} {inc : Incoming}

theorem streamFits_headStream (hcur : ∀ r, cur = some r → RecordFits r) :
    StreamFits (headStream cur) := by
  cases hc : cur.bind Record.content with
  | none => simpa [headStream, hc] using streamFits_empty
  | some s =>
    obtain ⟨r, hr, hs⟩ := Option.bind_eq_some_iff.mp hc
    simpa [headStream, hc] using (hcur r hr).content s hs

/-- The numbers of a parsed projection are in range. -/
structure ProjectionFits (p : Projection) : Prop where
  frags : p.unitMap.length < 2 ^ 32
  fragsizeExp : p.fragsizeExp < 256
  vv : p.vv.Fits

theorem streamFits_fastForwarded (hp : ProjectionFits p) : StreamFits (fastForwarded l p) :=
  ⟨by simpa [fastForwarded] using hp.frags, hp.vv.counters, hp.fragsizeExp,
    Nat.two_pow_pos 32, by simp [fastForwarded]⟩

theorem streamFits_strainOf (hp : ProjectionFits p) : StreamFits (strainOf p) :=
  ⟨by simpa [strainOf] using hp.frags, hp.vv.counters, hp.fragsizeExp,
    Nat.two_pow_pos 32, by simp [strainOf]⟩

theorem streamFits_autoMerged (hl : StreamFits l) (hp : ProjectionFits p) :
    StreamFits (autoMerged l p) := by
  refine ⟨?_, counters_join hl.counters hp.vv.counters, hl.fragsizeExp,
    Nat.two_pow_pos 32, by simp [autoMerged]⟩
  have := hl.frags
  have := hp.frags
  simp only [autoMerged, totalFrags, List.length_map, List.length_range]
  omega

theorem streamFits_stageMeta {m : IncomingMeta} (hm : MetaFits m) :
    StreamFits (stageMetaFromImport place m) :=
  ⟨by simp [stageMetaFromImport], hm.vv.counters, by simp [stageMetaFromImport], Nat.two_pow_pos 32,
    by simp [stageMetaFromImport]⟩

/-- The Meta stream of the new head is the one it had or the one of the projection. -/
theorem attachedMeta_cases {mode : SignMode} {own : Option (StreamMeta BlockLoc)}
    {m : Option IncomingMeta} (h : attachedMeta mode place own m = some s) :
    own = some s ∨ ∃ m', m = some m' ∧ s = stageMetaFromImport place m' := by
  unfold attachedMeta at h
  split at h
  · rename_i m'
    split at h
    · exact .inl h
    · cases h
      exact .inr ⟨m', rfl, rfl⟩
  · exact .inl h

/-! ## What is stored -/

theorem contentDecodes_iff :
    contentDecodes s = true ↔
      (minFragsizeExp ≤ s.fragsizeExp ∧ s.fragsizeExp ≤ maxFragsizeExp) ∧
        s.vv.entries.length < 65536 := by
  simp [contentDecodes, vvDecodes]

theorem contentDecodes_fastForwarded (hp : ProjectionFits p) :
    contentDecodes (fastForwarded l p) = true ↔ ExpAllowed p := by
  rw [contentDecodes_iff]
  exact and_iff_left hp.vv.count

theorem contentDecodes_strainOf (hp : ProjectionFits p) :
    contentDecodes (strainOf p : StreamMeta BlockLoc) = true ↔ ExpAllowed p := by
  rw [contentDecodes_iff]
  exact and_iff_left hp.vv.count

/-- An import reads the head first, and so the head decodes. -/
theorem headDecodes_of_import {scheme : SignatureScheme} {signer : Signer} {r : Record BlockLoc}
    {res : Option (Imported BlockLoc)} (hc : inc.hasContent = true)
    (h : importRecord scheme signer place u (some r) inc = .ok res) :
    (∀ s, r.content = some s → contentDecodes s = true) ∧ ∀ s,
      r.metadata = some s → vvDecodes s.vv = true := by
  unfold importRecord at h
  rw [if_pos hc] at h
  obtain ⟨cur₁, hcur, -⟩ := exists_of_bind_ok h
  obtain ⟨r₁, hr, -⟩ := exists_of_map_ok hcur
  exact (decodeRecord_ok_iff.mp (readUnitRecord_ok_iff.mp hr).2.1).2

/-- A unit with concurrent content has a content stream. -/
theorem content_of_concurrent (h : (headStream cur).vv.concurrentWith p.vv = true) :
    ∃ r s, cur = some r ∧ r.content = some s ∧ headStream cur = s := by
  cases hc : cur.bind Record.content with
  | none =>
    have : headStream cur = .empty := by rw [headStream, hc]; rfl
    rw [this] at h
    exact absurd (VersionVector.new_le p.vv) (VersionVector.incompRel_iff.mpr h).1
  | some s =>
    obtain ⟨r, hr, hs⟩ := Option.bind_eq_some_iff.mp hc
    exact ⟨r, s, hr, hs, by rw [headStream, hc]; rfl⟩

end

section

variable {scheme : SignatureScheme} {signer : Signer} {place : Bytes → BlockLoc} {u : Uuid}
  {cur : Option (Record BlockLoc)} {inc : Incoming} {imp : Imported BlockLoc}

/-- The Meta stream of a projection decodes wherever it is attached. -/
theorem attached_decodes {mode : SignMode} {own : Option (StreamMeta BlockLoc)}
    (hown : ∀ s, own = some s → StreamFits s ∧ vvDecodes s.vv = true)
    (hm : ∀ m, inc.metadata = some m → MetaFits m)
    (h : attachedMeta mode place own inc.metadata = some s) :
    StreamFits s ∧ vvDecodes s.vv = true := by
  rcases attachedMeta_cases h with h | ⟨m, hm', rfl⟩
  · exact hown s h
  · exact ⟨streamFits_stageMeta (hm m hm'), decide_eq_true (hm m hm').vv.count⟩

/-- A head whose content stream is new: all depends on that stream. -/
theorem decodable_iff_content {r : Record BlockLoc} (hc : r.content = some s)
    (hs : StreamFits s) (hm : ∀ m, r.metadata = some m → StreamFits m ∧ vvDecodes m.vv = true) :
    Decodable u r ↔ contentDecodes s = true := by
  have hf : RecordFits r := ⟨fun s' h => by cases hc.symm.trans h; exact hs, fun m h => (hm m h).1⟩
  rw [decodable_iff hf]
  constructor
  · exact fun h => h.1 s hc
  · intro h
    refine ⟨fun s' h' => ?_, fun m h' => (hm m h').2⟩
    cases hc.symm.trans h'
    exact h

/-- Only a strain-split writes a second record. -/
theorem recordsWritten_of_ne
    (h : ∀ s, Version.importRecord (headStream cur) inc.content ≠ .strainSplit s) :
    recordsWritten cur inc imp = [imp.record] := by
  unfold recordsWritten
  split
  · split
    · rename_i hs
      exact absurd hs (h _)
    · rfl
  · rfl

theorem recordsWritten_ordered (ordered : (headStream cur).vv.concurrentWith inc.content.vv = false) :
    recordsWritten cur inc imp = [imp.record] :=
  recordsWritten_of_ne fun _ h => Bool.noConfusion (ordered.symm.trans (conflict_of_strainSplit h).1)

theorem recordsWritten_agree (agree : hasConflictFrag (headStream cur) inc.content = false) :
    recordsWritten cur inc imp = [imp.record] :=
  recordsWritten_of_ne fun _ h => Bool.noConfusion (agree.symm.trans (conflict_of_strainSplit h).2.1)

theorem recordsWritten_split (hc : inc.hasContent = true)
    (concurrent : (headStream cur).vv.concurrentWith inc.content.vv = true)
    (conflict : hasConflictFrag (headStream cur) inc.content = true) :
    recordsWritten cur inc imp = [imp.record,
      ⟨some (strainOf inc.content), none, [], none, inc.carried⟩] := by
  have ha : ¬ strictlyAhead (headStream cur).vv inc.content.vv = true := by
    rw [strictlyAhead_eq_false_of_concurrent concurrent]
    exact fun h => (nomatch h)
  have hi : Version.importRecord (headStream cur) inc.content =
      .strainSplit (strainOf inc.content) := by
    unfold strictlyAhead at ha
    unfold Version.importRecord
    rw [if_neg ha, if_neg (by simp [concurrent]), if_pos conflict]
  unfold recordsWritten
  rw [if_pos hc, hi]

/-- The records stored for an accepted projection are decoded exactly when it is `Storable`. -/
theorem recordsWritten_decodable_iff (hcur : ∀ r, cur = some r → RecordFits r)
    (hp : ProjectionFits inc.content) (hm : ∀ m, inc.metadata = some m → MetaFits m)
    (h : importRecord scheme signer place u cur inc = .ok (some imp)) :
    (∀ r ∈ recordsWritten cur inc imp, Decodable u r) ↔ Storable cur inc := by
  by_cases hc : inc.hasContent = false
  · -- a meta-only record has no content stream to refuse
    rw [Storable, if_pos (.inl hc)]
    refine iff_of_true ?_ trivial
    rw [importRecord_metaOnly hc] at h
    obtain ⟨m, hm', ⟨-, himp⟩ | ⟨-, r, himp, hcont, hmeta, -, -⟩⟩ := importMetaOnly_cases h
    · cases himp
    cases himp
    simp only [recordsWritten, hc, Bool.false_eq_true, if_false, List.mem_singleton, forall_eq]
    have hf : RecordFits r := by
      refine ⟨fun s hs => absurd (hs.symm.trans hcont) (Option.some_ne_none s), fun s hs => ?_⟩
      cases hmeta.symm.trans hs
      exact streamFits_stageMeta (hm m hm')
    rw [decodable_iff hf]
    refine ⟨fun s hs => absurd (hs.symm.trans hcont) (Option.some_ne_none s), fun s hs => ?_⟩
    cases hmeta.symm.trans hs
    exact decide_eq_true (hm m hm').vv.count
  · have hct : inc.hasContent = true := by simpa using hc
    have hnone : ∀ s : StreamMeta BlockLoc, (none : Option (StreamMeta BlockLoc)) = some s →
        StreamFits s ∧ vvDecodes s.vv = true := fun s hs => absurd hs.symm (Option.some_ne_none s)
    cases importRecord_accepts hct h with
    | fastForward r ahead ordered content strains db metadata =>
      rw [recordsWritten_ordered ordered, Storable, if_neg (by simp [hct, ahead]),
        if_neg (by simp [ordered])]
      simp only [List.mem_singleton, forall_eq]
      rw [decodable_iff_content content (streamFits_fastForwarded hp) fun s hs =>
        attached_decodes hnone hm (metadata ▸ hs), contentDecodes_fastForwarded hp]
    | autoMerge r concurrent agree content strains db metadata =>
      have ahead := strictlyAhead_eq_false_of_concurrent concurrent
      rw [recordsWritten_agree agree, Storable, if_neg (by simp [hct, ahead]),
        if_pos ⟨concurrent, agree⟩]
      simp only [List.mem_singleton, forall_eq]
      have hfits := streamFits_autoMerged (streamFits_headStream hcur) hp
      rw [decodable_iff_content content hfits fun s hs => attached_decodes hnone hm (metadata ▸ hs),
        contentDecodes_iff]
      -- the merged stream keeps the exponent of the local one, which was read
      obtain ⟨head, s, hr, hs, hstream⟩ := content_of_concurrent concurrent
      have hhead := headDecodes_of_import hct (hr ▸ h)
      have hexp := (contentDecodes_iff.mp (hhead.1 s hs)).1
      refine and_iff_right ?_
      rw [autoMerged, hstream]
      exact hexp
    | strainSplit head r known concurrent conflict content strains db metadata =>
      have ahead := strictlyAhead_eq_false_of_concurrent concurrent
      rw [recordsWritten_split hct concurrent conflict, Storable, if_neg (by simp [hct, ahead]),
        if_neg (by simp [conflict])]
      have hhead := headDecodes_of_import hct (known ▸ h)
      have hprimary : Decodable u r := by
        have hmeta : ∀ s, r.metadata = some s → StreamFits s ∧ vvDecodes s.vv = true := fun s hs =>
          attached_decodes (fun s' hs' => ⟨(hcur head known).metadata s' hs', hhead.2 s' hs'⟩) hm
            (metadata ▸ hs)
        refine (decodable_iff ⟨fun s hs => (hcur head known).content s (content ▸ hs),
          fun s hs => (hmeta s hs).1⟩).mpr
          ⟨fun s hs => hhead.1 s (content ▸ hs), fun s hs => (hmeta s hs).2⟩
      simp only [List.mem_cons, List.not_mem_nil, or_false, forall_eq_or_imp, forall_eq]
      rw [and_iff_right hprimary, decodable_iff_content rfl (streamFits_strainOf hp) (by simp),
        contentDecodes_strainOf hp]

/-- For every byte string: the parser ends in a value or an error unless the string is cut in
its trailer, and the records written for what it accepts are accepted by `UnitRecord::decode`
exactly if it can be stored over the head. -/
theorem imported_bytes_iff (scheme : SignatureScheme) (signer : Signer) (place : Bytes → BlockLoc)
    (u : Uuid) (cur : Option (Record BlockLoc)) (proj : Bytes) (hlen : proj.length ≤ maxLen)
    (hcur : ∀ r, cur = some r → RecordFits r) :
    (parseProjection scheme signer u proj = .panic ↔ CutTrailer scheme signer u proj) ∧
      (∀ inc, parseProjection scheme signer u proj = .ok inc ↔ Says scheme signer u proj inc) ∧
      ∀ inc imp, Says scheme signer u proj inc →
        importRecord scheme signer place u cur inc = .ok (some imp) →
        ((∀ r ∈ recordsWritten cur inc imp, Decodable u r) ↔ Storable cur inc) := by
  refine ⟨parseProjection_panic_iff hlen, fun inc => parseProjection_ok_iff hlen, ?_⟩
  rintro inc imp ⟨head, block, tail, hf, -, ht, -, -, hcont⟩ himp
  exact recordsWritten_decodable_iff hcur (hcont ▸ ⟨hf.frags, hf.fragsizeExp, hf.vv⟩)
    (fun m hm => ht.metaFits hm) himp

/-- Host 2's first version of a file of one byte named `a`, with the exponent `exp`. -/
def oneByteHead (exp : Nat) : Head := ⟨[97], [packDot 2 1], VersionVector.new.bump 2, exp, 1⟩

def oneByteIncoming (exp : Nat) : Incoming := ⟨[97], (oneByteHead exp).content, none, true, none⟩

/-- A projection of that file with a whole trailer. -/
def oneByteProjection (exp : Nat) : Bytes := (oneByteHead exp).bytes ++ (trailerMagic ++ [1, 0])

theorem imported_bytes_one_byte :
    ¬ CutTrailer checksumScheme .unsigned 5 (oneByteProjection 12) ∧
      ∀ imp, importRecord checksumScheme .unsigned (fun _ => ⟨0, 0⟩) 5 none (oneByteIncoming 12) =
        .ok (some imp) →
        ∀ r ∈ recordsWritten none (oneByteIncoming 12) imp, Decodable 5 r := by
  obtain ⟨hpanic, hok, hstore⟩ := imported_bytes_iff checksumScheme .unsigned (fun _ => ⟨0, 0⟩) 5 none
    (oneByteProjection 12) (by decide) (by simp)
  have hparse : parseProjection checksumScheme .unsigned 5 (oneByteProjection 12) =
    .ok (oneByteIncoming 12) := rfl
  refine ⟨fun hcut => ?_, fun imp himp => (hstore _ imp ((hok _).mp hparse) himp).mpr ?_⟩
  · rw [hpanic.mpr hcut] at hparse
    cases hparse
  · unfold Storable
    rw [if_neg (by decide), if_neg (by decide)]
    exact ⟨by decide, by decide⟩

/-- A trailer of the magic and one byte panics; an exponent of 0 is accepted and the record that
is stored for it cannot be decoded any more. -/
theorem imported_bytes_wedge :
    parseProjection checksumScheme .unsigned 5 ((oneByteHead 12).bytes ++ (trailerMagic ++ [1])) =
      .panic ∧
      parseProjection checksumScheme .unsigned 5 (oneByteProjection 0) = .ok (oneByteIncoming 0) ∧
      ∃ imp, importRecord checksumScheme .unsigned (fun _ => ⟨0, 0⟩) 5 none (oneByteIncoming 0) =
        .ok (some imp) ∧
        ∃ e, decode (encode (imp.record.toWire 5 ⟨none, [], none, [], []⟩)) = .err e := by
  refine ⟨rfl, rfl,
    ⟨⟨some (fastForwarded .empty (oneByteHead 0).content), none, [], none, none⟩, true⟩, rfl, ?_⟩
  refine decode_encode_err ⟨?_, by simp [Record.toWire], by decide, by decide, by decide⟩ fun hv => ?_
  · rintro s hs
    cases hs
    exact StreamFits.toWire ⟨by decide, by decide, by decide, by decide, by decide⟩
  · exact absurd (hv.1 _ rfl).2.1 (by decide)

end

end Sfs.Sync

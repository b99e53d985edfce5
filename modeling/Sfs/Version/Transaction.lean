import Sfs.Version.Engine
import Sfs.Version.FileBytes

/-!
# A transaction that fails

A transaction suppresses the header commits of its closure. When the closure fails nothing is
published, but the catalogs in memory stay as the closure left them: the session goes on with
them, and the next publish makes them durable. So a failed transaction leaves no trace exactly
when its closure left none itself (`Inert`): every operation on content, every creation and
every commit failed or had nothing to do, and the renames and removals cancel out. A commit or an
eviction applies the pending asynchronous writes first, so with such writes it leaves a trace even
if it fails later.
-/

namespace Sfs.Version

open Sfs.Lib Engine

section

variable (padBlocks : Bool) (suite : Suite) (host : HostAlias)

abbrev Engine.next (e : Engine) (op : EngineOp) : Engine := (e.apply padBlocks suite host op).1

/-- The operations of a closure in turn. It may go on after one that failed. -/
def Engine.perform (e : Engine) (ops : List EngineOp) : Engine :=
  run (Engine.next padBlocks suite host) e ops

/-- `transaction`, with a closure that performs `ops` and returns `result`. -/
def Engine.transaction (e : Engine) (ops : List EngineOp) (result : Result Unit) :
    Engine × Result Unit :=
  let e' := { { e with batch := true }.perform padBlocks suite host ops with batch := e.batch }
  match result with
  | .ok () => (e'.publish, .ok ())
  | .error err => (e', .error err)

end

/-- The catalog that the next header commit publishes. -/
def Engine.nextPublished (e : Engine) : Catalog :=
  ({ e with batch := false } : Engine).publish.published

/-- From `e` to `e'` nothing changed that the session can read or a later publish makes durable. -/
structure NoTrace (e e' : Engine) : Prop where
  read : ∀ path, e'.read path = e.read path
  list : ∀ stem, e'.cat.list stem = e.cat.list stem
  history : ∀ path, e'.cat.history path = e.cat.history path
  durable : e'.nextPublished = e.nextPublished

/-! ## What an operation of the closure leaves -/

/-- The unit is missing, or the data empty, too far or behind a gap. -/
def Refused (cat : Catalog) (path : String) (offset : Nat) (data : Bytes) : Prop :=
  ∀ u st, unitAt "" cat path = .ok (u, st) →
    data = [] ∨ 2 ^ 64 ≤ offset + data.length ∨ st.head.stream.byteLen < offset

/-- A checkpoint writes nothing: its first write is refused, or there is none and `rest`. -/
def Idles (e : Engine) (rest : Prop) : Prop :=
  match e.toWrite with
  | [] => rest
  | (path, offset, data) :: _ => Refused e.cat path offset data

/-- The operation fails or has nothing to do, unless it is a rename or a removal. -/
def Inert (e : Engine) : EngineOp → Prop
  | .create path _ => (e.cat.keys.lookup path).isSome
  | .write path offset data => Refused e.cat path offset data
  | .writeMeta path => ∀ u st, unitAt "" e.cat path ≠ .ok (u, st)
  | .truncate path newSize => ∀ u st, unitAt "" e.cat path = .ok (u, st) →
      st.head.stream.byteLen ≤ newSize
  | .extend path newSize => ∀ u st, unitAt "" e.cat path = .ok (u, st) →
      st.head.content = none ∨ newSize ≤ st.head.stream.byteLen
  | .commit paths _ _ _ _ _ =>
    Idles e (∃ path ∈ paths, ∀ u st, unitAt "" e.cat path ≠ .ok (u, st))
  | .rename _ _ => True
  | .remove _ => True
  | .checkpoint => Idles e True
  | .evict => Idles e True

/-- What a rename or a removal does to the names. -/
def nameStep (keys : Finmap fun _ : String => Uuid) : EngineOp → Finmap fun _ : String => Uuid
  | .rename old new =>
    match keys.lookup old with
    | none => keys
    | some u =>
      if (keys.lookup new).isSome then keys
      else if Catalog.MAX_KEY_LEN < new.utf8ByteSize then keys
      else (keys.insert new u).erase old
  | .remove path => if (keys.lookup path).isNone then keys else keys.erase path
  | _ => keys

/-- The random ids drawn by the operation occur nowhere yet. -/
def FreshOp (e : Engine) : EngineOp → Prop
  | .create _ u => e.cat.units u = none
  | .commit _ _ _ c u u' => e.cat.units u = none ∧ e.cat.units u' = none ∧ u ≠ u' ∧
      e.cat.keys.lookup (commitPath c) = none
  | _ => True

variable {padBlocks : Bool} {suite : Suite} {host : HostAlias} {e : Engine} {cat : Catalog}
  {u : Uuid} {st : UnitState}

theorem unitAt_congr {what what' path : String} {ust : Uuid × UnitState} :
    unitAt what cat path = .ok ust ↔ unitAt what' cat path = .ok ust :=
  unitAt_ok.trans unitAt_ok.symm

theorem stageWrite_ok_iff {s : StreamMeta Bytes} {offset : Nat} {data : Bytes} :
    (∃ staged, stageWrite padBlocks suite host s offset data = .ok staged) ↔
      ¬ (data = [] ∨ 2 ^ 64 ≤ offset + data.length ∨ s.byteLen < offset) := by
  constructor
  · rintro ⟨staged, hst⟩
    obtain ⟨hd, ho, hgap, -⟩ := stageWrite_ok hst
    rintro (h | h | h)
    · exact hd h
    · exact absurd ho (not_lt.mpr h)
    · exact absurd hgap (not_le.mpr h)
  · intro h
    simp only [not_or] at h
    obtain ⟨hd, ho, hg⟩ := h
    unfold stageWrite
    rw [if_neg hd, if_neg ho]
    dsimp only
    rw [if_neg hg]
    split <;> exact ⟨_, rfl⟩

/-- An operation that stages nothing leaves the content, and any other pushes a new head. -/
theorem stage_none_iff {r : UnitRecord} {overlay : List (Nat × Bytes)} {newSize : Nat} :
    (stage padBlocks suite host r overlay (.truncate newSize) = .ok none ↔
        r.stream.byteLen ≤ newSize) ∧
      (stage padBlocks suite host r overlay (.extend newSize) = .ok none ↔
        r.content = none ∨ newSize ≤ r.stream.byteLen) := by
  unfold stage
  cases hc : r.content with
  | none => simp [UnitRecord.stream, hc, StreamMeta.byteLen, StreamMeta.empty]
  | some s =>
    simp only [Except.ok.injEq, truncateWith_eq_none_iff, UnitRecord.stream, hc, Option.getD_some,
      extend, reduceCtorEq, false_or, true_and]
    split <;> simp_all

theorem stage_resize_ne_error (r : UnitRecord) (overlay : List (Nat × Bytes)) (newSize : Nat) :
    (∀ err, stage padBlocks suite host r overlay (.truncate newSize) ≠ .error err) ∧
      ∀ err, stage padBlocks suite host r overlay (.extend newSize) ≠ .error err := by
  unfold stage
  cases r.content <;> simp

theorem commitUnits_error_iff {paths : List String} :
    (∃ err, commitUnits cat paths = .error err) ↔
      ∃ path ∈ paths, ∀ u st, unitAt "" cat path ≠ .ok (u, st) := by
  induction paths with
  | nil => simp [commitUnits]
  | cons path paths ih =>
    simp only [List.mem_cons, exists_eq_or_imp]
    rw [← ih]
    simp only [commitUnits]
    cases hat : unitAt "" cat path with
    | error err => simp
    | ok ust =>
      obtain ⟨u, st⟩ := ust
      cases commitUnits cat paths with
      | error err => simp
      | ok us => simp

/-! ## Growth

A unit only gets more records, so what an operation has added is there at the end. -/

structure Extends (cat cat' : Catalog) : Prop where
  units : ∀ u st, cat.units u = some st →
    ∃ st', cat'.units u = some st' ∧ st.past.length ≤ st'.past.length

/-- No unit and no name comes or goes. -/
structure Rewrites (cat cat' : Catalog) : Prop extends Extends cat cat' where
  absent : ∀ u, cat.units u = none → cat'.units u = none
  keys : cat'.keys = cat.keys

/-- `cat'` has a record that `cat` has not. -/
def Exceeds (cat cat' : Catalog) : Prop :=
  ∃ u st', cat'.units u = some st' ∧ ∀ st, cat.units u = some st → st.past.length < st'.past.length

theorem Rewrites.refl (cat : Catalog) : Rewrites cat cat :=
  ⟨⟨fun _ st hst => ⟨st, hst, le_rfl⟩⟩, fun _ hu => hu, rfl⟩

theorem Extends.refl (cat : Catalog) : Extends cat cat := (Rewrites.refl cat).toExtends

theorem Extends.of_eq {cat' : Catalog} (hu : cat'.units = cat.units) : Extends cat cat' :=
  ⟨fun _ st hst => ⟨st, by rw [hu]; exact hst, le_rfl⟩⟩

theorem Extends.trans {cat₁ cat₂ cat₃ : Catalog} (h : Extends cat₁ cat₂) (h' : Extends cat₂ cat₃) :
    Extends cat₁ cat₃ where
  units := by
    intro u st hst
    obtain ⟨st', hst', hle⟩ := h.units u st hst
    obtain ⟨st'', hst'', hle'⟩ := h'.units u st' hst'
    exact ⟨st'', hst'', hle.trans hle'⟩

theorem Rewrites.trans {cat₁ cat₂ cat₃ : Catalog} (h : Rewrites cat₁ cat₂)
    (h' : Rewrites cat₂ cat₃) : Rewrites cat₁ cat₃ :=
  ⟨h.toExtends.trans h'.toExtends, fun u hu => h'.absent u (h.absent u hu), h'.keys.trans h.keys⟩

theorem Exceeds.trans_extends {cat₁ cat₂ cat₃ : Catalog} (h : Exceeds cat₁ cat₂)
    (h' : Extends cat₂ cat₃) : Exceeds cat₁ cat₃ := by
  obtain ⟨u, st', hst', hlt⟩ := h
  obtain ⟨st'', hst'', hle⟩ := h'.units u st' hst'
  exact ⟨u, st'', hst'', fun st hst => (hlt st hst).trans_le hle⟩

theorem Extends.trans_exceeds {cat₁ cat₂ cat₃ : Catalog} (h : Extends cat₁ cat₂)
    (h' : Exceeds cat₂ cat₃) : Exceeds cat₁ cat₃ := by
  obtain ⟨u, st₃, hst₃, hlt⟩ := h'
  refine ⟨u, st₃, hst₃, fun st hst => ?_⟩
  obtain ⟨st₂, hst₂, hle⟩ := h.units u st hst
  exact hle.trans_lt (hlt st₂ hst₂)

theorem not_exceeds_of_eq {cat' : Catalog} (hu : cat'.units = cat.units) : ¬ Exceeds cat cat' := by
  rintro ⟨u, st', hst', hlt⟩
  rw [hu] at hst'
  exact lt_irrefl _ (hlt st' hst')

/-- A unit that is new, or has one more record. -/
theorem grows_setUnit {st' : UnitState}
    (h : ∀ st, cat.units u = some st → st.past.length < st'.past.length) :
    Extends cat (cat.setUnit u st') ∧ Exceeds cat (cat.setUnit u st') := by
  refine ⟨⟨fun v st hst => ?_⟩, u, st', by simp, h⟩
  by_cases hv : v = u
  · subst hv
    exact ⟨st', by simp, (h st hst).le⟩
  · exact ⟨st, by simp [hv, hst], le_rfl⟩

/-- One more record over the head of a unit that is there. -/
theorem grows_push {what path : String} (hat : unitAt what cat path = .ok (u, st))
    (r : UnitRecord) :
    Rewrites cat (cat.setUnit u { st with head := r, past := st.head :: st.past }) ∧
      Exceeds cat (cat.setUnit u { st with head := r, past := st.head :: st.past }) := by
  have hst := (unitAt_ok.mp hat).2
  have hlt : ∀ st₀, cat.units u = some st₀ → st₀.past.length < (st.head :: st.past).length := by
    intro st₀ hst₀
    cases hst₀.symm.trans hst
    exact Nat.lt_succ_self _
  have hgrow : Extends cat (cat.setUnit u { st with head := r, past := st.head :: st.past }) ∧
      Exceeds cat (cat.setUnit u { st with head := r, past := st.head :: st.past }) :=
    grows_setUnit hlt
  refine ⟨⟨hgrow.1, fun v hv => ?_, rfl⟩, hgrow.2⟩
  have hne : v ≠ u := by
    rintro rfl
    cases hv.symm.trans hst
  simpa [hne] using hv

theorem andThen_rel {α : Type} {R : α → α → Prop} {x : α × Result Unit} {f : α → α × Result Unit}
    (hrefl : R x.1 x.1) (h : R x.1 (f x.1).1) : R x.1 (andThen x f).1 := by
  obtain ⟨a, _ | _⟩ := x
  · exact hrefl
  · exact h

theorem rewrites_pinUnits (c : Uuid) (us : List (Uuid × UnitState)) (cat : Catalog) :
    Rewrites cat (us.foldl (fun cat ust => pinUnit c cat ust.1) cat) := by
  induction us generalizing cat with
  | nil => exact .refl cat
  | cons v us ih =>
    refine Rewrites.trans ⟨⟨fun u st hst => ?_⟩, fun u hu => ?_, ?_⟩ (ih _)
    · rw [pinUnit_units, hst]
      split
      · exact ⟨_, rfl, le_rfl⟩
      · exact ⟨st, rfl, le_rfl⟩
    · simp [pinUnit_units, hu]
    · exact pinUnit_keys c cat v.1

/-! ### Staging -/

theorem stageRecord_refused (padBlocks : Bool) (suite : Suite) (host : HostAlias) {path : String}
    {offset : Nat} {data : Bytes} (h : Refused cat path offset data) :
    ∃ err, cat.stageRecord padBlocks suite host path offset data = (cat, .error err) := by
  unfold Catalog.stageRecord
  split
  · exact ⟨_, rfl⟩
  · rename_i u st hat
    split
    · exact ⟨_, rfl⟩
    · rename_i staged hst
      exact absurd (h u st hat) (stageWrite_ok_iff.mp ⟨staged, hst⟩)

theorem grows_stageRecord (padBlocks : Bool) (suite : Suite) (host : HostAlias) {path : String}
    {offset : Nat} {data : Bytes} (h : ¬ Refused cat path offset data) :
    Rewrites cat (cat.stageRecord padBlocks suite host path offset data).1 ∧
      Exceeds cat (cat.stageRecord padBlocks suite host path offset data).1 := by
  simp only [Refused, not_forall] at h
  obtain ⟨u, st, hat, hok⟩ := h
  obtain ⟨staged, hst⟩ : ∃ staged, stageWrite padBlocks suite host st.head.stream offset data =
      .ok staged := stageWrite_ok_iff.mpr hok
  simp only [Catalog.stageRecord, hat, hst]
  exact grows_push hat _

theorem rewrites_stageRecord (padBlocks : Bool) (suite : Suite) (host : HostAlias) (path : String)
    (offset : Nat) (data : Bytes) :
    Rewrites cat (cat.stageRecord padBlocks suite host path offset data).1 := by
  by_cases h : Refused cat path offset data
  · obtain ⟨err, hr⟩ := stageRecord_refused padBlocks suite host h
    rw [hr]
    exact .refl cat
  · exact (grows_stageRecord padBlocks suite host h).1

theorem grows_create {path : String} (hu : cat.units u = none)
    (hpath : cat.keys.lookup path = none) :
    Extends cat (cat.create path u).1 ∧ Exceeds cat (cat.create path u).1 := by
  have hnew : Extends cat (cat.setUnit u .created) ∧ Exceeds cat (cat.setUnit u .created) :=
    grows_setUnit fun st hst => nomatch hst.symm.trans hu
  unfold Catalog.create
  rw [if_neg (by simp [hpath])]
  dsimp only
  split
  · exact hnew
  · exact ⟨⟨hnew.1.units⟩, hnew.2⟩

theorem absent_create {path : String} {v : Uuid} (hv : cat.units v = none) (hne : v ≠ u) :
    (cat.create path u).1.units v = none := by
  unfold Catalog.create
  split
  · exact hv
  · dsimp only
    split <;> simp [hne, hv]

/-- The commit unit is new, whatever of the rest is refused. -/
theorem grows_stageCommit {u' : Uuid} {k : CommitObject} (us : List (Uuid × UnitState))
    (hu : cat.units u = none) (hu' : cat.units u' = none) (hne : u ≠ u')
    (hpath : cat.keys.lookup (commitPath k.commitish) = none) :
    Extends cat (stageCommit padBlocks suite host cat us k u u').1 ∧
      Exceeds cat (stageCommit padBlocks suite host cat us k u u').1 := by
  unfold stageCommit
  have hpin := rewrites_pinUnits k.commitish us cat
  generalize us.foldl (fun cat ust => pinUnit k.commitish cat ust.1) cat = pinned at hpin
  dsimp only
  have hnew := grows_create (hpin.absent u hu) (hpin.keys ▸ hpath)
  have hfree : (pinned.create (commitPath k.commitish) u).1.units u' = none :=
    absent_create (hpin.absent u' hu') hne.symm
  generalize pinned.create (commitPath k.commitish) u = x at hnew hfree
  have hx : Rewrites x.1 (andThen x fun cat =>
      cat.stageRecord padBlocks suite host (commitPath k.commitish) 0 k.encode).1 :=
    andThen_rel (.refl _) (rewrites_stageRecord padBlocks suite host _ _ _)
  generalize (andThen x fun cat =>
      cat.stageRecord padBlocks suite host (commitPath k.commitish) 0 k.encode) = y at hx
  have hy : Extends y.1 (andThen y fun cat =>
      if (cat.keys.lookup commitHeadKey).isNone then cat.create commitHeadKey u'
      else (cat, .ok ())).1 := by
    refine andThen_rel (.refl _) ?_
    split
    · rename_i hnone
      exact (grows_create (hx.absent u' hfree) (Option.isNone_iff_eq_none.mp hnone)).1
    · exact .refl _
  generalize (andThen y fun cat =>
      if (cat.keys.lookup commitHeadKey).isNone then cat.create commitHeadKey u'
      else (cat, .ok ())) = z at hy
  have hz : Extends z.1 (andThen z fun cat =>
      cat.stageRecord padBlocks suite host commitHeadKey 0 (uuidLe k.commitish)).1 :=
    andThen_rel (.refl _) (rewrites_stageRecord padBlocks suite host _ _ _).toExtends
  have hrest := hx.toExtends.trans (hy.trans hz)
  exact ⟨hpin.toExtends.trans (hnew.1.trans hrest),
    hpin.toExtends.trans_exceeds (hnew.2.trans_extends hrest)⟩

/-! ### Engine calls -/

@[simp] theorem publish_cat (e : Engine) : e.publish.cat = e.cat := by
  unfold Engine.publish
  split <;> rfl

@[simp] theorem publish_pending (e : Engine) : e.publish.pending = e.pending := by
  unfold Engine.publish
  split <;> rfl

@[simp] theorem settle_cat (e : Engine) (x : Catalog × Result Unit) : (e.settle x).1.cat = x.1 := by
  obtain ⟨cat, _ | _⟩ := x
  · rfl
  · exact publish_cat _

theorem settle_pending (e : Engine) (x : Catalog × Result Unit) :
    (e.settle x).1.pending = e.pending := by
  obtain ⟨cat, _ | _⟩ := x
  · rfl
  · exact publish_pending _

theorem rewrites_applyWrites (writes : List (String × Nat × Bytes)) (e : Engine) :
    Rewrites e.cat (e.applyWrites padBlocks suite host writes).1.cat := by
  induction writes generalizing e with
  | nil => exact .refl _
  | cons w writes ih =>
    obtain ⟨path, offset, data⟩ := w
    have hw : Rewrites e.cat (e.write padBlocks suite host path offset data).1.cat := by
      rw [Engine.write, settle_cat]
      exact rewrites_stageRecord padBlocks suite host path offset data
    exact hw.trans (andThen_rel (R := fun e e' : Engine => Rewrites e.cat e'.cat) (.refl _) (ih _))

theorem cat_checkpoint (e : Engine) :
    (e.checkpoint padBlocks suite host).1.cat = if e.pending.isEmpty && !e.wal then e.cat
      else ({ e with batch := true }.applyWrites padBlocks suite host e.toWrite).1.cat := by
  unfold Engine.checkpoint
  split
  · rfl
  · dsimp only
    generalize ({ e with batch := true } : Engine).applyWrites padBlocks suite host e.toWrite = x
    obtain ⟨e', _ | _⟩ := x
    · rfl
    · exact publish_cat _

theorem rewrites_checkpoint (padBlocks : Bool) (suite : Suite) (host : HostAlias) (e : Engine) :
    Rewrites e.cat (e.checkpoint padBlocks suite host).1.cat := by
  rw [cat_checkpoint]
  split
  · exact .refl _
  · exact rewrites_applyWrites e.toWrite { e with batch := true }

theorem not_idle_of_toWrite {w : String × Nat × Bytes} {ws : List (String × Nat × Bytes)}
    (h : e.toWrite = w :: ws) : (e.pending.isEmpty && !e.wal) = false := by
  cases hp : e.pending with
  | nil =>
    rw [Engine.toWrite, hp] at h
    cases h
  | cons p ps => rfl

/-- Nothing to write: the checkpoint is done, and what was pending is dropped. -/
theorem checkpoint_empty (padBlocks : Bool) (suite : Suite) (host : HostAlias) (h : e.toWrite = []) :
    ∃ e', e.checkpoint padBlocks suite host = (e', .ok ()) ∧ e'.cat = e.cat ∧
      (e'.pending = e.pending ∨ e'.pending = []) := by
  unfold Engine.checkpoint
  split
  · exact ⟨e, rfl, rfl, .inl rfl⟩
  · rw [h]
    exact ⟨_, rfl, publish_cat _, .inr rfl⟩

theorem checkpoint_refused (padBlocks : Bool) (suite : Suite) (host : HostAlias) {path : String}
    {offset : Nat} {data : Bytes} {ws : List (String × Nat × Bytes)}
    (h : e.toWrite = (path, offset, data) :: ws) (hr : Refused e.cat path offset data) :
    ∃ err, e.checkpoint padBlocks suite host = (e, .error err) := by
  obtain ⟨err, hst⟩ := stageRecord_refused padBlocks suite host hr
  unfold Engine.checkpoint
  rw [if_neg (by simp [not_idle_of_toWrite h]), h]
  refine ⟨err, ?_⟩
  simp only [Engine.applyWrites, Engine.write, Engine.settle, hst, andThen]

theorem grows_checkpoint (padBlocks : Bool) (suite : Suite) (host : HostAlias) {path : String}
    {offset : Nat} {data : Bytes} {ws : List (String × Nat × Bytes)}
    (h : e.toWrite = (path, offset, data) :: ws) (hr : ¬ Refused e.cat path offset data) :
    Exceeds e.cat (e.checkpoint padBlocks suite host).1.cat := by
  rw [cat_checkpoint, if_neg (by simp [not_idle_of_toWrite h]), h]
  have hw := grows_stageRecord padBlocks suite host hr
  have hfirst : Exceeds e.cat
      (({ e with batch := true } : Engine).write padBlocks suite host path offset data).1.cat := by
    rw [Engine.write, settle_cat]
    exact hw.2
  exact hfirst.trans_extends (andThen_rel (R := fun e e' : Engine => Extends e.cat e'.cat) (.refl _)
    (rewrites_applyWrites ws _).toExtends)

/-- An idle checkpoint, and what the operation does after it. -/
theorem idles_cases (padBlocks : Bool) (suite : Suite) (host : HostAlias) {rest : Prop}
    (h : Idles e rest) :
    (∃ err, e.checkpoint padBlocks suite host = (e, .error err)) ∨
      rest ∧ e.toWrite = [] := by
  unfold Idles at h
  cases hw : e.toWrite with
  | nil =>
    rw [hw] at h
    exact .inr ⟨h, rfl⟩
  | cons w ws =>
    rw [hw] at h
    exact .inl (checkpoint_refused padBlocks suite host hw h)

theorem not_idles_cases (padBlocks : Bool) (suite : Suite) (host : HostAlias) {rest : Prop}
    (h : ¬ Idles e rest) :
    Exceeds e.cat (e.checkpoint padBlocks suite host).1.cat ∨ ¬ rest ∧ e.toWrite = [] := by
  unfold Idles at h
  cases hw : e.toWrite with
  | nil =>
    rw [hw] at h
    exact .inr ⟨h, rfl⟩
  | cons w ws =>
    rw [hw] at h
    exact .inl (grows_checkpoint padBlocks suite host hw h)

theorem cat_snapshot {paths : List String} {us : List (Uuid × UnitState)} {title message : String}
    {c u' : Uuid} (h : commitUnits e.cat paths = .ok us) :
    (e.snapshot padBlocks suite host paths title message c u u').1.cat =
      (stageCommit padBlocks suite host e.cat us
        ⟨title, message, c, e.commitParents, commitEntries us⟩ u u').1 := by
  simp only [Engine.snapshot, h]
  generalize stageCommit padBlocks suite host e.cat us
    ⟨title, message, c, e.commitParents, commitEntries us⟩ u u' = x
  obtain ⟨cat, _ | _⟩ := x
  · rfl
  · exact publish_cat _

theorem grows_resize {what path : String} {op : ContentOp} (hat : unitAt "" e.cat path = .ok (u, st))
    (hst : stage padBlocks suite host st.head (e.overlay u) op ≠ .ok none)
    (herr : ∀ err, stage padBlocks suite host st.head (e.overlay u) op ≠ .error err) :
    Rewrites e.cat (e.resize padBlocks suite host what path op).1.cat ∧
      Exceeds e.cat (e.resize padBlocks suite host what path op).1.cat := by
  unfold Engine.resize
  rw [unitAt_congr.mp hat]
  simp only
  split
  · rename_i err h
    exact absurd h (herr err)
  · rename_i h
    exact absurd h hst
  · simp only [publish_cat]
    exact grows_push hat _

theorem resize_eq_self {what path : String} {op : ContentOp}
    (h : ∀ u st, unitAt "" e.cat path = .ok (u, st) →
      stage padBlocks suite host st.head (e.overlay u) op = .ok none) :
    (e.resize padBlocks suite host what path op).1 = e := by
  unfold Engine.resize
  split
  · rfl
  · rename_i u st hat
    rw [h u st (unitAt_congr.mp hat)]

/-! ## What an operation leaves -/

/-- An inert operation changes the names at most, and the pending writes at most if there are none
to apply. -/
theorem apply_of_inert (padBlocks : Bool) (suite : Suite) (host : HostAlias) {op : EngineOp}
    (h : Inert e op) :
    (e.apply padBlocks suite host op).1.cat = { e.cat with keys := nameStep e.cat.keys op } ∧
      ((e.apply padBlocks suite host op).1.pending = e.pending ∨
        (e.apply padBlocks suite host op).1.pending = [] ∧ e.toWrite = []) := by
  cases op with
  | create path u =>
    have hcat : e.cat.create path u = (e.cat, .error (.integrity ("unit already exists: " ++ path))) :=
      if_pos h
    simp only [apply, Engine.create, settle_cat, hcat]
    exact ⟨rfl, .inl (settle_pending _ _)⟩
  | write path offset data =>
    obtain ⟨err, hst⟩ := stageRecord_refused padBlocks suite host h
    simp only [apply, Engine.write, settle_cat, hst]
    exact ⟨rfl, .inl (settle_pending _ _)⟩
  | writeMeta path =>
    simp only [apply, Engine.writeMeta]
    split
    · exact ⟨rfl, .inl rfl⟩
    · rename_i u st hat
      exact absurd (unitAt_congr.mp hat) (h u st)
  | truncate path newSize =>
    simp only [apply]
    rw [resize_eq_self fun u st hat => stage_none_iff.1.mpr (h u st hat)]
    exact ⟨rfl, .inl rfl⟩
  | extend path newSize =>
    simp only [apply]
    rw [resize_eq_self fun u st hat => stage_none_iff.2.mpr (h u st hat)]
    exact ⟨rfl, .inl rfl⟩
  | rename old new =>
    simp only [apply, Engine.rename, nameStep]
    cases e.cat.keys.lookup old with
    | none => exact ⟨rfl, .inl rfl⟩
    | some u =>
      simp only
      split
      · exact ⟨rfl, .inl rfl⟩
      split
      · exact ⟨rfl, .inl rfl⟩
      · exact ⟨publish_cat _, .inl (publish_pending _)⟩
  | remove path =>
    simp only [apply, Engine.remove, nameStep]
    split
    · exact ⟨rfl, .inl rfl⟩
    · exact ⟨publish_cat _, .inl (publish_pending _)⟩
  | commit paths title message c u u' =>
    simp only [apply, Engine.commit]
    rcases idles_cases padBlocks suite host h with ⟨err, hcp⟩ | ⟨hmissing, hw⟩
    · rw [hcp]
      exact ⟨rfl, .inl rfl⟩
    obtain ⟨e', hcp, hcat, hpending⟩ := checkpoint_empty padBlocks suite host hw
    rw [← hcat] at hmissing
    obtain ⟨err, hus⟩ := commitUnits_error_iff.mpr hmissing
    simp only [hcp, andThen, Engine.snapshot, hus]
    exact ⟨hcat, hpending.imp_right fun hp => ⟨hp, hw⟩⟩
  | checkpoint =>
    simp only [apply]
    rcases idles_cases padBlocks suite host h with ⟨err, hcp⟩ | ⟨-, hw⟩
    · rw [hcp]
      exact ⟨rfl, .inl rfl⟩
    obtain ⟨e', hcp, hcat, hpending⟩ := checkpoint_empty padBlocks suite host hw
    rw [hcp]
    exact ⟨hcat, hpending.imp_right fun hp => ⟨hp, hw⟩⟩
  | evict =>
    simp only [apply, Engine.evict]
    rcases idles_cases padBlocks suite host h with ⟨err, hcp⟩ | ⟨-, hw⟩
    · rw [hcp]
      exact ⟨rfl, .inl rfl⟩
    obtain ⟨e', hcp, hcat, hpending⟩ := checkpoint_empty padBlocks suite host hw
    simp only [hcp, andThen, publish_cat, publish_pending]
    exact ⟨hcat, hpending.imp_right fun hp => ⟨hp, hw⟩⟩

/-- A commit adds a record unless it is inert, and drops none in any case. -/
theorem grows_commit {paths : List String} {title message : String} {c u' : Uuid}
    (hfresh : FreshOp e (.commit paths title message c u u'))
    (h : ¬ Inert e (.commit paths title message c u u')) :
    Extends e.cat (e.commit padBlocks suite host paths title message c u u').1.cat ∧
      Exceeds e.cat (e.commit padBlocks suite host paths title message c u u').1.cat := by
  obtain ⟨hu, hu', hne, hpath⟩ := hfresh
  have hcp := rewrites_checkpoint padBlocks suite host e
  unfold Engine.commit
  -- the units, names and ids of the snapshot are those of the state after the checkpoint
  have hsnap : ∀ e₁ : Engine, Rewrites e.cat e₁.cat → ∀ us, commitUnits e₁.cat paths = .ok us →
      Extends e₁.cat (e₁.snapshot padBlocks suite host paths title message c u u').1.cat ∧
        Exceeds e₁.cat (e₁.snapshot padBlocks suite host paths title message c u u').1.cat := by
    intro e₁ hrw us hus
    rw [cat_snapshot hus]
    exact grows_stageCommit us (hrw.absent u hu) (hrw.absent u' hu') hne
      (by rw [hrw.keys]; exact hpath)
  have hext : ∀ e₁ : Engine, Rewrites e.cat e₁.cat →
      Extends e₁.cat (e₁.snapshot padBlocks suite host paths title message c u u').1.cat := by
    intro e₁ hrw
    cases hus : commitUnits e₁.cat paths with
    | error err =>
      simp only [Engine.snapshot, hus]
      exact .refl _
    | ok us => exact (hsnap e₁ hrw us hus).1
  rcases not_idles_cases padBlocks suite host h with
    hex | ⟨hpaths, hw⟩
  · have hrest := andThen_rel (R := fun e e' : Engine => Extends e.cat e'.cat)
      (x := e.checkpoint padBlocks suite host)
      (f := fun e => e.snapshot padBlocks suite host paths title message c u u') (.refl _)
      (hext _ hcp)
    exact ⟨hcp.toExtends.trans hrest, hex.trans_extends hrest⟩
  · obtain ⟨e', hcp', hcat, -⟩ := checkpoint_empty padBlocks suite host hw
    rw [hcp'] at hcp ⊢
    cases hus : commitUnits e'.cat paths with
    | error err =>
      rw [← hcat] at hpaths
      exact absurd (commitUnits_error_iff.mp ⟨err, hus⟩) hpaths
    | ok us =>
      have hgrow := hsnap e' hcp us hus
      rw [hcat] at hgrow
      exact hgrow

/-- An operation that is not inert leaves a record. -/
theorem grows_apply_of_not_inert {op : EngineOp} (hfresh : FreshOp e op) (h : ¬ Inert e op) :
    Extends e.cat (e.apply padBlocks suite host op).1.cat ∧
      Exceeds e.cat (e.apply padBlocks suite host op).1.cat := by
  cases op with
  | create path u =>
    simp only [apply, Engine.create, settle_cat]
    exact grows_create hfresh (by simpa [Inert] using h)
  | write path offset data =>
    simp only [apply, Engine.write, settle_cat]
    exact (grows_stageRecord padBlocks suite host h).imp_left Rewrites.toExtends
  | writeMeta path =>
    simp only [Inert, not_forall, not_not] at h
    obtain ⟨u, st, hat⟩ := h
    simp only [apply, Engine.writeMeta]
    rw [unitAt_congr.mp hat]
    simp only [publish_cat]
    exact (grows_push hat _).imp_left Rewrites.toExtends
  | truncate path newSize =>
    simp only [Inert, not_forall] at h
    obtain ⟨u, st, hat, hlt⟩ := h
    exact (grows_resize hat (fun hst => hlt (stage_none_iff.1.mp hst))
      (stage_resize_ne_error _ _ _).1).imp_left Rewrites.toExtends
  | extend path newSize =>
    simp only [Inert, not_forall] at h
    obtain ⟨u, st, hat, hlt⟩ := h
    exact (grows_resize hat (fun hst => hlt (stage_none_iff.2.mp hst))
      (stage_resize_ne_error _ _ _).2).imp_left Rewrites.toExtends
  | rename old new => exact absurd trivial h
  | remove path => exact absurd trivial h
  | commit paths title message c u u' => exact grows_commit hfresh h
  | checkpoint =>
    rcases not_idles_cases padBlocks suite host h with hex | ⟨hf, -⟩
    · exact ⟨(rewrites_checkpoint padBlocks suite host e).toExtends, hex⟩
    · exact absurd trivial hf
  | evict =>
    rcases not_idles_cases padBlocks suite host h with hex | ⟨hf, -⟩
    · have hrest := andThen_rel (R := fun e e' : Engine => Extends e.cat e'.cat)
        (x := e.checkpoint padBlocks suite host) (f := fun e => (e.publish, .ok ())) (.refl _)
        (.of_eq (by rw [publish_cat]))
      exact ⟨(rewrites_checkpoint padBlocks suite host e).toExtends.trans hrest,
        hex.trans_extends hrest⟩
    · exact absurd trivial hf

theorem extends_apply {op : EngineOp} (hfresh : FreshOp e op) :
    Extends e.cat (e.apply padBlocks suite host op).1.cat := by
  by_cases h : Inert e op
  · rw [(apply_of_inert padBlocks suite host h).1]
    exact .of_eq rfl
  · exact (grows_apply_of_not_inert hfresh h).1

/-! ### Pending writes of the units that keep a name -/

theorem pathOf_isSome {path : String} (h : cat.keys.lookup path = some u) :
    (pathOf cat.scanPaths u).isSome := by
  have hmem : (path, u) ∈ cat.scanPaths := by
    refine List.mem_filterMap.mpr ⟨path, ?_, by simp [h]⟩
    exact (Finset.mem_sort _).mpr (Finmap.mem_keys.mpr (Finmap.lookup_isSome.mp (by simp [h])))
  simp only [pathOf, Option.isSome_map, List.find?_isSome, List.mem_reverse]
  exact ⟨_, hmem, by simp⟩

/-- With nothing to write, no unit that has a name has a pending write. -/
theorem overlay_of_toWrite {path : String} (h : e.toWrite = [])
    (hp : e.cat.keys.lookup path = some u) : e.overlay u = [] := by
  unfold Engine.overlay
  cases hf : e.pending.find? fun p => p.1 = u with
  | none => rfl
  | some p =>
    have hu : p.1 = u := by simpa using List.find?_some hf
    obtain ⟨q, hq⟩ := Option.isSome_iff_exists.mp (pathOf_isSome hp)
    have hnil := List.flatMap_eq_nil_iff.mp h p (List.mem_of_find?_eq_some hf)
    rw [hu, hq] at hnil
    simpa using hnil

theorem named_nameStep {keys : Finmap fun _ : String => Uuid} {op : EngineOp} {path : String}
    (h : (nameStep keys op).lookup path = some u) : ∃ p, keys.lookup p = some u := by
  cases op with
  | rename old new =>
    simp only [nameStep] at h
    split at h
    · exact ⟨path, h⟩
    rename_i v hv
    split at h
    · exact ⟨path, h⟩
    split at h
    · exact ⟨path, h⟩
    by_cases hold : path = old
    · subst hold
      simp at h
    rw [Finmap.lookup_erase_ne hold] at h
    by_cases hnew : path = new
    · subst hnew
      rw [Finmap.lookup_insert] at h
      exact ⟨old, hv.trans h⟩
    · rw [Finmap.lookup_insert_of_ne _ hnew] at h
      exact ⟨path, h⟩
  | remove p =>
    simp only [nameStep] at h
    split at h
    · exact ⟨path, h⟩
    by_cases hpath : path = p
    · subst hpath
      simp at h
    rw [Finmap.lookup_erase_ne hpath] at h
    exact ⟨path, h⟩
  | _ => exact ⟨path, h⟩

theorem overlay_apply {op : EngineOp} {path : String} (h : Inert e op)
    (hp : (e.apply padBlocks suite host op).1.cat.keys.lookup path = some u) :
    (∃ p, e.cat.keys.lookup p = some u) ∧
      (e.apply padBlocks suite host op).1.overlay u = e.overlay u := by
  obtain ⟨hcat, hpending⟩ := apply_of_inert padBlocks suite host h
  rw [hcat] at hp
  obtain ⟨p, hp⟩ := named_nameStep hp
  refine ⟨⟨p, hp⟩, ?_⟩
  rcases hpending with hsame | ⟨hnil, hw⟩
  · rw [Engine.overlay, hsame, Engine.overlay]
  · rw [overlay_of_toWrite hw hp, Engine.overlay, hnil]
    rfl

/-! ## Whole closures -/

variable {ops : List EngineOp}

theorem extends_perform
    (hids : Along (Engine.next padBlocks suite host) FreshOp e ops) :
    Extends e.cat (e.perform padBlocks suite host ops).cat := by
  induction ops generalizing e with
  | nil => exact .refl _
  | cons op ops ih => exact (extends_apply hids.1).trans (ih hids.2)

/-- The units come out of a closure as they were exactly when it was inert. -/
theorem perform_same_iff
    (hids : Along (Engine.next padBlocks suite host) FreshOp e ops) :
    (e.perform padBlocks suite host ops).cat.units = e.cat.units ↔
      Along (Engine.next padBlocks suite host) Inert e ops := by
  induction ops generalizing e with
  | nil => exact ⟨fun _ => trivial, fun _ => rfl⟩
  | cons op ops ih =>
    by_cases h : Inert e op
    · have hih := ih hids.2
      rw [(apply_of_inert padBlocks suite host h).1] at hih
      simp only [Along, h, true_and]
      exact hih
    · refine ⟨fun hsame => absurd ?_ (not_exceeds_of_eq hsame), fun hin => absurd hin.1 h⟩
      exact (grows_apply_of_not_inert hids.1 h).2.trans_extends (extends_perform hids.2)

/-- The names an inert closure ends with. -/
theorem keys_perform (hin : Along (Engine.next padBlocks suite host) Inert e ops) :
    (e.perform padBlocks suite host ops).cat.keys = ops.foldl nameStep e.cat.keys := by
  induction ops generalizing e with
  | nil => rfl
  | cons op ops ih =>
    refine (ih hin.2).trans ?_
    rw [(apply_of_inert padBlocks suite host hin.1).1]
    rfl

/-- A unit that has a name after an inert closure had one all along, and kept its pending writes. -/
theorem overlay_perform {path : String} (hin : Along (Engine.next padBlocks suite host) Inert e ops)
    (hp : (e.perform padBlocks suite host ops).cat.keys.lookup path = some u) :
    (∃ p, e.cat.keys.lookup p = some u) ∧
      (e.perform padBlocks suite host ops).overlay u = e.overlay u := by
  induction ops generalizing e with
  | nil => exact ⟨⟨path, hp⟩, rfl⟩
  | cons op ops ih =>
    obtain ⟨⟨p, hp₁⟩, heq⟩ := ih hin.2 hp
    obtain ⟨hnamed, heq₁⟩ := overlay_apply hin.1 hp₁
    exact ⟨hnamed, heq.trans heq₁⟩

/-- The session reads the same if the catalog is the same and the units it names have the same
pending writes. -/
theorem noTrace_of_eq {e' : Engine} (hcat : e'.cat = e.cat)
    (hov : ∀ path u, e'.cat.keys.lookup path = some u → e'.overlay u = e.overlay u) :
    NoTrace e e' := by
  refine ⟨fun path => ?_, fun stem => by rw [hcat], fun path => by rw [hcat], hcat⟩
  unfold Engine.read
  rw [← hcat]
  cases hat : unitAt "" e'.cat path with
  | error err => rfl
  | ok ust =>
    show Except.ok (applyOverlayFull (e'.overlay ust.1) _) =
      Except.ok (applyOverlayFull (e.overlay ust.1) _)
    rw [hov path ust.1 (unitAt_ok.mp hat).1]

end Sfs.Version

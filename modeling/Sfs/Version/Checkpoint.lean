import Sfs.Lib.Fallible
import Sfs.Lib.KeyMap
import Sfs.Version.Pending

/-!
# Checkpoints

A checkpoint writes the pending writes of all units to their content, as synchronous writes that
are not published, and then makes one header commit. `write_async` takes any offset, while a
synchronous write has to start at or before the end of the content: a checkpoint succeeds exactly
when the pending writes of every named unit leave no gap (`checkpoint_settled_iff`). One that
fails has published nothing and forgets no pending write. But its apply loop may have grown the
container: the log is then copied up, the header still names the old place, and the allocator has
lent that place to others, so the scan of the next open finds what is left there.

The parents of a record are left out, and the pending writes of a unit that lost its name are
dropped by a checkpoint.
-/

namespace Sfs.Version

open Sfs.Lib List

variable {ws : List Patch} {path : String} {w : Patch} {u : Uuid} {r : UnitRecord} {s s' : Applying}
  {keys : KeyMap String Uuid} {overlay : Uuid → List Patch}

/-! ## The engine with its log -/

/-- The two catalogs: names, and the head record of every unit. Every name leads to a record. -/
structure Catalogs where
  keys : KeyMap String Uuid
  heads : Uuid → Option UnitRecord
  bound : ∀ path u, keys.get path = some u → (heads u).isSome = true
  wf : ∀ u r, heads u = some r → Wf r.stream

/-- A new head record for `u`. -/
def Catalogs.push (t : Catalogs) (u : Uuid) (s : StreamMeta Bytes) (h : Wf s) : Catalogs where
  keys := t.keys
  heads := fun v => if v = u then some ⟨some s, []⟩ else t.heads v
  bound := by
    intro path v hk
    split
    · rfl
    · exact t.bound path v hk
  wf := by
    intro v r hr
    split at hr
    · cases hr
      exact h
    · exact t.wf v r hr

/-- What `replay_wal` and the reads see: the catalogs in memory and those the header names, the
overlay, and the records above `wal_applied_seq` in the log where the header has it. -/
structure WalEngine where
  cats : Catalogs
  published : Catalogs
  overlay : Uuid → List Patch
  log : List (Uuid × Patch)
  /-- `suppress_commit` -/
  batch : Bool
  data : ∀ u, ∀ w ∈ overlay u, w.2 ≠ []

/-- What the storage does to a checkpoint: whether it fails in the allocations of the `n`-th write
or in the header commit, and, if the apply loop grows the container before it fails, the records
that are left at the place of the log that the header names. -/
structure Storage where
  alloc : Nat → Option Error
  commit : Option Error
  left : Option (List (Uuid × Patch))

def Storage.sound : Storage := ⟨fun _ => none, none, none⟩

theorem data_insertWrite {o : Nat} {d : Bytes} (hd : d ≠ []) (h : ∀ w ∈ ws, w.2 ≠ []) :
    ∀ w ∈ insertWrite o d ws, w.2 ≠ [] := by
  intro w hw
  rcases mem_insertWrite hw with rfl | hw
  · exact hd
  · exact h w hw

/-- `write_async` in WAL mode, with room in the log region. -/
def WalEngine.writeAsync (e : WalEngine) (path : String) (w : Patch) : Result WalEngine :=
  if hd : w.2 = [] then .error (.integrity "write_async: empty data")
  else
    match e.cats.keys.get path with
    | none => .error (.notFound ("path not found: " ++ path))
    | some u => .ok { e with
        overlay := fun v => if v = u then insertWrite w.1 w.2 (e.overlay u) else e.overlay v
        log := e.log ++ [(u, w)]
        data := by
          intro v
          split
          · exact data_insertWrite hd (e.data u)
          · exact e.data v }

/-- Calls of `write_async` that all return `Ok`. -/
def WalEngine.writeAsyncs (e : WalEngine) : List (String × Patch) → Result WalEngine
  | [] => .ok e
  | (path, w) :: rest => do
    let e ← e.writeAsync path w
    e.writeAsyncs rest

/-- The catalogs during the apply loop, and the number of its writes so far. -/
structure Applying where
  cats : Catalogs
  writes : Nat

section

variable (padBlocks : Bool) (suite : Suite) (host : HostAlias)

def Catalogs.write (t : Catalogs) (path : String) (w : Patch) : Result Catalogs :=
  match t.keys.get path with
  | none => .error (.notFound ("path not found: " ++ path))
  | some u =>
    match hr : t.heads u with
    | none => .error (.notFound ("no record for path: " ++ path))
    | some r =>
      match hst : stageWrite padBlocks suite host r.stream w.1 w.2 with
      | .error err => .error err
      | .ok st => .ok (t.push u st.stream ((t.wf u r hr).stageWrite hst))

/-- One write of the apply loop. -/
def applyWrite (st : Storage) (path : String) (w : Patch) : EStateM Error Applying Unit :=
  transact fun s => do
    let cats ← s.cats.write padBlocks suite host path w
    match st.alloc s.writes with
    | some err => .error err
    | none => .ok ⟨cats, s.writes + 1⟩

/-- The pending writes of one unit, in the order of their offsets; a unit without a name is
passed over. -/
def applyUnit (st : Storage) (pathOf : Uuid → Option String) (overlay : Uuid → List Patch) (u : Uuid) :
    EStateM Error Applying Unit :=
  match pathOf u with
  | none => pure ()
  | some path => forEach (overlay u) (applyWrite padBlocks suite host st path)

/-- `checkpoint_inner`, where `order` is the order in which the map of pending writes is walked. -/
def WalEngine.checkpoint (st : Storage) (order : List Uuid) (e : WalEngine) :
    WalEngine × Result Unit :=
  match forEach order (applyUnit padBlocks suite host st e.cats.keys.lastKey e.overlay) ⟨e.cats, 0⟩
    with
  | .error err s => ({ e with cats := s.cats, log := st.left.getD e.log }, .error err)
  | .ok _ s =>
    if e.batch then
      ({ e with cats := s.cats, overlay := fun _ => [], data := fun _ _ hw => (by cases hw) }, .ok ())
    else
      match st.commit with
      | some err => ({ e with cats := s.cats, log := st.left.getD e.log }, .error err)
      | none => ({ e with
          cats := s.cats
          published := s.cats
          overlay := fun _ => []
          log := []
          data := fun _ _ hw => (by cases hw) }, .ok ())

end

/-! ## Gaps -/

/-- Written in turn to a content of `n` bytes, every write starts at or before the end, and ends
below `2 ^ 64`. -/
def Gapless : Nat → List Patch → Prop
  | _, [] => True
  | n, w :: ws => w.1 ≤ n ∧ w.stop < 2 ^ 64 ∧ Gapless (max n w.stop) ws

instance : (n : Nat) → (ws : List Patch) → Decidable (Gapless n ws)
  | _, [] => isTrue trivial
  | n, w :: ws => @instDecidableAnd _ _ inferInstance (@instDecidableAnd _ _ inferInstance
      (instDecidableGapless (max n w.stop) ws))

theorem Gapless.mono {n m : Nat} (h : Gapless n ws) (hle : n ≤ m) : Gapless m ws := by
  induction ws generalizing n m with
  | nil => trivial
  | cons w ws ih => exact ⟨le_trans h.1 hle, h.2.1, ih h.2.2 (by omega)⟩

/-- No named unit has a gap between its content and its pending writes, taken by offset. -/
def WalEngine.Gapless (e : WalEngine) : Prop :=
  ∀ path u r, e.cats.keys.get path = some u → e.cats.heads u = some r →
    Version.Gapless r.stream.byteLen (e.overlay u)

section

variable {padBlocks : Bool} {suite : Suite} {host : HostAlias}

/-- A write that succeeds gives its unit a longer head and changes no other. -/
theorem Catalogs.write_ok {t t' : Catalogs} (h : t.write padBlocks suite host path w = .ok t')
    (hk : t.keys.get path = some u) (hr : t.heads u = some r) :
    w.1 ≤ r.stream.byteLen ∧ w.stop < 2 ^ 64 ∧ t'.keys = t.keys ∧
      (∀ v, v ≠ u → t'.heads v = t.heads v) ∧
      ∃ r', t'.heads u = some r' ∧ r'.stream.byteLen = max r.stream.byteLen w.stop := by
  unfold Catalogs.write at h
  rw [hk] at h
  dsimp only at h
  split at h
  · cases h
  rename_i r₀ hr₀
  obtain rfl : r = r₀ := Option.some.inj (hr.symm.trans hr₀)
  split at h
  · cases h
  · rename_i st hst
    cases h
    obtain ⟨-, hov, hgap, -⟩ := stageWrite_ok hst
    refine ⟨hgap, hov, rfl, fun v hv => if_neg hv, _, if_pos rfl,
      byteLen_stageWrite (t.wf u r hr).toStored hst⟩

theorem Catalogs.exists_write {t : Catalogs} (hk : t.keys.get path = some u)
    (hr : t.heads u = some r) (hd : w.2 ≠ []) (hgap : w.1 ≤ r.stream.byteLen)
    (hov : w.stop < 2 ^ 64) : ∃ t', t.write padBlocks suite host path w = .ok t' := by
  obtain ⟨st, hst⟩ : ∃ st, stageWrite padBlocks suite host r.stream w.1 w.2 = .ok st :=
    exists_stageWrite hd hov hgap
  unfold Catalogs.write
  rw [hk]
  dsimp only
  split
  · rename_i hn
    rw [hr] at hn
    cases hn
  rename_i r₀ hr₀
  obtain rfl : r = r₀ := Option.some.inj (hr.symm.trans hr₀)
  split
  · rename_i hst'
    rw [hst] at hst'
    cases hst'
  · exact ⟨_, rfl⟩

theorem applyWrite_sound :
    applyWrite padBlocks suite host .sound path w s = .ok () s' ↔
      s.cats.write padBlocks suite host path w = .ok s'.cats ∧ s'.writes = s.writes + 1 := by
  unfold applyWrite
  rw [transact_eq_ok_iff]
  cases hw : s.cats.write padBlocks suite host path w with
  | error err =>
    simp [bind, Except.bind]
  | ok t =>
    obtain ⟨cats, n⟩ := s'
    simp [bind, Except.bind, Storage.sound, eq_comm]

/-- What the writes of one unit, all of them done, say and leave. -/
theorem applyWrites_ok (h : forEach ws (applyWrite padBlocks suite host .sound path) s = .ok () s')
    (hk : s.cats.keys.get path = some u) (hr : s.cats.heads u = some r) :
    Gapless r.stream.byteLen ws ∧ s'.cats.keys = s.cats.keys ∧
      (∀ v, v ≠ u → s'.cats.heads v = s.cats.heads v) ∧
      ∃ r', s'.cats.heads u = some r' ∧ r.stream.byteLen ≤ r'.stream.byteLen := by
  induction ws generalizing s r with
  | nil =>
    cases h
    exact ⟨trivial, rfl, fun _ _ => rfl, r, hr, le_rfl⟩
  | cons w ws ih =>
    obtain ⟨⟨⟩, s₁, h₁, h⟩ := bind_eq_ok_iff.mp h
    obtain ⟨hgap, hov, hkeys, hother, r₁, hr₁, hlen₁⟩ :=
      Catalogs.write_ok (applyWrite_sound.mp h₁).1 hk hr
    obtain ⟨hrest, hkeys', hother', r', hr', hlen'⟩ := ih h (hkeys ▸ hk) hr₁
    rw [hlen₁] at hrest hlen'
    refine ⟨⟨hgap, hov, hrest⟩, hkeys'.trans hkeys, fun v hv => (hother' v hv).trans (hother v hv),
      r', hr', by omega⟩

theorem exists_applyWrites (hd : ∀ w ∈ ws, w.2 ≠ [])
    (hk : s.cats.keys.get path = some u) (hr : s.cats.heads u = some r)
    (h : Gapless r.stream.byteLen ws) :
    ∃ s', forEach ws (applyWrite padBlocks suite host .sound path) s = .ok () s' := by
  induction ws generalizing s r with
  | nil => exact ⟨s, rfl⟩
  | cons w ws ih =>
    obtain ⟨hgap, hov, hrest⟩ := h
    obtain ⟨t, ht⟩ : ∃ t, s.cats.write padBlocks suite host path w = .ok t :=
      Catalogs.exists_write hk hr (hd w mem_cons_self) hgap hov
    obtain ⟨-, -, hkeys, -, r₁, hr₁, hlen₁⟩ := Catalogs.write_ok ht hk hr
    rw [← hlen₁] at hrest
    obtain ⟨s', hs'⟩ :=
      ih (fun v hv => hd v (mem_cons_of_mem w hv)) (s := ⟨t, s.writes + 1⟩) (hkeys ▸ hk) hr₁ hrest
    exact ⟨s', bind_eq_ok_iff.mpr ⟨(), _, applyWrite_sound.mpr ⟨ht, rfl⟩, hs'⟩⟩

/-- What one unit of the walk, done, says and leaves; `keys` are the names the walk started with. -/
theorem applyUnit_ok
    (h : applyUnit padBlocks suite host .sound keys.lastKey overlay u s = .ok () s')
    (hkeys : s.cats.keys = keys) :
    s'.cats.keys = keys ∧
      (∀ v r, s.cats.heads v = some r →
        ∃ r', s'.cats.heads v = some r' ∧ r.stream.byteLen ≤ r'.stream.byteLen) ∧
      (∀ v, v ≠ u → s'.cats.heads v = s.cats.heads v) ∧
      ∀ path r, keys.get path = some u → s.cats.heads u = some r →
        Gapless r.stream.byteLen (overlay u) := by
  unfold applyUnit at h
  cases hp : keys.lastKey u with
  | none =>
    rw [hp] at h
    cases h
    refine ⟨hkeys, fun v r hr => ⟨r, hr, le_rfl⟩, fun _ _ => rfl, fun path r hk _ => ?_⟩
    obtain ⟨path', hp'⟩ := KeyMap.exists_lastKey hk
    rw [hp] at hp'
    cases hp'
  | some path =>
    rw [hp] at h
    have hk : s.cats.keys.get path = some u := hkeys ▸ KeyMap.get_lastKey hp
    obtain ⟨r, hr⟩ := Option.isSome_iff_exists.mp (s.cats.bound path u hk)
    obtain ⟨hgap, hkeys', hother, r', hr', hle⟩ := applyWrites_ok h hk hr
    refine ⟨hkeys'.trans hkeys, fun v r₀ hr₀ => ?_, hother, fun _ r₀ _ hr₀ => ?_⟩
    · by_cases hv : v = u
      · subst hv
        obtain rfl : r = r₀ := Option.some.inj (hr.symm.trans hr₀)
        exact ⟨r', hr', hle⟩
      · exact ⟨r₀, (hother v hv).trans hr₀, le_rfl⟩
    · obtain rfl : r = r₀ := Option.some.inj (hr.symm.trans hr₀)
      exact hgap

theorem exists_applyUnit (hd : ∀ w ∈ overlay u, w.2 ≠ []) (hkeys : s.cats.keys = keys)
    (h : ∀ path r, keys.get path = some u → s.cats.heads u = some r →
      Gapless r.stream.byteLen (overlay u)) :
    ∃ s', applyUnit padBlocks suite host .sound keys.lastKey overlay u s = .ok () s' := by
  unfold applyUnit
  cases hp : keys.lastKey u with
  | none => exact ⟨s, rfl⟩
  | some path =>
    have hk := KeyMap.get_lastKey hp
    obtain ⟨r, hr⟩ := Option.isSome_iff_exists.mp (s.cats.bound path u (hkeys ▸ hk))
    exact exists_applyWrites hd (hkeys ▸ hk) hr (h path r hk hr)

/-- The walk succeeds exactly when no unit on it has a gap. -/
theorem applyUnits_iff (hd : ∀ u, ∀ w ∈ overlay u, w.2 ≠ []) (order : List Uuid)
    (hkeys : s.cats.keys = keys) :
    (∃ s', forEach order (applyUnit padBlocks suite host .sound keys.lastKey overlay) s = .ok () s') ↔
      ∀ u ∈ order, ∀ path r, keys.get path = some u → s.cats.heads u = some r →
        Gapless r.stream.byteLen (overlay u) := by
  induction order generalizing s with
  | nil => exact iff_of_true ⟨s, rfl⟩ fun u hu => by cases hu
  | cons u order ih =>
    constructor
    · rintro ⟨s', hs'⟩ v hv path r hk hr
      obtain ⟨⟨⟩, s₁, h₁, hs'⟩ := bind_eq_ok_iff.mp hs'
      obtain ⟨hkeys₁, -, hother, hgap⟩ := applyUnit_ok h₁ hkeys
      by_cases hvu : v = u
      · subst hvu
        exact hgap path r hk hr
      · have hv' := (mem_cons.mp hv).resolve_left hvu
        exact (ih hkeys₁).mp ⟨s', hs'⟩ v hv' path r hk ((hother v hvu).trans hr)
    · intro h
      obtain ⟨s₁, h₁⟩ : ∃ s₁, applyUnit padBlocks suite host .sound keys.lastKey overlay u s =
          .ok () s₁ :=
        exists_applyUnit (hd u) hkeys (h u mem_cons_self)
      obtain ⟨hkeys₁, hgrow, hother, hgap⟩ := applyUnit_ok h₁ hkeys
      obtain ⟨s', hs'⟩ := (ih hkeys₁).mpr fun v hv path r hk hr => by
        by_cases hvu : v = u
        · -- the unit comes twice: its content has only become longer
          subst hvu
          obtain ⟨r₀, hr₀⟩ := Option.isSome_iff_exists.mp (s.cats.bound path v (hkeys ▸ hk))
          obtain ⟨r', hr', hle⟩ := hgrow v r₀ hr₀
          obtain rfl : r = r' := Option.some.inj (hr.symm.trans hr')
          exact (hgap path r₀ hk hr₀).mono hle
        · exact h v (mem_cons_of_mem u hv) path r hk ((hother v hvu).symm.trans hr)
      exact ⟨s', bind_eq_ok_iff.mpr ⟨(), _, h₁, hs'⟩⟩

theorem checkpoint_sound_iff (e : WalEngine) {order : List Uuid}
    (ho : ∀ u, e.overlay u ≠ [] → u ∈ order) :
    (e.checkpoint padBlocks suite host .sound order).2 = .ok () ↔ e.Gapless := by
  have hiff : (∃ s', forEach order
    (applyUnit padBlocks suite host .sound e.cats.keys.lastKey e.overlay) ⟨e.cats, 0⟩ =
      .ok () s') ↔ _ := applyUnits_iff e.data order rfl
  have hgap : e.Gapless ↔ ∀ u ∈ order,
    ∀ path r, e.cats.keys.get path = some u → e.cats.heads u = some r →
      Version.Gapless r.stream.byteLen (e.overlay u) := by
    constructor
    · intro h u _ path r hk hr
      exact h path u r hk hr
    intro h path u r hk hr
    by_cases hne : e.overlay u = []
    · rw [hne]
      trivial
    · exact h u (ho u hne) path r hk hr
  rw [hgap, ← hiff]
  unfold WalEngine.checkpoint
  cases hrun : forEach order (applyUnit padBlocks suite host .sound e.cats.keys.lastKey e.overlay)
    ⟨e.cats, 0⟩ with
  | error err s => simp
  | ok a s => cases e.batch <;> simp [Storage.sound]

/-- A checkpoint that fails has published nothing and forgets no pending write. -/
theorem checkpoint_failed {e e' : WalEngine} {st : Storage} {order : List Uuid} {err : Error}
    (h : e.checkpoint padBlocks suite host st order = (e', .error err)) :
    e'.published = e.published ∧ e'.overlay = e.overlay ∧ e'.log = st.left.getD e.log := by
  unfold WalEngine.checkpoint at h
  cases hrun : forEach order (applyUnit padBlocks suite host st e.cats.keys.lastKey e.overlay)
    ⟨e.cats, 0⟩ with
  | error err' s =>
    rw [hrun] at h
    cases h
    exact ⟨rfl, rfl, rfl⟩
  | ok a s =>
    rw [hrun] at h
    dsimp only at h
    split at h
    · cases h
    · split at h
      · cases h
        exact ⟨rfl, rfl, rfl⟩
      · cases h

end

theorem WalEngine.mem_log_of_writeAsyncs {e₀ e : WalEngine} {calls : List (String × Patch)}
    (h : e₀.writeAsyncs calls = .ok e) :
    (∀ x ∈ e₀.log, x ∈ e.log) ∧ ∀ c ∈ calls,
      ∃ u, e₀.cats.keys.get c.1 = some u ∧ (u, c.2) ∈ e.log := by
  induction calls generalizing e₀ with
  | nil =>
    cases h
    exact ⟨fun _ hx => hx, fun c hc => by cases hc⟩
  | cons c calls ih =>
    obtain ⟨path, w⟩ := c
    obtain ⟨e₁, h₁, h⟩ := exists_of_bind_ok h
    unfold WalEngine.writeAsync at h₁
    split at h₁
    · cases h₁
    split at h₁
    · cases h₁
    rename_i u hk
    cases h₁
    obtain ⟨hold, hnew⟩ := ih h
    refine ⟨fun x hx => hold x (mem_append_left _ hx), fun c hc => ?_⟩
    rcases mem_cons.mp hc with rfl | hc
    · exact ⟨u, hk, hold _ (mem_append_right _ (mem_singleton_self _))⟩
    · exact hnew c hc

/-- A container with one empty file. -/
def Catalogs.oneFile : Catalogs where
  keys := ⟨[("a", 1)], by simp⟩
  heads := fun u => if u = 1 then some ⟨some .empty, []⟩ else none
  bound := by
    intro path u h
    have := KeyMap.mem_of_get h
    simp only [mem_singleton, Prod.mk.injEq] at this
    rw [if_pos this.2]
    rfl
  wf := by
    intro u r h
    split at h
    · cases h
      exact Wf.empty
    · cases h

def WalEngine.oneFile : WalEngine :=
  ⟨.oneFile, .oneFile, fun _ => [], [], false, fun _ _ hw => (by cases hw)⟩

end Sfs.Version

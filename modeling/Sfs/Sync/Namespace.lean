import Sfs.Catalog.Node
import Sfs.Lib.KeyMap
import Sfs.Sync.Strains
import Sfs.Version.Engine

/-!
# Importing into a replica

`import_record` on a replica: its names, the record chains of its units, the commits and what the
scan of the tail finds. Before the projection is compared with the head,
  the first name of the unit in scan order
is unbound if it is not the projection's; the projection's name is bound at the end, when the
record is already in the id catalog, and may be refused there. A stale projection should change
nothing and a failing one neither; `stale_import_iff` says for which replicas and projections that
is so.
-/

namespace Sfs.Sync

open Sfs.Lib Sfs.Version Option KeyMap StreamMeta

/-- The head record of a unit and its parents, newest first. The parent of a strain is the head
that was there when it was imported: `rooted vv` is the number of records the chain had when a
strain of that vector came. -/
structure Chain where
  head : Record Bytes
  past : List (Record Bytes)
  rooted : VersionVector → Nat

structure Namespace where
  keys : KeyMap Bytes Uuid
  units : Uuid → Option Chain
  commits : List Commit
  tail : List Evicted

open Namespace

def Chain.unitState (ch : Chain) : UnitState := ⟨ch.head.unitRecord, ch.past.map Record.unitRecord, []⟩

namespace Namespace

/-- The unit `u` at commit `c`, where `bits` gives the pin bits of the head. -/
def checkoutWith (bits : StreamMeta Bytes → Uuid → Nat → Bool) (s : Namespace) (path : String)
    (u c : Uuid) : Result Bytes :=
  match s.units u with
  | none => .error (.notFound ("no record for path: " ++ path))
  | some ch =>
    match ch.head.content with
    | none => .ok []
    | some head =>
      match committedVersion s.commits c u with
      | .error e => .error e
      | .ok ver => reconstructAt s.tail path u ch.unitState ver (bits head c)

def checkoutAtCommit (s : Namespace) (path : String) (u c : Uuid) : Result Bytes :=
  s.checkoutWith pinBit path u c

/-- Step 4: the first name of the unit in scan order, if it is not `key`, is taken for an old
name and unbound. -/
def unbindStale (s : Namespace) (u : Uuid) (key : Bytes) : Namespace :=
  match s.units u with
  | none => s
  | some _ =>
    match s.keys.firstKey u with
    | none => s
    | some old => if old = key then s else { s with keys := s.keys.erase old }

/-- The chain once `imp` is the head of the unit: a strain that was not there before is rooted at
the old head. -/
def installed (old : Option Chain) (imp : Imported Bytes) : Chain where
  head := imp.record
  past := match old with
    | none => []
    | some ch => if imp.supersedes then ch.head :: ch.past else ch.past
  rooted vv := match old with
    | none => 0
    | some ch => if vv ∈ ch.head.strains.map StreamMeta.vv then ch.rooted vv else ch.past.length + 1

def install (s : Namespace) (u : Uuid) (imp : Imported Bytes) : Namespace :=
  { s with units := fun v => if v = u then some (installed (s.units u) imp) else s.units v }

/-- `put_path`: the trie refuses a key that is too long. -/
def putPath (s : Namespace) (key : Bytes) (u : Uuid) : Namespace × Result Uuid :=
  if Catalog.MAX_KEY_LEN < key.length then (s, .error (keyTooLong key.length))
  else ({ s with keys := s.keys.put key u }, .ok u)

section

variable (scheme : SignatureScheme) (signer : Signer)

/-- The steps after the parsed projection of unit `u` passed its signature check. -/
def importProjection (s : Namespace) (u : Uuid) (inc : Incoming) : Namespace × Result Uuid :=
  let existing := s.keys.get inc.key
  if existing.all fun v => v = u then
    let unbound := s.unbindStale u inc.key
    match importRecord scheme signer id u ((s.units u).map Chain.head) inc with
    | .error e => (unbound, .error e)
    | .ok none =>
      -- an ignored content projection binds its name only if the unit is known
      if existing = none ∧ (inc.hasContent = false ∨ (s.units u).isSome) then
        unbound.putPath inc.key u
      else (unbound, .ok u)
    | .ok (some imp) =>
      if existing = none then (unbound.install u imp).putPath inc.key u
      else (unbound.install u imp, .ok u)
  else (s, .error (.integrity "import_record: key is already bound to a different uuid"))

/-- `import_record`: what was parsed and verified, or the error that stopped it. -/
def receive (s : Namespace) : Result (Uuid × Incoming) → Namespace × Result Uuid
  | .error e => (s, .error e)
  | .ok (u, inc) => s.importProjection scheme signer u inc

end

end Namespace

/-! ## The frame -/

def unpinned (s : StreamMeta Bytes) : StreamMeta Bytes := { s with pins := [] }

/-- What a reader sees of a head: its content, Meta stream and strains. -/
structure View where
  content : Option (StreamMeta Bytes)
  metadata : Option (StreamMeta Bytes)
  strains : List (StreamMeta Bytes)
  deriving DecidableEq

def Record.view (r : Record Bytes) : View := ⟨r.content.map unpinned, r.metadata, r.strains⟩

def Namespace.view (s : Namespace) (u : Uuid) : Option View := (s.units u).map fun ch => ch.head.view

structure Unchanged (s s' : Namespace) : Prop where
  keys : s'.keys = s.keys
  view : ∀ v, s'.view v = s.view v
  checkout : ∀ path v c, s'.checkoutAtCommit path v c = s.checkoutAtCommit path v c

/-- The projection brings nothing new: the vectors of its streams are dominated by or equal to
those of the head `r`. -/
def Stale (r : Record Bytes) (inc : Incoming) : Prop :=
  (inc.hasContent = true → inc.content.vv ≤ r.vv) ∧ ∀ m,
    inc.metadata = some m → m.vv ≤ headMetaVv (some r)

/-- Reading `u` at any commit does not need the pin bits of its head. -/
def PinsRedundant (s : Namespace) (u : Uuid) : Prop :=
  ∀ path c, s.checkoutWith (fun _ _ _ => false) path u c = s.checkoutAtCommit path u c

/-- The head is ahead of the projection, which is then ignored. -/
def Ignores (r : Record Bytes) (inc : Incoming) : Prop :=
  if inc.hasContent then strictlyAhead r.vv inc.content.vv = true
  else (inc.metadata.any fun m => strictlyAhead (headMetaVv (some r)) m.vv) = true

instance (r : Record Bytes) (inc : Incoming) : Decidable (Ignores r inc) :=
  inferInstanceAs (Decidable (ite _ _ _))

/-- The projection says no more and no less than the head. -/
def Repeats (signer : Signer) (r : Record Bytes) (inc : Incoming) : Prop :=
  if inc.hasContent then
    r.content.map projectRecord = some inc.content ∧
      (if signer.mode = .unsigned then incomingMeta id inc else none) = r.metadata ∧
      ∀ s ∈ r.strains, contentDecodes s = true ∧ strictlyAhead inc.content.vv s.vv = false
  else r.content = none ∧ incomingMeta id inc = r.metadata ∧ r.strains = []

/-- Step 4 has nothing to unbind, or an error came before it. -/
def NothingUnbound (s : Namespace) : Result (Uuid × Incoming) → Prop
  | .error _ => True
  | .ok (u, inc) => (∃ v, s.keys.get inc.key = some v ∧ v ≠ u) ∨ s.units u = none ∨
      ∀ old, s.keys.firstKey u = some old → old = inc.key

/-- A name to be bound is not too long, or there is no new record when it is refused. -/
def NothingInstalled (scheme : SignatureScheme) (signer : Signer) (s : Namespace) :
    Result (Uuid × Incoming) → Prop
  | .error _ => True
  | .ok (u, inc) => s.keys.get inc.key = none → Catalog.MAX_KEY_LEN < inc.key.length →
      ∀ imp, importRecord scheme signer id u ((s.units u).map Chain.head) inc = .ok (some imp) →
        s.units u = some (installed (s.units u) imp)

/-! ## Names -/

section

variable {s : Namespace} {u : Uuid} {key : Bytes}

@[simp] theorem unbindStale_units : (s.unbindStale u key).units = s.units := by
  unfold unbindStale
  split
  · rfl
  · split
    · rfl
    · split <;> rfl

@[simp] theorem unbindStale_commits : (s.unbindStale u key).commits = s.commits := by
  unfold unbindStale
  split
  · rfl
  · split
    · rfl
    · split <;> rfl

@[simp] theorem unbindStale_tail : (s.unbindStale u key).tail = s.tail := by
  unfold unbindStale
  split
  · rfl
  · split
    · rfl
    · split <;> rfl

theorem get_of_unbindStale {k : Bytes} {w : Uuid} (h : (s.unbindStale u key).keys.get k = some w) :
    s.keys.get k = some w := by
  unfold unbindStale at h
  split at h
  · exact h
  split at h
  · exact h
  · split at h
    · exact h
    · exact (get_erase_eq_some_iff.mp h).2

theorem erase_ne {m : KeyMap Bytes Uuid} {old : Bytes} (h : m.firstKey u = some old) :
    m.erase old ≠ m := by
  intro he
  have h1 := get_firstKey h
  rw [← he, get_erase_self] at h1
  cases h1

theorem unbindStale_keys_eq_iff : (s.unbindStale u key).keys = s.keys ↔
    s.units u = none ∨ ∀ old, s.keys.firstKey u = some old → old = key := by
  unfold unbindStale
  cases hu : s.units u with
  | none => simp
  | some ch =>
    cases hf : s.keys.firstKey u with
    | none => simp
    | some old =>
      by_cases hk : old = key
      · simp [hk]
      · simp [hk, erase_ne hf]

/-- The names after an accepted import into a known unit. -/
def Namespace.rebind (s : Namespace) (u : Uuid) (key : Bytes) : KeyMap Bytes Uuid :=
  if s.keys.get key = none then (s.unbindStale u key).keys.put key u else (s.unbindStale u key).keys

theorem rebind_eq_iff {ch : Chain} (hu : s.units u = some ch)
    (hkey : ∀ v, s.keys.get key = some v → v = u) :
    s.rebind u key = s.keys ↔ s.keys.firstKey u = some key := by
  cases hf : s.keys.firstKey u with
  | none =>
    -- the unit has no name: it gets one
    have hnone : s.keys.get key = none := by
      cases hg : s.keys.get key with
      | none => rfl
      | some v =>
        cases hkey v hg
        exact absurd hg (firstKey_eq_none_iff.mp hf key)
    simp only [reduceCtorEq, iff_false]
    intro he
    rw [rebind, if_pos hnone] at he
    have := congrArg (fun m => m.get key) he
    simp only [get_put_self, hnone] at this
    cases this
  | some old =>
    have hold := get_firstKey hf
    by_cases hk : old = key
    · subst hk
      simp [rebind, hold, unbindStale, hu, hf]
    simp only [Option.some.injEq, hk, iff_false]
    intro he
    have hkeys : (s.unbindStale u key).keys = s.keys.erase old := by
      simp [unbindStale, hu, hf, hk]
    have hget : (s.rebind u key).get old = none := by
      unfold rebind
      split
      · rw [get_put_of_ne _ _ hk, hkeys, get_erase_self]
      · rw [hkeys, get_erase_self]
    rw [he, hold] at hget
    cases hget

end

/-! ## Records -/

theorem fastForwarded_eq_unpinned_iff {l : StreamMeta Bytes} {p : Projection} :
    fastForwarded l p = unpinned l ↔ projectRecord l = p := by
  constructor
  · intro h
    have hm : (fastForwarded l p).unitMap = p.unitMap := by
      apply List.ext_getElem (by simp [unitMap, fastForwarded])
      simp [unitMap, fastForwarded]
    have hp : projectRecord (fastForwarded l p) = p := by
      rw [projectRecord, hm]
      rfl
    rw [h] at hp
    exact hp
  · rintro rfl
    have hf : (fastForwarded l (projectRecord l)).frags = l.frags := by
      apply List.ext_getElem (by simp [fastForwarded, projectRecord, unitMap])
      intro f h1 h2
      simp [fastForwarded, projectRecord, unitMap, h2, dot_of_lt h2, block_of_lt h2]
    calc fastForwarded l (projectRecord l)
        = { unpinned l with frags := (fastForwarded l (projectRecord l)).frags } := rfl
      _ = unpinned l := by rw [hf]; rfl

theorem readFrags_congr {t t' : StreamMeta Bytes} {b b' : Nat → Result (Option Bytes)}
    (ht : SameGeometry t t') (hb : ∀ f, b f = b' f) (fs : List Nat) :
    readFrags t b fs = readFrags t' b' fs := by
  induction fs with
  | nil => rfl
  | cons f fs ih =>
    simp only [readFrags, hb, ih]
    split
    · rfl
    · split
      · rfl
      · rw [ht.fragOut]

/-- A head with the same fragments over the old one, and without its pins: what a checkout finds
is what it found without the pins. -/
theorem reconstructAt_over (tail : List Evicted) (path : String) (u : Uuid) {st : UnitState}
    {l : StreamMeta Bytes} (hl : st.head.content = some l) (strains : List (StreamMeta Bytes))
    (ver : BlockVersion) :
    reconstructAt tail path u ⟨⟨some (unpinned l), strains⟩, st.heads, []⟩ ver (fun _ => false) =
      reconstructAt tail path u st ver (fun _ => false) := by
  have hs : st.head.stream = l := by rw [UnitRecord.stream, hl]; rfl
  have hres : ∀ f, resolve f ver (⟨some (unpinned l), strains⟩ :: st.heads) =
      resolve f ver st.heads := by
    intro f
    rw [resolve_cons rfl, UnitState.heads, resolve_cons hl]
    show (if f < l.frags.length ∧ l.dot f ≤ ver then some ((l.block f).isNone, l.dot f) else _) = _
    split <;> rfl
  have hb : ∀ f, blockAt tail u ⟨⟨some (unpinned l), strains⟩, st.heads, []⟩ ver false f =
      blockAt tail u st ver false f := by
    intro f
    simp only [blockAt, hs, UnitState.heads] at hres ⊢
    simp only [hres]
    rfl
  have htarget : targetRecord ver (⟨some (unpinned l), strains⟩ :: st.heads) =
      if l.frags ≠ [] ∧ maxVer l ≤ ver then some (unpinned l) else targetRecord ver st.heads :=
    targetRecord_cons (r := ⟨some (unpinned l), strains⟩) (s := unpinned l) rfl
  have hold : targetRecord ver st.heads =
      if l.frags ≠ [] ∧ maxVer l ≤ ver then some l else targetRecord ver st.past :=
        targetRecord_cons hl
  simp only [reconstructAt, hl]
  rw [show targetRecord ver (UnitState.heads ⟨⟨some (unpinned l), strains⟩, st.heads, []⟩) =
    _ from htarget]
  by_cases hc : l.frags ≠ [] ∧ maxVer l ≤ ver
  · rw [if_pos hc, hold, if_pos hc]
    have hg : SameGeometry (unpinned l) l := ⟨rfl, rfl, rfl⟩
    exact readFrags_congr hg hb _
  · rw [if_neg hc]
    cases targetRecord ver st.heads with
    | none => rfl
    | some T => exact readFrags_congr ⟨rfl, rfl, rfl⟩ hb _

/-! ## A stale projection -/

section

variable {scheme : SignatureScheme} {signer : Signer} {s s' : Namespace} {u v : Uuid}
  {inc : Incoming} {ch : Chain}

/-- The head after an accepted import. -/
def Namespace.accept (s : Namespace) (u : Uuid) (key : Bytes) (res : Option (Imported Bytes)) :
    Namespace :=
  { s with
    keys := s.rebind u key
    units := res.elim s.units fun imp => (s.install u imp).units }

/-- An import that is ignored is of a known unit. -/
theorem known_of_ignored
    (h : importRecord scheme signer id u ((s.units u).map Chain.head) inc = .ok none) :
    s.units u ≠ none := by
  intro hu
  rw [hu] at h
  by_cases hc : inc.hasContent = true
  · cases importRecord_accepts hc h with
    | ignored ahead =>
      exact absurd ahead (by simp [headStream, StreamMeta.empty, new_not_strictlyAhead])
  · rw [importRecord_metaOnly (by simpa using hc)] at h
    obtain ⟨m, -, ⟨ahead, -⟩ | ⟨-, r, hr, -⟩⟩ := importMetaOnly_cases h
    · exact absurd ahead (by simp [headMetaVv, new_not_strictlyAhead])
    · cases hr

/-- The projection's name has to be bound and is too long. -/
def Unbindable (s : Namespace) (key : Bytes) : Prop :=
  s.keys.get key = none ∧ Catalog.MAX_KEY_LEN < key.length

instance (s : Namespace) (key : Bytes) : Decidable (Unbindable s key) :=
  inferInstanceAs (Decidable (_ ∧ _))

/-- What an import leaves. It is refused over a name of another unit; otherwise step 4 is made, the
record is installed, if there is one, and the names are bound anew unless the name is too long. -/
theorem importProjection_eq (s : Namespace) (u : Uuid) (inc : Incoming) :
    s.importProjection scheme signer u inc =
      if (s.keys.get inc.key).all fun v => v = u then
        match importRecord scheme signer id u ((s.units u).map Chain.head) inc with
        | .error e => (s.unbindStale u inc.key, .error e)
        | .ok res =>
          if Unbindable s inc.key then
            ({ s.accept u inc.key res with keys := (s.unbindStale u inc.key).keys },
              .error (keyTooLong inc.key.length))
          else (s.accept u inc.key res, .ok u)
      else (s, .error (.integrity "import_record: key is already bound to a different uuid")) := by
  unfold importProjection
  by_cases hall : ((s.keys.get inc.key).all fun v => v = u) = true
  · rw [if_pos hall, if_pos hall]
    -- the names and the chains of the units decide the state
    have hext : ∀ s₁ s₂ : Namespace, s₁.keys = s₂.keys → s₁.units = s₂.units →
        s₁.commits = s₂.commits → s₁.tail = s₂.tail → s₁ = s₂ := by
      rintro ⟨keys, units, commits, tail⟩ s₂ rfl rfl rfl rfl
      rfl
    have hput : ∀ (s₁ : Namespace) (res : Option (Imported Bytes)), s.keys.get inc.key = none →
        s₁.keys = (s.unbindStale u inc.key).keys → s₁.units = (s.accept u inc.key res).units →
        s₁.commits = s.commits → s₁.tail = s.tail → s₁.putPath inc.key u =
          if Unbindable s inc.key then
            ({ s.accept u inc.key res with keys := (s.unbindStale u inc.key).keys },
              .error (keyTooLong inc.key.length))
          else (s.accept u inc.key res, .ok u) := by
      intro s₁ res hn hk hu hc ht
      unfold putPath
      refine if_congr ⟨fun h => ⟨hn, h⟩, And.right⟩ ?_ ?_
      · exact congrArg (·, _) (hext _ _ hk hu hc ht)
      · refine congrArg (·, _) (hext _ _ ?_ hu hc ht)
        show s₁.keys.put inc.key u = s.rebind u inc.key
        rw [rebind, if_pos hn, hk]
    have hkeep : ∀ (s₁ : Namespace) (res : Option (Imported Bytes)), s.keys.get inc.key ≠ none →
        s₁.keys = (s.unbindStale u inc.key).keys → s₁.units = (s.accept u inc.key res).units →
        s₁.commits = s.commits → s₁.tail = s.tail → s₁ = s.accept u inc.key res := by
      intro s₁ res hn hk hu hc ht
      refine hext _ _ ?_ hu hc ht
      show s₁.keys = s.rebind u inc.key
      rw [rebind, if_neg hn, hk]
    cases hi : importRecord scheme signer id u ((s.units u).map Chain.head) inc with
    | error e => rfl
    | ok res =>
      cases res with
      | none =>
        have hknown : (s.units u).isSome = true := isSome_iff_ne_none.mpr (known_of_ignored hi)
        dsimp only
        split
        · rename_i hn
          exact hput _ none hn.1 rfl (by simp [accept]) (by simp) (by simp)
        · rename_i hn
          have hn : s.keys.get inc.key ≠ none := fun h => hn ⟨h, .inr hknown⟩
          rw [if_neg fun h => hn h.1, hkeep _ none hn rfl (by simp [accept]) (by simp) (by simp)]
      | some imp =>
        dsimp only
        split
        · rename_i hn
          refine hput _ (some imp) hn rfl ?_ ?_ ?_ <;> simp [accept, install]
        · rename_i hn
          rw [if_neg fun h => hn h.1]
          refine congrArg (·, _) (hkeep _ (some imp) hn rfl ?_ ?_ ?_) <;> simp [accept, install]
  · rw [if_neg hall, if_neg hall]

theorem all_key_iff : ((s.keys.get inc.key).all fun v => v = u) = true ↔
    ∀ w, s.keys.get inc.key = some w → w = u := by
  rw [all_eq_true]
  exact forall_congr' fun w => imp_congr_right fun _ => decide_eq_true_iff

theorem importProjection_eq_ok_iff : s.importProjection scheme signer u inc = (s', .ok v) ↔
    (∀ w, s.keys.get inc.key = some w → w = u) ∧ ¬ Unbindable s inc.key ∧ v = u ∧
      ∃ res, importRecord scheme signer id u ((s.units u).map Chain.head) inc = .ok res ∧
        s' = s.accept u inc.key res := by
  rw [importProjection_eq, ← all_key_iff]
  by_cases h : ((s.keys.get inc.key).all fun v => v = u) = true
  · rw [if_pos h, and_iff_right h]
    cases hi : importRecord scheme signer id u ((s.units u).map Chain.head) inc with
    | error e =>
      exact iff_of_false (fun h => (nomatch (Prod.mk.inj h).2)) fun ⟨_, _, res, hres, _⟩ =>
        (nomatch hres)
    | ok res =>
      dsimp only
      split
      · rename_i hb
        exact iff_of_false (fun h => (nomatch (Prod.mk.inj h).2)) fun h => h.1 hb
      rename_i hb
      constructor
      · rintro ⟨⟩
        exact ⟨hb, rfl, res, rfl, rfl⟩
      · rintro ⟨-, rfl, res', ⟨⟩, rfl⟩
        rfl
  · rw [if_neg h]
    exact iff_of_false (fun h => (nomatch (Prod.mk.inj h).2)) fun h' => h h'.1

@[simp] theorem installed_head (old : Option Chain) (imp : Imported Bytes) :
    (installed old imp).head = imp.record := rfl

theorem checkoutWith_congr {bits : StreamMeta Bytes → Uuid → Nat → Bool} (hu : s'.units v = s.units v)
    (hc : s'.commits = s.commits) (ht : s'.tail = s.tail) (path : String) (c : Uuid) :
    s'.checkoutWith bits path v c = s.checkoutWith bits path v c := by
  simp only [checkoutWith, hu, hc, ht]

/-- Without content there is nothing to pin. -/
theorem checkoutWith_no_content {bits : StreamMeta Bytes → Uuid → Nat → Bool}
    (hu : s.units u = some ch) (hn : ch.head.content = none) (path : String) (c : Uuid) :
    s.checkoutWith bits path u c = .ok [] := by
  simp only [checkoutWith, hu, hn]

theorem checkout_over {r : Record Bytes} {l : StreamMeta Bytes} {rooted : VersionVector → Nat}
    (hu : s.units u = some ch) (hl : ch.head.content = some l)
    (hu' : s'.units u = some ⟨r, ch.head :: ch.past, rooted⟩)
    (hr : r.content = some (unpinned l)) (hc : s'.commits = s.commits) (ht : s'.tail = s.tail)
    (path : String) (c : Uuid) :
    s'.checkoutAtCommit path u c = s.checkoutWith (fun _ _ _ => false) path u c := by
  simp only [checkoutAtCommit, checkoutWith, hu, hu', hr, hl, hc, ht]
  split
  · rfl
  · have hhead : ch.unitState.head.content = some l := hl
    rw [← reconstructAt_over s.tail path u hhead r.strains]
    simp only [Chain.unitState, Record.unitRecord, UnitState.heads, hr, List.map_cons]
    rfl

/-- A record installed over the head `ch.head`: the frame holds for all other units, and for `u`
it is a matter of the record and of reading without pins. -/
theorem unchanged_install_iff {r : Record Bytes} (hr : r.content.map unpinned = r.content)
    (hu : s.units u = some ch) (hkeys : s'.keys = s.rebind u inc.key)
    (hget : ∀ w, s.keys.get inc.key = some w → w = u) (hc : s'.commits = s.commits)
    (ht : s'.tail = s.tail) (hunits : s'.units = (s.install u ⟨r, true⟩).units) :
    Unchanged s s' ↔ s.keys.firstKey u = some inc.key ∧ r.view = ch.head.view ∧ PinsRedundant s u := by
  have hself : s'.units u = some (installed (some ch) ⟨r, true⟩) := by simp [hunits, install, hu]
  have hother : ∀ v, v ≠ u → s'.units v = s.units v := fun v hv => by simp [hunits, install, hv]
  have hview : (∀ v, s'.view v = s.view v) ↔ r.view = ch.head.view := by
    constructor
    · intro h
      have := h u
      simpa [view, hself, hu] using this
    · intro h v
      by_cases hv : v = u
      · subst hv
        simp [view, hself, hu, h]
      · simp [view, hother v hv]
  -- the content seen is the same, so a checkout finds what it found without the pins
  have hover : r.view = ch.head.view → ∀ path c,
      s'.checkoutAtCommit path u c = s.checkoutWith (fun _ _ _ => false) path u c := by
    intro h path c
    have hcont : r.content = ch.head.content.map unpinned := hr.symm.trans (congrArg View.content h)
    cases hl : ch.head.content with
    | none =>
      rw [hl, map_none] at hcont
      rw [checkoutAtCommit, checkoutWith_no_content hself hcont, checkoutWith_no_content hu hl]
    | some l =>
      rw [hl, map_some] at hcont
      exact checkout_over hu hl hself hcont hc ht path c
  rw [← rebind_eq_iff hu hget, ← hkeys, ← hview]
  constructor
  · intro h
    refine ⟨h.keys, h.view, fun path c => ?_⟩
    rw [← hover (hview.mp h.view), h.checkout]
  rintro ⟨h1, h2, h3⟩
  refine ⟨h1, h2, fun path v c => ?_⟩
  by_cases hv : v = u
  · subst hv
    rw [hover (hview.mp h2), h3]
  · exact checkoutWith_congr (hother v hv) hc ht path c

/-- The fast-forward of a projection that is not ahead shows the same record exactly when the
projection repeats the head. -/
theorem view_fastForward_iff {r r' : Record Bytes} (hc : inc.hasContent = true)
    (content : r'.content = some (fastForwarded (headStream (some r)) inc.content))
    (strains : r'.strains = preservedStrains (some r) inc.content.vv)
    (metadata : r'.metadata = attachedMeta signer.mode id none inc.metadata) :
    r'.view = r.view ↔ Repeats signer r inc := by
  have hcont : r'.content.map unpinned = r.content.map unpinned ↔
      r.content.map projectRecord = some inc.content := by
    rw [content]
    cases hl : r.content with
    | none => simp
    | some l =>
      have hs : headStream (some r) = l := by simp [headStream, hl]
      rw [hs, map_some, map_some, map_some, Option.some.injEq, Option.some.injEq]
      exact fastForwarded_eq_unpinned_iff
  have hmeta : attachedMeta signer.mode id (none : Option (StreamMeta Bytes)) inc.metadata =
      if signer.mode = .unsigned then incomingMeta id inc else none := by
    unfold attachedMeta
    split
    · rename_i m hmode hm
      simp [hmode, incomingMeta, hm, new_not_strictlyAhead]
    rename_i hn
    by_cases hmode : signer.mode = .unsigned
    · rw [if_pos hmode, incomingMeta]
      cases hm : inc.metadata with
      | none => rfl
      | some m => exact absurd hm (hn m hmode)
    · rw [if_neg hmode]
  have hstr : preservedStrains (some r) inc.content.vv = r.strains ↔
      ∀ s ∈ r.strains, contentDecodes s = true ∧ strictlyAhead inc.content.vv s.vv = false := by
    simp only [preservedStrains, headStrains, map_some, getD_some, List.filter_eq_self,
      Bool.and_eq_true, Bool.not_eq_true']
  simp only [Record.view, View.mk.injEq, hcont, metadata, hmeta, strains, hstr, Repeats, hc, if_true]

theorem unchanged_stale_iff (hu : s.units u = some ch) (hst : Stale ch.head inc)
    (h : s.importProjection scheme signer u inc = (s', .ok v)) :
    Unchanged s s' ↔ s.keys.firstKey u = some inc.key ∧
      (Ignores ch.head inc ∨ Repeats signer ch.head inc ∧ PinsRedundant s u) := by
  obtain ⟨hget, -, -, res, hi, rfl⟩ := importProjection_eq_ok_iff.mp h
  rw [hu, map_some] at hi
  have hkeys : (s.accept u inc.key res).keys = s.rebind u inc.key := rfl
  have hc : (s.accept u inc.key res).commits = s.commits := rfl
  have ht : (s.accept u inc.key res).tail = s.tail := rfl
  have hunits : (s.accept u inc.key res).units = res.elim s.units fun imp =>
    (s.install u imp).units := rfl
  generalize s.accept u inc.key res = s' at hkeys hc ht hunits
  have hsame : Ignores ch.head inc → res = none → (Unchanged s s' ↔ s.keys.firstKey u = some inc.key ∧
      (Ignores ch.head inc ∨ Repeats signer ch.head inc ∧ PinsRedundant s u)) := by
    rintro hig rfl
    rw [← rebind_eq_iff hu hget, ← hkeys, and_iff_left (.inl hig)]
    refine ⟨fun hk => hk.keys, fun hk => ⟨hk, fun v => by simp [view, hunits], fun path v c => ?_⟩⟩
    exact checkoutWith_congr (congrFun hunits v) hc ht path c
  by_cases hct : inc.hasContent = true
  · cases importRecord_accepts hct hi with
    | ignored ahead => exact hsame (by simp only [Ignores, hct, if_true]; exact ahead) rfl
    | fastForward r ahead ordered content strains db metadata =>
      have hni : ¬ Ignores ch.head inc := by
        simp only [Ignores, hct, if_true, Bool.not_eq_true]
        exact ahead
      rw [or_iff_right hni]
      have hr : r.content.map unpinned = r.content := by rw [content]; rfl
      rw [unchanged_install_iff hr hu hkeys hget hc ht hunits,
        view_fastForward_iff hct content strains metadata]
    | autoMerge r concurrent agree content strains db metadata =>
      exact absurd (hst.1 hct) (VersionVector.incompRel_iff.mpr concurrent).2
    | strainSplit head r known concurrent conflict content strains db metadata =>
      exact absurd (hst.1 hct) (VersionVector.incompRel_iff.mpr concurrent).2
  · have hct : inc.hasContent = false := by simpa using hct
    rw [importRecord_metaOnly hct] at hi
    obtain ⟨m, hm, ⟨ha, rfl⟩ | ⟨ha, r, rfl, hcont, hmeta, hstr, -⟩⟩ := importMetaOnly_cases hi
    · exact hsame (by simp [Ignores, hct, hm, ha]) rfl
    have hni : ¬ Ignores ch.head inc := by simp [Ignores, hct, hm, ha]
    rw [or_iff_right hni]
    have hr : r.content.map unpinned = r.content := by rw [hcont]; rfl
    rw [unchanged_install_iff hr hu hkeys hget hc ht hunits]
    have hview : r.view = ch.head.view ↔ Repeats signer ch.head inc := by
      simp only [Record.view, View.mk.injEq, hcont, hmeta, hstr, Repeats, hct, Bool.false_eq_true,
        if_false, incomingMeta, hm, map_some, map_none]
      refine and_congr ?_ (and_congr Iff.rfl ⟨Eq.symm, Eq.symm⟩)
      rw [eq_comm, map_eq_none_iff]
    rw [hview]

/-- A failing import unbinds a name, or leaves a record without its name, or changes nothing. -/
theorem unchanged_error_iff {parsed : Result (Uuid × Incoming)} {e : Error}
    (h : s.receive scheme signer parsed = (s', .error e)) :
    (s'.keys = s.keys ∧ s'.units = s.units) ↔
      NothingUnbound s parsed ∧ NothingInstalled scheme signer s parsed := by
  cases parsed with
  | error e' =>
    cases h
    exact iff_of_true ⟨rfl, rfl⟩ ⟨trivial, trivial⟩
  | ok p =>
    obtain ⟨u, inc⟩ := p
    rw [receive, importProjection_eq] at h
    by_cases hall : ((s.keys.get inc.key).all fun v => v = u) = true
    · have hmine := all_key_iff.mp hall
      have hno : ¬ ∃ v, s.keys.get inc.key = some v ∧ v ≠ u := fun ⟨v, hv, hne⟩ => hne (hmine v hv)
      rw [if_pos hall] at h
      simp only [NothingUnbound, NothingInstalled, hno, false_or]
      rw [← unbindStale_keys_eq_iff]
      cases hi : importRecord scheme signer id u ((s.units u).map Chain.head) inc with
      | error e' =>
        rw [hi] at h
        cases h
        simp
      | ok res =>
        rw [hi] at h
        dsimp only at h
        split at h
        · -- the record is there, the name is refused
          rename_i hbind
          cases h
          refine and_congr Iff.rfl ?_
          cases res with
          | none => exact iff_of_true rfl fun _ _ imp himp => by cases himp
          | some imp =>
            constructor
            · rintro hsame - - imp' ⟨⟩
              exact ((congrFun hsame u).symm.trans (if_pos rfl))
            · intro hsame
              refine funext fun v => ?_
              show (if v = u then some (installed (s.units u) imp) else s.units v) = s.units v
              split
              · rename_i hv
                rw [hv]
                exact (hsame hbind.1 hbind.2 imp rfl).symm
              · rfl
        · cases h
    · rw [if_neg hall] at h
      cases h
      have hother : ∃ v, s.keys.get inc.key = some v ∧ v ≠ u := by
        by_contra hno
        exact hall (all_key_iff.mpr fun w hw => by_contra fun hne => hno ⟨w, hw, hne⟩)
      obtain ⟨v, hv, hne⟩ := hother
      refine iff_of_true ⟨rfl, rfl⟩ ⟨.inl ⟨v, hv, hne⟩, fun hn => ?_⟩
      rw [hv] at hn
      cases hn

end

/-- A file with two names, written twice by host 1. -/
def linked : Namespace where
  keys := (KeyMap.empty.put [97] 5).put [98] 5
  units v := if v = 5 then
    some ⟨⟨some ⟨[⟨packDot 1 2, some [7]⟩], (VersionVector.new.bump 1).bump 1, 12, 1, []⟩, none, [],
      none, none⟩, [], fun _ => 0⟩
  else none
  commits := []
  tail := []

/-- The first of the two versions, under `key`. -/
def olderUnder (key : Bytes) : Incoming :=
  ⟨key, ⟨[packDot 1 1], VersionVector.new.bump 1, 12, 1⟩, none, true, none⟩

theorem stale_olderUnder (key : Bytes) {ch : Chain} (h : linked.units 5 = some ch) :
    Stale ch.head (olderUnder key) := by
  cases h
  exact ⟨fun _ => (by decide : VersionVector.new.bump 1 ≤ (VersionVector.new.bump 1).bump 1),
    fun m hm => by cases hm⟩

end Sfs.Sync

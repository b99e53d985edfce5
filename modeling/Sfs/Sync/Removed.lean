import Sfs.Sync.Replica

/-!
# Removed paths

Removing a path leaves no trace but the missing name: the record stays in the id catalog, and the
store keeps what was pushed. A round finds the unit missing from the manifest and imports whatever
the store has of it, which binds the name again. So a unit comes back exactly through what is
stored for it.
-/

namespace Sfs.Sync

open Sfs.Lib Sfs.Version LocalTransport Namespace

/-- The version a projection has: that of its content, or of its Meta stream if it has no
content. -/
def Incoming.vv (inc : Incoming) : VersionVector :=
  if inc.hasContent then inc.content.vv else (inc.metadata.map IncomingMeta.vv).getD .new

/-- The versions a head record shows. -/
def versions (r : Record Bytes) : List VersionVector :=
  if r.content.isSome then frontier (some r) else [headMetaVv (some r)]

/-- A replica and the store, with the versions of one unit that the replica has seen. -/
structure Watched (ω : Type) where
  replica : Namespace
  store : LocalTransport ω
  seen : List VersionVector

inductive WatchedEvent (ω : Type) where
  | call (op : LocalOp)
  | round
  /-- what other replicas make of the store -/
  | others (store : LocalTransport ω)

section

variable {ω : Type} (scheme : SignatureScheme) (signer : Signer) (env : Envelope ω)
variable (padBlocks : Bool) (suite : Suite) (host : HostAlias) (u : Uuid)

def Watched.look (w : Watched ω) : Watched ω :=
  { w with seen := ((w.replica.units u).elim [] fun ch => versions ch.head) ++ w.seen }

def Watched.step (w : Watched ω) : WatchedEvent ω → Watched ω
  | .call op => { w with replica := w.replica.perform scheme signer padBlocks suite host op }.look u
  | .round =>
    let after := (sync scheme signer env backend w.replica w.store).1
    { w with replica := after.1, store := after.2 }.look u
  | .others store => { w with store }

/-- The store holds a version of the unit that the replica has not seen. -/
def UnseenStored (w : Watched ω) : Prop :=
  ∃ e ∈ w.store.frontier u, ∃ inc, env.unwrap e.2 = .ok inc ∧ ∀ v ∈ w.seen, ¬ inc.vv ≤ v

/-- The unit is known but has no name. -/
def Removed (s : Namespace) : Prop := s.units u ≠ none ∧ ¬ s.Bound u

/-- A removed unit only comes back for a version that the replica had not seen. -/
def StaysRemoved (w : Watched ω) (ev : WatchedEvent ω) : Prop :=
  Removed u w.replica → (w.step scheme signer env padBlocks suite host u ev).replica.Bound u →
    ev = .round ∧ UnseenStored env u w

/-- The store holds nothing of a removed unit when a round is made, or something unseen. New uuids
are new. -/
def Forgotten (w : Watched ω) : WatchedEvent ω → Prop
  | .call (.createUnit _ v _ _ _) => w.replica.units v = none
  | .call _ => True
  | .round => Removed u w.replica → w.store.frontier u = [] ∨ UnseenStored env u w
  | .others _ => True

end

/-! ## Names under calls and imports -/

/-- `u` is given no name. -/
def NoName (u : Uuid) (s s' : Namespace) : Prop := s'.Bound u → s.Bound u

section

variable {ω : Type} {scheme : SignatureScheme} {signer : Signer} {env : Envelope ω}
  {s s' : Namespace} {u v : Uuid}

instance : Std.Refl (NoName u) := ⟨fun _ h => h⟩

instance : IsTrans Namespace (NoName u) := ⟨fun _ _ _ h h' hb => h (h' hb)⟩

theorem NoName.of_keys (h : ∀ key, s'.keys.get key = some u → s.keys.get key = some u) :
    NoName u s s' :=
  fun ⟨key, hkey⟩ => ⟨key, h key hkey⟩

theorem noName_unbind (key : Bytes) : NoName u s (s.unbind key) :=
  .of_keys fun _ h => (KeyMap.get_erase_eq_some_iff.mp h).2

theorem noName_bind (key : Bytes) (hv : v ≠ u) : NoName u s (s.bind key v) := by
  refine .of_keys fun k h => ?_
  rcases KeyMap.get_put_eq_some_iff.mp h with ⟨-, rfl⟩ | ⟨-, h⟩
  · exact absurd rfl hv
  · exact h

theorem noName_bind_of_bound (key : Bytes) (hv : s.Bound v) : NoName u s (s.bind key v) := by
  by_cases huv : v = u
  · exact fun _ => huv ▸ hv
  · exact noName_bind key huv

theorem noName_unbindStale (key : Bytes) : NoName u s (s.unbindStale v key) :=
  .of_keys fun _ h => get_of_unbindStale h

theorem noName_accept (key : Bytes) (res : Option (Imported Bytes)) (hv : v ≠ u) :
    NoName u s (s.accept v key res) := by
  refine .of_keys fun k h => ?_
  change (s.rebind v key).get k = some u at h
  unfold rebind at h
  split at h
  · rcases KeyMap.get_put_eq_some_iff.mp h with ⟨-, rfl⟩ | ⟨-, h⟩
    · exact absurd rfl hv
    · exact get_of_unbindStale h
  · exact get_of_unbindStale h

theorem noName_importProjection (inc : Incoming) (hv : v ≠ u) :
    NoName u s (s.importProjection scheme signer v inc).1 := by
  rw [importProjection_eq]
  split
  · cases importRecord scheme signer id v ((s.units v).map Chain.head) inc with
    | error e => exact noName_unbindStale inc.key
    | ok res =>
      dsimp only
      split
      · exact .of_keys fun _ h => get_of_unbindStale h
      · exact noName_accept inc.key res hv
  · exact id

theorem after_importBlob (blob : ω) (s : Namespace) : after (importBlob scheme signer env v blob) s =
    (s.receive scheme signer ((env.unwrap blob).map fun inc => (v, inc))).1 := by
  unfold after importBlob
  cases s.receive scheme signer ((env.unwrap blob).map fun inc => (v, inc)) with
  | mk s' res => cases res <;> rfl

theorem follows_importBlob (hv : v ≠ u) (blob : ω) :
    Follows (NoName u) (importBlob scheme signer env v blob) := by
  intro s
  rw [after_importBlob]
  cases env.unwrap blob with
  | error e => exact id
  | ok inc => exact noName_importProjection inc hv

theorem keeps_importBlock (f : Nat) (ver : BlockVersion) (block : Bytes) (fragLen : Nat) :
    Lib.Keeps keys (transact fun s => s.importBlock scheme signer v f ver block fragLen) := by
  intro s
  rcases after_transact (fun s : Namespace => s.importBlock scheme signer v f ver block fragLen) s
    with h | h
  · obtain ⟨_, _, -, -, -, -, hs⟩ := importBlock_eq_ok_iff.mp h
    rw [hs]
    rfl
  · rw [h]

theorem follows_of_keeps {α : Type} {m : EStateM Error Namespace α} (h : Lib.Keeps keys m) :
    Follows (NoName u) m :=
  fun s => .of_keys fun key hkey => by rwa [h s] at hkey

/-! ## A round -/

theorem follows_pullUnit {t : LocalTransport ω} (hnone : t.frontier u = [])
    (pre : List UnitSyncState) (v : Uuid) :
    Follows (NoName u) (pullUnit scheme signer env backend t pre v) := by
  refine .bind (.ofExcept _) fun vv => ?_
  dsimp only
  split
  · show Follows (NoName u) (forEach ((t.frontier v).map Prod.snd) (importBlob scheme signer env v))
    by_cases hv : v = u
    · rw [hv, hnone]
      exact Follows.pure ()
    · exact .forEach fun blob _ => follows_importBlob hv blob
  · exact Follows.pure ()

theorem follows_importPrimary (post : List UnitSyncState) (v : Uuid)
    (wanted : (Nat × BlockVersion) × Option Bytes) :
    Follows (NoName u) (importPrimary scheme signer post v wanted) := by
  unfold importPrimary
  split
  · exact Follows.throw _
  · exact follows_of_keeps (keeps_importBlock _ _ _ _)

theorem follows_pullStrains (t : LocalTransport ω) (post : List UnitSyncState) (v : Uuid) :
    Follows (NoName u) (pullStrains scheme signer backend t post v) := by
  unfold pullStrains
  split
  · exact Follows.pure ()
  refine .get fun s => .bind (.ofExcept _) fun strains =>
      .forEach fun strain _ => .bind (.ofExcept _) fun fetched =>
    .forEach fun wanted _ => ?_
  unfold importStrainBlock
  split
  · exact Follows.pure ()
  · exact follows_of_keeps (keeps_importBlock _ _ _ _)

/-- If the store has nothing of `u`, pulling gives it no name. -/
theorem follows_pull (scheme : SignatureScheme) (signer : Signer) (env : Envelope ω)
    {t : LocalTransport ω} (hnone : t.frontier u = []) (pre : List UnitSyncState) :
    Follows (NoName u) (pull scheme signer env backend t pre) := by
  refine .bind (.ofExcept _) fun remote =>
      .bind (.forEach fun v _ => follows_pullUnit hnone pre v) fun _ =>
    .get fun s => .bind (.ofExcept _) fun post => .bind (.bind (.ofExcept _) fun fetched =>
      .forEach fun p _ => .forEach fun wanted _ => follows_importPrimary post p.1 wanted) fun _ =>
        .forEach fun v _ => follows_pullStrains t post v

theorem keeps_pushUnit {m : UnitSyncState} (hm : u ≠ m.uuid) :
    Lib.Keeps (fun t : LocalTransport ω => t.frontier u) (pushUnit scheme signer env backend s m) := by
  refine .bind .get fun t => .bind (.ofExcept _) fun vv => ?_
  dsimp only
  split
  · exact .pure ()
  · exact .bind (.ofExcept _) fun inc =>
        .bind (.modify fun t => (t.frontier_putRecord ..).trans (if_neg hm)) fun _ =>
      .bind (.ofExcept _) fun blocks =>
        .bind (.forEach fun b _ => .modify fun t => rfl) fun _ => .modify fun t => rfl

/-- A round gives a unit without a name one only if the store has something of it. -/
theorem noName_sync {t : LocalTransport ω} (hbound : ¬ s.Bound u) (hnone : t.frontier u = []) :
    ¬ (sync scheme signer env backend s t).1.1.Bound u := by
  unfold sync
  cases hpre : s.syncManifest scheme signer with
  | error e => exact hbound
  | ok pre =>
    obtain ⟨-, rfl⟩ := syncManifest_eq_ok_iff.mp hpre
    -- the unit is not told, so nothing of it is pushed
    have hkeep : Lib.Keeps (fun t : LocalTransport ω => t.frontier u)
        (push scheme signer env backend s s.told) := by
      refine .forEach fun m hm => keeps_pushUnit fun hum => hbound ?_
      obtain ⟨key, v, ch, hkey, -, rfl⟩ := mem_told.mp hm
      rw [syncState_uuid] at hum
      exact ⟨key, hum ▸ hkey⟩
    dsimp only
    cases hpush : push scheme signer env backend s s.told t with
    | error e t' => exact hbound
    | ok _ t' =>
      have hnone' : t'.frontier u = [] := (hkeep.of_ok hpush).trans hnone
      have hpull := follows_pull scheme signer env hnone' s.told s
      dsimp only
      cases hres : pull scheme signer env backend t' s.told s with
      | error e s' => exact fun h => hbound (hpull (after_of_error hres ▸ h))
      | ok _ s' => exact fun h => hbound (hpull (after_of_ok hres ▸ h))

end

/-! ## Calls -/

section

variable {scheme : SignatureScheme} {signer : Signer} {padBlocks : Bool} {suite : Suite}
  {host : HostAlias} {s : Namespace} {u : Uuid}

theorem noName_supersede {v : Uuid} {call : Result (Option (Record Bytes))} {s' : Namespace}
    (h : s.supersede v call = .ok s') : NoName u s s' := by
  obtain ⟨res, -, h⟩ := exists_of_bind_ok h
  cases res <;> cases h <;> exact id

/-- A call gives a known unit no name unless it has one. -/
theorem noName_perform (op : LocalOp) (hu : s.units u ≠ none)
    (hnew : ∀ path v content db metadata,
      op = .createUnit path v content db metadata → s.units v = none) :
    NoName u s (s.perform scheme signer padBlocks suite host op) := by
  unfold perform
  cases hcall : s.call scheme signer padBlocks suite host op with
  | error e => exact id
  | ok s' =>
    cases op with
    | createUnit path v content db metadata =>
      have hv : v ≠ u := fun h => hu (h ▸ hnew path v content db metadata rfl)
      change s.createUnit scheme signer host path v content db metadata = .ok s' at hcall
      unfold Namespace.createUnit at hcall
      split at hcall
      · cases hcall
      · obtain ⟨r, -, h⟩ := exists_of_bind_ok hcall
        cases h
        exact fun h => noName_bind (pathBytes path) hv h
    | content path op =>
      obtain ⟨_, -, h⟩ := exists_of_bind_ok hcall
      exact noName_supersede h
    | writeMeta path plain =>
      obtain ⟨_, -, h⟩ := exists_of_bind_ok hcall
      exact noName_supersede h
    | rename old new =>
      change s.rename old new = .ok s' at hcall
      unfold Namespace.rename at hcall
      split at hcall
      · cases hcall
      rename_i v hv
      split at hcall
      · cases hcall
      · cases hcall
        exact IsTrans.trans _ _ _ (noName_bind_of_bound (pathBytes new) ⟨_, hv⟩)
          (noName_unbind (pathBytes old))
    | link existing new =>
      change s.link existing new = .ok s' at hcall
      unfold Namespace.link at hcall
      split at hcall
      · cases hcall
      rename_i v hv
      split at hcall
      · cases hcall
      · cases hcall
        exact noName_bind_of_bound (pathBytes new) ⟨_, hv⟩
    | remove path =>
      change s.remove path = .ok s' at hcall
      unfold Namespace.remove at hcall
      split at hcall
      · cases hcall
      · cases hcall
        exact noName_unbind (pathBytes path)

end

/-- A removed unit comes back only for a version that the replica had not seen, in every run of
calls, rounds and changes of the store in which, whenever a round is made, the store holds nothing
of the removed unit or something unseen. -/
theorem removed_stays_removed {ω : Type} (scheme : SignatureScheme) (signer : Signer)
    (env : Envelope ω) (padBlocks : Bool) (suite : Suite) (host : HostAlias) (u : Uuid)
    (w : Watched ω) (events : List (WatchedEvent ω))
    (h : Along (Watched.step scheme signer env padBlocks suite host u) (Forgotten env u) w events) :
    Along (Watched.step scheme signer env padBlocks suite host u)
      (StaysRemoved scheme signer env padBlocks suite host u) w events := by
  refine along_of_inv (I := fun _ => True)
    (fun w ev _ hf => ⟨trivial, fun hremoved hbound => ?_⟩) trivial h
  cases ev with
  | call op =>
    refine absurd (noName_perform op hremoved.1 (fun path v content db metadata hop => ?_) hbound)
      hremoved.2
    subst hop
    exact hf
  | round =>
    rcases hf hremoved with hnone | hunseen
    · exact absurd hbound (noName_sync hremoved.2 hnone)
    · exact ⟨rfl, hunseen⟩
  | others store => exact absurd hbound hremoved.2

/-- Nothing yet. -/
def unwatched : Watched Incoming := ⟨.new, .new, []⟩

/-- A file is created, written and removed before any round. -/
def removedUnpushed : List (WatchedEvent Incoming) :=
  [.call (.createUnit "a" 5 true none none), .call (.content "a" (.write 0 [7])),
    .call (.remove "a"), .round]

theorem removed_stays_removed_unpushed :
    Along (Watched.step checksumScheme .unsigned clearEnvelope false .none 1 5)
      (StaysRemoved checksumScheme .unsigned clearEnvelope false .none 1 5) unwatched
        removedUnpushed := by
  refine removed_stays_removed checksumScheme .unsigned clearEnvelope false .none 1 5 unwatched
    removedUnpushed ⟨?_, ?_, ?_, ?_, trivial⟩
  · rfl
  · trivial
  · trivial
  · exact fun _ => .inl (by decide)

/-- The same with a round before the removal. -/
def removedPushed : List (WatchedEvent Incoming) :=
  [.call (.createUnit "a" 5 true none none), .call (.content "a" (.write 0 [7])), .round,
    .call (.remove "a"), .round]

/-- The replica's own push brings the unit back. -/
theorem removed_comes_back :
    ¬ Along (Watched.step checksumScheme .unsigned clearEnvelope false .none 1 5)
      (StaysRemoved checksumScheme .unsigned clearEnvelope false .none 1 5) unwatched
        removedPushed := by
  rintro ⟨-, -, -, -, hstays, -⟩
  let w := run (Watched.step checksumScheme .unsigned clearEnvelope false .none 1 5) unwatched
    (removedPushed.take 4)
  have hremoved : Removed 5 w.replica :=
    ⟨by decide, fun ⟨key, hkey⟩ => KeyMap.firstKey_eq_none_iff.mp (by decide) key hkey⟩
  have hseen : ∀ e ∈ w.store.frontier 5, ∃ v ∈ w.seen, e.2.vv ≤ v := by decide
  obtain ⟨-, e, he, inc, hinc, hunseen⟩ := hstays hremoved ⟨pathBytes "a", by decide⟩
  cases hinc
  obtain ⟨v, hv, hle⟩ := hseen e he
  exact hunseen v hv hle

end Sfs.Sync

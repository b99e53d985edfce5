import Sfs.Lib.Run
import Sfs.Server.Keyspace
import Sfs.Sync.Round

/-!
# The frontier of a unit, in memory and on the server

`put_record` keeps the newest records of a unit and `set_vv` the join of the vectors it is given.
The two stand beside each other: `have` answers with the join, and a record that is put does not
enter it.

The server does the same as the transport in memory on what it reads from its container, and
writes it back encoded. `Mirrors` says that what is read there is what the other has in memory. A
call keeps that as long as what it writes has an encoding: a vector announces its entries in two
bytes, a frontier its lengths in four.
-/

namespace Sfs.Server

open Sfs.Lib Sfs.Version Sfs.Sync EngineStore List VersionVector

variable {vv : VersionVector} {a b : Bytes} {u v : Uuid}

inductive FrontierCall where
  | putRecord (u : Uuid) (vv : VersionVector) (blob : Bytes)
  | setVv (u : Uuid) (vv : VersionVector) (nonce : Nonce)

/-- The transport in memory, by account. -/
abbrev Accounts := Bytes → LocalTransport Bytes

def Accounts.new : Accounts := fun _ => .new

def FrontierCall.on (t : LocalTransport Bytes) : FrontierCall → LocalTransport Bytes
  | putRecord u vv blob => t.putRecord u vv blob
  | setVv u vv _ => t.setVv u vv

def Accounts.call (t : Accounts) (c : Bytes × FrontierCall) : Accounts :=
  fun a => if a = c.1 then c.2.on (t a) else t a

def FrontierCall.toStore : FrontierCall → StoreCall
  | putRecord u vv blob => .putRecord u vv blob
  | setVv u vv nonce => .setVv u vv nonce

def EngineStore.callFrontier (env : StoreEnv) (s : EngineStore) (c : Bytes × FrontierCall) :
    EngineStore :=
  (s.call env c.1 c.2.toStore).1

/-- What the calls before make of a unit: its records, and what `have` answers. -/
structure FrontierKept (calls : List (Bytes × FrontierCall)) (a : Bytes) (u : Uuid)
    (frontier : Frontier) (known : Option VersionVector) : Prop where
  concurrent : frontier.Pairwise fun s s' => s.1.concurrentWith s'.1 = true
  stored : ∀ s ∈ frontier, (a, .putRecord u s.1 s.2) ∈ calls
  covered : ∀ vv blob, (a, .putRecord u vv blob) ∈ calls → ∃ s ∈ frontier, s.1.dominates vv = true
  bounded : ∀ vv nonce, (a, .setVv u vv nonce) ∈ calls → ∃ v, known = some v ∧ v.dominates vv = true

/-- The call has a valid account, and what it makes the server write has an encoding. -/
def Encodes (t : Accounts) : Bytes × FrontierCall → Prop
  | (a, .putRecord u vv blob) =>
    validateAccount a = .ok () ∧ vv.Fits ∧
      (encodeFrontier ((t a).frontier u ++ [(vv, blob)])).length < 2 ^ 32
  | (a, .setVv u vv _) => validateAccount a = .ok () ∧ ((((t a).vvs u).map (·.join vv)).getD vv).Fits

/-- What was encrypted is decrypted, and a tag is all that is added. -/
structure Wrap.Lawful (w : Wrap) : Prop where
  opens : ∀ nonce plain, w.decrypt nonce (w.encrypt nonce plain) = some plain
  length : ∀ nonce plain, (w.encrypt nonce plain).length ≤ plain.length + 16

/-! ## In memory -/

section

variable {calls : List (Bytes × FrontierCall)} {a : Bytes} {u : Uuid} {frontier : Frontier}
  {known : Option VersionVector}

/-- A call of another account or about another unit. -/
theorem FrontierKept.other (h : FrontierKept calls a u frontier known) {c : Bytes × FrontierCall}
    (hput : ∀ vv blob, c ≠ (a, .putRecord u vv blob)) (hset : ∀ vv nonce, c ≠ (a, .setVv u vv nonce)) :
    FrontierKept (calls ++ [c]) a u frontier known where
  concurrent := h.concurrent
  stored s hs := mem_append_left _ (h.stored s hs)
  covered vv blob hm := h.covered vv blob (by simpa [(hput vv blob).symm] using hm)
  bounded vv nonce hm := h.bounded vv nonce (by simpa [(hset vv nonce).symm] using hm)

theorem FrontierKept.put (h : FrontierKept calls a u frontier known) (vv : VersionVector)
    (blob : Bytes) :
    FrontierKept (calls ++ [(a, .putRecord u vv blob)]) a u (addNewest frontier vv blob) known where
  concurrent := by
    have hanti : Antichain (frontier.map Prod.fst) :=
      pairwise_map.mpr (h.concurrent.imp fun hc => incompRel_iff.mpr hc)
    exact (pairwise_map.mp (antichain_addNewest hanti)).imp fun hc => incompRel_iff.mp hc
  stored s hs := by
    rcases mem_addNewest hs with hs | rfl
    · exact mem_append_left _ (h.stored s hs)
    · exact mem_append_right _ (.head _)
  covered vv' blob' hm := by
    have hcov : ∃ x ∈ vv :: frontier.map Prod.fst, vv' ≤ x := by
      rcases mem_append.mp hm with hm | hm
      · obtain ⟨s, hs, hle⟩ := h.covered vv' blob' hm
        exact ⟨s.1, .tail _ (mem_map_of_mem hs), hle⟩
      · cases mem_singleton.mp hm
        exact ⟨vv, .head _, le_rfl⟩
    obtain ⟨x, hx, hle⟩ := hcov
    obtain ⟨y, hy, hxy⟩ := covers_addNewest (b := blob) x hx
    obtain ⟨s, hs, rfl⟩ := mem_map.mp hy
    exact ⟨s, hs, hle.trans hxy⟩
  bounded vv' nonce hm := h.bounded vv' nonce (by simpa using hm)

theorem FrontierKept.set (h : FrontierKept calls a u frontier known) (vv : VersionVector)
    (nonce : Nonce) :
    FrontierKept (calls ++ [(a, .setVv u vv nonce)]) a u frontier
      (some ((known.map (·.join vv)).getD vv)) where
  concurrent := h.concurrent
  stored s hs := mem_append_left _ (h.stored s hs)
  covered vv' blob hm := h.covered vv' blob (by simpa using hm)
  bounded vv' nonce' hm := by
    refine ⟨_, rfl, ?_⟩
    rcases mem_append.mp hm with hm | hm
    · obtain ⟨v, rfl, hv⟩ := h.bounded vv' nonce' hm
      exact dominates_trans (v.join_dominates_left vv) hv
    · cases mem_singleton.mp hm
      cases known with
      | none => exact vv.dominates_refl
      | some v => exact v.join_dominates_right vv

end

theorem vvs_setVv (t : LocalTransport Bytes) (u u' : Uuid) (vv : VersionVector) :
    (t.setVv u vv).vvs u' = if u' = u then some (((t.vvs u).map (·.join vv)).getD vv)
      else t.vvs u' := by
  unfold LocalTransport.setVv
  cases t.vvs u <;> rfl

theorem frontierKept_run (calls : List (Bytes × FrontierCall)) (a : Bytes) (u : Uuid) :
    let t := run Accounts.call .new calls
    FrontierKept calls a u ((t a).frontier u) ((t a).vvs u) := by
  induction calls using reverseRecOn with
  | nil =>
    exact ⟨.nil, fun s hs => absurd hs not_mem_nil, fun _ _ h => absurd h not_mem_nil,
      fun _ _ h => absurd h not_mem_nil⟩
  | append_singleton calls c ih =>
    rw [run_append]
    generalize run Accounts.call .new calls = t at ih ⊢
    obtain ⟨b, c⟩ := c
    dsimp only [run_cons, run_nil, Accounts.call]
    split
    · rename_i hab
      subst hab
      cases c with
      | putRecord v vv blob =>
        dsimp only [FrontierCall.on]
        rw [LocalTransport.frontier_putRecord]
        split
        · rename_i huv
          exact huv ▸ ih.put vv blob
        · rename_i huv
          exact ih.other (fun _ _ h => huv (by cases h; rfl)) fun _ _ h => by cases h
      | setVv v vv nonce =>
        dsimp only [FrontierCall.on]
        rw [vvs_setVv]
        split
        · rename_i huv
          exact huv ▸ ih.set vv nonce
        · rename_i huv
          exact ih.other (fun _ _ h => by cases h) fun _ _ h => huv (by cases h; rfl)
    · rename_i hab
      exact ih.other (fun _ _ h => hab (by cases h; rfl)) fun _ _ h => hab (by cases h; rfl)

/-! ## What the server reads back -/

def entryBytes (e : VersionVector × Bytes) : Bytes :=
  leBytes 4 e.1.toBytes.length ++ e.1.toBytes ++ leBytes 4 e.2.length ++ e.2

theorem encodeFrontier_eq (fs : Frontier) :
    encodeFrontier fs = leBytes 4 fs.length ++ fs.flatMap entryBytes :=
  rfl

theorem length_entryBytes (e : VersionVector × Bytes) :
    (entryBytes e).length = 8 + e.1.toBytes.length + e.2.length := by
  simp only [entryBytes, length_append, length_leBytes]
  omega

/-- A whole entry is read, and what follows it is left. -/
theorem decodeEntries_cons {e : VersionVector × Bytes} (hfits : e.1.Fits)
    (hlen : (entryBytes e).length < 2 ^ 32) (n i : Nat) (rest : Bytes) :
    decodeEntries (n + 1) i (entryBytes e ++ rest) = (decodeEntries n (i + 1) rest).map fun r =>
      (e :: r.1, r.2) := by
  rw [length_entryBytes] at hlen
  have hvv : leNat (leBytes 4 e.1.toBytes.length) = e.1.toBytes.length :=
    leNat_leBytes_of_lt (by omega)
  have hblob : leNat (leBytes 4 e.2.length) = e.2.length := leNat_leBytes_of_lt (by omega)
  have hcut : ∀ n (xs ys : Bytes),
      xs.length = n → (xs ++ ys).take n = xs ∧ (xs ++ ys).drop n = ys := by
    rintro n xs ys rfl
    exact ⟨take_left, drop_left⟩
  rw [decodeEntries]
  simp only [entryBytes, append_assoc, (hcut 4 _ _ (length_leBytes ..)).1,
    (hcut 4 _ _ (length_leBytes ..)).2, hvv, (hcut _ _ _ rfl).1, (hcut _ _ _ rfl).2,
    hfits.fromBytes, hblob]
  rw [if_neg (by simp), if_neg (by simp), if_neg (by simp), if_neg (by simp)]

theorem decodeEntries_flatMap {fs : Frontier} (hfits : ∀ e ∈ fs, e.1.Fits)
    (hlen : (fs.flatMap entryBytes).length < 2 ^ 32) (i : Nat) :
    decodeEntries fs.length i (fs.flatMap entryBytes) = .ok (fs, []) := by
  induction fs generalizing i with
  | nil => rfl
  | cons e fs ih =>
    rw [flatMap_cons, length_append] at hlen
    rw [flatMap_cons, length_cons, decodeEntries_cons (hfits e (.head _)) (by omega),
      ih (fun e he => hfits e (.tail _ he)) (by omega)]
    rfl

theorem length_le_flatMap_entryBytes (fs : Frontier) : fs.length ≤ (fs.flatMap entryBytes).length := by
  induction fs with
  | nil => exact Nat.le_refl 0
  | cons e fs ih =>
    rw [flatMap_cons, length_append, length_cons, length_entryBytes]
    omega

theorem decodeFrontier_encodeFrontier {fs : Frontier} (hfits : ∀ e ∈ fs, e.1.Fits)
    (hlen : (encodeFrontier fs).length < 2 ^ 32) : decodeFrontier (encodeFrontier fs) = .ok fs := by
  rw [encodeFrontier_eq, length_append, length_leBytes] at hlen
  have hcount := length_le_flatMap_entryBytes fs
  unfold decodeFrontier
  rw [encodeFrontier_eq, if_neg (by simp), take_left' (length_leBytes ..),
    drop_left' (length_leBytes ..), leNat_leBytes_of_lt (show fs.length < 256 ^ 4 by omega)]
  dsimp only
  rw [decodeEntries_flatMap hfits (by omega)]
  rfl

theorem getValue_putValue (s : EngineStore) (key : Bytes) {payload : Bytes}
    (hlen : payload.length < 2 ^ 32) (k : Bytes) :
    (s.putValue key payload).getValue k = if k = key then .ok (some payload) else s.getValue k := by
  unfold getValue
  rw [get_putValue]
  by_cases hk : k = key
  · rw [if_pos hk, if_pos hk]
    dsimp only
    rw [append_assoc, take_left' (length_leBytes ..), leNat_leBytes_of_lt (by omega),
      if_neg (by simp), if_neg (by simp), slice_middle (length_leBytes ..) rfl]
  · rw [if_neg hk, if_neg hk]

theorem openVector_sealVv {env : StoreEnv} (hw : env.vvWrap.Lawful) (hfits : vv.Fits) (nonce : Nonce) :
    openVector env (sealVv env.vvWrap nonce vv.toBytes) = .ok vv := by
  have hn : nonce.toList.length = 12 := by simp
  have hopen : openVv env.vvWrap (sealVv env.vvWrap nonce vv.toBytes) = .ok vv.toBytes := by
    unfold openVv sealVv
    rw [if_neg (by rw [length_append]; omega), take_left' hn, drop_left' hn, hw.opens]
  unfold openVector
  rw [hopen]
  dsimp only [bind, Except.bind]
  rw [hfits.fromBytes]

theorem length_sealVv {env : StoreEnv} (hw : env.vvWrap.Lawful) (hfits : vv.Fits) (nonce : Nonce) :
    (sealVv env.vvWrap nonce vv.toBytes).length < 2 ^ 32 := by
  have hlen := hw.length nonce.toList vv.toBytes
  have hcount := hfits.count
  rw [length_toBytes] at hlen
  rw [sealVv, length_append, Vector.length_toList]
  omega

/-! ## Keys of units -/

/-- The keys of two units differ in the unit, in the account or in what stands between. -/
theorem unitKey_inj {m m' : Bytes} (h : acctKey a (m ++ uuidHex u) = acctKey b (m' ++ uuidHex v)) :
    a ++ slash :: m = b ++ slash :: m' ∧ u = v := by
  have happ := append_cancel_left h
  rw [← cons_append, ← append_assoc, ← cons_append, ← append_assoc] at happ
  have hlen : (uuidHex u).length = (uuidHex v).length := by simp [uuidHex]
  obtain ⟨hname, hhex⟩ := append_inj' happ hlen
  have hu := congrArg uuidOf (hexOf_inj hhex)
  rw [← append_nil (uuidBytes u), ← append_nil (uuidBytes v), uuidOf_uuidBytes, uuidOf_uuidBytes] at hu
  exact ⟨hname, hu⟩

theorem recKey_eq_iff : recKey a u = recKey b v ↔ a = b ∧ u = v :=
  ⟨fun h => (unitKey_inj h).imp_left append_cancel_right, fun ⟨ha, hu⟩ => by rw [ha, hu]⟩

theorem vvKey_eq_iff : vvKey a u = vvKey b v ↔ a = b ∧ u = v :=
  ⟨fun h => (unitKey_inj h).imp_left append_cancel_right, fun ⟨ha, hu⟩ => by rw [ha, hu]⟩

theorem recKey_ne_vvKey (a b : Bytes) (u v : Uuid) : recKey a u ≠ vvKey b v := by
  intro h
  have hlast := congrArg (fun bs => bs.reverse[1]?) (unitKey_inj h).1
  rw [show slash :: ascii "rec/" = [slash, 114, 101, 99, 47] by decide,
    show slash :: ascii "vv/" = [slash, 118, 118, 47] by decide] at hlast
  simp at hlast

/-! ## The server does the same -/

structure Mirrors (env : StoreEnv) (t : Accounts) (s : EngineStore) : Prop where
  records : ∀ a u, s.frontier a u = .ok ((t a).frontier u)
  fits : ∀ a u, ∀ e ∈ (t a).frontier u, e.1.Fits
  absent : ∀ a u, (t a).vvs u = none → s.getValue (vvKey a u) = .ok none
  known : ∀ a u v, (t a).vvs u = some v →
    ∃ sealed, s.getValue (vvKey a u) = .ok (some sealed) ∧ openVector env sealed = .ok v

section

variable {env : StoreEnv} {t : Accounts} {s : EngineStore}

theorem EngineStore.frontier_putValue {key payload : Bytes} (hlen : payload.length < 2 ^ 32)
    (b : Bytes) (v : Uuid) :
    (s.putValue key payload).frontier b v =
      if recKey b v = key then decodeFrontier payload else s.frontier b v := by
  unfold EngineStore.frontier
  rw [getValue_putValue s key hlen]
  split <;> rfl

theorem Mirrors.putRecord (h : Mirrors env t s) {blob : Bytes}
    (hok : Encodes t (a, .putRecord u vv blob)) :
    ∃ s', s.putRecord a u vv blob = .ok s' ∧ Mirrors env (t.call (a, .putRecord u vv blob)) s' := by
  obtain ⟨hvalid, hfits, hlen⟩ := hok
  have hfrontier : ∀ b v, (t.call (a, .putRecord u vv blob) b).frontier v =
      if b = a ∧ v = u then addNewest ((t a).frontier u) vv blob else (t b).frontier v := by
    intro b v
    unfold Accounts.call
    by_cases hb : b = a
    · subst hb
      rw [if_pos rfl]
      exact (LocalTransport.frontier_putRecord ..).trans (by simp)
    · rw [if_neg hb, if_neg fun hbv => hb hbv.1]
  have hvvs : ∀ b v, (t.call (a, .putRecord u vv blob) b).vvs v = (t b).vvs v := by
    intro b v
    unfold Accounts.call
    split <;> rfl
  have hnew : ∀ e ∈ addNewest ((t a).frontier u) vv blob, e.1.Fits := by
    intro e he
    rcases mem_addNewest he with he | rfl
    · exact h.fits a u e he
    · exact hfits
  have hall : ∀ b v, ∀ e ∈ (t.call (a, .putRecord u vv blob) b).frontier v, e.1.Fits := by
    intro b v e he
    rw [hfrontier] at he
    split at he
    · exact hnew e he
    · exact h.fits b v e he
  unfold EngineStore.putRecord
  rw [hvalid, h.records a u]
  dsimp only [bind, Except.bind]
  by_cases hst : Stale ((t a).frontier u) vv
  · -- nothing is written, and nothing changes in memory
    refine ⟨s, if_pos hst, fun b v => ?_, hall, fun b v hn => h.absent b v (hvvs b v ▸ hn),
      fun b v w hw => h.known b v w (hvvs b v ▸ hw)⟩
    rw [h.records, hfrontier, addNewest_of_stale hst]
    split
    · rename_i hbv
      rw [hbv.1, hbv.2]
    · rfl
  · have hadd := addNewest_of_not_stale (b := blob) hst
    have hsize : (encodeFrontier (addNewest ((t a).frontier u) vv blob)).length < 2 ^ 32 := by
      refine lt_of_le_of_lt ?_ hlen
      rw [hadd, encodeFrontier_eq, encodeFrontier_eq]
      simp only [flatMap_append, length_append, length_leBytes]
      have hkept : (((t a).frontier u).filter fun e => ¬ e.1 ≤ vv).Sublist ((t a).frontier u) :=
        filter_sublist
      have := (hkept.flatMap entryBytes).length_le
      omega
    refine ⟨s.putValue (recKey a u) (encodeFrontier (addNewest ((t a).frontier u) vv blob)), ?_,
      fun b v => ?_, hall, fun b v hn => ?_, fun b v w hw => ?_⟩
    · exact if_neg hst
    · rw [frontier_putValue hsize, hfrontier, decodeFrontier_encodeFrontier hnew hsize]
      simp only [recKey_eq_iff]
      split
      · rfl
      · exact h.records b v
    · rw [getValue_putValue _ _ hsize, if_neg (recKey_ne_vvKey a b u v).symm]
      exact h.absent b v (hvvs b v ▸ hn)
    · rw [getValue_putValue _ _ hsize, if_neg (recKey_ne_vvKey a b u v).symm]
      exact h.known b v w (hvvs b v ▸ hw)

theorem Mirrors.setVv (h : Mirrors env t s) (hw : env.vvWrap.Lawful) {nonce : Nonce}
    (hok : Encodes t (a, .setVv u vv nonce)) :
    ∃ s', s.setVv env a u vv nonce = .ok s' ∧ Mirrors env (t.call (a, .setVv u vv nonce)) s' := by
  obtain ⟨hvalid, hfits⟩ := hok
  generalize hjoin : (((t a).vvs u).map (·.join vv)).getD vv = joined at hfits
  have hvvs : ∀ b v, (t.call (a, .setVv u vv nonce) b).vvs v =
      if b = a ∧ v = u then some joined else (t b).vvs v := by
    intro b v
    unfold Accounts.call
    by_cases hb : b = a
    · subst hb
      rw [if_pos rfl, FrontierCall.on, vvs_setVv, hjoin]
      simp
    · rw [if_neg hb, if_neg fun hbv => hb hbv.1]
  have hfrontier : ∀ b v, (t.call (a, .setVv u vv nonce) b).frontier v = (t b).frontier v := by
    intro b v
    unfold Accounts.call
    split <;> rfl
  have hsize := length_sealVv hw hfits nonce
  have hread : ∀ b v, (s.putValue (vvKey a u) (sealVv env.vvWrap nonce joined.toBytes)).getValue
    (vvKey b v) =
      if b = a ∧ v = u then .ok (some (sealVv env.vvWrap nonce joined.toBytes))
          else s.getValue (vvKey b v) := by
    intro b v
    rw [getValue_putValue _ _ hsize]
    simp only [vvKey_eq_iff]
  refine ⟨s.putValue (vvKey a u) (sealVv env.vvWrap nonce joined.toBytes), ?_, fun b v => ?_,
    fun b v e he => ?_, fun b v hn => ?_, fun b v w hv => ?_⟩
  · unfold EngineStore.setVv
    rw [hvalid]
    dsimp only [bind, Except.bind]
    cases hu : (t a).vvs u with
    | none =>
      rw [h.absent a u hu]
      rw [hu] at hjoin
      exact hjoin ▸ rfl
    | some old =>
      obtain ⟨sealed, hget, hopen⟩ := h.known a u old hu
      rw [hget]
      dsimp only
      rw [hopen]
      rw [hu] at hjoin
      exact hjoin ▸ rfl
  · rw [frontier_putValue hsize, if_neg (recKey_ne_vvKey b a v u), hfrontier]
    exact h.records b v
  · exact h.fits b v e (hfrontier b v ▸ he)
  · rw [hvvs] at hn
    rw [hread]
    split at hn
    · cases hn
    · rename_i hbv
      rw [if_neg hbv]
      exact h.absent b v hn
  · rw [hvvs] at hv
    rw [hread]
    split at hv
    · rename_i hbv
      injection hv with hv
      subst hv
      exact ⟨_, if_pos hbv, openVector_sealVv hw hfits nonce⟩
    · rename_i hbv
      rw [if_neg hbv]
      exact h.known b v w hv

theorem Mirrors.call (h : Mirrors env t s) (hw : env.vvWrap.Lawful) {c : Bytes × FrontierCall}
    (hok : Encodes t c) : Mirrors env (t.call c) (s.callFrontier env c) := by
  obtain ⟨a, c⟩ := c
  cases c with
  | putRecord u vv blob =>
    obtain ⟨s', hs', hm⟩ := h.putRecord hok
    unfold EngineStore.callFrontier
    dsimp only [FrontierCall.toStore, EngineStore.call]
    rw [hs']
    exact hm
  | setVv u vv nonce =>
    obtain ⟨s', hs', hm⟩ := h.setVv hw hok
    unfold EngineStore.callFrontier
    dsimp only [FrontierCall.toStore, EngineStore.call]
    rw [hs']
    exact hm

theorem Mirrors.have_ (h : Mirrors env t s) (a : Bytes) (u : Uuid) :
    s.have_ env a u = match (t a).vvs u with
      | some v => .ok v
      | none => .error .notFound := by
  unfold EngineStore.have_
  cases hu : (t a).vvs u with
  | none =>
    rw [h.absent a u hu]
    rfl
  | some v =>
    obtain ⟨sealed, hget, hopen⟩ := h.known a u v hu
    rw [hget]
    exact hopen

theorem mirrors_new (env : StoreEnv) : Mirrors env .new .empty where
  records _ _ := rfl
  fits _ _ e he := absurd he not_mem_nil
  absent _ _ _ := rfl
  known _ _ _ h := by cases h

theorem mirrors_run (hw : env.vvWrap.Lawful) {calls : List (Bytes × FrontierCall)}
    (h : Mirrors env t s) (hok : Along Accounts.call Encodes t calls) :
    Mirrors env (run Accounts.call t calls) (run (callFrontier env) s calls) := by
  induction calls generalizing t s with
  | nil => exact h
  | cons c calls ih => exact ih (h.call hw hok.1) hok.2

end

/-- The frontier of every unit after any calls: in memory it is kept whatever the vectors, and the
server reports the same where what it writes can be encoded. -/
theorem transport_frontier_run (env : StoreEnv) (hw : env.vvWrap.Lawful)
    (calls : List (Bytes × FrontierCall)) (a : Bytes) (u : Uuid) :
    let t := run Accounts.call .new calls
    let s := run (callFrontier env) .empty calls
    FrontierKept calls a u ((t a).frontier u) ((t a).vvs u) ∧
      (Along Accounts.call Encodes .new calls → s.frontier a u = .ok ((t a).frontier u) ∧
        s.have_ env a u = match (t a).vvs u with
          | some v => .ok v
          | none => .error .notFound) := by
  refine ⟨frontierKept_run calls a u, fun hok => ?_⟩
  have hm := mirrors_run hw (mirrors_new env) hok
  exact ⟨hm.records a u, hm.have_ a u⟩

theorem lawful_plainEnv : plainEnv.vvWrap.Lawful :=
  ⟨fun _ _ => rfl, fun _ plain => Nat.le_add_right plain.length 16⟩

/-- The unit `5` of the account `a`, put by two hosts and announced by one. -/
def twoHosts : List (Bytes × FrontierCall) :=
  [([97], .putRecord 5 (VersionVector.new.bump 1) [1]),
    ([97], .putRecord 5 (VersionVector.new.bump 2) [2]),
    ([97], .setVv 5 (VersionVector.new.bump 1) (Vector.replicate 12 0))]

theorem fits_bump_new {h : HostAlias} : (VersionVector.new.bump h).Fits := by
  constructor <;> simp [VersionVector.new, bump, bumpAt]

theorem transport_frontier_two : Along Accounts.call Encodes .new twoHosts ∧
    (run (callFrontier plainEnv) .empty twoHosts).frontier [97] 5 =
      .ok [(VersionVector.new.bump 1, [1]), (VersionVector.new.bump 2, [2])] := by
  have hok : Along Accounts.call Encodes .new twoHosts :=
    ⟨⟨rfl, fits_bump_new, by decide⟩, ⟨rfl, fits_bump_new, by decide⟩, ⟨rfl, fits_bump_new⟩, trivial⟩
  exact ⟨hok, ((transport_frontier_run plainEnv lawful_plainEnv twoHosts [97] 5).2 hok).1.trans rfl⟩

/-- A record is stored at both, and neither has a vector for its unit. -/
theorem have_without_set :
    let calls := [([97], FrontierCall.putRecord 5 (VersionVector.new.bump 1) [1])]
    let t := run Accounts.call .new calls
    let s := run (callFrontier plainEnv) .empty calls
    (t [97]).frontier 5 = [(VersionVector.new.bump 1, [1])] ∧ (t [97]).vvs 5 = none ∧
      s.have_ plainEnv [97] 5 = .error .notFound :=
  ⟨rfl, rfl, rfl⟩

end Sfs.Server

import Sfs.Lib.Run
import Sfs.Server.Keyspace

/-!
# Bearer tokens

The token table of the server: in memory under a lock of its own, and as a blob in the store under
another. A request that checks, uses, revokes or persists a token takes these locks one after the
other, so that the steps of concurrent requests interleave. `Flight` is what a request in flight
still has to do; a restart loses the flights and loads the blob.

Two things have to hold of the order of the steps (`Orderly`): of the requests that use one recovery
token to update credentials, one at a time is between its check and its revocation, and a late
snapshot does not bring a revoked token back into the store. Then a recovery token is honoured once,
data endpoints see password tokens only, and expired and revoked tokens stay out
(`tokens_honest`).

The table is keyed by the hash of a token, which stands for the token here. A handshake that
succeeded is a step of its own. Time is in nanoseconds and does not run backwards.
-/

namespace Sfs.Server

open Sfs.Lib KeyMap
open List hiding Vector

inductive TokenScope where
  | password
  | recovery
  deriving DecidableEq

structure TokenInfo where
  account : Bytes
  scope : TokenScope
  expiresAt : Nat
  deriving DecidableEq

abbrev TokenMap := KeyMap Bytes TokenInfo

/-! ## The persisted table -/

def nanos : Nat := 1000000000

def scopeByte : TokenScope → UInt8
  | .password => 0
  | .recovery => 1

def encodeToken (e : Bytes × TokenInfo) : Bytes :=
  leBytes 2 e.1.length ++ (e.1 ++ (scopeByte e.2.scope :: (leBytes 8 (e.2.expiresAt / nanos) ++
    (leBytes 2 e.2.account.length ++ e.2.account))))

/-- The entries that have not expired. -/
def serializeTokens (now : Nat) (map : TokenMap) : Bytes :=
  let live := map.entries.filter fun e => now < e.2.expiresAt
  leBytes 4 live.length ++ live.flatMap encodeToken

/-- A string behind its length in two bytes, and the rest. -/
def readText (bs : Bytes) : Option (Bytes × Bytes) :=
  if bs.length < 2 then none
  else
    let n := leNat (bs.take 2)
    let rest := bs.drop 2
    if rest.length < n then none
    else if isUtf8 (rest.take n) then some (rest.take n, rest.drop n)
    else none

/-- One entry, and the rest. -/
def readToken (bs : Bytes) : Option ((Bytes × TokenInfo) × Bytes) :=
  match readText bs with
  | none => none
  | some (hash, rest) =>
    if rest.length < 9 then none
    else
      let scope : Option TokenScope := match rest.head? with
        | some 0 => some .password
        | some 1 => some .recovery
        | _ => none
      match scope with
      | none => none
      | some scope =>
        let secs := leNat (slice 1 8 rest)
        match readText (rest.drop 9) with
        | none => none
        | some (account, rest) => some ((hash, ⟨account, scope, secs * nanos⟩), rest)

/-- At most `n` entries, up to the first that is malformed. -/
def readTokens : Nat → Bytes → List (Bytes × TokenInfo)
  | 0, _ => []
  | n + 1, bs =>
    match readToken bs with
    | none => []
    | some (e, rest) => e :: readTokens n rest

/-- The entries of a blob, expired ones included. -/
def readTable (blob : Bytes) : List (Bytes × TokenInfo) :=
  if blob.length < 4 then [] else readTokens (leNat (blob.take 4)) (blob.drop 4)

def deserializeTokens (now : Nat) (blob : Bytes) : TokenMap :=
  ((readTable blob).filter fun e => now < e.2.expiresAt).foldl (fun map e => map.put e.1 e.2) .empty

/-! ## The server -/

/-- What a request that has begun still has to do. -/
inductive Flight where
  /-- a credential update whose token was accepted -/
  | checked (key : Bytes) (info : TokenInfo)
  /-- the credentials are updated; the recovery token is to be revoked -/
  | updated (key : Bytes)
  /-- the table changed and is to be persisted; then the revocation of `ack` is acknowledged -/
  | snapshot (ack : Option Bytes)
  | write (ack : Option Bytes) (blob : Bytes)

structure TokenServer where
  now : Nat
  ttlSecs : Nat
  tokenPersist : Bool
  map : TokenMap
  /-- the blob under `sys/tokens` -/
  stored : Option Bytes
  accounts : List Bytes
  flights : KeyMap Nat Flight
  nextFlight : Nat
  /-- every token that was handed out, as it was handed out -/
  minted : TokenMap
  /-- the recovery tokens that updated credentials, one entry for each update -/
  honoured : List Bytes
  /-- the tokens whose revocation was acknowledged -/
  acked : List Bytes

inductive UpdateFault where
  /-- a malformed body, no such account, or the store fails at once -/
  | early
  /-- the credentials are stored, the wrapped key is not -/
  | wrapped
  deriving DecidableEq

inductive ServerOp where
  | tick (d : Nat)
  | register (account : Bytes)
  /-- the handshake of `account` succeeded and a token with this hash was minted for it -/
  | login (digest : Vector UInt8 32) (account : Bytes) (scope : TokenScope)
  /-- a request to an endpoint that asks for a password token -/
  | data (key : Bytes)
  | recoveryRead (key : Bytes)
  | beginUpdate (key : Bytes)
  | update (id : Nat) (fault : Option UpdateFault)
  | revoke (id : Nat)
  | snapshot (id : Nat)
  | write (id : Nat) (fails : Bool)
  | restart

namespace TokenServer

def init (ttlSecs : Nat) (tokenPersist : Bool) : TokenServer where
  now := 0
  ttlSecs := ttlSecs
  tokenPersist := tokenPersist
  map := .empty
  stored := none
  accounts := []
  flights := .empty
  nextFlight := 0
  minted := .empty
  honoured := []
  acked := []

variable (s : TokenServer)

/-! ### Checking a token -/

/-- `authed_token`: the entry, unless it expired; an expired entry is evicted. -/
def authedToken (key : Bytes) : TokenServer × Option TokenInfo :=
  match s.map.get key with
  | none => (s, none)
  | some info => if info.expiresAt < s.now then ({ s with map := s.map.erase key }, none)
    else (s, some info)

/-- `authed_account`: a password token only. -/
def authedAccount (key : Bytes) : TokenServer × Option Bytes :=
  let (s, found) := s.authedToken key
  (s, match found with
    | some info => if info.scope = .password then some info.account else none
    | none => none)

def authedAccountAnyScope (key : Bytes) : TokenServer × Option Bytes :=
  let (s, found) := s.authedToken key
  (s, found.map TokenInfo.account)

/-! ### Steps of the requests -/

def begin_ (f : Flight) : TokenServer :=
  { s with flights := s.flights.put s.nextFlight f, nextFlight := s.nextFlight + 1 }

def goOn (id : Nat) (f : Flight) : TokenServer := { s with flights := s.flights.put id f }

def finish (id : Nat) : TokenServer := { s with flights := s.flights.erase id }

def acknowledge : Option Bytes → TokenServer
  | some key => { s with acked := key :: s.acked }
  | none => s

/-- `insert_token`, up to the lock of the table. -/
def insertToken (key : Bytes) (info : TokenInfo) : TokenServer :=
  { s with map := s.map.put key info, minted := s.minted.put key info }

def login (key account : Bytes) (scope : TokenScope) : TokenServer :=
  if account ∈ s.accounts then (s.insertToken key
    ⟨account, scope, s.now + s.ttlSecs * nanos⟩).begin_ (.snapshot none) else s

def beginUpdate (key : Bytes) : TokenServer :=
  match s.authedToken key with
  | (s, none) => s
  | (s, some info) => s.begin_ (.checked key info)

/-- The part of a credential update under the store's lock. -/
def update (id : Nat) (fault : Option UpdateFault) : TokenServer :=
  match s.flights.get id with
  | some (.checked key info) =>
    match fault with
    | some .early => s.finish id
    | some .wrapped => if info.scope =
      .recovery then { s.finish id with honoured := key :: s.honoured } else s.finish id
    | none => if info.scope = .recovery then { s.goOn id (.updated key)
      with honoured := key :: s.honoured } else s.finish id
  | _ => s

/-- `revoke_token`, up to the lock of the table. -/
def revoke (id : Nat) : TokenServer :=
  match s.flights.get id with
  | some (.updated key) => { s.goOn id (.snapshot (some key)) with map := s.map.erase key }
  | _ => s

/-- `persist_tokens` under the table's lock. -/
def snapshot (id : Nat) : TokenServer :=
  match s.flights.get id with
  | some (.snapshot ack) =>
    if s.tokenPersist then s.goOn id (.write ack (serializeTokens s.now s.map))
      else (s.finish id).acknowledge ack
  | _ => s

/-- `persist_tokens` under the store's lock; an error is logged and no more. -/
def write (id : Nat) (fails : Bool) : TokenServer :=
  match s.flights.get id with
  | some (.write ack blob) =>
    ({ s.finish id with stored := if fails then s.stored else some blob }).acknowledge ack
  | _ => s

def restoreTokens : TokenMap :=
  if s.tokenPersist then
    match s.stored with
    | some blob => deserializeTokens s.now blob
    | none => .empty
  else .empty

def step (s : TokenServer) : ServerOp → TokenServer
  | .tick d => { s with now := s.now + d }
  | .register account =>
    match validateAccount account with
    | .ok () => { s with accounts := account :: s.accounts }
    | .error _ => s
  | .login digest account scope => s.login (hexOf digest.toList) account scope
  | .data key => (s.authedAccount key).1
  | .recoveryRead key => (s.authedAccountAnyScope key).1
  | .beginUpdate key => s.beginUpdate key
  | .update id fault => s.update id fault
  | .revoke id => s.revoke id
  | .snapshot id => s.snapshot id
  | .write id fails => s.write id fails
  | .restart => { s with map := s.restoreTokens, flights := .empty }

/-! ### The order of the steps -/

/-- A restart now brings no token `key` back. -/
def Durable (key : Bytes) : Prop :=
  s.tokenPersist = true → ∀ blob ∈ s.stored, ∀ e ∈ readTable blob, s.now < e.2.expiresAt → e.1 ≠ key

end TokenServer

/-- The recovery token a credential update has been let in with and has not revoked. -/
def Flight.holds : Flight → Option Bytes
  | .checked key info => if info.scope = .recovery then some key else none
  | .updated key => some key
  | _ => none

/-- The recovery token that was used up and whose revocation is not acknowledged. -/
def Flight.spends : Flight → Option Bytes
  | .updated key => some key
  | .snapshot ack => ack
  | .write ack _ => ack
  | _ => none

/-- The recovery token the flight is about. -/
def Flight.uses (f : Flight) : Option Bytes := f.holds.or f.spends

theorem Flight.uses_checked (key : Bytes) (info : TokenInfo) :
    (Flight.checked key info).uses = if info.scope = .recovery then some key else none :=
      Option.or_none

theorem Flight.uses_of_holds {key : Bytes} {f : Flight} (h : f.holds = some key) :
    f.uses = some key := by
  rw [uses, h]
  rfl

theorem Flight.uses_of_spends {key : Bytes} {f : Flight} (h : f.spends = some key) :
    f.uses = some key := by
  cases f with
  | checked => cases h
  | updated => exact h
  | snapshot => exact h
  | write => exact h

namespace TokenServer

instance (s : TokenServer) (key : Bytes) : Decidable (s.Durable key) :=
  inferInstanceAs (Decidable (_ → _))

/-- A snapshot that is written holds no token that was revoked since, and that of a revocation is
written, or the store holds the token no more. -/
def SafeWrite (s : TokenServer) (fails : Bool) : Flight → Prop
  | .write ack blob =>
    (fails = true → ∀ key ∈ ack, s.Durable key) ∧
      (fails = false → ∀ t ∈ readTable blob, s.now < t.2.expiresAt → s.map.get t.1 ≠ none)
  | _ => True

instance (s : TokenServer) (fails : Bool) : (f : Flight) → Decidable (s.SafeWrite fails f)
  | .write _ _ => inferInstanceAs (Decidable (_ ∧ _))
  | .checked _ _ | .updated _ | .snapshot _ => isTrue trivial

/-- The order in which the steps are safe. A minted token is new. -/
def Orderly (s : TokenServer) : ServerOp → Prop
  | .login digest _ _ => s.minted.get (hexOf digest.toList) = none
  -- one update at a time is let in with a recovery token
  | .beginUpdate key => ∀ e ∈ s.flights.entries, e.2.holds ≠ some key
  -- an update with a recovery token does not fail halfway
  | .update id fault => fault = some .wrapped → ∀ e ∈ s.flights.entries, e.1 = id → e.2.holds = none
  | .write id fails => ∀ e ∈ s.flights.entries, e.1 = id → s.SafeWrite fails e.2
  -- no restart between the use of a recovery token and the write of its revocation
  | .restart => ∀ e ∈ s.flights.entries, ∀ key ∈ e.2.spends, s.Durable key
  | _ => True

instance (s : TokenServer) : (op : ServerOp) → Decidable (s.Orderly op)
  | .login _ _ _ => inferInstanceAs (Decidable (_ = _))
  | .beginUpdate key => inferInstanceAs (Decidable (∀ e ∈ s.flights.entries, e.2.holds ≠ some key))
  | .update id fault =>
    inferInstanceAs
      (Decidable (fault = some .wrapped → ∀ e ∈ s.flights.entries, e.1 = id → e.2.holds = none))
  | .write id fails => inferInstanceAs
    (Decidable (∀ e ∈ s.flights.entries, e.1 = id → s.SafeWrite fails e.2))
  | .restart =>
    inferInstanceAs (Decidable (∀ e ∈ s.flights.entries, ∀ key ∈ e.2.spends, s.Durable key))
  | .tick _ | .register _ | .data _ | .recoveryRead _ | .revoke _ | .snapshot _ => isTrue trivial

/-! ### What the tokens promise -/

/-- The token was handed out, has not expired, and its revocation was not acknowledged. -/
def Good (s : TokenServer) (key : Bytes) : Prop :=
  key ∉ s.acked ∧ ∃ info, s.minted.get key = some info ∧ s.now ≤ info.expiresAt

/-- Data endpoints accept good password tokens, the others good tokens, and no recovery token is
honoured twice. -/
def Honest (s : TokenServer) (op : ServerOp) : Prop :=
  (match op with
  | .data key => (s.authedAccount key).2 ≠ none →
    s.Good key ∧ ∀ info ∈ s.minted.get key, info.scope = .password
  | .recoveryRead key => (s.authedAccountAnyScope key).2 ≠ none → s.Good key
  | .beginUpdate key => (s.authedToken key).2 ≠ none → s.Good key
  | _ => True) ∧ (s.step op).honoured.Nodup

end TokenServer

/-! ## The persisted table -/

/-- A text behind its length is read back, or refused. -/
theorem readText_append {t : Bytes} (ht : t.length < 65536) (rest : Bytes) :
    readText (leBytes 2 t.length ++ (t ++ rest)) = if isUtf8 t then some (t, rest) else none := by
  have hlen : (leBytes 2 t.length).length = 2 := length_leBytes ..
  have htake : (leBytes 2 t.length ++ (t ++ rest)).take 2 = leBytes 2 t.length := take_left' hlen
  have hdrop : (leBytes 2 t.length ++ (t ++ rest)).drop 2 = t ++ rest := drop_left' hlen
  unfold readText
  rw [if_neg (by rw [length_append, hlen]; omega), htake, hdrop, leNat_leBytes_of_lt ht,
    if_neg (by simp), take_left, drop_left]

/-- The time of expiry as it comes back. -/
def truncated (e : Bytes × TokenInfo) : Bytes × TokenInfo :=
  (e.1, { e.2 with expiresAt := leNat (leBytes 8 (e.2.expiresAt / nanos)) * nanos })

theorem truncated_le (e : Bytes × TokenInfo) : (truncated e).2.expiresAt ≤ e.2.expiresAt := by
  have hmod : leNat (leBytes 8 (e.2.expiresAt / nanos)) ≤ e.2.expiresAt / nanos := by
    rw [leNat_leBytes]
    exact Nat.mod_le _ _
  exact (Nat.mul_le_mul_right nanos hmod).trans (Nat.div_mul_le_self _ _)

structure TokenFits (e : Bytes × TokenInfo) : Prop where
  key : e.1.length < 65536
  account : e.2.account.length < 65536

theorem readToken_encodeToken {e : Bytes × TokenInfo} (he : TokenFits e) (rest : Bytes) :
    readToken (encodeToken e ++ rest) = none ∨
      readToken (encodeToken e ++ rest) = some (truncated e, rest) := by
  obtain ⟨key, account, scope, expiresAt⟩ := e
  let body := scopeByte scope ::
    (leBytes 8 (expiresAt / nanos) ++ (leBytes 2 account.length ++ (account ++ rest)))
  have hassoc : encodeToken (key, ⟨account, scope, expiresAt⟩) ++ rest =
      leBytes 2 key.length ++ (key ++ body) := by
    simp only [encodeToken, append_assoc, cons_append, body]
  have hsecs : slice 1 8 body = leBytes 8 (expiresAt / nanos) :=
    @slice_middle 8 1 [scopeByte scope] _ _ rfl (length_leBytes ..)
  have htail : body.drop 9 = leBytes 2 account.length ++ (account ++ rest) :=
    drop_left' (length_leBytes ..)
  have hlong : ¬ body.length < 9 := by simp [body]
  unfold readToken
  rw [hassoc, readText_append he.key]
  by_cases hkey : isUtf8 key
  · rw [if_pos hkey]
    dsimp only
    rw [if_neg hlong, hsecs, htail, readText_append he.account]
    by_cases hacc : isUtf8 account
    · right
      rw [if_pos hacc]
      cases scope <;> rfl
    · left
      rw [if_neg hacc]
      cases scope <;> rfl
  · left
    rw [if_neg hkey]

/-- What is read is what was written, with its time of expiry cut to seconds. -/
theorem mem_readTokens {es : List (Bytes × TokenInfo)} (hes : ∀ e ∈ es, TokenFits e) {n : Nat}
    {t : Bytes × TokenInfo} (ht : t ∈ readTokens n (es.flatMap encodeToken)) :
    ∃ e ∈ es, t = truncated e := by
  induction n generalizing es with
  | zero => cases ht
  | succ n ih =>
    cases es with
    | nil => cases ht
    | cons e es =>
      rw [flatMap_cons, readTokens] at ht
      rcases readToken_encodeToken (hes e mem_cons_self) (es.flatMap encodeToken) with h | h
      · rw [h] at ht
        cases ht
      rw [h] at ht
      rcases mem_cons.mp ht with rfl | ht
      · exact ⟨e, mem_cons_self, rfl⟩
      · obtain ⟨e', he', rfl⟩ := ih (fun e' he' => hes e' (mem_cons_of_mem e he')) ht
        exact ⟨e', mem_cons_of_mem e he', rfl⟩

theorem mem_readTable_serializeTokens {now : Nat} {map : TokenMap}
    (hmap : ∀ e ∈ map.entries, TokenFits e) {t : Bytes × TokenInfo}
    (ht : t ∈ readTable (serializeTokens now map)) : ∃ e ∈ map.entries, t = truncated e := by
  unfold readTable serializeTokens at ht
  obtain ⟨e, he, rfl⟩ := mem_readTokens (fun e he => hmap e (mem_filter.mp he).1) ht
  exact ⟨e, (mem_filter.mp he).1, rfl⟩

theorem get_foldl_put {key : Bytes} {info : TokenInfo} {es : List (Bytes × TokenInfo)}
    {map : TokenMap} (h : (es.foldl (fun map e => map.put e.1 e.2) map).get key = some info) :
    (key, info) ∈ es ∨ map.get key = some info := by
  induction es generalizing map with
  | nil => exact .inr h
  | cons e es ih =>
    rcases ih h with hmem | hget
    · exact .inl (mem_cons_of_mem e hmem)
    · rcases get_put_eq_some_iff.mp hget with ⟨rfl, rfl⟩ | ⟨-, hget⟩
      · exact .inl mem_cons_self
      · exact .inr hget

theorem mem_of_get_deserializeTokens {key : Bytes} {info : TokenInfo} {now : Nat} {blob : Bytes}
    (h : (deserializeTokens now blob).get key = some info) :
    (key, info) ∈ readTable blob ∧ now < info.expiresAt := by
  rcases get_foldl_put h with hmem | hget
  · obtain ⟨hmem, hlive⟩ := mem_filter.mp hmem
    exact ⟨hmem, of_decide_eq_true hlive⟩
  · cases hget

/-! ## What a run keeps -/

namespace TokenServer

/-- The entry is one that was handed out, expiring no later. -/
def Issued (s : TokenServer) (key : Bytes) (info : TokenInfo) : Prop :=
  ∃ orig, s.minted.get key = some orig ∧ info.scope = orig.scope ∧ info.account = orig.account ∧
    info.expiresAt ≤ orig.expiresAt

structure Inv (s : TokenServer) : Prop where
  fits : ∀ key info, s.minted.get key = some info → TokenFits (key, info)
  accounts : ∀ account ∈ s.accounts, account.length < 65536
  ids : ∀ id f, s.flights.get id = some f → id < s.nextFlight
  table : ∀ key info, s.map.get key = some info → s.Issued key info
  stored : ∀ blob ∈ s.stored, ∀ e ∈ readTable blob, s.Issued e.1 e.2
  blobs : ∀ id ack blob, s.flights.get id = some (.write ack blob) →
    ∀ e ∈ readTable blob, s.Issued e.1 e.2
  checked : ∀ id key info, s.flights.get id = some (.checked key info) → s.Issued key info
  handed : ∀ key ∈ s.honoured, ∃ info, s.minted.get key = some info
  /-- one flight at a time is about a recovery token -/
  single : ∀ id id' f f' key, s.flights.get id = some f → s.flights.get id' = some f' →
    f.uses = some key → f'.uses = some key → id = id'
  /-- the token of an update that is only checked was not used yet -/
  unused : ∀ id key info, s.flights.get id = some (.checked key info) → info.scope = .recovery →
    key ∉ s.honoured
  used : ∀ id f key, s.flights.get id = some f → f.spends = some key → key ∈ s.honoured
  /-- a used token is out of the table, but for the time until its update revokes it -/
  spent : ∀ key ∈ s.honoured, s.map.get key = none ∨ ∃ id, s.flights.get id = some (.updated key)
  /-- and out of the store, until its update has written the table -/
  durable : ∀ key ∈ s.honoured, s.Durable key ∨ ∃ id f, s.flights.get id = some f ∧ f.spends = some key
  acked : ∀ key ∈ s.acked, key ∈ s.honoured ∧ s.map.get key = none ∧ s.Durable key
  nodup : s.honoured.Nodup

theorem inv_init (ttlSecs : Nat) (tokenPersist : Bool) : (init ttlSecs tokenPersist).Inv where
  fits _ _ h := nomatch h
  accounts _ h := nomatch h
  ids _ _ h := nomatch h
  table _ _ h := nomatch h
  stored _ h := nomatch h
  blobs _ _ _ h := nomatch h
  checked _ _ _ h := nomatch h
  handed _ h := nomatch h
  single _ _ _ _ _ h := nomatch h
  unused _ _ _ h := nomatch h
  used _ _ _ h := nomatch h
  spent _ h := nomatch h
  durable _ h := nomatch h
  acked _ h := nomatch h
  nodup := .nil

theorem Durable.tick {s : TokenServer} {key : Bytes} (h : s.Durable key) (d : Nat) :
    Durable { s with now := s.now + d } key :=
  fun hp blob hb e he hlive => h hp blob hb e he (lt_of_le_of_lt (Nat.le_add_right _ _) hlive)

theorem Inv.tick {s : TokenServer} (h : s.Inv) (d : Nat) : Inv { s with now := s.now + d } :=
  { h with
    durable := fun key hk => (h.durable key hk).imp_left fun hd => hd.tick d
    acked := fun key hk => ⟨(h.acked key hk).1, (h.acked key hk).2.1, (h.acked key hk).2.2.tick d⟩ }

theorem Inv.register {s : TokenServer} (h : s.Inv) (account : Bytes) :
    (s.step (.register account)).Inv := by
  unfold step
  dsimp only
  cases hv : validateAccount account with
  | error e => exact h
  | ok x =>
    refine { h with accounts := fun a ha => ?_ }
    rcases mem_cons.mp ha with rfl | ha
    · exact lt_of_le_of_lt (length_le_of_valid hv) (by decide)
    · exact h.accounts a ha

theorem Inv.erase {s : TokenServer} (h : s.Inv) (key : Bytes) :
    Inv { s with map := s.map.erase key } := by
  have hnone : ∀ k, s.map.get k = none → (s.map.erase key).get k = none := by
    intro k hk
    by_contra hne
    obtain ⟨info, hinfo⟩ := Option.ne_none_iff_exists'.mp hne
    rw [(get_erase_eq_some_iff.mp hinfo).2] at hk
    cases hk
  exact { h with
    table := fun k info hk => h.table k info (get_erase_eq_some_iff.mp hk).2
    spent := fun k hk => (h.spent k hk).imp_left (hnone k)
    acked := fun k hk => ⟨(h.acked k hk).1, hnone k (h.acked k hk).2.1, (h.acked k hk).2.2⟩ }

theorem authedToken_eq (s : TokenServer) (key : Bytes) :
    (∃ info, s.authedToken key = (s, some info) ∧ s.map.get key = some info ∧ s.now ≤ info.expiresAt) ∨
      s.authedToken key = (s, none) ∨
        s.authedToken key = ({ s with map := s.map.erase key }, none) := by
  unfold authedToken
  cases hget : s.map.get key with
  | none => exact .inr (.inl rfl)
  | some info =>
    by_cases hexp : info.expiresAt < s.now
    · exact .inr (.inr (if_pos hexp))
    · exact .inl ⟨info, if_neg hexp, rfl, not_lt.mp hexp⟩

theorem Inv.authedToken {s : TokenServer} (h : s.Inv) (key : Bytes) : (s.authedToken key).1.Inv := by
  rcases authedToken_eq s key with ⟨info, heq, -⟩ | heq | heq
  · exact heq ▸ h
  · exact heq ▸ h
  · rw [heq]
    exact h.erase key

/-- A token that is accepted is good, and its entry is the one handed out but for the time. -/
theorem Inv.good {info : TokenInfo} {s : TokenServer} {key : Bytes} (h : s.Inv)
    (hget : s.map.get key = some info) (hnow : s.now ≤ info.expiresAt) : s.Good key := by
  obtain ⟨orig, horig, -, -, hle⟩ := h.table key info hget
  refine ⟨fun hacked => ?_, orig, horig, hnow.trans hle⟩
  rw [(h.acked key hacked).2.1] at hget
  cases hget

/-! ### Flights -/

section Flights

variable {s : TokenServer}

/-- A flight takes the place `id`, and the token it has just used counts as honoured. -/
theorem Inv.put {id : Nat} {f : Flight} (h : s.Inv) {n : Nat} {hs : List Bytes}
    (hid : id < n) (hn : s.nextFlight ≤ n)
    (hchecked : ∀ key info, f = .checked key info →
      s.Issued key info ∧ (info.scope = .recovery → key ∉ hs))
    (hblob : ∀ ack blob, f = .write ack blob → ∀ e ∈ readTable blob, s.Issued e.1 e.2)
    (huses : ∀ key, f.uses = some key → ∀ id' f', s.flights.get id' = some f' →
      f'.uses = some key → id' = id)
    (hspends : ∀ key, f.spends = some key → key ∈ hs)
    (hgone : ∀ key, s.flights.get id = some (.updated key) → s.map.get key = none)
    (hkeep : ∀ f₀ key, s.flights.get id = some f₀ → f₀.spends = some key → f.spends = some key)
    (hsub : s.honoured ⊆ hs) (hnew : ∀ key ∈ hs, key ∈ s.honoured ∨ f = .updated key)
    (hhanded : ∀ key ∈ hs, ∃ info, s.minted.get key = some info) (hnodup : hs.Nodup) :
    Inv { s with flights := s.flights.put id f, nextFlight := n, honoured := hs } := by
  have hput : (s.flights.put id f).get id = some f := get_put_self ..
  have hother : ∀ {id' f'}, id' ≠ id → s.flights.get id' = some f' →
      (s.flights.put id f).get id' = some f' := fun hne hf =>
    (get_put_of_ne _ _ hne).trans hf
  refine { h with
    ids := ?_, blobs := ?_, checked := ?_, handed := hhanded, single := ?_, unused := ?_, used := ?_
    spent := ?_, durable := ?_, acked := fun k hk => ⟨hsub (h.acked k hk).1, (h.acked k hk).2⟩
    nodup := hnodup }
  · intro id' f' hf
    rcases get_put_eq_some_iff.mp hf with ⟨rfl, -⟩ | ⟨-, hf⟩
    · exact hid
    · exact (h.ids id' f' hf).trans_le hn
  · intro id' ack blob hf
    rcases get_put_eq_some_iff.mp hf with ⟨-, rfl⟩ | ⟨-, hf⟩
    · exact hblob ack blob rfl
    · exact h.blobs id' ack blob hf
  · intro id' k i hf
    rcases get_put_eq_some_iff.mp hf with ⟨-, rfl⟩ | ⟨-, hf⟩
    · exact (hchecked k i rfl).1
    · exact h.checked id' k i hf
  · intro id₁ id₂ f₁ f₂ k hf₁ hf₂ hk₁ hk₂
    rcases get_put_eq_some_iff.mp hf₁ with ⟨rfl, rfl⟩ | ⟨-, hg₁⟩
    · rcases get_put_eq_some_iff.mp hf₂ with ⟨rfl, rfl⟩ | ⟨-, hg₂⟩
      · rfl
      · exact (huses k hk₁ id₂ f₂ hg₂ hk₂).symm
    · rcases get_put_eq_some_iff.mp hf₂ with ⟨rfl, rfl⟩ | ⟨-, hg₂⟩
      · exact huses k hk₂ id₁ f₁ hg₁ hk₁
      · exact h.single id₁ id₂ f₁ f₂ k hg₁ hg₂ hk₁ hk₂
  · intro id' k i hf hscope hk
    rcases get_put_eq_some_iff.mp hf with ⟨-, rfl⟩ | ⟨hne, hg⟩
    · exact (hchecked k i rfl).2 hscope hk
    · rcases hnew k hk with hold | rfl
      · exact h.unused id' k i hg hscope hold
      · exact hne (huses k rfl id' _ hg (Flight.uses_of_holds (if_pos hscope)))
  · intro id' f' k hf hs
    rcases get_put_eq_some_iff.mp hf with ⟨-, rfl⟩ | ⟨-, hf⟩
    · exact hspends k hs
    · exact hsub (h.used id' f' k hf hs)
  · intro k hk
    rcases hnew k hk with hold | rfl
    · refine (h.spent k hold).elim .inl fun ⟨id', hf⟩ => ?_
      by_cases hid' : id' = id
      · exact .inl (hgone k (hid' ▸ hf))
      · exact .inr ⟨id', hother hid' hf⟩
    · exact .inr ⟨id, hput⟩
  · intro k hk
    rcases hnew k hk with hold | rfl
    · refine (h.durable k hold).imp_right fun ⟨id', f', hf, hs⟩ => ?_
      by_cases hid' : id' = id
      · exact ⟨id, f, hput, hkeep f' k (hid' ▸ hf) hs⟩
      · exact ⟨id', f', hother hid' hf, hs⟩
    · exact .inr ⟨id, _, hput, rfl⟩

theorem Inv.begin_ {f : Flight} (h : s.Inv) (hspends : f.spends = none)
    (hwrite : ∀ ack blob, f ≠ .write ack blob)
    (hissued : ∀ key info, f = .checked key info → s.Issued key info)
    (huses : ∀ key, f.uses = some key →
      key ∉ s.honoured ∧ ∀ id f', s.flights.get id = some f' → f'.uses ≠ some key) :
    (s.begin_ f).Inv := by
  have hfree : ∀ f₀, s.flights.get s.nextFlight ≠ some f₀ := fun f₀ hf => lt_irrefl _ (h.ids _ f₀ hf)
  refine h.put (Nat.lt_succ_self _) (Nat.le_succ _) ?_ (fun ack blob he => absurd he (hwrite ack blob))
    (fun key hk id f' hf hk' => absurd hk' ((huses key hk).2 id f' hf))
      (fun key hk => nomatch hspends.symm.trans hk)
    (fun key hf => absurd hf (hfree _)) (fun f₀ key hf => absurd hf (hfree f₀)) (fun _ hk => hk)
      (fun _ => .inl) h.handed h.nodup
  rintro key info rfl
  exact ⟨hissued key info rfl, fun hscope => (huses key (Flight.uses_of_holds (if_pos hscope))).1⟩

/-- A request ends; the token it spent is out of the store. -/
theorem Inv.finish {id : Nat} {f : Flight} (h : s.Inv) (hf : s.flights.get id = some f)
    (hnot : ∀ key, f ≠ .updated key) (hdur : ∀ key, f.spends = some key → s.Durable key) :
    (s.finish id).Inv := by
  have hget : ∀ {id' f'}, (s.finish id).flights.get id' = some f' → s.flights.get id' = some f' :=
    fun hf' => (get_erase_eq_some_iff.mp hf').2
  refine { h with
    ids := fun id' f' hf' => h.ids id' f' (hget hf')
    blobs := fun id' ack blob hf' => h.blobs id' ack blob (hget hf')
    checked := fun id' key info hf' => h.checked id' key info (hget hf')
    single := fun id₁ id₂ f₁ f₂ key hf₁ hf₂ => h.single id₁ id₂ f₁ f₂ key (hget hf₁) (hget hf₂)
    unused := fun id' key info hf' => h.unused id' key info (hget hf')
    used := fun id' f' key hf' => h.used id' f' key (hget hf')
    spent := fun key hk => ?_
    durable := fun key hk => ?_ }
  · refine (h.spent key hk).imp_right fun ⟨id', hf'⟩ => ⟨id', get_erase_eq_some_iff.mpr ⟨?_, hf'⟩⟩
    rintro rfl
    rw [hf] at hf'
    exact hnot key (Option.some.inj hf')
  · rcases h.durable key hk with hd | ⟨id', f', hf', hs⟩
    · exact .inl hd
    by_cases hid : id' = id
    · subst hid
      rw [hf] at hf'
      cases hf'
      exact .inl (hdur key hs)
    · exact .inr ⟨id', f', get_erase_eq_some_iff.mpr ⟨hid, hf'⟩, hs⟩

theorem Inv.acknowledge (h : s.Inv) {ack : Option Bytes}
    (hack : ∀ key ∈ ack, key ∈ s.honoured ∧ s.map.get key = none ∧ s.Durable key) :
    (s.acknowledge ack).Inv := by
  cases ack with
  | none => exact h
  | some key =>
    refine { h with acked := fun k hk => ?_ }
    rcases mem_cons.mp hk with rfl | hk
    · exact hack k rfl
    · exact h.acked k hk

/-- The token of a flight past its revocation is out of the table. -/
theorem Inv.revoked {key : Bytes} {id : Nat} {f : Flight} (h : s.Inv)
    (hf : s.flights.get id = some f) (hs : f.spends = some key) (hnot : ∀ key, f ≠ .updated key) :
    key ∈ s.honoured ∧ s.map.get key = none := by
  have hk := h.used id f key hf hs
  refine ⟨hk, (h.spent key hk).resolve_right ?_⟩
  rintro ⟨id', hf'⟩
  have hid := h.single id id' f _ key hf hf' (Flight.uses_of_spends hs) rfl
  subst hid
  rw [hf] at hf'
  exact hnot key (Option.some.inj hf')

/-! ### Steps -/

theorem Inv.insertToken {info : TokenInfo} {key : Bytes} (h : s.Inv)
    (hnew : s.minted.get key = none) (hfits : TokenFits (key, info)) :
    (s.insertToken key info).Inv := by
  have hissued : ∀ k i, s.Issued k i → (s.insertToken key info).Issued k i := by
    rintro k i ⟨orig, horig, hrest⟩
    have hne : k ≠ key := by
      rintro rfl
      rw [hnew] at horig
      cases horig
    exact ⟨orig, (get_put_of_ne _ _ hne).trans horig, hrest⟩
  -- a token that was used was handed out before
  have hother : ∀ k ∈ s.honoured, k ≠ key := by
    rintro k hk rfl
    obtain ⟨i, hi⟩ := h.handed k hk
    rw [hnew] at hi
    cases hi
  have hgone : ∀ k ∈ s.honoured, s.map.get k = none → (s.map.put key info).get k = none :=
    fun k hk hnone => (get_put_of_ne _ _ (hother k hk)).trans hnone
  refine { h with
    fits := ?_, table := ?_, stored := ?_, blobs := ?_, checked := ?_, handed := ?_, spent := ?_
    acked := ?_ }
  · intro k i hk
    rcases get_put_eq_some_iff.mp hk with ⟨rfl, rfl⟩ | ⟨-, hk⟩
    · exact hfits
    · exact h.fits k i hk
  · intro k i hk
    rcases get_put_eq_some_iff.mp hk with ⟨rfl, rfl⟩ | ⟨-, hk⟩
    · exact ⟨i, get_put_self .., rfl, rfl, le_rfl⟩
    · exact hissued k i (h.table k i hk)
  · exact fun blob hb e he => hissued _ _ (h.stored blob hb e he)
  · exact fun id ack blob hf e he => hissued _ _ (h.blobs id ack blob hf e he)
  · exact fun id k i hf => hissued k i (h.checked id k i hf)
  · intro k hk
    obtain ⟨i, hi⟩ := h.handed k hk
    exact ⟨i, (get_put_of_ne _ _ (hother k hk)).trans hi⟩
  · exact fun k hk => (h.spent k hk).imp_left (hgone k hk)
  · intro k hk
    obtain ⟨hhon, hnone, hdur⟩ := h.acked k hk
    exact ⟨hhon, hgone k hhon hnone, hdur⟩

theorem Inv.login (h : s.Inv) {digest : Vector UInt8 32} (account : Bytes) (scope : TokenScope)
    (hnew : s.minted.get (hexOf digest.toList) = none) :
    (s.login (hexOf digest.toList) account scope).Inv := by
  unfold TokenServer.login
  split
  · rename_i hacc
    have hkey : (hexOf digest.toList).length < 65536 := by
      rw [length_hexOf, Vector.length_toList]
      decide
    have hfits : TokenFits (hexOf digest.toList, ⟨account, scope, s.now + s.ttlSecs * nanos⟩) :=
      ⟨hkey, h.accounts account hacc⟩
    exact (h.insertToken hnew hfits).begin_ rfl (fun _ _ hf => nomatch hf)
      (fun _ _ hf => nomatch hf) (fun _ hk => nomatch hk)
  · exact h

theorem Inv.beginUpdate {key : Bytes} (h : s.Inv) (horder : s.Orderly (.beginUpdate key)) :
    (s.beginUpdate key).Inv := by
  have hauth := h.authedToken key
  unfold TokenServer.beginUpdate
  rcases authedToken_eq s key with ⟨info, heq, hget, -⟩ | heq | heq
  · rw [heq]
    have hissued : ∀ k i, Flight.checked key info = .checked k i → s.Issued k i := by
      rintro k i ⟨⟩
      exact h.table key info hget
    refine h.begin_ rfl (fun _ _ hf => nomatch hf) hissued fun k hk => ?_
    -- only the recovery token of this request can be meant
    have hkey : k = key := by
      rw [Flight.uses_checked] at hk
      split at hk
      · exact (Option.some.inj hk).symm
      · cases hk
    subst hkey
    have hholds : ∀ id f, s.flights.get id = some f → f.holds ≠ some k :=
      fun id f hf => horder (id, f) (mem_of_get hf)
    have hunused : k ∉ s.honoured := by
      intro hhon
      rcases h.spent k hhon with hnone | ⟨id, hf⟩
      · rw [hnone] at hget
        cases hget
      · exact hholds id _ hf rfl
    refine ⟨hunused, fun id f hf huses => ?_⟩
    have hspends : f.spends ≠ some k := fun hs => hunused (h.used id f k hf hs)
    unfold Flight.uses at huses
    rcases Option.or_eq_some_iff.mp huses with hh | ⟨-, hs⟩
    · exact hholds id f hf hh
    · exact hspends hs
  · rw [heq]
    exact h
  · rw [heq] at hauth ⊢
    exact hauth

/-- The credentials are stored with a recovery token. -/
theorem Inv.honour {info : TokenInfo} {key : Bytes} {id : Nat} (h : s.Inv)
    (hf : s.flights.get id = some (.checked key info)) (hr : info.scope = .recovery) :
    Inv { s.goOn id (.updated key) with honoured := key :: s.honoured } := by
  have huses : (Flight.checked key info).uses = some key := Flight.uses_of_holds (if_pos hr)
  have hfree : ∀ f₀, s.flights.get id = some f₀ → f₀ = .checked key info :=
    fun f₀ hf₀ => Option.some.inj (hf₀.symm.trans hf)
  obtain ⟨orig, horig, -⟩ := h.checked id key info hf
  refine h.put (h.ids id _ hf) le_rfl (fun _ _ he => nomatch he) (fun _ _ he => nomatch he) ?_ ?_
    (fun k hf₀ => nomatch hfree _ hf₀) ?_ (subset_cons_self key s.honoured) ?_ ?_
      (nodup_cons.mpr ⟨h.unused id key info hf hr, h.nodup⟩)
  · rintro k ⟨⟩ id' f' hf' hk'
    exact h.single id' id f' _ key hf' hf hk' huses
  · rintro k ⟨⟩
    exact mem_cons_self
  · intro f₀ k hf₀ hs
    cases hfree f₀ hf₀
    cases hs
  · intro k hk
    rcases mem_cons.mp hk with rfl | hk
    · exact .inr rfl
    · exact .inl hk
  · intro k hk
    rcases mem_cons.mp hk with rfl | hk
    · exact ⟨orig, horig⟩
    · exact h.handed k hk

/-- The part of an update under the store's lock. -/
theorem Inv.update {id : Nat} (h : s.Inv) {fault : Option UpdateFault}
    (horder : s.Orderly (.update id fault)) : (s.update id fault).Inv := by
  unfold TokenServer.update
  split
  · rename_i k info hf
    have hend : (s.finish id).Inv := h.finish hf (fun _ he => nomatch he) (fun _ he => nomatch he)
    cases fault with
    | some fault =>
      cases fault with
      | early => exact hend
      | wrapped =>
        dsimp only
        split
        · rename_i hr
          have hnone : Flight.holds (.checked k info) = none := horder rfl (id, _) (mem_of_get hf) rfl
          have hsome : Flight.holds (.checked k info) = some k := if_pos hr
          rw [hnone] at hsome
          cases hsome
        · exact hend
    | none =>
      dsimp only
      split
      · rename_i hr
        exact h.honour hf hr
      · exact hend
  · exact h

/-- A flight goes on with the same token spent. -/
theorem Inv.goOn {id : Nat} {f : Flight} (h : s.Inv) {f' : Flight} (hf : s.flights.get id = some f)
    (hgone : ∀ key, f = .updated key → s.map.get key = none) (hspends : f'.spends = f.spends)
    (huses : f'.uses = f.uses) (hchecked : ∀ key info, f' ≠ .checked key info)
    (hblob : ∀ ack blob, f' = .write ack blob → ∀ e ∈ readTable blob, s.Issued e.1 e.2) :
    (s.goOn id f').Inv := by
  have hsame : ∀ f₀, s.flights.get id = some f₀ → f₀ = f :=
    fun f₀ hf₀ => Option.some.inj (hf₀.symm.trans hf)
  exact h.put (h.ids id f hf) le_rfl (fun k i he => absurd he (hchecked k i)) hblob
    (fun k hk id' g hg hk' => h.single id' id g f k hg hf hk' (huses ▸ hk))
      (fun k hs => h.used id f k hf (hspends ▸ hs))
    (fun k hf₀ => hgone k (hsame _ hf₀).symm) (fun f₀ k hf₀ hs => hspends.trans (hsame f₀ hf₀ ▸ hs))
      (fun _ hk => hk)
    (fun _ => .inl) h.handed h.nodup

theorem Inv.revoke (h : s.Inv) (id : Nat) : (s.revoke id).Inv := by
  unfold TokenServer.revoke
  split
  · rename_i k hf
    refine (h.erase k).goOn hf ?_ rfl rfl (fun _ _ he => nomatch he) (fun _ _ he => nomatch he)
    rintro k' ⟨⟩
    exact get_erase_self ..
  · exact h

theorem Issued.cut {e : Bytes × TokenInfo} (h : s.Issued e.1 e.2) :
    s.Issued (truncated e).1 (truncated e).2 := by
  obtain ⟨orig, horig, hscope, hacc, hle⟩ := h
  have hle' := le_trans (truncated_le e) hle
  obtain ⟨key, account, scope, expiresAt⟩ := e
  exact ⟨orig, horig, hscope, hacc, hle'⟩

theorem Inv.issued_serializeTokens {e : Bytes × TokenInfo} (h : s.Inv)
    (he : e ∈ readTable (serializeTokens s.now s.map)) : s.Issued e.1 e.2 := by
  have hfits : ∀ e ∈ s.map.entries, TokenFits e := by
    intro e he
    obtain ⟨orig, horig, -, hacc, -⟩ := h.table e.1 e.2 (get_of_mem he)
    have hf := h.fits e.1 orig horig
    exact ⟨hf.key, hacc ▸ hf.account⟩
  obtain ⟨e', he', rfl⟩ := mem_readTable_serializeTokens hfits he
  exact Issued.cut (h.table e'.1 e'.2 (get_of_mem he'))

theorem Inv.snapshot (h : s.Inv) (id : Nat) : (s.snapshot id).Inv := by
  unfold TokenServer.snapshot
  split
  · rename_i ack hf
    split
    · refine h.goOn hf (fun _ he => nomatch he) rfl rfl (fun _ _ he => nomatch he) ?_
      rintro ack' blob ⟨⟩ e he
      exact h.issued_serializeTokens he
    · rename_i hp
      have hdur : ∀ k, s.Durable k := fun k hpersist => absurd hpersist hp
      refine (h.finish hf (fun _ he => nomatch he) fun k _ => hdur k).acknowledge fun k hk => ?_
      obtain ⟨hhon, hnone⟩ :=
        h.revoked hf (show Flight.spends (.snapshot ack) = some k from hk) (fun _ he => nomatch he)
      exact ⟨hhon, hnone, hdur k⟩
  · exact h

theorem Inv.stores (h : s.Inv) {blob : Bytes} (hissued : ∀ e ∈ readTable blob, s.Issued e.1 e.2)
    (hfresh : ∀ t ∈ readTable blob, s.now < t.2.expiresAt → s.map.get t.1 ≠ none) :
    Inv { s with stored := some blob } := by
  have hdur : ∀ k, s.map.get k = none → Durable { s with stored := some blob } k := by
    rintro k hnone - b ⟨⟩ e he hlive rfl
    exact hfresh e he hlive hnone
  refine { h with stored := ?_, durable := ?_, acked := ?_ }
  · rintro b ⟨⟩
    exact hissued
  · intro k hk
    rcases h.spent k hk with hnone | ⟨id, hf⟩
    · exact .inl (hdur k hnone)
    · exact .inr ⟨id, _, hf, rfl⟩
  · intro k hk
    obtain ⟨hhon, hnone, -⟩ := h.acked k hk
    exact ⟨hhon, hnone, hdur k hnone⟩

theorem Inv.write {id : Nat} (h : s.Inv) {fails : Bool} (horder : s.Orderly (.write id fails)) :
    (s.write id fails).Inv := by
  unfold TokenServer.write
  split
  · rename_i ack blob hf
    obtain ⟨hfailed, hwritten⟩ : s.SafeWrite fails (.write ack blob) :=
      horder (id, _) (mem_of_get hf) rfl
    have hrevoked : ∀ k ∈ ack, k ∈ s.honoured ∧ s.map.get k = none := fun k hk =>
      h.revoked hf (show Flight.spends (.write ack blob) = some k from hk) (fun _ he => nomatch he)
    have hend : ∀ {t : TokenServer}, t.Inv → t.flights = s.flights →
      (∀ k ∈ ack, k ∈ t.honoured ∧ t.map.get k = none ∧ t.Durable k) →
        ((t.finish id).acknowledge ack).Inv := fun ht hfl hack =>
      (ht.finish (f := .write ack blob) (hfl ▸ hf) (fun _ he => nomatch he) fun k hk =>
        (hack k hk).2.2).acknowledge hack
    cases fails with
    | true => exact hend h rfl fun k hk => ⟨(hrevoked k hk).1, (hrevoked k hk).2, hfailed rfl k hk⟩
    | false =>
      refine hend (h.stores (h.blobs id ack blob hf) (hwritten rfl)) rfl fun k hk =>
        ⟨(hrevoked k hk).1, (hrevoked k hk).2, ?_⟩
      rintro - b ⟨⟩ e he hlive rfl
      exact hwritten rfl e he hlive (hrevoked e.1 hk).2
  · exact h

/-- The server comes up with the stored table. -/
theorem Inv.restart (h : s.Inv) (horder : s.Orderly .restart) : (s.step .restart).Inv := by
  have htable : ∀ k i, s.restoreTokens.get k = some i → s.tokenPersist = true ∧
      ∃ blob ∈ s.stored, (k, i) ∈ readTable blob ∧ s.now < i.expiresAt := by
    intro k i hk
    unfold restoreTokens at hk
    split at hk
    · rename_i hp
      split at hk
      · rename_i blob hb
        exact ⟨hp, blob, hb, mem_of_get_deserializeTokens hk⟩
      · cases hk
    · cases hk
  have hdur : ∀ k ∈ s.honoured, s.Durable k := by
    intro k hk
    rcases h.durable k hk with hd | ⟨id, f, hf, hs⟩
    · exact hd
    · exact horder (id, f) (mem_of_get hf) k hs
  have hgone : ∀ k ∈ s.honoured, s.restoreTokens.get k = none := by
    intro k hk
    by_contra hne
    obtain ⟨i, hi⟩ := Option.ne_none_iff_exists'.mp hne
    obtain ⟨hp, blob, hb, hmem, hlive⟩ := htable k i hi
    exact hdur k hk hp blob hb (k, i) hmem hlive rfl
  refine { h with
    ids := fun _ _ hf => (by cases hf), table := ?_, blobs := fun _ _ _ hf => (by cases hf)
    checked := fun _ _ _ hf => (by cases hf), single := fun _ _ _ _ _ hf => (by cases hf)
    unused := fun _ _ _ hf => (by cases hf), used := fun _ _ _ hf => (by cases hf)
    spent := fun k hk => .inl (hgone k hk), durable := fun k hk => .inl (hdur k hk), acked := ?_ }
  · intro k i hk
    obtain ⟨-, blob, hb, hmem, -⟩ := htable k i hk
    exact h.stored blob hb (k, i) hmem
  · intro k hk
    obtain ⟨hhon, -, hd⟩ := h.acked k hk
    exact ⟨hhon, hgone k hhon, hd⟩

end Flights

/-! ### Runs -/

theorem Inv.step {s : TokenServer} (h : s.Inv) {op : ServerOp} (horder : s.Orderly op) :
    (s.step op).Inv := by
  cases op with
  | tick d => exact h.tick d
  | register account => exact h.register account
  | login digest account scope => exact h.login account scope horder
  | data key => exact h.authedToken key
  | recoveryRead key => exact h.authedToken key
  | beginUpdate key => exact h.beginUpdate horder
  | update id fault => exact h.update horder
  | revoke id => exact h.revoke id
  | snapshot id => exact h.snapshot id
  | write id fails => exact h.write horder
  | restart => exact h.restart horder

theorem Inv.authedToken_cases {s : TokenServer} (h : s.Inv) (key : Bytes) :
    (∃ info, s.authedToken key = (s, some info) ∧ s.map.get key = some info ∧ s.Good key) ∨
      ∃ t, s.authedToken key = (t, none) := by
  rcases authedToken_eq s key with ⟨info, heq, hget, hnow⟩ | heq | heq
  · exact .inl ⟨info, heq, hget, h.good hget hnow⟩
  · exact .inr ⟨s, heq⟩
  · exact .inr ⟨_, heq⟩

theorem Inv.honest {s : TokenServer} (h : s.Inv) {op : ServerOp} (horder : s.Orderly op) :
    s.Honest op := by
  refine ⟨?_, (h.step horder).nodup⟩
  cases op with
  | data key =>
    intro hne
    unfold authedAccount at hne
    rcases h.authedToken_cases key with ⟨info, heq, hget, hgood⟩ | ⟨t, heq⟩
    · refine ⟨hgood, fun orig horig => ?_⟩
      obtain ⟨orig', horig', hscope, -, -⟩ := h.table key info hget
      rw [horig'] at horig
      cases horig
      rw [← hscope]
      by_contra hpw
      rw [heq] at hne
      exact hne (if_neg hpw)
    · rw [heq] at hne
      exact absurd rfl hne
  | recoveryRead key =>
    intro hne
    unfold authedAccountAnyScope at hne
    rcases h.authedToken_cases key with ⟨info, -, -, hgood⟩ | ⟨t, heq⟩
    · exact hgood
    · rw [heq] at hne
      exact absurd rfl hne
  | beginUpdate key =>
    intro hne
    rcases h.authedToken_cases key with ⟨info, -, -, hgood⟩ | ⟨t, heq⟩
    · exact hgood
    · rw [heq] at hne
      exact absurd rfl hne
  | tick | register | login | update | revoke | snapshot | write | restart => trivial

/-- Tokens mean what they say in every interleaving whose steps come in a safe order. -/
theorem tokens_honest (ttlSecs : Nat) (tokenPersist : Bool) (ops : List ServerOp)
    (horder : Along step Orderly (init ttlSecs tokenPersist) ops) :
    Along step Honest (init ttlSecs tokenPersist) ops :=
  along_of_inv (fun _ _ h ho => ⟨h.step ho, h.honest ho⟩) (inv_init ttlSecs tokenPersist) horder

/-- A reset with a recovery token, done alone; then the server restarts and the token is tried
again. -/
def resetOnce : List ServerOp :=
  [.register [97], .login (Vector.replicate 32 0) [97] .recovery, .snapshot 0, .write 0 false,
    .beginUpdate (hexOf (replicate 32 0)), .update 1 none, .revoke 1, .snapshot 1, .write 1 false,
    .restart, .beginUpdate (hexOf (replicate 32 0))]

theorem tokens_honest_resetOnce : Along step Honest (init 3600 true) resetOnce :=
  tokens_honest 3600 true resetOnce (by decide)

/-- Two resets with one recovery token are let in before either has revoked it. -/
def resetTwice : List ServerOp :=
  [.register [97], .login (Vector.replicate 32 0) [97] .recovery, .snapshot 0, .write 0 false,
    .beginUpdate (hexOf (replicate 32 0)), .beginUpdate (hexOf (replicate 32 0)), .update 1 none,
    .update 2 none]

theorem resetTwice_not_honest : ¬ Along step Honest (init 3600 true) resetTwice := by
  intro h
  have hnodup := h.2.2.2.2.2.2.2.1.2
  exact absurd hnodup (by decide)

end TokenServer

end Sfs.Server

import Sfs.Lib.Run
import Sfs.Server.Account
import Sfs.Sync.Export

/-!
# Enforcement against a replaying client

Members push what they exported; beside them someone with the account's token, and copies of all
that was ever stored, sends requests of their own. The account is compared with `quiet`, the one
that only the members' requests reach.

The signature covers the signed payload and not the projection, and `PUT vv` covers nothing: the
account stays like the quiet one as long as a replay carries the bytes that are stored for its
version and no vector goes beyond the one that is kept.
-/

namespace Sfs.Server

open Sfs.Lib Sfs.Version Sfs.Sync Account VersionVector AtRest List
open Sfs.AtRest (SealedWriterSet openBlob)

/-- What a member exports and pushes: the framed blob with its vector. -/
structure Export where
  uuid : Uuid
  vv : VersionVector
  blob : FramedBlob

def Export.put (x : Export) : Request := .putRecord x.uuid x.vv.toBytes (frame x.blob)

def Export.putVv (x : Export) : Request := .putVv x.uuid x.vv.toBytes

/-- The push leaves out a unit that the server has. -/
def Export.skipped (x : Export) (a : Account) : Bool := (a.have_ x.uuid).dominates x.vv

structure World where
  account : Account
  /-- the account without the adversary's requests -/
  quiet : Account
  accepted : List Export
  /-- the Writer-Sets that were stored -/
  sets : List SealedWriterSet

def World.fresh (tokens burst : Nat) : World := ⟨.fresh tokens burst, .fresh tokens burst, [], []⟩

/-- The requests of a push come one by one, so that others may come between them. -/
inductive Event where
  | memberPut (x : Export)
  | memberVv (x : Export)
  | memberSet (blob : Bytes)
  | adversary (r : Request)
  | refill (n : Nat)

section

variable (scheme : SignatureScheme)

/-- The members' request `r` at both accounts. -/
def World.both (w : World) (r : Request) : World :=
  { w with account := (w.account.handle scheme r).2, quiet := (w.quiet.handle scheme r).2 }

def World.step (w : World) : Event → World
  | .memberPut x => { w.both scheme x.put with
      accepted := if (w.account.handle scheme x.put).1 = .ok then x :: w.accepted else w.accepted }
  | .memberVv x => w.both scheme x.putVv
  | .memberSet blob => { w.both scheme (.putWriterSet blob) with
      sets := if (w.account.handle scheme (.putWriterSet blob)).1 =
        .ok then (openBlob scheme blob).toOption.toList ++ w.sets else w.sets }
  | .adversary r => { w with account := (w.account.handle scheme r).2 }
  | .refill n => { w with account := w.account.refill n, quiet := w.quiet.refill n }

/-- The order in which the server takes sets over. -/
def Newer (old ws : SealedWriterSet) : Prop :=
  old.keyEpoch < ws.keyEpoch ∨ old.keyEpoch = ws.keyEpoch ∧ old.epoch < ws.epoch

/-- No signature is forged: what the adversary sends under a member's signature was signed for a
record that is or was stored, and a set under the owner's signature is one that was stored. -/
def Unforged (w : World) : Request → Prop
  | .putRecord _ _ body => ∀ f ws, parseFramedBlob body = .ok f →
    w.account.storedSet scheme = some (.ok ws) → f.writerPubkey ∈ ws.set.writers →
      scheme.verify f.writerPubkey f.signingPayload f.signature = true →
        ∃ x ∈ w.accepted, x.blob.signingPayload = f.signingPayload
  | .putWriterSet blob => ∀ ws held,
    openBlob scheme blob = .ok ws → w.account.storedSet scheme = some (.ok held) →
      ws.ownerPubkey = held.ownerPubkey → ws ∈ w.sets
  | .putVv _ _ | .other => True

/-- A record that verifies, at a version that is stored, has the bytes that are stored; a vector is
below the one that is kept; the first Writer-Set is not the adversary's. -/
def Harmless (w : World) : Request → Prop
  | .putRecord u vvHeader body =>
    ∀ f ws, parseFramedBlob body = .ok f → w.account.storedSet scheme = some (.ok ws) →
      verifyRecordTrailer scheme ws.set body = .ok f.writerPubkey →
      ∀ s ∈ w.account.frontier u, s.1.toBytes = vvHeader → s.2 = f.projection
  | .putVv u body => ∀ vv, VersionVector.fromBytes body = .ok vv →
    (w.account.have_ u).dominates vv = true
  | .putWriterSet blob => w.account.writerSet = none → ∀ ws, openBlob scheme blob ≠ .ok ws
  | .other => True

/-- Members send what fits its fields while the rate limit lets them, and sets from one line. -/
def Fair (w : World) : Event → Prop
  | .memberPut x => 0 < w.account.tokens ∧ x.vv.Fits ∧ x.blob.Fits
  | .memberVv _ => 0 < w.account.tokens
  | .memberSet blob => 0 < w.account.tokens ∧ ∀ ws,
    openBlob scheme blob = .ok ws → ws ∈ w.sets ∨ ∀ old ∈ w.sets, Newer old ws
  | .adversary r => Unforged scheme w r ∧ Harmless scheme w r
  | .refill _ => True

/-- What enforcement is for, at one step. -/
structure Enforced (w w' : World) (ev : Event) : Prop where
  /-- a record gives way only to one of the same or a newer version that a member signed and
  pushed -/
  displaced : ∀ u, ∀ s ∈ w.account.frontier u, s ∈ w'.account.frontier u ∨
    ∃ x ws, ev = .memberPut x ∧ x.uuid = u ∧ s.1 ≤ x.vv ∧
      (x.vv, x.blob.projection) ∈ w'.account.frontier u ∧
      w.account.storedSet scheme = some (.ok ws) ∧ Checked scheme ws u x.vv x.blob
  /-- what is served are bytes a member exported for that version -/
  served : ∀ u, ∀ s ∈ w'.account.frontier u,
    ∃ x ∈ w'.accepted, x.uuid = u ∧ x.vv = s.1 ∧ x.blob.projection = s.2
  /-- a push is skipped, refused or stored as without the adversary -/
  unhindered : ∀ x, ev = .memberPut x → x.skipped w.account = x.skipped w.quiet ∧
    (w.account.handle scheme x.put).1 = (w.quiet.handle scheme x.put).1 ∧
    (w'.account.frontier x.uuid).Perm (w'.quiet.frontier x.uuid)

end

/-! ## Requests at accounts that are alike -/

section

variable {scheme : SignatureScheme} {a b : Account} {u u' : Uuid} {vv : VersionVector} {blob : Bytes}

theorem frontier_storeRecord : (a.storeRecord u vv blob).frontier u' =
    if u' = u then addNewest (a.frontier u) vv blob else a.frontier u' := by
  unfold storeRecord Account.frontier
  split
  · rename_i h
    subst h
    rw [KeyMap.get_put_self]
    rfl
  · rename_i h
    rw [KeyMap.get_put_of_ne _ _ h]

theorem have_setVv : (a.setVv u vv).have_ u' = if u' = u then (a.have_ u).join vv else a.have_ u' := by
  unfold setVv Account.have_
  by_cases hu : u' = u
  · subst hu
    rw [if_pos rfl, KeyMap.get_put_self]
    cases a.vvs.get u' with
    | some existing => rfl
    | none => exact ext_get fun k => by rw [Option.getD_none, get_join]; simp
  · rw [if_neg hu, KeyMap.get_put_of_ne _ _ hu]

/-- The accounts answer alike; the rate limit apart. -/
structure Alike (scheme : SignatureScheme) (a b : Account) : Prop where
  storedSet : a.storedSet scheme = b.storedSet scheme
  have_ : ∀ u, a.have_ u = b.have_ u
  frontier : ∀ u, (a.frontier u).Perm (b.frontier u)
  tokens : a.tokens ≤ b.tokens
  burst : a.burst = b.burst

theorem putWriterSet_congr {stored stored' : Option Bytes}
    (h : stored.map (openBlob scheme) = stored'.map (openBlob scheme)) :
    AtRest.putWriterSet scheme stored blob = AtRest.putWriterSet scheme stored' blob := by
  unfold AtRest.putWriterSet
  cases openBlob scheme blob with
  | error e => rfl
  | ok ws =>
    cases stored with
    | none =>
      cases stored' with
      | none => rfl
      | some bytes => cases h
    | some bytes =>
      cases stored' with
      | none => cases h
      | some bytes' =>
        have h : openBlob scheme bytes = openBlob scheme bytes' := Option.some.inj h
        dsimp only
        rw [h]

theorem Alike.serve (h : Alike scheme a b) (r : Request) :
    (a.serve scheme r).1 = (b.serve scheme r).1 ∧
      Alike scheme (a.serve scheme r).2 (b.serve scheme r).2 := by
  cases r with
  | putRecord u vvHeader body =>
    unfold Account.serve
    dsimp only
    rw [h.storedSet]
    cases checkRecord scheme (b.storedSet scheme) u vvHeader body with
    | error reply => exact ⟨rfl, h⟩
    | ok p =>
      refine ⟨rfl, h.storedSet, h.have_, fun u' => ?_, h.tokens, h.burst⟩
      rw [frontier_storeRecord, frontier_storeRecord]
      split
      · exact addNewest_perm (h.frontier u)
      · exact h.frontier u'
  | putVv u body =>
    unfold Account.serve
    dsimp only
    cases VersionVector.fromBytes body with
    | error e => exact ⟨rfl, h⟩
    | ok vv =>
      refine ⟨rfl, h.storedSet, fun u' => ?_, h.frontier, h.tokens, h.burst⟩
      rw [have_setVv, have_setVv, h.have_, h.have_]
  | putWriterSet body =>
    unfold Account.serve
    dsimp only
    rw [putWriterSet_congr h.storedSet]
    split
    · exact ⟨rfl, h⟩
    · cases AtRest.putWriterSet scheme b.writerSet body with
      | error e => exact ⟨rfl, h⟩
      | ok stored => exact ⟨rfl, rfl, h.have_, h.frontier, h.tokens, h.burst⟩
  | other => exact ⟨rfl, h⟩

theorem handle_of_pos (h : 0 < a.tokens) (r : Request) :
    a.handle scheme r = serve scheme { a with tokens := a.tokens - 1 } r :=
  if_neg (Nat.pos_iff_ne_zero.mp h)

theorem Alike.handle (h : Alike scheme a b) (hpos : 0 < a.tokens) (r : Request) :
    (a.handle scheme r).1 = (b.handle scheme r).1 ∧
      Alike scheme (a.handle scheme r).2 (b.handle scheme r).2 := by
  rw [handle_of_pos hpos, handle_of_pos (hpos.trans_le h.tokens)]
  have hpaid : Alike scheme { a with tokens := a.tokens - 1 } { b with tokens := b.tokens - 1 } :=
    ⟨h.storedSet, h.have_, h.frontier, Nat.sub_le_sub_right h.tokens 1, h.burst⟩
  exact hpaid.serve r

theorem Alike.refill (h : Alike scheme a b) (n : Nat) : Alike scheme (a.refill n) (b.refill n) := by
  refine ⟨h.storedSet, h.have_, h.frontier, ?_, h.burst⟩
  have := h.tokens
  have := h.burst
  show min a.burst (a.tokens + n) ≤ min b.burst (b.tokens + n)
  omega

/-! ## What stays true of the account -/

/-- What an accepted export says, by its signed payload. -/
structure Tells (x : Export) : Prop where
  fits : x.vv.Fits
  payload : ∃ parsed content, parseSigningPayload x.blob.signingPayload = .ok parsed ∧
    parsed.uuid = x.uuid ∧
    parsed.content = some content ∧ content.vvBytes = x.vv.toBytes

theorem Alike.refl (scheme : SignatureScheme) (a : Account) : Alike scheme a a :=
  ⟨rfl, fun _ => rfl, fun _ => .refl _, le_rfl, rfl⟩

theorem Alike.trans {c : Account} (h : Alike scheme a b) (h' : Alike scheme b c) : Alike scheme a c :=
  ⟨h.storedSet.trans h'.storedSet, fun u => (h.have_ u).trans (h'.have_ u),
    fun u => (h.frontier u).trans (h'.frontier u), h.tokens.trans h'.tokens, h.burst.trans h'.burst⟩

theorem Alike.paid (scheme : SignatureScheme) (a : Account) :
    Alike scheme { a with tokens := a.tokens - 1 } a :=
  ⟨rfl, fun _ => rfl, fun _ => .refl _, Nat.sub_le _ _, rfl⟩

theorem storedSet_eq_none : a.storedSet scheme = none ↔ a.writerSet = none := Option.map_eq_none_iff

/-- The Writer-Set that is stored is the newest there was. -/
def NewestSet (scheme : SignatureScheme) (a : Account) (sets : List SealedWriterSet) : Prop :=
  a.writerSet = none ∧ sets = [] ∨
    ∃ held, a.storedSet scheme = some (.ok held) ∧ ∀ ws ∈ sets, ws = held ∨ Newer ws held

theorem NewestSet.congr {sets : List SealedWriterSet} (h : NewestSet scheme a sets)
    (hset : b.storedSet scheme = a.storedSet scheme) : NewestSet scheme b sets := by
  rcases h with ⟨hnone, hsets⟩ | ⟨held, hheld, hsets⟩
  · exact .inl ⟨storedSet_eq_none.mp (hset.trans (storedSet_eq_none.mpr hnone)), hsets⟩
  · exact .inr ⟨held, hset.trans hheld, hsets⟩

structure Inv (scheme : SignatureScheme) (w : World) : Prop where
  alike : Alike scheme w.account w.quiet
  antichain : ∀ u, Antichain ((w.account.frontier u).map Prod.fst)
  covered : ∀ x ∈ w.accepted, ∃ s ∈ w.account.frontier x.uuid, x.vv ≤ s.1
  served : ∀ u, ∀ s ∈ w.account.frontier u,
    ∃ x ∈ w.accepted, x.uuid = u ∧ x.vv = s.1 ∧ x.blob.projection = s.2
  tells : ∀ x ∈ w.accepted, Tells x
  sets : NewestSet scheme w.account w.sets

/-- A request that leaves the records in place keeps the invariant and what enforcement is for. -/
theorem Inv.of_perm {w : World} (h : Inv scheme w) (w' : World) (ev : Event)
    (halike : Alike scheme w'.account w'.quiet)
    (hperm : ∀ u, (w'.account.frontier u).Perm (w.account.frontier u))
    (hacc : w'.accepted = w.accepted) (hsets : NewestSet scheme w'.account w'.sets)
    (hev : ∀ x, ev ≠ .memberPut x) : Inv scheme w' ∧ Enforced scheme w w' ev := by
  have hinv : Inv scheme w' := by
    refine ⟨halike, fun u => ?_, fun x hx => ?_, fun u s hs => ?_,
      fun x hx => h.tells x (hacc ▸ hx), hsets⟩
    · exact ((hperm u).map Prod.fst).symm.pairwise (h.antichain u) fun hxy => hxy.symm
    · obtain ⟨s, hs, hle⟩ := h.covered x (hacc ▸ hx)
      exact ⟨s, (hperm x.uuid).mem_iff.mpr hs, hle⟩
    · obtain ⟨x, hx, hxs⟩ := h.served u s ((hperm u).mem_iff.mp hs)
      exact ⟨x, hacc ▸ hx, hxs⟩
  exact ⟨hinv, fun u s hs => .inl ((hperm u).mem_iff.mpr hs), hinv.served,
    fun x hx => absurd hx (hev x)⟩

/-! ### Putting a record -/

/-- A record that is stored. -/
structure Stores (scheme : SignatureScheme) (a a' : Account) (u : Uuid) (vv : VersionVector)
    (f : FramedBlob) : Prop where
  set : ∃ ws, a.storedSet scheme = some (.ok ws) ∧ Checked scheme ws u vv f ∧
    verifyRecordTrailer scheme ws.set (frame f) = .ok f.writerPubkey
  blob : f.Fits ∧ 16 ≤ f.projection.length
  eq : a' = storeRecord { a with tokens := a.tokens - 1 } u vv f.projection

theorem Stores.frontier {a' : Account} {f : FramedBlob} (h : Stores scheme a a' u vv f) (u' : Uuid) :
    a'.frontier u' = if u' = u then addNewest (a.frontier u) vv f.projection else a.frontier u' := by
  rw [h.eq]
  exact frontier_storeRecord

/-- `PUT record` is refused, or stores what it checked. -/
theorem handle_putRecord (scheme : SignatureScheme) (a : Account) (u : Uuid) (vvHeader body : Bytes) :
    (∃ reply, reply ≠ .ok ∧ (a.handle scheme (.putRecord u vvHeader body)).1 = reply ∧
      Alike scheme (a.handle scheme (.putRecord u vvHeader body)).2 a) ∨
    (a.handle scheme (.putRecord u vvHeader body)).1 = .ok ∧
      ∃ vv f, VersionVector.fromBytes vvHeader = .ok vv ∧ body = frame f ∧
        Stores scheme a (a.handle scheme (.putRecord u vvHeader body)).2 u vv f := by
  by_cases htok : a.tokens = 0
  · rw [handle, if_pos htok]
    exact .inl ⟨⟨429, "rate limit exceeded"⟩, by decide, rfl, .refl _ _⟩
  rw [handle_of_pos (Nat.pos_iff_ne_zero.mpr htok)]
  cases hc : checkRecord scheme (a.storedSet scheme) u vvHeader body with
  | error reply =>
    have hserve : serve scheme { a with tokens := a.tokens - 1 } (.putRecord u vvHeader body) =
        (reply, { a with tokens := a.tokens - 1 }) := serve_putRecord_error hc
    rw [hserve]
    exact .inl ⟨reply, checkRecord_error hc, rfl, .paid scheme a⟩
  | ok p =>
    obtain ⟨vv, projection⟩ := p
    obtain ⟨hvv, ws, f, hws, rfl, hfit, h16, rfl, hchecked, hver⟩ := checkRecord_eq_ok hc
    have hserve : serve scheme { a with tokens := a.tokens - 1 } (.putRecord u vvHeader (frame f)) =
        (.ok, storeRecord { a with tokens := a.tokens - 1 } u vv f.projection) := serve_putRecord_ok hc
    rw [hserve]
    exact .inr ⟨rfl, vv, f, hvv, rfl, ⟨ws, hws, hchecked, hver⟩, ⟨hfit, h16⟩, rfl⟩

section

variable {w : World}

/-- A replay of what was accepted changes nothing: it is stale, or it is the record that is
there. -/
theorem Inv.replay (h : Inv scheme w) {a' : Account} {f : FramedBlob}
    (hst : Stores scheme w.account a' u vv f) (hfits : vv.Fits)
    (hunf : ∃ x ∈ w.accepted, x.blob.signingPayload = f.signingPayload)
    (hsame : ∀ s ∈ w.account.frontier u, s.1.toBytes = vv.toBytes → s.2 = f.projection) :
    Alike scheme a' w.account := by
  obtain ⟨x, hx, hpay⟩ := hunf
  obtain ⟨ws, -, ⟨-, -, parsed, content, hparsed, hu, hcontent, hbytes⟩, -⟩ := hst.set
  obtain ⟨hxfits, parsed', content', hparsed', hxu, hcontent', hxbytes⟩ := h.tells x hx
  rw [hpay] at hparsed'
  cases hparsed.symm.trans hparsed'
  cases hcontent.symm.trans hcontent'
  have hxvv : x.vv = vv := by
    have h₁ := fromBytes_eq_ok_iff.mpr ⟨hxfits, rfl⟩
    have h₂ := fromBytes_eq_ok_iff.mpr ⟨hfits, rfl⟩
    rw [← hxbytes, hbytes, h₂] at h₁
    exact (Except.ok.inj h₁).symm
  have hperm : (addNewest (w.account.frontier u) vv f.projection).Perm (w.account.frontier u) := by
    obtain ⟨s, hs, hle⟩ := h.covered x hx
    rw [← hxu, hu] at hs
    rw [hxvv] at hle
    by_cases heq : s.1 = vv
    · have : s = (vv, f.projection) := Prod.ext heq (hsame s hs (congrArg _ heq))
      exact addNewest_self (h.antichain u) (this ▸ hs)
    · rw [addNewest_of_stale ⟨s, hs, lt_of_le_of_ne hle fun h => heq h.symm⟩]
  refine ⟨?_, fun u' => ?_, fun u' => ?_, ?_, ?_⟩
  · rw [hst.eq]
    rfl
  · rw [hst.eq]
    rfl
  · rw [hst.frontier]
    split
    · rename_i hu'
      exact hu' ▸ hperm
    · exact .refl _
  · rw [hst.eq]
    exact Nat.sub_le _ _
  · rw [hst.eq]
    rfl

/-! ### The other requests -/

theorem syncErr_ne_ok (e : AtRest.SyncError) : syncErr e ≠ .ok := by
  intro h
  cases e with
  | writerSetDowngrade msg => exact absurd (show 409 = 200 from congrArg Reply.status h) (by decide)
  | io msg => exact absurd (show 500 = 200 from congrArg Reply.status h) (by decide)

/-- `PUT writerset` is refused, or replaces a set of the same owner that is not newer. -/
theorem handle_putWriterSet (scheme : SignatureScheme) (a : Account) (blob : Bytes) :
    (∃ reply, reply ≠ .ok ∧ (a.handle scheme (.putWriterSet blob)).1 = reply ∧
      Alike scheme (a.handle scheme (.putWriterSet blob)).2 a) ∨
    (a.handle scheme (.putWriterSet blob)).1 = .ok ∧
      (a.handle scheme (.putWriterSet blob)).2 =
        { a with tokens := a.tokens - 1, writerSet := some blob } ∧
      ∃ ws, openBlob scheme blob = .ok ws ∧
        (a.writerSet = none ∨ ∃ held, a.storedSet scheme = some (.ok held) ∧
        ws.ownerPubkey = held.ownerPubkey ∧ ¬ Newer ws held) := by
  by_cases htok : a.tokens = 0
  · rw [handle, if_pos htok]
    exact .inl ⟨⟨429, "rate limit exceeded"⟩, by decide, rfl, .refl _ _⟩
  rw [handle_of_pos (Nat.pos_iff_ne_zero.mpr htok)]
  unfold serve
  dsimp only
  by_cases hlen : maxBodyBytes < blob.length
  · rw [if_pos hlen]
    exact .inl ⟨⟨413, "body too large"⟩, by decide, rfl, .paid scheme a⟩
  rw [if_neg hlen]
  cases hput : AtRest.putWriterSet scheme a.writerSet blob with
  | error e => exact .inl ⟨syncErr e, syncErr_ne_ok e, rfl, .paid scheme a⟩
  | ok stored =>
    obtain ⟨rfl, ws, hopen, hstored⟩ := putWriterSet_eq_ok.mp hput
    refine .inr ⟨rfl, rfl, ws, hopen, hstored.imp_right ?_⟩
    rintro ⟨bytes, held, hbytes, hheld, howner, hnot⟩
    refine ⟨held, ?_, howner, hnot⟩
    rw [Account.storedSet, hbytes, Option.map_some, hheld]

theorem join_of_dominates {a b : VersionVector} (h : a.dominates b = true) : a.join b = a :=
  ext_get fun k => by
    rw [get_join]
    exact max_eq_left (dominates_iff.mp h k)

/-- The adversary's requests leave the account as it is. -/
theorem Inv.adversary (h : Inv scheme w) (r : Request) (hunf : Unforged scheme w r)
    (hharm : Harmless scheme w r) : Alike scheme (w.account.handle scheme r).2 w.account := by
  cases r with
  | putRecord u vvHeader body =>
    rcases handle_putRecord scheme w.account u vvHeader body with ⟨-, -, -, halike⟩ |
      ⟨-, vv, f, hvv, rfl, hst⟩
    · exact halike
    · obtain ⟨hfits, rfl⟩ := fromBytes_eq_ok_iff.mp hvv
      obtain ⟨ws, hws, hchecked, hver⟩ := hst.set
      have hparse := (parseFramedBlob_frame hst.blob.1).2.2 hst.blob.2
      exact h.replay hst hfits (hunf f ws hparse hws hchecked.member hchecked.signed)
        (hharm f ws hparse hws hver)
  | putVv u body =>
    by_cases htok : w.account.tokens = 0
    · rw [handle, if_pos htok]
      exact .refl _ _
    rw [handle_of_pos (Nat.pos_iff_ne_zero.mpr htok)]
    unfold serve
    dsimp only
    cases hvv : VersionVector.fromBytes body with
    | error e => exact .paid scheme w.account
    | ok vv =>
      refine ⟨rfl, fun u' => ?_, fun _ => .refl _, Nat.sub_le _ _, rfl⟩
      rw [have_setVv]
      split
      · rename_i hu
        subst hu
        exact join_of_dominates (hharm vv hvv)
      · rfl
  | putWriterSet blob =>
    rcases handle_putWriterSet scheme w.account blob with ⟨-, -, -, halike⟩ |
      ⟨-, heq, ws, hopen, hnone | ⟨held, hheld, howner, hnot⟩⟩
    · exact halike
    · exact absurd hopen (hharm hnone ws)
    have hws : ws = held := by
      rcases h.sets with ⟨hno, -⟩ | ⟨held', hheld', hsets⟩
      · rw [storedSet_eq_none.mpr hno] at hheld
        cases hheld
      · cases hheld.symm.trans hheld'
        exact (hsets ws (hunf ws held hopen hheld howner)).resolve_right hnot
    subst hws
    rw [heq]
    refine ⟨?_, fun _ => rfl, fun _ => .refl _, Nat.sub_le _ _, rfl⟩
    rw [hheld, Account.storedSet, Option.map_some, hopen]
  | other =>
    by_cases htok : w.account.tokens = 0
    · rw [handle, if_pos htok]
      exact .refl _ _
    · rw [handle_of_pos (Nat.pos_iff_ne_zero.mpr htok)]
      exact .paid scheme w.account

/-! ### Steps -/

theorem Inv.memberVv (h : Inv scheme w) (hpos : 0 < w.account.tokens) (x : Export) :
    Inv scheme (w.step scheme (.memberVv x)) ∧
      Enforced scheme w (w.step scheme (.memberVv x)) (.memberVv x) := by
  have hframe : (w.account.handle scheme x.putVv).2.storedSet scheme = w.account.storedSet scheme ∧
      ∀ u, (w.account.handle scheme x.putVv).2.frontier u = w.account.frontier u := by
    rw [handle_of_pos hpos]
    unfold Export.putVv serve
    dsimp only
    cases VersionVector.fromBytes x.vv.toBytes with
    | error e => exact ⟨rfl, fun _ => rfl⟩
    | ok vv => exact ⟨rfl, fun _ => rfl⟩
  exact h.of_perm (w.step scheme (.memberVv x)) _ (h.alike.handle hpos _).2
    (fun u => .of_eq (hframe.2 u)) rfl (h.sets.congr hframe.1) fun _ => nofun

theorem Inv.memberSet (h : Inv scheme w) (hpos : 0 < w.account.tokens)
    (hline : ∀ ws, openBlob scheme blob = .ok ws → ws ∈ w.sets ∨ ∀ old ∈ w.sets, Newer old ws) :
    Inv scheme (w.step scheme (.memberSet blob)) ∧
      Enforced scheme w (w.step scheme (.memberSet blob)) (.memberSet blob) := by
  have halike := (h.alike.handle hpos (.putWriterSet blob)).2
  rcases handle_putWriterSet scheme w.account blob with
    ⟨reply, hne, hreply, hsame⟩ | ⟨hok, heq, ws, hopen, hstored⟩
  · refine h.of_perm (w.step scheme (.memberSet blob)) _ halike hsame.frontier rfl ?_ fun _ => nofun
    show NewestSet scheme _ (if (w.account.handle scheme (.putWriterSet blob)).1 = .ok then _ else _)
    rw [if_neg (hreply ▸ hne)]
    exact h.sets.congr hsame.storedSet
  have hacc : (w.step scheme (.memberSet blob)).account = _ := heq
  refine h.of_perm (w.step scheme (.memberSet blob)) _ halike
    (fun u => .of_eq (by rw [hacc]; rfl)) rfl ?_ fun _ => nofun
  show NewestSet scheme (w.account.handle scheme (.putWriterSet blob)).2
    (if (w.account.handle scheme (.putWriterSet blob)).1 = .ok then _ else _)
  rw [if_pos hok, heq, hopen]
  refine .inr ⟨ws, by rw [Account.storedSet, Option.map_some, hopen], fun v hv => ?_⟩
  rcases mem_cons.mp (show v ∈ ws :: w.sets from hv) with rfl | hv
  · exact .inl rfl
  rcases hline ws hopen with hmem | hnew
  · -- A set that was stored before is the one that is stored, since it is not older.
    rcases h.sets with ⟨-, hnil⟩ | ⟨held, hheld, hsets⟩
    · rw [hnil] at hmem
      cases hmem
    rcases hstored with hnone | ⟨held', hheld', -, hnot⟩
    · rw [storedSet_eq_none.mpr hnone] at hheld
      cases hheld
    · cases hheld.symm.trans hheld'
      obtain rfl := (hsets ws hmem).resolve_right hnot
      exact hsets v hv
  · exact .inr (hnew v hv)

theorem Inv.memberPut (h : Inv scheme w) (x : Export) (hpos : 0 < w.account.tokens)
    (hvv : x.vv.Fits) (hblob : x.blob.Fits) :
    Inv scheme (w.step scheme (.memberPut x)) ∧
      Enforced scheme w (w.step scheme (.memberPut x)) (.memberPut x) := by
  obtain ⟨hreplies, halike⟩ := h.alike.handle hpos x.put
  have hskip : x.skipped w.account = x.skipped w.quiet := by
    rw [Export.skipped, Export.skipped, h.alike.have_]
  have hunhindered : ∀ y, Event.memberPut x = .memberPut y → y.skipped w.account = y.skipped w.quiet ∧
      (w.account.handle scheme y.put).1 = (w.quiet.handle scheme y.put).1 ∧
      ((w.step scheme (.memberPut x)).account.frontier y.uuid).Perm
        ((w.step scheme (.memberPut x)).quiet.frontier y.uuid) := by
    rintro y ⟨⟩
    exact ⟨hskip, hreplies, halike.frontier x.uuid⟩
  rcases handle_putRecord scheme w.account x.uuid x.vv.toBytes (frame x.blob) with
    ⟨reply, hne, hreply, hsame⟩ | ⟨hok, vv, f, hfrom, hframe, hst⟩
  · have hacc : (w.step scheme (.memberPut x)).accepted = w.accepted := if_neg (hreply ▸ hne)
    obtain ⟨hinv, henf⟩ := h.of_perm (w.step scheme (.memberPut x))
      (.refill 0) halike hsame.frontier hacc (h.sets.congr hsame.storedSet) fun _ => nofun
    exact ⟨hinv, fun u s hs => .inl ((hsame.frontier u).mem_iff.mpr hs), henf.served, hunhindered⟩
  obtain rfl : vv = x.vv := Except.ok.inj (hfrom.symm.trans (fromBytes_eq_ok_iff.mpr ⟨hvv, rfl⟩))
  obtain rfl : f = x.blob := frame_injective hst.blob.1 hblob hst.blob.2 hframe.symm
  have hacc : (w.step scheme (.memberPut x)).accepted = x :: w.accepted := if_pos hok
  obtain ⟨ws, hws, hchecked, -⟩ := hst.set
  have hself : (w.step scheme (.memberPut x)).account.frontier x.uuid =
      addNewest (w.account.frontier x.uuid) x.vv x.blob.projection :=
    (hst.frontier x.uuid).trans (if_pos rfl)
  have hother : ∀ u, u ≠ x.uuid →
      (w.step scheme (.memberPut x)).account.frontier u = w.account.frontier u := fun u hu =>
    (hst.frontier u).trans (if_neg hu)
  have hserved : ∀ u, ∀ s ∈ (w.step scheme (.memberPut x)).account.frontier u,
    ∃ y ∈ (w.step scheme (.memberPut x)).accepted,
    y.uuid = u ∧ y.vv = s.1 ∧ y.blob.projection = s.2 := by
    intro u s hs
    rw [hacc]
    have hold : s ∈ w.account.frontier u →
        ∃ y ∈ x :: w.accepted, y.uuid = u ∧ y.vv = s.1 ∧ y.blob.projection = s.2 := fun hs =>
      (h.served u s hs).imp fun y hy => ⟨.tail _ hy.1, hy.2⟩
    by_cases hu : u = x.uuid
    · subst hu
      rw [hself] at hs
      rcases mem_addNewest hs with hs | rfl
      · exact hold hs
      · exact ⟨x, .head _, rfl, rfl, rfl⟩
    · exact hold (hother u hu ▸ hs)
  refine ⟨⟨halike, fun u => ?_, fun y hy => ?_, hserved, fun y hy => ?_, ?_⟩, fun u s hs => ?_,
    hserved, hunhindered⟩
  · by_cases hu : u = x.uuid
    · subst hu
      rw [hself]
      exact antichain_addNewest (h.antichain x.uuid)
    · rw [hother u hu]
      exact h.antichain u
  · -- Whatever was accepted is still covered: the new record covers itself and what it displaced.
    have hcov : ∀ v, v = x.vv ∨ (∃ s ∈ w.account.frontier x.uuid, v ≤ s.1) →
        ∃ s ∈ addNewest (w.account.frontier x.uuid) x.vv x.blob.projection, v ≤ s.1 := by
      intro v hv
      have : ∃ v' ∈ x.vv :: (w.account.frontier x.uuid).map Prod.fst, v ≤ v' := by
        rcases hv with rfl | ⟨s, hs, hle⟩
        · exact ⟨_, .head _, le_rfl⟩
        · exact ⟨s.1, .tail _ (mem_map_of_mem hs), hle⟩
      obtain ⟨v', hv', hle⟩ := this
      obtain ⟨t, ht, hle'⟩ := covers_addNewest (b := x.blob.projection) v' hv'
      obtain ⟨s, hs, rfl⟩ := mem_map.mp ht
      exact ⟨s, hs, hle.trans hle'⟩
    rw [hacc] at hy
    by_cases hu : y.uuid = x.uuid
    · rw [hu, hself]
      refine hcov y.vv ?_
      rcases mem_cons.mp hy with rfl | hy
      · exact .inl rfl
      · exact .inr (hu ▸ h.covered y hy)
    · rw [hother _ hu]
      rcases mem_cons.mp hy with rfl | hy
      · exact absurd rfl hu
      · exact h.covered y hy
  · rw [hacc] at hy
    rcases mem_cons.mp hy with rfl | hy
    · exact ⟨hvv, hchecked.payload⟩
    · exact h.tells y hy
  · refine h.sets.congr ?_
    show (w.account.handle scheme x.put).2.storedSet scheme = _
    rw [show (w.account.handle scheme x.put).2 = _ from hst.eq]
    rfl
  · by_cases hu : u = x.uuid
    · subst hu
      rw [hself]
      exact (mem_addNewest_of_mem hs).imp_right fun ⟨hle, hmem⟩ =>
        ⟨x, ws, rfl, rfl, hle, hmem, hws, hchecked⟩
    · exact .inl ((hother u hu).symm ▸ hs)

theorem Inv.step (h : Inv scheme w) (ev : Event) (hfair : Fair scheme w ev) :
    Inv scheme (w.step scheme ev) ∧ Enforced scheme w (w.step scheme ev) ev := by
  cases ev with
  | memberPut x => exact h.memberPut x hfair.1 hfair.2.1 hfair.2.2
  | memberVv x => exact h.memberVv hfair x
  | memberSet blob => exact h.memberSet hfair.1 hfair.2
  | adversary r =>
    have ha := h.adversary r hfair.1 hfair.2
    exact h.of_perm (w.step scheme (.adversary r)) _ (ha.trans h.alike) ha.frontier rfl
      (h.sets.congr ha.storedSet) fun _ => nofun
  | refill n =>
    exact h.of_perm (w.step scheme (.refill n)) _ (h.alike.refill n) (fun _ => .refl _) rfl
      (h.sets.congr rfl) fun _ => nofun

theorem Inv.fresh (scheme : SignatureScheme) (tokens burst : Nat) : Inv scheme (.fresh tokens burst) :=
  ⟨.refl _ _, fun _ => .nil, fun _ => nofun, fun _ _ => nofun, fun _ => nofun, .inl ⟨rfl, rfl⟩⟩

end

end

/-- For every sequence of members' and adversary's requests: as long as the adversary replays a
record only with the bytes that are stored for its version, raises no vector, does not put the first
Writer-Set and leaves the members their share of the rate limit, no record gives way but to a
member's own of the same or a newer version, what is served was exported by a member, and every push
of a member is skipped, refused or stored as if the adversary were not there. -/
theorem enforcement_holds (scheme : SignatureScheme) (tokens burst : Nat) {events : List Event}
    (hfair : Along (World.step scheme) (Fair scheme) (.fresh tokens burst) events) :
    Along (World.step scheme) (fun w ev => Enforced scheme w (w.step scheme ev) ev)
      (.fresh tokens burst) events :=
  along_of_inv (fun _ ev hinv hf => hinv.step ev hf) (Inv.fresh scheme tokens burst) hfair

/-! ## Whoever sends the requests -/

/-- A request, or time that passes. -/
def Account.input (scheme : SignatureScheme) (a : Account) : Request ⊕ Nat → Account
  | .inl r => (a.handle scheme r).2
  | .inr n => a.refill n

/-- Only `PUT record` brings a record, and the server has checked it. -/
theorem mem_frontier_input {scheme : SignatureScheme} {a : Account} {i : Request ⊕ Nat} {u : Uuid}
    {s : VersionVector × Bytes} (hs : s ∈ (a.input scheme i).frontier u) :
    s ∈ a.frontier u ∨ ∃ hdr f ws, i = .inl (.putRecord u hdr (frame f)) ∧
      a.storedSet scheme = some (.ok ws) ∧ Checked scheme ws u s.1 f ∧ f.projection = s.2 := by
  rcases i with (⟨u', hdr, body⟩ | ⟨u', body⟩ | blob | _) | n
  · rcases handle_putRecord scheme a u' hdr body with ⟨_, -, -, h⟩ | ⟨-, vv, f, -, rfl, h⟩
    · exact .inl ((h.frontier u).mem_iff.mp hs)
    · rw [Account.input, h.frontier] at hs
      split_ifs at hs with hu
      · subst hu
        rcases mem_addNewest hs with hold | rfl
        · exact .inl hold
        · obtain ⟨ws, hset, hchecked, -⟩ := h.set
          exact .inr ⟨hdr, f, ws, rfl, hset, hchecked, rfl⟩
      · exact .inl hs
  · left
    unfold Account.input Account.handle Account.serve at hs
    dsimp only at hs
    split_ifs at hs
    · exact hs
    · cases hvv : fromBytes body <;> rw [hvv] at hs <;> exact hs
  · left
    rcases handle_putWriterSet scheme a blob with ⟨_, -, -, h⟩ | ⟨-, heq, -⟩
    · exact (h.frontier u).mem_iff.mp hs
    · rwa [Account.input, heq] at hs
  · left
    unfold Account.input Account.handle at hs
    dsimp only at hs
    split_ifs at hs <;> exact hs
  · exact .inl hs

/-- Whoever sends the requests: a record that is kept was put while its writer was in the Writer-Set
that was stored, and signed for the unit and the vector it is kept under. -/
theorem kept_record_signed (scheme : SignatureScheme) (tokens burst : Nat)
    (ins : List (Request ⊕ Nat)) (u : Uuid) (s : VersionVector × Bytes)
    (hs : s ∈ (run (Account.input scheme) (.fresh tokens burst) ins).frontier u) :
    ∃ pre hdr f post ws, ins = pre ++ .inl (.putRecord u hdr (frame f)) :: post ∧
      (run (Account.input scheme) (.fresh tokens burst) pre).storedSet scheme = some (.ok ws) ∧
      Checked scheme ws u s.1 f ∧ f.projection = s.2 := by
  induction ins using List.reverseRecOn with
  | nil => exact absurd hs not_mem_nil
  | append_singleton ins i ih =>
    rw [run_append, run_cons, run_nil] at hs
    rcases mem_frontier_input hs with hold | ⟨hdr, f, ws, rfl, h⟩
    · obtain ⟨pre, hdr, f, post, ws, rfl, h⟩ := ih hold
      exact ⟨pre, hdr, f, post ++ [i], ws, by simp, h⟩
    · exact ⟨ins, hdr, f, [], ws, rfl, h⟩

/-! ## A replayed trailer -/

theorem handle_put {scheme : SignatureScheme} {a : Account} {x : Export} {ws : SealedWriterSet}
    (hpos : 0 < a.tokens) (hset : a.storedSet scheme = some (.ok ws))
    (hc : Checked scheme ws x.uuid x.vv x.blob) (hvv : x.vv.Fits) (hfit : x.blob.Fits)
    (h16 : 16 ≤ x.blob.projection.length) (hu : uuidOf x.blob.projection = x.uuid)
    (hlen : (frame x.blob).length ≤ maxBodyBytes) :
    a.handle scheme x.put =
      (.ok, storeRecord { a with tokens := a.tokens - 1 } x.uuid x.vv x.blob.projection) := by
  rw [handle_of_pos hpos]
  have hcheck : checkRecord scheme (a.storedSet scheme) x.uuid x.vv.toBytes (frame x.blob) =
      .ok (x.vv, x.blob.projection) := by
    rw [hset, checkRecord_frame hc hvv hfit h16 hu hlen]
  exact serve_putRecord_ok hcheck

section

open AtRest (keyScheme keyOf sampleSet ownerBlob)

def first : VersionVector := VersionVector.new.bump 2

theorem first_fits : first.Fits := ⟨by decide, by decide⟩

/-- A file of one byte. -/
def file : Record Bytes := ⟨some ⟨[⟨packDot 2 1, some [0]⟩], first, 12, 1, []⟩, none, [], none, none⟩

/-- What the writer with key 9 signed for it, with a projection that ends in `b`. -/
def pushOf (b : UInt8) : Export :=
  ⟨5, first, uuidBytes 5 ++ [b], keyOf 9, arr 64 (keyOf 9).toList, signingPayload 5 file⟩

theorem file_travels : RecordTravels file := by
  refine ⟨?_, fun _ => nofun⟩
  rintro s ⟨⟩
  exact ⟨by decide, by decide, first_fits, by decide, by decide⟩

theorem pushOf_checked (b : UInt8) : Checked keyScheme sampleSet 5 first (pushOf b).blob where
  member := mem_cons_of_mem _ (.head _)
  signed := by simp [keyScheme, pushOf]
  payload := ⟨_, _, parseSigningPayload_eq file_travels, rfl, rfl, rfl⟩

theorem length_pushOf (b : UInt8) : (pushOf b).blob.projection.length = 17 := by
  simp [pushOf, uuidBytes]

theorem length_file_payload : (signingPayload 5 file).length < 100 := by decide

theorem pushOf_fits (b : UInt8) : (pushOf b).blob.Fits :=
  ⟨by rw [length_pushOf]; decide, length_file_payload.trans (by decide)⟩

theorem handle_pushOf {a : Account} (b : UInt8) (hpos : 0 < a.tokens)
    (hset : a.storedSet keyScheme = some (.ok sampleSet)) :
    a.handle keyScheme (pushOf b).put =
      (.ok, storeRecord { a with tokens := a.tokens - 1 } 5 first (uuidBytes 5 ++ [b])) := by
  refine handle_put hpos hset (pushOf_checked b) first_fits (pushOf_fits b) ?_
    (uuidOf_uuidBytes 5 [b]) ?_
  · rw [length_pushOf]
    decide
  · have hpay : (pushOf b).blob.signingPayload.length < 100 := length_file_payload
    rw [length_frame, length_pushOf]
    exact le_trans (by omega) (show 300 ≤ maxBodyBytes by decide)

/-- An account with nothing but a Writer-Set. -/
def governedBy (blob : Bytes) (tokens : Nat) : Account := ⟨some blob, .empty, .empty, tokens, 10⟩

/-- The first set that is put is stored, whoever its owner is. -/
theorem handle_firstSet {scheme : SignatureScheme} {sk : SigningKey} {ws : SealedWriterSet}
    (hopen : openBlob scheme (sealBlob scheme sk ws) = .ok ws)
    (hlen : ws.set.writers.length + ws.set.removed.length < 100) (tokens : Nat) :
    (fresh (tokens + 1) 10).handle scheme (.putWriterSet (sealBlob scheme sk ws)) =
      (.ok, governedBy (sealBlob scheme sk ws) tokens) := by
  have hsize : ¬ maxBodyBytes < (sealBlob scheme sk ws).length := by
    rw [sealBlob, length_append, length_signingBytes, Vector.length_toList]
    unfold maxBodyBytes
    omega
  have hput : AtRest.putWriterSet scheme (fresh (tokens + 1) 10).writerSet (sealBlob scheme sk ws) =
      .ok _ :=
    putWriterSet_eq_ok.mpr ⟨rfl, ws, hopen, .inl rfl⟩
  rw [handle_of_pos (Nat.succ_pos tokens)]
  unfold serve
  dsimp only
  rw [if_neg hsize, hput]
  rfl

theorem open_sampleSet : openBlob keyScheme (ownerBlob sampleSet) = .ok sampleSet :=
  open_ownerBlob rfl sampleSet_fits

def governed (tokens : Nat) : Account := governedBy (ownerBlob sampleSet) tokens

theorem governed_storedSet (tokens : Nat) :
    (governed tokens).storedSet keyScheme = some (.ok sampleSet) :=
  congrArg some open_sampleSet

theorem step_memberSet (tokens : Nat) :
    (World.fresh (tokens + 1) 10).step keyScheme (.memberSet (ownerBlob sampleSet)) =
    ⟨governed tokens, governed tokens, [], [sampleSet]⟩ := by
  have hhandle : (fresh (tokens + 1) 10).handle keyScheme (.putWriterSet (ownerBlob sampleSet)) =
      (.ok, governed tokens) :=
    handle_firstSet open_sampleSet (by decide) tokens
  unfold World.step World.both World.fresh
  dsimp only
  rw [hhandle, open_sampleSet]
  rfl

/-- The account after the push of the file. -/
def pushed : Account := storeRecord (governed 8) 5 first (uuidBytes 5 ++ [1])

theorem step_memberPut :
    World.step keyScheme ⟨governed 9, governed 9, [], [sampleSet]⟩ (.memberPut (pushOf 1)) =
    ⟨pushed, pushed, [pushOf 1], [sampleSet]⟩ := by
  unfold World.step World.both
  dsimp only
  rw [handle_pushOf 1 (by decide) (governed_storedSet 9)]
  rfl

theorem pushed_frontier : pushed.frontier 5 = [(first, uuidBytes 5 ++ [1])] := by
  rfl

/-- The file is kept after its push, and the push is the request that signed it. -/
theorem kept_record_signed_pushed :
    ∃ pre hdr f post ws, [.inl (.putWriterSet (ownerBlob sampleSet)), .inl (pushOf 1).put] =
        pre ++ Sum.inl (.putRecord 5 hdr (frame f)) :: post ∧
      (run (Account.input keyScheme) (.fresh 10 10) pre).storedSet keyScheme = some (.ok ws) ∧
      Checked keyScheme ws 5 first f ∧ f.projection = uuidBytes 5 ++ [1] := by
  refine kept_record_signed keyScheme 10 10 _ 5 (first, uuidBytes 5 ++ [1]) ?_
  have hset : (fresh 10 10).handle keyScheme (.putWriterSet (ownerBlob sampleSet)) =
      (.ok, governed 9) := handle_firstSet open_sampleSet (by decide) 9
  rw [run_cons, run_cons, run_nil, Account.input, Account.input, hset,
    handle_pushOf 1 (by decide) (governed_storedSet 9)]
  exact pushed_frontier ▸ .head _

/-- The push is replayed as it was. -/
theorem enforcement_holds_replay :
    Along (World.step keyScheme) (fun w ev => Enforced keyScheme w (w.step keyScheme ev) ev)
      (.fresh 10 10)
      [.memberSet (ownerBlob sampleSet), .memberPut (pushOf 1), .adversary (pushOf 1).put] := by
  refine enforcement_holds keyScheme 10 10 ?_
  rw [along_cons (step_memberSet 9), along_cons step_memberPut]
  have hparse : parseFramedBlob (frame (pushOf 1).blob) = .ok (pushOf 1).blob :=
    (parseFramedBlob_frame (pushOf_fits 1)).2.2 (by rw [length_pushOf]; decide)
  refine ⟨⟨by decide, fun _ _ => .inr fun _ => nofun⟩, ⟨by decide, first_fits, pushOf_fits 1⟩,
    ⟨?_, ?_⟩, trivial⟩
  · intro f ws hf _ _ _
    cases hparse.symm.trans hf
    exact ⟨pushOf 1, .head _, rfl⟩
  intro f ws hf _ _ s hs _
  cases hparse.symm.trans hf
  change s ∈ pushed.frontier 5 at hs
  cases mem_singleton.mp hs
  rfl

theorem account_adversary {scheme : SignatureScheme} {w : World} {r : Request} :
    (w.step scheme (.adversary r)).account = (w.account.handle scheme r).2 := rfl

/-- A set of the adversary's own. -/
def foreign : SealedWriterSet := ⟨1, 0, keyOf 66, [keyOf 66], []⟩

def foreignBlob : Bytes := sealBlob keyScheme (keyOf 66) foreign

theorem open_foreign : openBlob keyScheme foreignBlob = .ok foreign :=
  openBlob_sealBlob keyScheme_complete rfl (by constructor <;> decide)

theorem step_foreignSet : (World.fresh 10 10).step keyScheme (.adversary (.putWriterSet foreignBlob)) =
    ⟨governedBy foreignBlob 9, .fresh 10 10, [], []⟩ := by
  have hhandle : (fresh 10 10).handle keyScheme (.putWriterSet foreignBlob) =
      (.ok, governedBy foreignBlob 9) :=
    handle_firstSet open_foreign (by decide) 9
  unfold World.step World.fresh
  dsimp only
  rw [hhandle]

/-- The owner comes too late. -/
theorem step_memberSet_late : ∃ account sets,
    World.step keyScheme ⟨governedBy foreignBlob 9, .fresh 10 10, [], []⟩
      (.memberSet (ownerBlob sampleSet)) = ⟨account, governed 9, [], sets⟩ ∧
      account.storedSet keyScheme = some (.ok foreign) := by
  have hquiet : (fresh 10 10).handle keyScheme (.putWriterSet (ownerBlob sampleSet)) =
      (.ok, governed 9) :=
    handle_firstSet open_sampleSet (by decide) 9
  have hset : (governedBy foreignBlob 9).storedSet keyScheme = some (.ok foreign) :=
    congrArg some open_foreign
  refine ⟨_, _, by unfold World.step World.both; dsimp only; rw [hquiet], ?_⟩
  obtain ⟨-, -, -, halike⟩ | ⟨-, -, ws, hopen, hnone | ⟨held, hheld, howner, -⟩⟩ :=
    handle_putWriterSet keyScheme (governedBy foreignBlob 9) (ownerBlob sampleSet)
  · exact halike.storedSet.trans hset
  · exact absurd hnone (by simp [governedBy])
  · cases open_sampleSet.symm.trans hopen
    cases hset.symm.trans hheld
    exact absurd howner (by decide)

/-- The trailer of a push with other bytes before it displaces the push; a vector from nowhere makes
the push be skipped; a Writer-Set put before the owner's, and requests that use up the rate limit,
make it be refused. -/
theorem enforcement_evaded :
    ¬ Along (World.step keyScheme) (fun w ev => Enforced keyScheme w (w.step keyScheme ev) ev)
      (.fresh 10 10)
      [.memberSet (ownerBlob sampleSet), .memberPut (pushOf 1), .adversary (pushOf 66).put] ∧
    ¬ Along (World.step keyScheme) (fun w ev => Enforced keyScheme w (w.step keyScheme ev) ev)
      (.fresh 10 10)
      [.memberSet (ownerBlob sampleSet), .adversary (.putVv 5 (first.bump 2).toBytes),
        .memberPut (pushOf 1)] ∧
    ¬ Along (World.step keyScheme) (fun w ev => Enforced keyScheme w (w.step keyScheme ev) ev)
      (.fresh 10 10)
      [.adversary (.putWriterSet foreignBlob), .memberSet (ownerBlob sampleSet),
        .memberPut (pushOf 1)] ∧
    ¬ Along (World.step keyScheme) (fun w ev => Enforced keyScheme w (w.step keyScheme ev) ev)
      (.fresh 2 10)
      [.memberSet (ownerBlob sampleSet), .adversary .other, .memberPut (pushOf 1)] := by
  refine ⟨?_, ?_, ?_, ?_⟩
  · rw [along_cons (step_memberSet 9), along_cons step_memberPut]
    rintro ⟨-, -, henf, -⟩
    have hstored : pushed.handle keyScheme (pushOf 66).put =
        (.ok, storeRecord { pushed with tokens := 7 } 5 first (uuidBytes 5 ++ [66])) :=
      handle_pushOf 66 (by decide) (governed_storedSet 8)
    have hmem : (first, uuidBytes 5 ++ [66]) ∈
        (pushed.handle keyScheme (pushOf 66).put).2.frontier 5 := by
      rw [hstored, frontier_storeRecord, if_pos rfl,
        show Account.frontier { pushed with tokens := 7 } 5 = _ from pushed_frontier]
      refine mem_addNewest_self ?_
      rintro ⟨s, hs, hlt⟩
      cases mem_singleton.mp hs
      exact lt_irrefl _ hlt
    have hserved := henf.served 5 (first, uuidBytes 5 ++ [66])
    rw [account_adversary] at hserved
    obtain ⟨x, hx, -, -, hbytes⟩ := hserved hmem
    cases mem_singleton.mp (show x ∈ [pushOf 1] from hx)
    have := append_cancel_left (show uuidBytes 5 ++ [1] = uuidBytes 5 ++ [66] from hbytes)
    exact absurd this (by decide)
  · rw [along_cons (step_memberSet 9)]
    rintro ⟨-, -, henf, -⟩
    have hfrom : VersionVector.fromBytes (first.bump 2).toBytes = .ok (first.bump 2) :=
      fromBytes_eq_ok_iff.mpr ⟨⟨by decide, by decide⟩, rfl⟩
    have hput : ((governed 9).handle keyScheme (.putVv 5 (first.bump 2).toBytes)).2 =
        (governed 8).setVv 5 (first.bump 2) := by
      rw [handle_of_pos (by decide)]
      unfold serve
      dsimp only
      rfl
    have hskip : (pushOf 1).skipped ((governed 9).handle keyScheme
        (.putVv 5 (first.bump 2).toBytes)).2 = (pushOf 1).skipped (governed 9) :=
      (henf.unhindered (pushOf 1) rfl).1
    exact absurd hskip (by decide)
  · obtain ⟨account, sets, hstep, hset⟩ := step_memberSet_late
    rw [along_cons step_foreignSet, along_cons hstep]
    rintro ⟨-, -, henf, -⟩
    have hquiet : ((governed 9).handle keyScheme (pushOf 1).put).1 = .ok := by
      rw [handle_pushOf 1 (by decide) (governed_storedSet 9)]
    have hreply : (account.handle keyScheme (pushOf 1).put).1 = .ok :=
      (henf.unhindered (pushOf 1) rfl).2.1.trans hquiet
    obtain ⟨reply, hne, hrefused, -⟩ | ⟨-, vv, f, -, hframe, hst⟩ :=
      handle_putRecord keyScheme account 5 first.toBytes (frame (pushOf 1).blob)
    · exact hne (hrefused.symm.trans hreply)
    obtain ⟨ws, hws, hchecked, -⟩ := hst.set
    cases hset.symm.trans hws
    have hmember := hchecked.member
    rw [← frame_injective (pushOf_fits 1) hst.blob.1 (by rw [length_pushOf]; decide) hframe] at hmember
    exact absurd hmember (by decide)
  · rw [along_cons (step_memberSet 1)]
    rintro ⟨-, -, henf, -⟩
    have hreply := (henf.unhindered (pushOf 1) rfl).2.1
    have hquiet : ((governed 1).handle keyScheme (pushOf 1).put).1 = .ok := by
      rw [handle_pushOf 1 (by decide) (governed_storedSet 1)]
    have hflood : ((governed 0).handle keyScheme (pushOf 1).put).1 =
      ⟨429, "rate limit exceeded"⟩ := rfl
    exact absurd (hflood.symm.trans (hreply.trans hquiet)) (by decide)

end

end Sfs.Server

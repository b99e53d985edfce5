import Sfs.Sync.Record

/-!
# Writer-Sets

The set of the keys that may write, as its owner seals it: numbered by an epoch, bound to a key
epoch, with the members that were removed kept beside the current ones so that what they wrote
can still be read. The blob is the signed bytes and the owner's signature.

`openBlob_eq_ok` says which blobs open: those that an encoding of a set and a signature that
verifies are.
-/

namespace Sfs.AtRest

open Sfs.Lib Sfs.Sync List

/-- A Writer-Set as its owner sealed it. -/
structure SealedWriterSet where
  epoch : Nat
  keyEpoch : Nat
  ownerPubkey : PubKey
  set : WriterSet
  deriving DecidableEq

namespace SealedWriterSet

/-! ## The blob -/

def signingBytes (ws : SealedWriterSet) : Bytes :=
  ascii "sfsu-wset" ++ leBytes 8 ws.epoch ++ leBytes 8 ws.keyEpoch ++ ws.ownerPubkey.toList ++
    leBytes 4 ws.set.writers.length ++ ws.set.writers.flatMap Vector.toList ++
    leBytes 4 ws.set.removed.length ++ ws.set.removed.flatMap Vector.toList

/-- The numbers fit into their fields. -/
structure Fits (ws : SealedWriterSet) : Prop where
  epoch : ws.epoch < 256 ^ 8
  keyEpoch : ws.keyEpoch < 256 ^ 8
  writers : ws.set.writers.length < 256 ^ 4
  removed : ws.set.removed.length < 256 ^ 4

end SealedWriterSet

open SealedWriterSet

def minBlobLen : Nat := 129

/-- The first `n` keys of `bs`. -/
def keys : Nat → Bytes → List PubKey
  | 0, _ => []
  | n + 1, bs => arr 32 (bs.take 32) :: keys n (bs.drop 32)

section

variable (scheme : SignatureScheme)

/-- `WriterSet::seal` -/
def sealBlob (owner : SigningKey) (ws : SealedWriterSet) : Bytes :=
  ws.signingBytes ++ (scheme.sign owner ws.signingBytes).toList

/-- The set of a blob with `n` writers and `r` removed ones. -/
def parseBlob (blob : Bytes) (n r : Nat) : SealedWriterSet :=
  ⟨leNat (slice 9 8 blob), leNat (slice 17 8 blob), arr 32 (slice 25 32 blob),
    keys n (blob.drop 61), keys r (blob.drop (61 + n * 32 + 4))⟩

/-- `WriterSet::open` -/
def openBlob (blob : Bytes) : Result SealedWriterSet :=
  if blob.length < minBlobLen then
    .error (.integrity
      ("writer-set blob too short: " ++ toString blob.length ++ " < " ++ toString minBlobLen))
  else if blob.take 9 ≠ ascii "sfsu-wset" then .error (.integrity "writer-set: wrong domain tag")
  else
    let n := leNat (slice 57 4 blob)
    let writersEnd := 61 + n * 32
    if blob.length < writersEnd + 4 then
      .error (.integrity ("writer-set: blob too short for n=" ++ toString n ++ " (need " ++
        toString (writersEnd + 4) ++
        " bytes before removed-count, got " ++ toString blob.length ++ ")"))
    else
      let r := leNat (slice writersEnd 4 blob)
      let signed := writersEnd + 4 + r * 32
      if blob.length ≠ signed + 64 then
        .error (.integrity ("writer-set: expected " ++ toString (signed + 64) ++ " bytes for n=" ++
          toString n ++ ", r=" ++
          toString r ++ ", got " ++ toString blob.length))
      else
        let ws := parseBlob blob n r
        if scheme.verify ws.ownerPubkey (blob.take signed) (arr 64 (blob.drop signed)) then .ok ws
        else .error (.integrity "writer-set: owner signature verification failed")

end

/-! ## Reading keys -/

theorem keys_append (ks : List PubKey) (rest : Bytes) :
    keys ks.length (ks.flatMap Vector.toList ++ rest) = ks := by
  induction ks with
  | nil => rfl
  | cons k ks ih =>
    have hk : k.toList.length = 32 := k.toArray.length_toList.trans k.size_toArray
    simp only [length_cons, flatMap_cons, append_assoc, keys]
    rw [take_append_of_le_length hk.ge, take_of_length_le hk.le, arr_toList,
      drop_append_of_le_length hk.ge, drop_of_length_le hk.le, nil_append, ih]

theorem length_keys (n : Nat) (bs : Bytes) : (keys n bs).length = n := by
  induction n generalizing bs with
  | zero => rfl
  | succ n ih => rw [keys, length_cons, ih]

theorem flatMap_keys {n : Nat} {bs : Bytes} (h : n * 32 ≤ bs.length) :
    (keys n bs).flatMap Vector.toList = bs.take (n * 32) := by
  induction n generalizing bs with
  | zero => simp [keys]
  | succ n ih =>
    rw [keys, flatMap_cons, toList_arr (by rw [length_take]; omega), ih (by rw [length_drop]; omega),
      Nat.succ_mul, add_comm, take_add]

theorem length_flatMap_toList (ks : List PubKey) :
    (ks.flatMap Vector.toList).length = ks.length * 32 := by
  simp

/-! ## Which blobs open -/

section

variable {scheme : SignatureScheme} {blob : Bytes} {ws : SealedWriterSet}

theorem length_signingBytes (ws : SealedWriterSet) :
    ws.signingBytes.length = 61 + ws.set.writers.length * 32 + 4 + ws.set.removed.length * 32 := by
  have htag : (ascii "sfsu-wset").length = 9 := rfl
  have howner : ws.ownerPubkey.toList.length = 32 :=
    ws.ownerPubkey.toArray.length_toList.trans ws.ownerPubkey.size_toArray
  simp only [signingBytes, length_append, length_leBytes, length_flatMap_toList, htag, howner]

/-- What is parsed from a blob encodes to the bytes it was parsed from. -/
theorem signingBytes_parseBlob {n r : Nat} (htag : blob.take 9 = ascii "sfsu-wset")
    (hn : leNat (slice 57 4 blob) = n) (hr : leNat (slice (61 + n * 32) 4 blob) = r)
    (hlen : 61 + n * 32 + 4 + r * 32 ≤ blob.length) :
    (parseBlob blob n r).signingBytes = blob.take (61 + n * 32 + 4 + r * 32) := by
  have hw : (keys n (blob.drop 61)).flatMap Vector.toList = slice 61 (n * 32) blob :=
    flatMap_keys (by rw [length_drop]; omega)
  have hrm : (keys r (blob.drop (61 + n * 32 + 4))).flatMap Vector.toList =
      slice (61 + n * 32 + 4) (r * 32) blob :=
    flatMap_keys (by rw [length_drop]; omega)
  have howner : (arr 32 (slice 25 32 blob)).toList = slice 25 32 blob :=
    toList_arr (length_slice (by omega))
  simp only [signingBytes, parseBlob, length_keys, hw, hrm, howner]
  rw [← htag, ← hn, leBytes_slice (by omega), leBytes_slice (by omega), leBytes_slice (by omega),
    hn, ← hr, leBytes_slice (by omega), hr]
  simp only [show 61 = 9 + 8 + 8 + 32 + 4 from rfl, take_add, slice]

/-- The fields of an encoded set, with anything behind it. -/
theorem parseBlob_append (hfit : ws.Fits) (tail : Bytes) :
    leNat (slice 57 4 (ws.signingBytes ++ tail)) = ws.set.writers.length ∧
      leNat (slice (61 + ws.set.writers.length * 32) 4 (ws.signingBytes ++ tail)) =
        ws.set.removed.length ∧
      parseBlob (ws.signingBytes ++ tail) ws.set.writers.length ws.set.removed.length = ws := by
  have htag : (ascii "sfsu-wset").length = 9 := rfl
  let fields := [ascii "sfsu-wset", leBytes 8 ws.epoch, leBytes 8 ws.keyEpoch, ws.ownerPubkey.toList,
    leBytes 4 ws.set.writers.length, ws.set.writers.flatMap Vector.toList,
    leBytes 4 ws.set.removed.length, ws.set.removed.flatMap Vector.toList]
  have hblob : ws.signingBytes = fields.flatten := by simp [signingBytes, fields]
  have hfield := fun i => slice_flatten fields tail (i := i)
  have hdrop := drop_flatten fields tail
  rw [← hblob] at hfield hdrop
  have hepoch := hfield 1 (by simp [fields])
  have hkey := hfield 2 (by simp [fields])
  have howner := hfield 3 (by simp [fields])
  have hn := hfield 4 (by simp [fields])
  have hw := hdrop 5
  have hr := hfield 6 (by simp [fields])
  have hrm := hdrop 7
  simp [fields, htag, ← add_assoc] at hepoch hkey howner hn hw hr hrm
  refine ⟨by rw [hn, leNat_leBytes_of_lt hfit.writers], by
    rw [hr, leNat_leBytes_of_lt hfit.removed], ?_⟩
  rw [parseBlob, hepoch, hkey, howner, hw, hrm, leNat_leBytes_of_lt hfit.epoch,
    leNat_leBytes_of_lt hfit.keyEpoch, arr_toList, keys_append, keys_append]

theorem openBlob_eq_ok : openBlob scheme blob = .ok ws ↔
    ws.Fits ∧ ∃ sig : Signature, blob = ws.signingBytes ++ sig.toList ∧
      scheme.verify ws.ownerPubkey ws.signingBytes sig = true := by
  constructor
  · intro h
    unfold openBlob minBlobLen at h
    split_ifs at h with _ htag
    dsimp only at h
    generalize hn : leNat (slice 57 4 blob) = n at h
    split at h
    · cases h
    generalize hr : leNat (slice (61 + n * 32) 4 blob) = r at h
    split at h
    · cases h
    rename_i hlen
    split at h
    · rename_i hver
      cases h
      have hbytes := signingBytes_parseBlob (not_ne_iff.mp htag) hn hr (by omega)
      refine ⟨⟨leNat_slice_lt (by omega), leNat_slice_lt (by omega), ?_, ?_⟩,
        arr 64 (blob.drop (61 + n * 32 + 4 + r * 32)), ?_, ?_⟩
      · show (keys n _).length < _
        rw [length_keys, ← hn]
        exact leNat_slice_lt (by omega)
      · show (keys r _).length < _
        rw [length_keys, ← hr]
        exact leNat_slice_lt (by omega)
      · rw [hbytes, toList_arr (by rw [length_drop]; omega), take_append_drop]
      · rw [hbytes]
        exact hver
    · cases h
  · rintro ⟨hfit, sig, rfl, hver⟩
    have hsig : sig.toList.length = 64 := sig.toArray.length_toList.trans sig.size_toArray
    have hlen := length_signingBytes ws
    obtain ⟨hn, hr, hparse⟩ := parseBlob_append hfit sig.toList
    have htag : (ws.signingBytes ++ sig.toList).take 9 = ascii "sfsu-wset" := by
      show take (ascii "sfsu-wset").length _ = _
      exact take_left
    have hlen' : (ws.signingBytes ++ sig.toList).length =
        61 + ws.set.writers.length * 32 + 4 + ws.set.removed.length * 32 + 64 := by
      rw [length_append, hlen, hsig]
    unfold openBlob minBlobLen
    rw [if_neg (by omega), if_neg (not_ne_iff.mpr htag)]
    rw [hn, if_neg (by omega), hr, if_neg (not_ne_iff.mpr hlen'), hparse, ← hlen, take_left,
      drop_left, arr_toList, if_pos hver]

theorem openBlob_sealBlob (hsign : scheme.Complete) {sk : SigningKey}
    (howner : scheme.pubkey sk = ws.ownerPubkey) (hfit : ws.Fits) :
    openBlob scheme (sealBlob scheme sk ws) = .ok ws :=
  openBlob_eq_ok.mpr ⟨hfit, _, rfl, howner ▸ hsign sk _⟩

end

end Sfs.AtRest

import Sfs.Version.WriterSet

/-!
# The Writer-Set on the server

The server keeps one blob for an account and compares the epochs of the blob that is put with those
of the one it holds.
-/

namespace Sfs.AtRest

open Sfs.Lib Sfs.Version Sfs.Sync

inductive SyncError where
  | writerSetDowngrade (msg : String)
  | io (msg : String)

/-- `EngineStore::put_writer_set`: the blob to keep for the account. -/
def putWriterSet (scheme : SignatureScheme) (stored : Option Bytes) (blob : Bytes) :
    Except SyncError Bytes :=
  match openBlob scheme blob with
  | .error _ =>
    .error (.writerSetDowngrade "incoming writer-set blob failed signature verification — rejected")
  | .ok incoming =>
    match stored with
    | none => .ok blob
    | some bytes =>
      match openBlob scheme bytes with
      | .error _ =>
        .error (.io "stored writer-set blob is corrupt — rejecting incoming write (fail-closed)")
      | .ok held =>
        if incoming.ownerPubkey ≠ held.ownerPubkey then
          .error (.writerSetDowngrade "writer-set owner_pubkey mismatch — ownership transfer rejected")
        else if incoming.keyEpoch < held.keyEpoch ∨
          incoming.keyEpoch = held.keyEpoch ∧ incoming.epoch < held.epoch then
          .error (.writerSetDowngrade
            "writer-set epoch downgrade rejected (incoming (key_epoch, epoch) is strictly less than stored)")
        else .ok blob

theorem putWriterSet_eq_ok {scheme : SignatureScheme} {stored : Option Bytes} {blob blob' : Bytes} :
    putWriterSet scheme stored blob = .ok blob' ↔
    blob' = blob ∧ ∃ ws, openBlob scheme blob = .ok ws ∧
      (stored = none ∨ ∃ bytes held, stored = some bytes ∧
      openBlob scheme bytes = .ok held ∧ ws.ownerPubkey = held.ownerPubkey ∧
      ¬ (ws.keyEpoch < held.keyEpoch ∨ ws.keyEpoch = held.keyEpoch ∧ ws.epoch < held.epoch)) := by
  unfold putWriterSet
  constructor
  · intro h
    split at h
    · cases h
    rename_i ws hopen
    split at h
    · cases h
      exact ⟨rfl, ws, hopen, .inl rfl⟩
    rename_i bytes
    split at h
    · cases h
    rename_i held hheld
    split at h
    · cases h
    rename_i howner
    split at h
    · cases h
    · rename_i hdown
      cases h
      exact ⟨rfl, ws, hopen, .inr ⟨bytes, held, rfl, hheld, not_ne_iff.mp howner, hdown⟩⟩
  · rintro ⟨rfl, ws, hopen, rfl | ⟨bytes, held, rfl, hheld, howner, hdown⟩⟩
    · rw [hopen]
    · simp only [hopen, hheld]
      rw [if_neg (not_ne_iff.mpr howner), if_neg hdown]

/-! ## A set to evaluate -/

/-- A signature is the key of its writer. -/
def keyScheme : SignatureScheme where
  pubkey := id
  sign k _ := arr 64 k.toList
  verify k _ sig := sig = arr 64 k.toList

def keyOf (b : UInt8) : RootKey := .replicate 32 b

def sampleSet : SealedWriterSet := ⟨1, 0, keyOf 8, [keyOf 8, keyOf 9], []⟩

theorem keyScheme_complete : keyScheme.Complete := by
  intro sk msg
  simp [keyScheme]

def ownerBlob (ws : SealedWriterSet) : Bytes := sealBlob keyScheme (keyOf 8) ws

theorem open_ownerBlob {ws : SealedWriterSet} (howner : ws.ownerPubkey = keyOf 8) (hfit : ws.Fits) :
    openBlob keyScheme (ownerBlob ws) = .ok ws :=
  openBlob_sealBlob keyScheme_complete howner.symm hfit

theorem sampleSet_fits : sampleSet.Fits := by constructor <;> decide

end Sfs.AtRest

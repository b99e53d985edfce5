import Sfs.Sync.Transfer

/-!
# One imported block

`import_block` looks for a stream that names the version at that fragment, and puts the block into
the primary if there is none. `FilledIn` is what a block may do to a record: it becomes the block
of one fragment that had its version, and no signed field changes. That is what happens iff the
stream it goes to names the version there and, for a last fragment, has the given length
(`import_block_iff`).
-/

namespace Sfs.Sync

open Sfs.Lib Sfs.Version Namespace

/-- What an author signs of a stream. -/
def signedFields (x : StreamMeta Bytes) : (List BlockVersion × VersionVector × Nat) × Nat :=
  (shape x, x.lastFragLength)

structure FilledIn (r r' : Record Bytes) (f : Nat) (v : BlockVersion) (b : Bytes) : Prop where
  signed : ∀ c, (r'.at c).map signedFields = (r.at c).map signedFields
  rest : r'.metadata = r.metadata ∧ r'.db = r.db ∧ r'.signature = r.signature
  /-- one stream gets the block where it names the version; all others are as they were -/
  one : ∃ c x y, r.at c = some x ∧ r'.at c = some y ∧ f < x.frags.length ∧ x.dot f = v ∧
    (∀ f', y.block f' = if f' = f then some b else x.block f') ∧ ∀ c', c' ≠ c → r'.at c' = r.at c'

/-- The record promises the block: the stream that `import_block` finds names its version, and knows
its length if it is the last. -/
def Promised (r : Record Bytes) (f : Nat) (v : BlockVersion) (n : Nat) : Prop :=
  ∃ x, r.at (target r f v) = some x ∧ f < x.frags.length ∧ x.dot f = v ∧
    (f + 1 = x.frags.length → n = x.lastFragLength)

section

variable {r : Record Bytes} {f : Nat} {v : BlockVersion} {b : Bytes} {n : Nat} {x : StreamMeta Bytes}

/-- The block goes to the target; the other streams stay. -/
theorem at_placeBlock (c : Option Nat) : (placeBlock r f v b n).at c =
    if c = target r f v then some (Version.importBlock ((r.at c).getD .empty) f v b n)
      else r.at c := by
  unfold placeBlock target
  by_cases hp : r.stream.dot f = v
  · rw [if_pos hp, if_pos hp]
    cases c <;> rfl
  rw [if_neg hp, if_neg hp]
  cases hi : r.strains.findIdx? fun st => st.dot f = v with
  | none => cases c <;> rfl
  | some i =>
    cases c with
    | none => rfl
    | some j =>
      obtain ⟨hlt, -⟩ := List.findIdx?_eq_some_iff_getElem.mp hi
      show (r.strains.modify i _)[j]? = if some j = some i then _ else _
      by_cases hij : i = j
      · subst hij
        simp [Record.at, hlt]
      · simp [Record.at, hij, Ne.symm hij]

/-- Nothing signed changes in a stream iff it names the version and, at its end, knows the
length. -/
theorem signedFields_importBlock_iff : signedFields (Version.importBlock x f v b n) = signedFields x ↔
    f < x.frags.length ∧ x.dot f = v ∧ (f + 1 = x.frags.length → n = x.lastFragLength) := by
  constructor
  · intro h
    obtain ⟨hshape, hlast⟩ := Prod.mk.inj h
    have hmap : (Version.importBlock x f v b n).unitMap = x.unitMap := (Prod.mk.inj hshape).1
    have hf : f < x.frags.length := by
      have := congrArg List.length hmap
      simp only [StreamMeta.unitMap, Version.importBlock, StreamMeta.grow, List.length_map,
        List.length_set, List.length_append, List.length_replicate] at this
      omega
    rw [importBlock_of_lt hf] at hlast
    refine ⟨hf, ?_, fun hend => ?_⟩
    · rw [← dot_of_shape hshape f, importBlock_of_lt hf, StreamMeta.dot_of_lt (by simpa using hf)]
      simp
    · rwa [if_pos hend] at hlast
  · rintro ⟨hf, hdot, hlast⟩
    refine Prod.ext (shape_importBlock_of_lt hf hdot) ?_
    rw [importBlock_of_lt hf]
    split
    · exact hlast ‹_›
    · rfl

theorem filledIn_iff : FilledIn r (placeBlock r f v b n) f v b ↔ Promised r f v n := by
  have hother : ∀ c, c ≠ target r f v → (placeBlock r f v b n).at c = r.at c := fun c hc => by
    rw [at_placeBlock, if_neg hc]
  constructor
  · intro h
    have hs := h.signed (target r f v)
    rw [at_placeBlock, if_pos rfl, Option.map_some] at hs
    obtain ⟨x, hx, hsigned⟩ := Option.map_eq_some_iff.mp hs.symm
    rw [hx, Option.getD_some] at hsigned
    exact ⟨x, hx, signedFields_importBlock_iff.mp hsigned.symm⟩
  rintro ⟨x, hx, hx'⟩
  have hat : (placeBlock r f v b n).at (target r f v) = some (Version.importBlock x f v b n) := by
    rw [at_placeBlock, if_pos rfl, hx, Option.getD_some]
  refine ⟨fun c => ?_, ?_, target r f v, x, _, hx, hat, hx'.1, hx'.2.1,
    fun f' => block_importBlock_of_lt hx'.1, hother⟩
  · by_cases hc : c = target r f v
    · rw [hc, hat, hx]
      exact congrArg some (signedFields_importBlock_iff.mpr hx')
    · rw [hother c hc]
  · unfold placeBlock
    split
    · exact ⟨rfl, rfl, rfl⟩
    · split <;> exact ⟨rfl, rfl, rfl⟩

end

/-- **One block.** A successful `import_block` leaves all names and all other units alone, and does
to its unit's record what a block may do iff the record promised it. -/
theorem import_block_iff {scheme : SignatureScheme} {signer : Signer} {s s' : Namespace} {u : Uuid}
    {f : Nat} {v : BlockVersion} {b : Bytes} {n : Nat}
    (h : s.importBlock scheme signer u f v b n = .ok s') :
    s'.keys = s.keys ∧ (∀ u', u' ≠ u → s'.units u' = s.units u') ∧
      ∃ ch ch', s.units u = some ch ∧ s'.units u = some ch' ∧ ch'.past = ch.head :: ch.past ∧
        (FilledIn ch.head ch'.head f v b ↔ Promised ch.head f v n) := by
  obtain ⟨ch, stored, hch, -, -, hw, rfl⟩ := importBlock_eq_ok_iff.mp h
  cases (writeUnitRecord_preserve_iff.mp hw).1
  refine ⟨rfl, fun u' hu => if_neg hu, ch, _, hch, if_pos rfl, ?_, filledIn_iff⟩
  simp [hch, installed]

/-- A primary with a block and a strain without one. -/
def splitRecord : Record Bytes :=
  ⟨some ⟨[⟨5, some [1]⟩], .new, 12, 1, []⟩, none, [⟨[⟨6, none⟩], .new, 12, 1, []⟩], none, none⟩

/-- An unsigned replica with that unit. -/
def splitNamespace : Namespace :=
  ⟨.empty, fun u => if u = 7 then some ⟨splitRecord, [], fun _ => 0⟩ else none, [], []⟩

/-- The strain's block arrives. -/
theorem import_block_strain :
    ∃ s', splitNamespace.importBlock checksumScheme .unsigned 7 0 6 [2] 1 = .ok s' ∧
      ∃ ch', s'.units 7 = some ch' ∧ FilledIn splitRecord ch'.head 0 6 [2] := by
  refine ⟨_, rfl, ?_⟩
  obtain ⟨-, -, ch, ch', hch, hch', -, hiff⟩ := import_block_iff
    (show splitNamespace.importBlock checksumScheme .unsigned 7 0 6 [2] 1 = .ok _ from rfl)
  cases hch
  exact ⟨ch', hch', hiff.mpr ⟨_, rfl, by decide, rfl, fun _ => rfl⟩⟩

/-- A version that nobody named replaces the primary's version and its block; a wrong length for the
strain's block becomes the strain's. -/
theorem import_block_unnamed :
    (∃ s' ch', splitNamespace.importBlock checksumScheme .unsigned 7 0 9 [2] 1 = .ok s' ∧
      s'.units 7 = some ch' ∧
      ch'.head.stream.unitMap = [9] ∧ ch'.head.stream.block 0 = some [2] ∧
        ¬ FilledIn splitRecord ch'.head 0 9 [2]) ∧
    ∃ s' ch', splitNamespace.importBlock checksumScheme .unsigned 7 0 6 [2] 4000 = .ok s' ∧
      s'.units 7 = some ch' ∧
      ch'.head.strains.map StreamMeta.lastFragLength = [4000] := by
  refine ⟨⟨_, _, rfl, rfl, by decide, by decide, fun h => ?_⟩, _, _, rfl, rfl, by decide⟩
  have hs := h.signed none
  revert hs
  decide

end Sfs.Sync

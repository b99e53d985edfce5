import Sfs.Sync.Round

/-!
# Where a block goes

A block goes to the primary if the primary names its version at that fragment, else to the first
strain that does (`target`); no version, vector or fragment size changes (`SameShape`).
-/

namespace Sfs.Sync

open Sfs.Lib Sfs.Version List StreamMeta LocalTransport Namespace

variable {x : StreamMeta Bytes}

/-! ## One stream -/

/-- The versions, the vector and the fragment size: all but the blocks and the length of the last
fragment. -/
def shape (x : StreamMeta Bytes) : List BlockVersion × VersionVector × Nat :=
  (x.unitMap, x.vv, x.fragsizeExp)

section

variable {x y : StreamMeta Bytes} {f f' : Nat} {v : BlockVersion} {b : Bytes} {n : Nat}

theorem dot_eq_unitMap (x : StreamMeta Bytes) (f : Nat) : x.dot f = x.unitMap.getD f 0 := by
  unfold dot unitMap
  rw [getD_eq_getElem?_getD, List.getElem?_map]
  cases x.frags[f]? <;> rfl

theorem dot_of_shape (h : shape y = shape x) (f : Nat) : y.dot f = x.dot f := by
  rw [dot_eq_unitMap, dot_eq_unitMap, (Prod.mk.inj h).1]

theorem lt_of_dot_ne_zero (h : x.dot f ≠ 0) : f < x.frags.length := by
  by_contra hge
  exact h (dot_of_ge (by omega))

/-- A block for a version that the stream names. -/
theorem shape_importBlock_of_lt (hf : f < x.frags.length) (hdot : x.dot f = v) :
    shape (Version.importBlock x f v b n) = shape x := by
  rw [importBlock_of_lt hf]
  refine congrArg (·, _) (unitMap_ext (by simp) fun g hg => ?_)
  simp only [length_set] at hg
  rw [dot_of_lt (by simpa using hg), dot_of_lt hg]
  simp only [getElem_set]
  split
  · rename_i hfg
    subst hfg
    rw [← hdot, dot_of_lt hf]
  · rfl

theorem block_importBlock_of_lt (hf : f < x.frags.length) :
    (Version.importBlock x f v b n).block f' = if f' = f then some b else x.block f' := by
  rw [importBlock_of_lt hf]
  unfold StreamMeta.block
  rw [List.getElem?_set]
  by_cases hff : f = f'
  · subst hff
    simp [hf]
  · rw [if_neg hff, if_neg (Ne.symm hff)]

theorem shape_importBlock (hdot : x.dot f = v) (hv : v ≠ 0) :
    shape (Version.importBlock x f v b n) = shape x :=
  shape_importBlock_of_lt (lt_of_dot_ne_zero (hdot ▸ hv)) hdot

theorem block_importBlock (hdot : x.dot f = v) (hv : v ≠ 0) :
    (Version.importBlock x f v b n).block f' = if f' = f then some b else x.block f' :=
  block_importBlock_of_lt (lt_of_dot_ne_zero (hdot ▸ hv))

end

/-! ## One record -/

/-- The primary, or a strain by its number. -/
def Record.at (r : Record Bytes) : Option Nat → Option (StreamMeta Bytes)
  | none => r.content
  | some i => r.strains[i]?

/-- The block of that fragment is there. -/
def Record.Present (r : Record Bytes) (c : Option Nat) (f : Nat) : Prop :=
  ∃ x, r.at c = some x ∧ (x.block f).isSome

/-- Some stream of the record names that version. -/
def Record.Names (r : Record Bytes) (f : Nat) (v : BlockVersion) : Prop :=
  ∃ c x, r.at c = some x ∧ x.dot f = v

/-- Where `import_block` puts a block. -/
def target (r : Record Bytes) (f : Nat) (v : BlockVersion) : Option Nat :=
  if r.stream.dot f = v then none else r.strains.findIdx? fun st => st.dot f = v

structure SameShape (r r' : Record Bytes) : Prop where
  content : r'.content.map shape = r.content.map shape
  strains : r'.strains.map shape = r.strains.map shape
  metadata : r'.metadata = r.metadata
  db : r'.db = r.db

section

variable {r r' r'' : Record Bytes} {f : Nat} {v : BlockVersion} {b : Bytes} {n : Nat}

theorem SameShape.refl (r : Record Bytes) : SameShape r r := ⟨rfl, rfl, rfl, rfl⟩

theorem SameShape.trans (h : SameShape r r') (h' : SameShape r' r'') : SameShape r r'' :=
  ⟨h'.content.trans h.content, h'.strains.trans h.strains, h'.metadata.trans h.metadata,
    h'.db.trans h.db⟩

theorem SameShape.dot_stream (h : SameShape r r') : r'.stream.dot f = r.stream.dot f := by
  unfold Record.stream
  have hc := h.content
  cases hr : r.content with
  | none =>
    rw [hr, Option.map_none, Option.map_eq_none_iff] at hc
    rw [hc]
  | some x =>
    rw [hr, Option.map_some] at hc
    obtain ⟨y, hy, hshape⟩ := Option.map_eq_some_iff.mp hc
    rw [hy]
    exact dot_of_shape hshape f

theorem SameShape.target (h : SameShape r r') : target r' f v = target r f v := by
  unfold Sync.target
  have hfind : ∀ l : List (StreamMeta Bytes), (l.findIdx? fun st => st.dot f = v) =
      (l.map shape).findIdx? fun p => p.1.getD f 0 = v := by
    intro l
    rw [findIdx?_map]
    refine congrArg (fun p => findIdx? p l) (funext fun st => ?_)
    show decide (st.dot f = v) = decide (st.unitMap.getD f 0 = v)
    rw [dot_eq_unitMap]
  rw [h.dot_stream, hfind, hfind, h.strains]

theorem map_shape_modify {l : List (StreamMeta Bytes)} {i : Nat}
    {g : StreamMeta Bytes → StreamMeta Bytes} (h : ∀ x, l[i]? = some x → shape (g x) = shape x) :
    (l.modify i g).map shape = l.map shape := by
  refine ext_getElem? fun j => ?_
  rw [List.getElem?_map, List.getElem?_map, List.getElem?_modify]
  split
  · rename_i hij
    subst hij
    cases hx : l[i]? with
    | none => rfl
    | some x => exact congrArg some (h x hx)
  · rw [Option.map_eq_map, Option.map_id']

/-- One stream gets the block, the others stay. -/
theorem present_of_importBlock (c₀ : Option Nat) (hx : r.at c₀ = some x) (hdot : x.dot f = v)
    (hv : v ≠ 0) (hself : r'.at c₀ = some (Version.importBlock x f v b n))
    (hother : ∀ c, c ≠ c₀ → r'.at c = r.at c) (c : Option Nat) (f' : Nat) :
    r'.Present c f' ↔ r.Present c f' ∨ (c = c₀ ∧ f' = f) := by
  unfold Record.Present
  by_cases hc : c = c₀
  · subst hc
    rw [hself, hx]
    simp only [Option.some.injEq, exists_eq_left', true_and, block_importBlock hdot hv]
    by_cases hf : f' = f
    · simp [hf]
    · simp [hf]
  · rw [hother c hc]
    simp [hc]

/-- A primary that names a version has a content stream. -/
theorem content_of_dot (h : r.stream.dot f ≠ 0) : r.content = some r.stream := by
  unfold Record.stream
  cases hr : r.content with
  | none =>
    refine absurd ?_ h
    rw [Record.stream, hr]
    rfl
  | some x => rfl

/-- A block for a version that the record names goes to its target and nowhere else. -/
theorem placeBlock_spec (hnamed : r.Names f v) (hv : v ≠ 0) : SameShape r (placeBlock r f v b n) ∧
    ∀ c f', (placeBlock r f v b n).Present c f' ↔ r.Present c f' ∨ (c = target r f v ∧ f' = f) := by
  unfold placeBlock Sync.target
  by_cases hp : r.stream.dot f = v
  · have hc : r.content = some r.stream := content_of_dot (hp ▸ hv)
    rw [if_pos hp, if_pos hp]
    refine ⟨⟨?_, rfl, rfl, rfl⟩, present_of_importBlock none hc hp hv rfl ?_⟩
    · rw [hc]
      exact congrArg some (shape_importBlock hp hv)
    · rintro (_ | i) hne
      · exact absurd rfl hne
      · rfl
  · rw [if_neg hp, if_neg hp]
    obtain ⟨i, hi⟩ : ∃ i, (r.strains.findIdx? fun st => st.dot f = v) = some i := by
      obtain ⟨_ | j, x, hx, hdot⟩ := hnamed
      · refine absurd ?_ hp
        change r.content = some x at hx
        rw [Record.stream, hx]
        exact hdot
      · refine Option.isSome_iff_exists.mp (findIdx?_isSome.trans ?_)
        exact any_eq_true.mpr ⟨x, mem_of_getElem? hx, decide_eq_true hdot⟩
    rw [hi]
    obtain ⟨hlt, hdot, -⟩ := findIdx?_eq_some_iff_getElem.mp hi
    have hx : r.at (some i) = some r.strains[i] := List.getElem?_eq_getElem hlt
    have hdot : r.strains[i].dot f = v := of_decide_eq_true hdot
    refine ⟨⟨rfl, ?_, rfl, rfl⟩, present_of_importBlock (b := b) (n := n) (some i) hx hdot hv ?_ ?_⟩
    · refine map_shape_modify fun x hx' => ?_
      cases hx.symm.trans hx'
      exact shape_importBlock hdot hv
    · show (r.strains.modify i _)[i]? = _
      simp [hlt]
    · rintro (_ | j) hne
      · rfl
      · show (r.strains.modify i _)[j]? = r.strains[j]?
        have hij : i ≠ j := fun h => hne (congrArg some h.symm)
        simp [hij]

end

end Sfs.Sync

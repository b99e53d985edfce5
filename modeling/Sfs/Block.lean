import Sfs.Version.Vector

/-!
# Dots and fragment geometry

A block version is a causal dot `sync_id · 2^16 + host_alias`. The source packs it in a `u64`
and asserts `sync_id < 2^48`; below that ceiling the number here is the packed one.
-/

namespace Sfs

open Sfs.Version

abbrev BlockVersion := Nat

def packDot (host : HostAlias) (syncId : Nat) : BlockVersion := syncId * 65536 + host

def dotHost (v : BlockVersion) : HostAlias := ⟨v % 65536, Nat.mod_lt _ (by decide)⟩

def dotSyncId (v : BlockVersion) : Nat := v / 65536

/-- The causal "has seen" predicate; the zero dot (a hole) is seen by every vector. -/
def hasSeenDot (vv : VersionVector) (d : BlockVersion) : Bool :=
  let sid := dotSyncId d
  if sid = 0 then true else sid ≤ vv.get (dotHost d)

@[simp] theorem dotHost_packDot (h : HostAlias) (s : Nat) : dotHost (packDot h s) = h := by
  apply Fin.ext
  simp only [dotHost, packDot]
  omega

@[simp] theorem dotSyncId_packDot (h : HostAlias) (s : Nat) : dotSyncId (packDot h s) = s := by
  simp only [dotSyncId, packDot]
  omega

theorem packDot_inj {h h' : HostAlias} {s s' : Nat} (he : packDot h s = packDot h' s') :
    h = h' ∧ s = s' := by
  have h1 := congrArg dotHost he
  have h2 := congrArg dotSyncId he
  simp only [dotHost_packDot, dotSyncId_packDot] at h1 h2
  exact ⟨h1, h2⟩

theorem packDot_ne_zero {h : HostAlias} {s : Nat} (hs : 0 < s) : packDot h s ≠ 0 := by
  show s * 65536 + h.val ≠ 0
  omega

@[simp] theorem hasSeenDot_zero (vv : VersionVector) : hasSeenDot vv 0 = true := by
  simp [hasSeenDot, dotSyncId]

theorem hasSeenDot_packDot {vv : VersionVector} {h : HostAlias} {s : Nat} (hs : 0 < s) :
    hasSeenDot vv (packDot h s) = true ↔ s ≤ vv.get h := by
  have : s ≠ 0 := by omega
  simp [hasSeenDot, this]

theorem hasSeenDot_mono {a b : VersionVector} {d : BlockVersion} (hab : ∀ h, a.get h ≤ b.get h)
    (hd : hasSeenDot a d = true) : hasSeenDot b d = true := by
  simp only [hasSeenDot] at hd ⊢
  split
  · rfl
  rename_i hz
  rw [if_neg hz] at hd
  have := hab (dotHost d)
  simp only [decide_eq_true_eq] at hd ⊢
  omega

/-! ## Fragment geometry -/

def fragsizeFloorExp : Nat := 12
def maxFragsizeExp : Nat := 22

/-- The steps `10 + 2^k`, `k = k₀, k₀ + 1, …`, of the square schedule; the source leaves the
loop at `2^k ≥ 52`, that is after `k = 5`. -/
def deriveLoop (unitSize maxExp : Nat) : Nat → Nat → Nat → Nat
  | 0, _, e => e
  | fuel + 1, k, e =>
    let shift := 2 ^ k
    if 52 ≤ shift then e
    else
      let stepExp := 10 + shift
      if 1 ≤ unitSize / 2 ^ stepExp then
        let e' := min stepExp maxExp
        if maxExp ≤ stepExp then e' else deriveLoop unitSize maxExp fuel (k + 1) e'
      else e

def deriveFragsizeExp (unitSize floorExp maxExp : Nat) : Nat :=
  if unitSize = 0 then floorExp
  else min (max (deriveLoop unitSize maxExp 6 1 floorExp) floorExp) maxExp

/-- The exponent the engine derives for a unit of `size` bytes. -/
def deriveExp (size : Nat) : Nat := deriveFragsizeExp size fragsizeFloorExp maxFragsizeExp

/-- The fragment that holds byte `offset`, counted without bound. -/
def fragOf (offset exp : Nat) : Nat := offset / 2 ^ exp

/-- The index of that fragment in a `u32`. -/
def fragIndex (offset exp : Nat) : Nat := fragOf offset exp % 2 ^ 32

/-- The exponent is below 32, so the cast to `u32` changes nothing. -/
def lastFragLength (unitSize exp : Nat) : Nat :=
  if unitSize = 0 then 0
  else if unitSize % 2 ^ exp = 0 then 2 ^ exp
  else unitSize % 2 ^ exp

/-- `div_ceil`. -/
def fragCount (unitSize exp : Nat) : Nat := (unitSize + 2 ^ exp - 1) / 2 ^ exp

/-! ## Sizes, fragment counts and last lengths -/

section

variable {size exp : Nat}

theorem lastFragLength_pos (exp : Nat) (h : 0 < size) : 0 < lastFragLength size exp := by
  unfold lastFragLength
  split
  · omega
  split <;> omega

theorem lastFragLength_le (size exp : Nat) : lastFragLength size exp ≤ 2 ^ exp := by
  have hw : 0 < 2 ^ exp := Nat.two_pow_pos exp
  unfold lastFragLength
  split
  · omega
  split <;> omega

/-- `n` fragments with a last length `l` are what a size of `(n - 1) · 2^exp + l` needs. -/
theorem fragCount_eq {n l : Nat} (hn : 0 < n) (hl : 0 < l) (hle : l ≤ 2 ^ exp) :
    fragCount ((n - 1) * 2 ^ exp + l) exp = n := by
  obtain ⟨k, rfl⟩ : ∃ k, n = k + 1 := ⟨n - 1, by omega⟩
  rw [Nat.add_sub_cancel]
  apply Nat.div_eq_of_lt_le
  · rw [Nat.succ_mul]
    omega
  · rw [Nat.succ_mul, Nat.succ_mul]
    omega

theorem lastFragLength_eq {n l : Nat} (hl : 0 < l) (hle : l ≤ 2 ^ exp) :
    lastFragLength (n * 2 ^ exp + l) exp = l := by
  unfold lastFragLength
  rw [if_neg (by omega), mul_comm, Nat.mul_add_mod]
  rcases Nat.lt_or_eq_of_le hle with h | h
  · rw [Nat.mod_eq_of_lt h, if_neg (by omega)]
  · rw [h, Nat.mod_self, if_pos rfl]

/-- Every positive size is full fragments and a last one that is not empty. -/
theorem exists_frags (exp : Nat) (h : 0 < size) :
    ∃ n l, 0 < l ∧ l ≤ 2 ^ exp ∧ size = n * 2 ^ exp + l := by
  have hw : 0 < 2 ^ exp := Nat.two_pow_pos exp
  refine ⟨(size - 1) / 2 ^ exp, (size - 1) % 2 ^ exp + 1, by omega, ?_, ?_⟩
  · omega
  · have := Nat.div_add_mod (size - 1) (2 ^ exp)
    rw [mul_comm] at this
    omega

theorem fragCount_pos (exp : Nat) (h : 0 < size) : 0 < fragCount size exp := by
  obtain ⟨n, l, hl, hle, rfl⟩ := exists_frags exp h
  have := fragCount_eq (n := n + 1) (by omega) hl hle
  rw [Nat.add_sub_cancel] at this
  omega

theorem fragCount_size (exp : Nat) (h : 0 < size) :
    (fragCount size exp - 1) * 2 ^ exp + lastFragLength size exp = size := by
  obtain ⟨n, l, hl, hle, rfl⟩ := exists_frags exp h
  have hc := fragCount_eq (n := n + 1) (by omega) hl hle
  rw [Nat.add_sub_cancel] at hc
  rw [hc, lastFragLength_eq hl hle, Nat.add_sub_cancel]

theorem fragCount_mono {size' : Nat} (h : size ≤ size') : fragCount size exp ≤ fragCount size' exp :=
  Nat.div_le_div_right (by omega)

/-- Fragment `f` starts inside the content exactly when it is counted. -/
theorem lt_fragCount_iff {f : Nat} : f < fragCount size exp ↔ f * 2 ^ exp < size := by
  have hw : 0 < 2 ^ exp := Nat.two_pow_pos exp
  unfold fragCount
  rw [← Nat.succ_le_iff, Nat.le_div_iff_mul_le hw, Nat.succ_mul]
  omega

theorem fragsizeFloorExp_le_deriveExp (size : Nat) : fragsizeFloorExp ≤ deriveExp size := by
  unfold deriveExp deriveFragsizeExp
  split
  · exact le_rfl
  · have : fragsizeFloorExp ≤ maxFragsizeExp := by decide
    omega

end

/-! ## Splitting -/

theorem deriveExp_eq (size : Nat) :
    deriveExp size = if size < 2 ^ 14 then 12 else if size < 2 ^ 18 then 14
      else if size < 2 ^ 26 then 18 else 22 := by
  simp only [deriveExp, deriveFragsizeExp, deriveLoop, fragsizeFloorExp, maxFragsizeExp]
  norm_num
  split_ifs <;> omega

/-- The chunks of `w` bytes, counted from `i` in a `u32`. -/
def splitFrom {α : Type} (w i : Nat) (data : List α) : List (Nat × List α) :=
  if h : data = [] ∨ w = 0 then [] else (i % 2 ^ 32, data.take w) :: splitFrom w (i + 1) (data.drop w)
  termination_by data.length
  decreasing_by
    have := List.length_pos_iff.mpr (not_or.mp h).1
    rw [List.length_drop]
    omega

def splitFixed {α : Type} (data : List α) (exp : Nat) : List (Nat × List α) :=
  splitFrom (2 ^ exp) 0 data

theorem getElem?_splitFrom {α : Type} {w : Nat} (hw : 0 < w) (i j : Nat) (data : List α) :
    (splitFrom w i data)[j]? =
    if j * w < data.length then some ((i + j) % 2 ^ 32, (data.drop (j * w)).take w) else none := by
  induction j generalizing i data with
  | zero =>
    rw [splitFrom]
    cases data <;> simp [hw.ne']
  | succ j ih =>
    rw [splitFrom]
    split
    · rename_i h
      rw [h.resolve_right hw.ne']
      rfl
    · rw [List.getElem?_cons_succ, ih, List.length_drop, List.drop_drop, Nat.succ_mul, add_assoc i,
        add_comm 1, add_comm (j * w)]
      exact if_congr (by omega) rfl rfl

theorem flatMap_splitFrom {α : Type} {w : Nat} (hw : 0 < w) (i : Nat) (data : List α) :
    (splitFrom w i data).flatMap Prod.snd = data := by
  fun_induction splitFrom w i data with
  | case1 i data h => exact (h.resolve_right hw.ne').symm
  | case2 i data h ih => rw [List.flatMap_cons, ih, List.take_append_drop]

theorem length_splitFixed {α : Type} (data : List α) (exp : Nat) :
    (splitFixed data exp).length = fragCount data.length exp := by
  refine eq_of_forall_lt_iff fun j => ?_
  rw [lt_fragCount_iff, ← not_iff_not, not_lt, ← List.getElem?_eq_none_iff, splitFixed,
    getElem?_splitFrom (Nat.two_pow_pos exp)]
  split <;> rename_i hj <;> simp [hj]

/-- The pieces of a file and the numbers that describe them agree. -/
structure Exact {α : Type} (data : List α) (exp : Nat) : Prop where
  /-- the pieces are the file, each byte once and in order -/
  whole : (splitFixed data exp).flatMap Prod.snd = data
  /-- all are full but the last -/
  length : ∀ j piece, (splitFixed data exp)[j]? = some piece → piece.2.length =
    if j + 1 = (splitFixed data exp).length then lastFragLength data.length exp else 2 ^ exp
  size : 0 < data.length →
    ((splitFixed data exp).length - 1) * 2 ^ exp + lastFragLength data.length exp = data.length ∧
      0 < lastFragLength data.length exp ∧ lastFragLength data.length exp ≤ 2 ^ exp
  /-- the piece at the position of `off` carries its index and has the byte -/
  found : ∀ off < data.length, ∃ piece,
    (splitFixed data exp)[off / 2 ^ exp]? = some (fragIndex off exp, piece) ∧
      piece[off % 2 ^ exp]? = data[off]?

theorem exact_splitFixed {α : Type} (data : List α) (exp : Nat) : Exact data exp := by
  have hw : 0 < 2 ^ exp := Nat.two_pow_pos exp
  have hpiece := fun j => getElem?_splitFrom hw 0 j data
  have hn := length_splitFixed data exp
  have hsize : 0 < data.length → _ := fragCount_size exp
  refine ⟨flatMap_splitFrom hw 0 data, fun j piece hj => ?_, fun hpos => ?_, fun off hoff => ?_⟩
  · rw [splitFixed, hpiece] at hj
    split at hj
    · rename_i hlt
      cases hj
      have hsize := hsize (by omega)
      rw [List.length_take, List.length_drop, hn]
      split
      · rename_i hlast
        rw [← hlast, Nat.add_sub_cancel] at hsize
        have := lastFragLength_le data.length exp
        omega
      · rename_i hlast
        have hnext : (j + 1) * 2 ^ exp < data.length := by
          have := lt_fragCount_iff.mpr hlt
          exact lt_fragCount_iff.mp (by omega)
        rw [Nat.succ_mul] at hnext
        omega
    · cases hj
  · rw [hn]
    exact ⟨hsize hpos, lastFragLength_pos exp hpos, lastFragLength_le data.length exp⟩
  · have hin : off / 2 ^ exp * 2 ^ exp < data.length := (Nat.div_mul_le_self off _).trans_lt hoff
    refine ⟨_, by rw [splitFixed, hpiece, zero_add, if_pos hin, fragIndex, fragOf], ?_⟩
    rw [List.getElem?_take_of_lt (Nat.mod_lt _ hw), List.getElem?_drop, Nat.div_add_mod']

/-- The positions of all bytes fit a `u32` up to 2^54 bytes, and not beyond. -/
theorem fragOf_lt_iff (size : Nat) :
    (∀ off < size, fragOf off (deriveExp size) < 2 ^ 32) ↔ size ≤ 2 ^ 54 := by
  have hexp := deriveExp_eq size
  constructor
  · intro hall
    by_contra hlarge
    have := hall (2 ^ 54) (by omega)
    rw [hexp, if_neg (by omega), if_neg (by omega), if_neg (by omega)] at this
    revert this
    decide
  · intro hle off hoff
    rw [fragOf, Nat.div_lt_iff_lt_mul (Nat.two_pow_pos _), hexp]
    split_ifs <;> omega

theorem map_fst_splitFixed {α : Type} (data : List α) (exp : Nat) :
    (splitFixed data exp).map Prod.fst =
      (List.range (splitFixed data exp).length).map (· % 2 ^ 32) := by
  refine List.ext_getElem? fun j => ?_
  rw [List.getElem?_map, List.getElem?_map, length_splitFixed, splitFixed,
    getElem?_splitFrom (Nat.two_pow_pos exp), zero_add]
  by_cases hj : j * 2 ^ exp < data.length
  · rw [if_pos hj, List.getElem?_range (lt_fragCount_iff.mpr hj)]
    rfl
  · have hge : (List.range (fragCount data.length exp)).length ≤ j := by
      rw [List.length_range]
      exact not_lt.mp (mt lt_fragCount_iff.mp hj)
    rw [if_neg hj, List.getElem?_eq_none hge]
    rfl

/-- The geometry the engine derives is exact, and no index wraps up to 2^54 bytes; beyond, one
does. -/
theorem geometry_exact {α : Type} (data : List α) :
    (fragsizeFloorExp ≤ deriveExp data.length ∧ deriveExp data.length ≤ maxFragsizeExp ∧
        ∀ larger, data.length ≤ larger → deriveExp data.length ≤ deriveExp larger) ∧
      Exact data (deriveExp data.length) ∧
      ((∀ off < data.length, fragIndex off (deriveExp data.length) =
          off / 2 ^ deriveExp data.length) ↔ data.length ≤ 2 ^ 54) ∧
      ((splitFixed data (deriveExp data.length)).map Prod.fst =
          List.range (splitFixed data (deriveExp data.length)).length ↔ data.length ≤ 2 ^ 54) := by
  have hexp := deriveExp_eq data.length
  have hindex : (∀ off < data.length, fragIndex off (deriveExp data.length) =
      off / 2 ^ deriveExp data.length) ↔ data.length ≤ 2 ^ 54 := by
    rw [← fragOf_lt_iff]
    exact forall₂_congr fun off _ => Nat.mod_eq_iff_lt (by decide)
  refine ⟨⟨fragsizeFloorExp_le_deriveExp _, ?_, fun larger hle => ?_⟩, exact_splitFixed data _,
    hindex, ?_⟩
  · rw [hexp, maxFragsizeExp]
    split_ifs <;> omega
  · rw [hexp, deriveExp_eq]
    split_ifs <;> omega
  · rw [← hindex, map_fst_splitFixed, length_splitFixed]
    nth_rewrite 2 [← List.map_id (List.range _)]
    rw [List.map_inj_left]
    -- the fragments are those of the offsets at which they start
    constructor
    · intro h off hoff
      refine h _ (List.mem_range.mpr (lt_fragCount_iff.mpr ?_))
      exact (Nat.div_mul_le_self off _).trans_lt hoff
    · intro h j hj
      have := h _ (lt_fragCount_iff.mp (List.mem_range.mp hj))
      rwa [fragIndex, fragOf, Nat.mul_div_cancel _ (Nat.two_pow_pos _)] at this

end Sfs

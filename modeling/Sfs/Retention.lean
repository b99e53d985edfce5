import Sfs.Unit

/-!
# Retention of superseded blocks

A superseded block lives in the eviction tail, with the commits that pin it. An eviction
strategy decides which tail blocks to drop; it never drops a pinned one
(`commits_eq_nil_of_mem_applyStrategy`).
-/

namespace Sfs

open Sfs.Lib List

variable {blocks : List Evicted} {strategy : EvictionStrategy} {nowUtc : Int} {b : Evicted} {i : Nat}
  {m : BucketOf → Option (Int × Nat)}

/-- A tail block as the scan returns it, with its contents. -/
structure Evicted where
  uuid : Uuid
  frag : Nat
  oldVersion : BlockVersion
  commits : List Uuid
  timestamp : Int
  block : Bytes
  deriving DecidableEq, Repr

def Evicted.isPinned (b : Evicted) : Bool := b.commits ≠ []

def secsPerHour : Int := 3600
def secsPerDay : Int := 86400
def secsPerMonth : Int := 30 * secsPerDay
def secsPerYear : Int := 365 * secsPerDay

def i64Min : Int := -2 ^ 63
def i64Max : Int := 2 ^ 63 - 1

/-- `i64::saturating_sub`. -/
def saturatingSub (a b : Int) : Int := max i64Min (min i64Max (a - b))

structure Schedule where
  keepAllSecs : Int
  hourlySecs : Int
  dailySecs : Int
  monthlySecs : Int
  deriving DecidableEq, Repr

inductive BucketKey where
  | fullRes (t : Int)
  | hour (slot : Int)
  | day (slot : Int)
  | month (slot : Int)
  | year (slot : Int)
  deriving DecidableEq, Repr

/-- The slot in which a block of this age competes; Rust's division rounds towards zero. -/
def Schedule.bucket (s : Schedule) (age timestamp : Int) : BucketKey :=
  if age < s.keepAllSecs then .fullRes timestamp
  else if age < s.hourlySecs then .hour (timestamp.tdiv secsPerHour)
  else if age < s.dailySecs then .day (timestamp.tdiv secsPerDay)
  else if age < s.monthlySecs then .month (timestamp.tdiv secsPerMonth)
  else .year (timestamp.tdiv secsPerYear)

inductive EvictionStrategy where
  | timeMachine (s : Schedule)
  | keepAll
  | horizon (keep : Int)
  deriving DecidableEq, Repr

/-- A fragment and a bucket of it. -/
abbrev BucketOf := (Uuid × Nat) × BucketKey

def Schedule.bucketOf (s : Schedule) (nowUtc : Int) (b : Evicted) : BucketOf :=
  ((b.uuid, b.frag), s.bucket (saturatingSub nowUtc b.timestamp) b.timestamp)

/-- Enter the block of index `i` in its bucket's race for the newest timestamp. -/
def enterBucket (b : Evicted) (i : Nat) (entry : Option (Int × Nat)) : Int × Nat :=
  let e := entry.getD (i64Min, i)
  if e.1 < b.timestamp then (b.timestamp, i) else e

/-- The newest unpinned block of each bucket, as (timestamp, index); the first index is `i`. -/
def winners (s : Schedule) (nowUtc : Int) :
    List Evicted → Nat → (BucketOf → Option (Int × Nat)) → BucketOf → Option (Int × Nat)
  | [], _, m => m
  | b :: bs, i, m =>
    if b.isPinned then winners s nowUtc bs (i + 1) m
    else
      let k := s.bucketOf nowUtc b
      winners s nowUtc bs (i + 1) fun k' => if k' = k then some (enterBucket b i (m k)) else m k'

/-- Whether the strategy drops the block `b` of index `i`. -/
def drops (blocks : List Evicted) (strategy : EvictionStrategy) (nowUtc : Int) (b : Evicted)
    (i : Nat) : Bool :=
  match strategy with
  | .keepAll => false
  | .horizon keep => !b.isPinned && decide (keep ≤ saturatingSub nowUtc b.timestamp)
  | .timeMachine s =>
    !b.isPinned &&
      (winners s nowUtc blocks 0 (fun _ => none) (s.bucketOf nowUtc b)).map Prod.snd ≠ some i

/-- The indices of the blocks to drop. -/
def applyStrategy (blocks : List Evicted) (strategy : EvictionStrategy) (nowUtc : Int) : List Nat :=
  (blocks.zipIdx.filter fun bi => drops blocks strategy nowUtc bi.1 bi.2).map Prod.snd

/-- What is left of the tail. -/
def retain (blocks : List Evicted) (strategy : EvictionStrategy) (nowUtc : Int) : List Evicted :=
  (blocks.zipIdx.filter fun bi => bi.2 ∉ applyStrategy blocks strategy nowUtc).map Prod.fst

theorem not_isPinned_of_drops (h : drops blocks strategy nowUtc b i = true) : b.isPinned = false := by
  cases strategy with
  | keepAll => simp [drops] at h
  | horizon keep =>
    simp only [drops, Bool.and_eq_true, Bool.not_eq_true'] at h
    exact h.1
  | timeMachine s =>
    simp only [drops, Bool.and_eq_true, Bool.not_eq_true'] at h
    exact h.1

theorem mem_applyStrategy_iff (hb : blocks[i]? = some b) :
    i ∈ applyStrategy blocks strategy nowUtc ↔ drops blocks strategy nowUtc b i = true := by
  constructor
  · intro h
    obtain ⟨⟨b', i'⟩, hmem, rfl⟩ := mem_map.mp h
    obtain ⟨hz, hd⟩ := mem_filter.mp hmem
    rw [mem_zipIdx_iff_getElem?, hb] at hz
    cases hz
    exact hd
  · intro h
    exact mem_map.mpr ⟨(b, i), mem_filter.mpr ⟨mem_zipIdx_iff_getElem?.mpr hb, h⟩, rfl⟩

theorem commits_eq_nil_of_mem_applyStrategy (hb : blocks[i]? = some b)
    (h : i ∈ applyStrategy blocks strategy nowUtc) : b.commits = [] := by
  simpa [Evicted.isPinned] using not_isPinned_of_drops ((mem_applyStrategy_iff hb).mp h)

/-! ## Who wins a bucket -/

section

variable {s : Schedule} {nowUtc : Int}

theorem enterBucket_none (i : Nat) (h : i64Min ≤ b.timestamp) :
    enterBucket b i none = (b.timestamp, i) := by
  show (if i64Min < b.timestamp then (b.timestamp, i) else (i64Min, i)) = _
  split
  · rfl
  · rw [show b.timestamp = i64Min by omega]

theorem enterBucket_some (b : Evicted) (i : Nat) (t : Int) (n : Nat) :
    enterBucket b i (some (t, n)) = if t < b.timestamp then (b.timestamp, i) else (t, n) := rfl

/-- The entries once the block of index `i` is in its bucket. -/
def entered (s : Schedule) (nowUtc : Int) (b : Evicted) (i : Nat) (m : BucketOf → Option (Int × Nat)) :
    BucketOf → Option (Int × Nat) :=
  fun k' => if k' = s.bucketOf nowUtc b then some (enterBucket b i (m (s.bucketOf nowUtc b))) else m k'

theorem entered_self (b : Evicted) (i : Nat) (m : BucketOf → Option (Int × Nat)) :
    entered s nowUtc b i m (s.bucketOf nowUtc b) =
      some (enterBucket b i (m (s.bucketOf nowUtc b))) := if_pos rfl

theorem winners_pinned (hp : b.isPinned = true) (bs : List Evicted) (i : Nat)
    (m : BucketOf → Option (Int × Nat)) :
    winners s nowUtc (b :: bs) i m = winners s nowUtc bs (i + 1) m := if_pos hp

theorem winners_unpinned (hp : b.isPinned = false) (bs : List Evicted) (i : Nat)
    (m : BucketOf → Option (Int × Nat)) :
    winners s nowUtc (b :: bs) i m = winners s nowUtc bs (i + 1) (entered s nowUtc b i m) :=
  if_neg (hp ▸ Bool.false_ne_true)

/-- An entry gives way to a newer block only. -/
theorem winners_of_entry (bs : List Evicted) (i : Nat) {k : BucketOf} {t : Int} {n : Nat}
    (hm : m k = some (t, n)) :
    ∃ t' n', winners s nowUtc bs i m k = some (t', n') ∧ (t < t' ∨ t = t' ∧ n' = n) := by
  induction bs generalizing i m t n with
  | nil => exact ⟨t, n, hm, .inr ⟨rfl, rfl⟩⟩
  | cons b bs ih =>
    cases hp : b.isPinned with
    | true =>
      rw [winners_pinned hp]
      exact ih _ hm
    | false =>
      rw [winners_unpinned hp]
      by_cases hk : k = s.bucketOf nowUtc b
      · subst hk
        by_cases ht : t < b.timestamp
        · have hentry : entered s nowUtc b i m (s.bucketOf nowUtc b) = some (b.timestamp, i) := by
            rw [entered_self, hm, enterBucket_some, if_pos ht]
          obtain ⟨t', n', hw, hle⟩ := ih (i + 1) hentry
          exact ⟨t', n', hw, .inl (by omega)⟩
        · refine ih _ ?_
          rw [entered_self, hm, enterBucket_some, if_neg ht]
      · exact ih _ ((if_neg hk).trans hm)

/-- The entry of the block that just came in, or of one at least as new. -/
theorem enterBucket_bound (hmin : i64Min ≤ b.timestamp) {e : Option (Int × Nat)}
    (he : ∀ t n, e = some (t, n) → n < i) :
    (b.timestamp < (enterBucket b i e).1 ∨ b.timestamp = (enterBucket b i e).1) ∧
      (enterBucket b i e).2 ≤ i := by
  cases e with
  | none =>
    rw [enterBucket_none i hmin]
    exact ⟨.inr rfl, Nat.le_refl i⟩
  | some e =>
    have hlt := he _ _ rfl
    rw [enterBucket_some]
    split
    · exact ⟨.inr rfl, Nat.le_refl i⟩
    · exact ⟨by omega, le_of_lt hlt⟩

/-- The winner is as new as every unpinned block of the bucket, and the first of those as new. -/
theorem winners_bound {bs : List Evicted} (hmin : ∀ b ∈ bs, i64Min ≤ b.timestamp)
    (hm : ∀ k t n, m k = some (t, n) → n < i) {j : Nat} (hb : bs[j]? = some b)
    (hp : b.isPinned = false) :
    ∃ t n, winners s nowUtc bs i m (s.bucketOf nowUtc b) = some (t, n) ∧
      (b.timestamp < t ∨ b.timestamp = t ∧ n ≤ i + j) := by
  induction bs generalizing i m j with
  | nil => cases hb
  | cons b' bs ih =>
    have hmin' := fun b hb => hmin b (.tail b' hb)
    cases j with
    | zero =>
      cases hb
      rw [winners_unpinned hp]
      obtain ⟨hle, hi⟩ := enterBucket_bound (hmin b (.head _)) (hm (s.bucketOf nowUtc b))
      have hentry : entered s nowUtc b i m _ = _ := entered_self b i m
      generalize enterBucket b i (m (s.bucketOf nowUtc b)) = e at hle hi hentry
      obtain ⟨t, n, hw, hle'⟩ := winners_of_entry bs (i + 1) hentry
      exact ⟨t, n, hw, by omega⟩
    | succ j =>
      rw [show i + (j + 1) = i + 1 + j by omega]
      cases hp' : b'.isPinned with
      | true =>
        rw [winners_pinned hp']
        exact ih hmin' (fun k t n h => Nat.lt_succ_of_lt (hm k t n h)) hb
      | false =>
        rw [winners_unpinned hp']
        refine ih hmin' (fun k t n h => ?_) hb
        unfold entered at h
        split at h
        · have hi := (enterBucket_bound (hmin b' (.head _)) (hm (s.bucketOf nowUtc b'))).2
          rw [Option.some.inj h] at hi
          exact Nat.lt_succ_of_le hi
        · exact Nat.lt_succ_of_lt (hm k t n h)

/-- The winner of a bucket is one of its unpinned blocks. -/
theorem winners_source {bs : List Evicted} (hmin : ∀ b ∈ bs, i64Min ≤ b.timestamp) {k : BucketOf}
    {t : Int} {n : Nat} (h : winners s nowUtc bs i m k = some (t, n)) :
    m k = some (t, n) ∨
      ∃ j b, bs[j]? = some b ∧ b.isPinned = false ∧ s.bucketOf nowUtc b = k ∧ t = b.timestamp ∧
        n = i + j := by
  induction bs generalizing i m with
  | nil => exact .inl h
  | cons b bs ih =>
    have hmin' := fun b' hb => hmin b' (.tail b hb)
    have hshift : (∃ j b', bs[j]? = some b' ∧ b'.isPinned = false ∧ s.bucketOf nowUtc b' = k ∧
      t = b'.timestamp ∧ n = i + 1 + j) →
        ∃ j b', (b :: bs)[j]? = some b' ∧ b'.isPinned = false ∧ s.bucketOf nowUtc b' = k ∧
          t = b'.timestamp ∧ n = i + j := by
      rintro ⟨j, b', hb', hp, hk, ht, hn⟩
      exact ⟨j + 1, b', hb', hp, hk, ht, by omega⟩
    cases hp : b.isPinned with
    | true =>
      rw [winners_pinned hp] at h
      exact (ih hmin' h).imp id hshift
    | false =>
      rw [winners_unpinned hp] at h
      refine (ih hmin' h).elim (fun hm => ?_) fun hrest => .inr (hshift hrest)
      unfold entered at hm
      split at hm
      · rename_i hk
        have hself : ∃ j b', (b :: bs)[j]? = some b' ∧ b'.isPinned = false ∧ s.bucketOf nowUtc b' = k ∧
            b.timestamp = b'.timestamp ∧ i = i + j := ⟨0, b, rfl, hp, hk.symm, rfl, rfl⟩
        cases he : m (s.bucketOf nowUtc b) with
        | none =>
          rw [he, enterBucket_none i (hmin b (.head _))] at hm
          cases hm
          exact .inr hself
        | some e =>
          rw [he, enterBucket_some] at hm
          split at hm <;> cases hm
          · exact .inr hself
          · exact .inl (hk ▸ he)
      · exact .inl hm

end

/-- A strategy has no use for a block: it is too old, or another unpinned block of its bucket is
newer or, as new, comes before it. -/
def Outlived (blocks : List Evicted) (strategy : EvictionStrategy) (nowUtc : Int) (b : Evicted)
    (i : Nat) : Prop :=
  match strategy with
  | .keepAll => False
  | .horizon keep => keep ≤ saturatingSub nowUtc b.timestamp
  | .timeMachine s => ∃ j b', blocks[j]? = some b' ∧ b'.commits = [] ∧
    s.bucketOf nowUtc b' = s.bucketOf nowUtc b ∧
      (b.timestamp < b'.timestamp ∨ b.timestamp = b'.timestamp ∧ j < i)

theorem isPinned_eq_false : b.isPinned = false ↔ b.commits = [] := by
  simp [Evicted.isPinned]

/-- What is dropped: the unpinned blocks the strategy has no use for. -/
theorem mem_applyStrategy (hmin : ∀ b ∈ blocks, i64Min ≤ b.timestamp) (hb : blocks[i]? = some b) :
    i ∈ applyStrategy blocks strategy nowUtc ↔
      b.commits = [] ∧ Outlived blocks strategy nowUtc b i := by
  rw [mem_applyStrategy_iff hb]
  cases strategy with
  | keepAll => simp [drops, Outlived]
  | horizon keep => simp [drops, Outlived, isPinned_eq_false]
  | timeMachine s =>
    simp only [drops, Outlived, Bool.and_eq_true, Bool.not_eq_true', isPinned_eq_false,
      decide_eq_true_eq]
    refine and_congr_right fun hp => ?_
    have hstart : ∀ (k : BucketOf) (t : Int) (n : Nat), none = some (t, n) → n < 0 := nofun
    obtain ⟨t, n, hw, hle⟩ := winners_bound (s := s) hmin hstart hb (isPinned_eq_false.mpr hp)
    obtain ⟨j, b', hb', hp', hk, rfl, rfl⟩ := (winners_source hmin hw).resolve_left nofun
    rw [hw]
    constructor
    · intro hne
      refine ⟨j, b', hb', isPinned_eq_false.mp hp', hk, hle.imp id fun h => ⟨h.1, ?_⟩⟩
      have : 0 + j ≠ i := fun h => hne (congrArg some h)
      omega
    · rintro ⟨j', c, hc, hpc, hkc, hlec⟩ heq
      have hji : 0 + j = i := Option.some.inj heq
      obtain ⟨t', n', hw', hle'⟩ := winners_bound (s := s) hmin hstart hc (isPinned_eq_false.mpr hpc)
      rw [hkc, hw] at hw'
      cases hw'
      rw [show j = i by omega, hb] at hb'
      cases hb'
      omega

theorem mem_retain_iff : b ∈ retain blocks strategy nowUtc ↔
    ∃ i, blocks[i]? = some b ∧ i ∉ applyStrategy blocks strategy nowUtc := by
  simp [retain, mem_zipIdx_iff_getElem?]

theorem mem_of_mem_retain (h : b ∈ retain blocks strategy nowUtc) : b ∈ blocks := by
  obtain ⟨i, hi, -⟩ := mem_retain_iff.mp h
  exact mem_of_getElem? hi

theorem mem_retain_of_pinned (hb : b ∈ blocks) (hp : b.commits ≠ []) :
    b ∈ retain blocks strategy nowUtc := by
  obtain ⟨i, hi⟩ := mem_iff_getElem?.mp hb
  exact mem_retain_iff.mpr ⟨i, hi, fun hdrop => hp (commits_eq_nil_of_mem_applyStrategy hi hdrop)⟩

/-! ## What thinning keeps -/

/-- Younger than the window in which everything is to be kept. -/
def Schedule.Young (s : Schedule) (nowUtc : Int) (b : Evicted) : Prop :=
  saturatingSub nowUtc b.timestamp < s.keepAllSecs

/-- No unpinned block of its bucket is newer than `b`, or as new and before the index `i`. -/
def Schedule.Newest (s : Schedule) (nowUtc : Int) (blocks : List Evicted) (b : Evicted) (i : Nat) :
    Prop :=
  ∀ j c, blocks[j]? = some c → c.commits = [] → s.bucketOf nowUtc c = s.bucketOf nowUtc b →
    c.timestamp < b.timestamp ∨ c.timestamp = b.timestamp ∧ i ≤ j

/-- What a schedule promises. -/
structure Schedule.Thinned (s : Schedule) (nowUtc : Int) (blocks : List Evicted) : Prop where
  kept : ∀ i b, blocks[i]? = some b →
    (i ∉ applyStrategy blocks (.timeMachine s) nowUtc ↔
      b.commits ≠ [] ∨ s.Young nowUtc b ∨ s.Newest nowUtc blocks b i)
  some_left : ∀ b ∈ blocks, ∃ c ∈ retain blocks (.timeMachine s) nowUtc,
    c.uuid = b.uuid ∧ c.frag = b.frag
  settled : applyStrategy (retain blocks (.timeMachine s) nowUtc) (.timeMachine s) nowUtc = []

/-- Two unpinned blocks of one fragment in the window have different timestamps. -/
def Schedule.Apart (s : Schedule) (nowUtc : Int) (blocks : List Evicted) : Prop :=
  blocks.Pairwise fun b c => b.commits = [] ∧ c.commits = [] ∧ c.uuid = b.uuid ∧ c.frag = b.frag ∧
    c.timestamp = b.timestamp → s.keepAllSecs ≤ saturatingSub nowUtc b.timestamp

instance (s : Schedule) (nowUtc : Int) (blocks : List Evicted) : Decidable (s.Apart nowUtc blocks) :=
  inferInstanceAs (Decidable (Pairwise _ blocks))

section

variable {s : Schedule} {c : Evicted} {j : Nat}

theorem not_outlived_iff :
    ¬ Outlived blocks (.timeMachine s) nowUtc b i ↔ s.Newest nowUtc blocks b i := by
  simp only [Outlived, Schedule.Newest]
  push Not
  exact forall₅_congr fun j c _ _ _ => by omega

/-- In the window a bucket is one timestamp of one fragment. -/
theorem bucketOf_young (hy : s.Young nowUtc b) :
    s.bucketOf nowUtc c = s.bucketOf nowUtc b ↔
      c.uuid = b.uuid ∧ c.frag = b.frag ∧ c.timestamp = b.timestamp := by
  have hb : s.bucketOf nowUtc b = ((b.uuid, b.frag), .fullRes b.timestamp) := by
    rw [Schedule.bucketOf, Schedule.bucket, if_pos (show saturatingSub _ _ < _ from hy)]
  constructor
  · intro h
    rw [hb] at h
    unfold Schedule.bucketOf Schedule.bucket at h
    repeat' split at h
    all_goals simp_all
  · rintro ⟨hu, hf, ht⟩
    simp only [Schedule.bucketOf, hu, hf, ht]

/-- A bucket with an unpinned block keeps one. -/
theorem exists_mem_retain (hmin : ∀ b ∈ blocks, i64Min ≤ b.timestamp) (hb : blocks[i]? = some b)
    (hp : b.commits = []) :
    ∃ c ∈ retain blocks (.timeMachine s) nowUtc, s.bucketOf nowUtc c = s.bucketOf nowUtc b := by
  have hstart : ∀ (k : BucketOf) (t : Int) (n : Nat), none = some (t, n) → n < 0 := nofun
  obtain ⟨t, n, hw, -⟩ : ∃ t n, winners s nowUtc blocks 0 (fun _ => none) (s.bucketOf nowUtc b) =
      some (t, n) ∧ _ :=
    winners_bound hmin hstart hb (isPinned_eq_false.mpr hp)
  obtain ⟨j, c, hc, -, hk, -, rfl⟩ := (winners_source hmin hw).resolve_left nofun
  refine ⟨c, mem_retain_iff.mpr ⟨j, hc, fun hdrop => ?_⟩, hk⟩
  have hd := (mem_applyStrategy_iff hc).mp hdrop
  simp [drops, hk, hw] at hd

theorem retain_getElem? (hb : (retain blocks strategy nowUtc)[i]? = some b)
    (hc : (retain blocks strategy nowUtc)[j]? = some c) :
    ∃ i' j', blocks[i']? = some b ∧ i' ∉ applyStrategy blocks strategy nowUtc ∧
      blocks[j']? = some c ∧ (j < i → j' < i') := by
  have hord : (blocks.zipIdx.filter fun bi => bi.2 ∉ applyStrategy blocks strategy nowUtc).Pairwise
      fun x y => x.2 < y.2 := by
    refine Pairwise.filter _ (pairwise_map.mp ?_)
    rw [zipIdx_map_snd]
    exact pairwise_lt_range'
  rw [retain, getElem?_map, Option.map_eq_some_iff] at hb hc
  obtain ⟨⟨_, i'⟩, hi, rfl⟩ := hb
  obtain ⟨⟨_, j'⟩, hj, rfl⟩ := hc
  have hmem := mem_filter.mp (mem_of_getElem? hi)
  refine ⟨i', j', mem_zipIdx_iff_getElem?.mp hmem.1, of_decide_eq_true hmem.2,
    mem_zipIdx_iff_getElem?.mp (mem_filter.mp (mem_of_getElem? hj)).1, fun hlt => ?_⟩
  obtain ⟨hi, hi'⟩ := List.getElem?_eq_some_iff.mp hi
  obtain ⟨hj, hj'⟩ := List.getElem?_eq_some_iff.mp hj
  have := pairwise_iff_getElem.mp hord j i hj hi hlt
  rwa [hi', hj'] at this

theorem applyStrategy_retain (hmin : ∀ b ∈ blocks, i64Min ≤ b.timestamp) :
    applyStrategy (retain blocks (.timeMachine s) nowUtc) (.timeMachine s) nowUtc = [] := by
  refine eq_nil_iff_forall_not_mem.mpr fun i hi => ?_
  obtain ⟨⟨b, i⟩, hmem, rfl⟩ := mem_map.mp hi
  have hb := mem_zipIdx_iff_getElem?.mp (mem_filter.mp hmem).1
  obtain ⟨hp, j, c, hc, hpc, hk, hle⟩ :=
    (mem_applyStrategy (fun b hb => hmin b (mem_of_mem_retain hb)) hb).mp hi
  obtain ⟨i', j', hb', hkept, hc', hlt⟩ := retain_getElem? hb hc
  exact hkept ((mem_applyStrategy hmin hb').mpr
    ⟨hp, j', c, hc', hpc, hk, hle.imp_right fun h => ⟨h.1, hlt h.2⟩⟩)

/-- A schedule keeps its promise, but for blocks of one fragment in the window with one
timestamp. -/
theorem thinned_iff (hmin : ∀ b ∈ blocks, i64Min ≤ b.timestamp) :
    s.Thinned nowUtc blocks ↔ s.Apart nowUtc blocks := by
  have hmem : ∀ i b, blocks[i]? = some b → (i ∉ applyStrategy blocks (.timeMachine s) nowUtc ↔
      b.commits ≠ [] ∨ s.Newest nowUtc blocks b i) := fun i b hb => by
    rw [mem_applyStrategy hmin hb, not_and_or, not_outlived_iff]
  constructor
  · intro h
    refine pairwise_iff_getElem.mpr fun i j hi hj hij ⟨hp, hpc, hsame⟩ => le_of_not_gt fun hy => ?_
    have hold := (h.kept j _ (getElem?_eq_getElem hj)).mpr
      (.inr (.inl (show saturatingSub _ _ < _ by rwa [hsame.2.2])))
    have hb := getElem?_eq_getElem hi
    rcases (hmem j _ (getElem?_eq_getElem hj)).mp hold with hpin | hnew
    · exact hpin hpc
    · have := hnew i _ hb hp ((bucketOf_young hy).mpr hsame).symm
      have := hsame.2.2
      omega
  · intro h
    refine ⟨fun i b hb => ?_, fun b hb => ?_, applyStrategy_retain hmin⟩
    · rw [hmem i b hb]
      refine or_congr_right' fun hp => ⟨.inr, fun hn => hn.elim (fun hy j c hc hpc hk => ?_) id⟩
      obtain ⟨hu, hf, ht⟩ := (bucketOf_young hy).mp hk
      refine .inr ⟨ht, not_lt.mp fun hji => ?_⟩
      obtain ⟨hi, rfl⟩ := List.getElem?_eq_some_iff.mp hb
      obtain ⟨hj, rfl⟩ := List.getElem?_eq_some_iff.mp hc
      have hold := pairwise_iff_getElem.mp h j i hj hi hji
        ⟨hpc, not_not.mp hp, hu.symm, hf.symm, ht.symm⟩
      rw [ht] at hold
      exact absurd hy (not_lt.mpr hold)
    · by_cases hp : b.commits = []
      · obtain ⟨i, hi⟩ := mem_iff_getElem?.mp hb
        obtain ⟨c, hc, hk⟩ : ∃ c ∈ retain blocks (.timeMachine s) nowUtc,
            s.bucketOf nowUtc c = s.bucketOf nowUtc b :=
          exists_mem_retain hmin hi hp
        obtain ⟨hu, hf⟩ := Prod.mk.inj (congrArg Prod.fst hk)
        exact ⟨c, hc, hu, hf⟩
      · exact ⟨b, mem_retain_of_pinned hb hp, rfl, rfl⟩

end

/-- `Schedule::DEFAULT`. -/
def Schedule.default : Schedule := ⟨secsPerHour, 24 * secsPerHour, 14 * secsPerDay, secsPerYear⟩

/-- A version of a fragment that was superseded at `t`. -/
def supersededAt (t : Int) : Evicted := ⟨0, 0, 1, [], t, []⟩

theorem thinned_hours : Schedule.default.Thinned 100000 [supersededAt 90000, supersededAt 91000] :=
  (thinned_iff (by decide)).mpr (by decide)

/-- Two versions of one second. -/
theorem not_thinned_second :
    ¬ Schedule.default.Thinned 100000 [supersededAt 99999, supersededAt 99999] := by
  intro h
  have hkept :=
    (h.kept 1 (supersededAt 99999) rfl).mpr (.inr (.inl (show saturatingSub _ _ < _ by decide)))
  exact hkept (by decide)

end Sfs

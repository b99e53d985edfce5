import Mathlib.Data.List.MinMax
import Sfs.Basic

/-!
# Negotiating a suite

Every peer intersects the capability lists that it knows of, its own first, and takes the common
suite with the smallest worst rank, the stronger one of two that tie. The suites outside
`SECURITY_ORDER` tie with each other, and a list that ranks a suite twice is read up to the first
entry; apart from these the choice depends on the set of lists only (`negotiate_symmetric`).
-/

namespace Sfs.Sync

open List

abbrev CipherSuiteId := UInt16

def CIPHER_NONE : CipherSuiteId := 0

def CIPHER_AES256_GCM : CipherSuiteId := 1

def CIPHER_XTS_AES256 : CipherSuiteId := 2

structure RankedCap where
  suite : CipherSuiteId
  rank : UInt8
  deriving DecidableEq, Repr

/-- Strongest first. -/
def SECURITY_ORDER : List CipherSuiteId := [CIPHER_AES256_GCM, CIPHER_XTS_AES256, CIPHER_NONE]

def securityRank (id : CipherSuiteId) : Nat :=
  if id ∈ SECURITY_ORDER then SECURITY_ORDER.idxOf id else 255

def capRank (peer : List RankedCap) (id : CipherSuiteId) : Nat :=
  ((peer.find? (·.suite = id)).map (·.rank.toNat)).getD 255

def worstRank (peers : List (List RankedCap)) (id : CipherSuiteId) : Nat :=
  ((peers.map (capRank · id)).max?).getD 255

/-- The loop over the other peers; it ends when nothing is left. -/
def intersect : List CipherSuiteId → List (List RankedCap) → List CipherSuiteId
  | common, [] => common
  | common, peer :: rest =>
    let common := common.filter (peer.map (·.suite)).contains
    if common = [] then [] else intersect common rest

/-- The worst rank, then the strength; `argmin` is the source's `min_by`, the first of the
smallest. -/
def preference (peers : List (List RankedCap)) (id : CipherSuiteId) : Nat ×ₗ Nat :=
  toLex (worstRank peers id, securityRank id)

def candidates (common : List CipherSuiteId) : List CipherSuiteId :=
  if common.any (· ≠ CIPHER_NONE) then common.filter (· ≠ CIPHER_NONE) else common

def negotiate : List (List RankedCap) → Option CipherSuiteId
  | [] => none
  | peer :: rest =>
    (candidates (intersect (peer.map (·.suite)) rest)).argmin (preference (peer :: rest))

/-- What a peer feeds in: its own list, then those of the others it has fetched. -/
def peerCaps (pid : String) (ranked : List RankedCap) (all : List (String × List RankedCap)) :
    List (List RankedCap) :=
  ranked :: (all.filter (·.1 ≠ pid)).map (·.2)

/-! ## What is chosen -/

/-- Every peer lists the suite. -/
def Common (peers : List (List RankedCap)) (id : CipherSuiteId) : Prop :=
  ∀ peer ∈ peers, ∃ c ∈ peer, c.suite = id

variable {ps qs : List (List RankedCap)} {s : CipherSuiteId}

theorem mem_intersect {common : List CipherSuiteId} (rest : List (List RankedCap)) :
    s ∈ intersect common rest ↔ s ∈ common ∧ Common rest s := by
  induction rest generalizing common with
  | nil => simp [intersect, Common]
  | cons peer rest ih =>
    have hmem : s ∈ common.filter (peer.map (·.suite)).contains ↔
        s ∈ common ∧ ∃ c ∈ peer, c.suite = s := by
      simp [mem_filter]
    have hcons : Common (peer :: rest) s ↔ (∃ c ∈ peer, c.suite = s) ∧ Common rest s := forall_mem_cons
    rw [hcons, ← and_assoc, ← hmem, intersect]
    split
    · rename_i hnil
      simp [hnil]
    · exact ih

/-- Common, and `NONE` only by itself. -/
def Candidate (peers : List (List RankedCap)) (id : CipherSuiteId) : Prop :=
  Common peers id ∧ (id = CIPHER_NONE → ∀ t, Common peers t → t = CIPHER_NONE)

theorem mem_candidates {common : List CipherSuiteId} :
    s ∈ candidates common ↔ s ∈ common ∧ (s = CIPHER_NONE → ∀ t ∈ common, t = CIPHER_NONE) := by
  unfold candidates
  split
  · rename_i hany
    obtain ⟨t, ht, hne⟩ := any_eq_true.mp hany
    simp only [mem_filter, decide_eq_true_eq]
    exact and_congr_right fun _ =>
      ⟨fun hs h => absurd h hs, fun h hs => of_decide_eq_true hne (h hs t ht)⟩
  · rename_i hany
    simp only [any_eq_true, not_exists, not_and, decide_eq_true_eq, not_not] at hany
    exact ⟨fun h => ⟨h, fun _ => hany⟩, And.left⟩

theorem mem_candidates_intersect {peer : List RankedCap} {rest : List (List RankedCap)} :
    s ∈ candidates (intersect (peer.map (·.suite)) rest) ↔ Candidate (peer :: rest) s := by
  have hmem : ∀ t, t ∈ intersect (peer.map (·.suite)) rest ↔ Common (peer :: rest) t := fun t => by
    rw [mem_intersect, mem_map, Common, Common, forall_mem_cons]
  simp only [mem_candidates, hmem, Candidate]

theorem negotiate_some (h : negotiate ps = some s) :
    Candidate ps s ∧ ∀ t, Candidate ps t → preference ps s ≤ preference ps t := by
  cases ps with
  | nil => cases h
  | cons peer rest =>
    exact ⟨mem_candidates_intersect.mp (argmin_mem h),
      fun t ht => le_of_mem_argmin (mem_candidates_intersect.mpr ht) h⟩

theorem exists_candidate (h : Common ps s) : ∃ t, Candidate ps t := by
  by_cases hex : ∃ t, Common ps t ∧ t ≠ CIPHER_NONE
  · obtain ⟨t, ht, hne⟩ := hex
    exact ⟨t, ht, fun h => absurd h hne⟩
  · simp only [not_exists, not_and, not_not] at hex
    exact ⟨s, h, fun _ => hex⟩

theorem negotiate_none_iff : negotiate ps = none ↔ ps = [] ∨ ∀ t, ¬ Common ps t := by
  cases ps with
  | nil => exact iff_of_true rfl (.inl rfl)
  | cons peer rest =>
    rw [negotiate, argmin_eq_none, eq_nil_iff_forall_not_mem, or_iff_right (cons_ne_nil _ _)]
    simp only [mem_candidates_intersect]
    exact ⟨fun h t ht => (exists_candidate ht).elim h, fun h t ht => h t ht.1⟩

/-! ## The order of the lists -/

/-- The same lists, each with the same entries. -/
def SameCaps (ps qs : List (List RankedCap)) : Prop :=
  (∀ p ∈ ps, ∃ q ∈ qs, ∀ c, c ∈ p ↔ c ∈ q) ∧ ∀ q ∈ qs, ∃ p ∈ ps, ∀ c, c ∈ p ↔ c ∈ q

/-- A list gives a suite one rank. -/
def OneRank (p : List RankedCap) : Prop := ∀ c ∈ p, ∀ d ∈ p, c.suite = d.suite → c.rank = d.rank

theorem capRank_of_mem {p : List RankedCap} {c : RankedCap} (h : OneRank p) (hc : c ∈ p) :
    capRank p c.suite = c.rank.toNat := by
  have hsome : (p.find? (·.suite = c.suite)).isSome := find?_isSome.mpr ⟨c, hc, decide_eq_true rfl⟩
  obtain ⟨d, hd⟩ := Option.isSome_iff_exists.mp hsome
  have heq : d.suite = c.suite := by simpa using find?_some hd
  rw [capRank, hd]
  exact congrArg UInt8.toNat (h d (mem_of_find?_eq_some hd) c hc heq)

theorem SameCaps.common_iff (h : SameCaps ps qs) : Common ps s ↔ Common qs s := by
  constructor
  · intro hc q hq
    obtain ⟨p, hp, hpq⟩ := h.2 q hq
    obtain ⟨c, hcp, hcs⟩ := hc p hp
    exact ⟨c, (hpq c).mp hcp, hcs⟩
  · intro hc p hp
    obtain ⟨q, hq, hpq⟩ := h.1 p hp
    obtain ⟨c, hcq, hcs⟩ := hc q hq
    exact ⟨c, (hpq c).mpr hcq, hcs⟩

theorem SameCaps.nil_iff (h : SameCaps ps qs) : ps = [] ↔ qs = [] := by
  simp only [eq_nil_iff_forall_not_mem]
  exact ⟨fun hp q hq => (h.2 q hq).elim fun p hpq => hp p hpq.1,
    fun hq p hp => (h.1 p hp).elim fun q hpq => hq q hpq.1⟩

theorem worstRank_le_iff (hne : ps ≠ []) {n : Nat} :
    worstRank ps s ≤ n ↔ ∀ p ∈ ps, capRank p s ≤ n := by
  unfold worstRank
  cases hmax : (ps.map (capRank · s)).max? with
  | none => exact absurd (map_eq_nil_iff.mp (max?_eq_none_iff.mp hmax)) hne
  | some m => simp [max?_le_iff hmax]

theorem SameCaps.worstRank_eq (h : SameCaps ps qs) (hrank : ∀ p ∈ ps, OneRank p) (hs : Common ps s) :
    worstRank ps s = worstRank qs s := by
  have hcap : ∀ p ∈ ps, ∀ q, (∀ c, c ∈ p ↔ c ∈ q) → capRank p s = capRank q s := by
    intro p hp q hpq
    obtain ⟨c, hc, rfl⟩ := hs p hp
    rw [capRank_of_mem (hrank p hp) hc, capRank_of_mem _ ((hpq c).mp hc)]
    exact fun c hc d hd => hrank p hp c ((hpq c).mpr hc) d ((hpq d).mpr hd)
  by_cases hne : ps = []
  · rw [hne, h.nil_iff.mp hne]
  have hne' : qs ≠ [] := mt h.nil_iff.mpr hne
  apply le_antisymm
  · refine (worstRank_le_iff hne).mpr fun p hp => ?_
    obtain ⟨q, hq, hpq⟩ := h.1 p hp
    rw [hcap p hp q hpq]
    exact (worstRank_le_iff hne').mp le_rfl q hq
  · refine (worstRank_le_iff hne').mpr fun q hq => ?_
    obtain ⟨p, hp, hpq⟩ := h.2 q hq
    rw [← hcap p hp q hpq]
    exact (worstRank_le_iff hne).mp le_rfl p hp

/-- The security order tells suites apart, those outside it excepted. -/
theorem eq_of_securityRank_eq {a b : CipherSuiteId} (h : securityRank a = securityRank b)
    (hout : a ∉ SECURITY_ORDER → b ∉ SECURITY_ORDER → a = b) : a = b := by
  have hlt : ∀ id ∈ SECURITY_ORDER, SECURITY_ORDER.idxOf id < 3 :=
    fun id hid => idxOf_lt_length_iff.mpr hid
  unfold securityRank at h
  split at h <;> rename_i ha <;> split at h <;> rename_i hb
  · exact (idxOf_inj ha).mp h
  · have := hlt a ha
    omega
  · have := hlt b hb
    omega
  · exact hout ha hb

/-- From the same lists the same suite is chosen, if each gives a suite one rank and at most one
common suite is outside the security order. -/
theorem negotiate_of_sameCaps (h : SameCaps ps qs) (hrank : ∀ p ∈ ps, OneRank p)
    (hknown : ∀ a b, Common ps a → Common ps b → a ∉ SECURITY_ORDER → b ∉ SECURITY_ORDER → a = b) :
    negotiate qs = negotiate ps := by
  have hnone : negotiate qs = none ↔ negotiate ps = none := by
    simp only [negotiate_none_iff, h.nil_iff, h.common_iff]
  have hcand : ∀ t, Candidate ps t ↔ Candidate qs t := fun t => by simp only [Candidate, h.common_iff]
  have hpref : ∀ t, Candidate ps t → preference ps t = preference qs t := fun t ht => by
    rw [preference, preference, h.worstRank_eq hrank ht.1]
  cases hp : negotiate ps with
  | none => exact hnone.mpr hp
  | some a =>
    cases hq : negotiate qs with
    | none => exact (hp.symm.trans (hnone.mp hq)).symm
    | some b =>
      obtain ⟨ha, hmin⟩ := negotiate_some hp
      obtain ⟨hb, hmin'⟩ := negotiate_some hq
      rw [← hcand] at hb
      have hba := hmin' a ((hcand a).mp ha)
      rw [← hpref a ha, ← hpref b hb] at hba
      have heq : preference ps b = preference ps a := le_antisymm hba (hmin b hb)
      exact congrArg some
        (eq_of_securityRank_eq (congrArg (fun x => (ofLex x).2) heq) (hknown b a hb.1 ha.1))

/-- A peer that has fetched all lists has the same ones as any other. -/
theorem sameCaps_peerCaps {all : List (String × List RankedCap)} (hkeys : (all.map Prod.fst).Nodup)
    {e : String × List RankedCap} (he : e ∈ all) :
    SameCaps (all.map Prod.snd) (peerCaps e.1 e.2 all) := by
  constructor
  · intro p hp
    obtain ⟨d, hd, rfl⟩ := mem_map.mp hp
    refine ⟨d.2, ?_, fun _ => Iff.rfl⟩
    by_cases hed : d.1 = e.1
    · rw [inj_on_of_nodup_map hkeys hd he hed]
      exact .head _
    · exact .tail _ (mem_map_of_mem (mem_filter.mpr ⟨hd, decide_eq_true hed⟩))
  · intro q hq
    refine ⟨q, ?_, fun _ => Iff.rfl⟩
    rcases mem_cons.mp hq with rfl | hq
    · exact mem_map_of_mem he
    · obtain ⟨d, hd, rfl⟩ := mem_map.mp hq
      exact mem_map_of_mem (mem_of_mem_filter hd)

/-- For the lists `all` of any peers: the choice is a common suite with the best worst rank among
the encrypting ones, `NONE` if there is no other, and there is none exactly if there is no common
suite. If each list gives a suite one rank and at most one common suite is outside the security
order, any order of the lists and of their entries gives the same, and so does every peer that has
fetched them. -/
theorem negotiate_symmetric (all : List (String × List RankedCap)) :
    let ps := all.map Prod.snd
    (negotiate ps = none ↔ ps = [] ∨ ∀ t, ¬ Common ps t) ∧
      (∀ s, negotiate ps = some s → Common ps s ∧
        (s = CIPHER_NONE → ∀ t, Common ps t → t = CIPHER_NONE) ∧
        ∀ t, Common ps t → t ≠ CIPHER_NONE → worstRank ps s ≤ worstRank ps t) ∧
      ((∀ e ∈ all, OneRank e.2) →
        (∀ a b, Common ps a → Common ps b → a ∉ SECURITY_ORDER → b ∉ SECURITY_ORDER → a = b) →
        (∀ qs, SameCaps ps qs → negotiate qs = negotiate ps) ∧
          ((all.map Prod.fst).Nodup →
            ∀ e ∈ all, negotiate (peerCaps e.1 e.2 all) = negotiate ps)) := by
  refine ⟨negotiate_none_iff, fun s hs => ?_, fun hrank hknown => ?_⟩
  · obtain ⟨hc, hmin⟩ := negotiate_some hs
    refine ⟨hc.1, hc.2, fun t ht hne => ?_⟩
    have hle := hmin t ⟨ht, fun h => absurd h hne⟩
    exact (Prod.Lex.toLex_le_toLex.mp hle).elim le_of_lt fun h => le_of_eq h.1
  · have hrank' : ∀ p ∈ all.map Prod.snd, OneRank p := fun p hp => by
      obtain ⟨e, he, rfl⟩ := mem_map.mp hp
      exact hrank e he
    exact ⟨fun qs h => negotiate_of_sameCaps h hrank' hknown,
      fun hkeys e he => negotiate_of_sameCaps (sameCaps_peerCaps hkeys he) hrank' hknown⟩

theorem negotiate_symmetric_two :
    let all := [("peer-1", [⟨1, 2⟩, ⟨2, 1⟩, ⟨0, 3⟩]), ("peer-2", [⟨2, 2⟩, ⟨1, 1⟩, ⟨0, 3⟩])]
    ∀ e ∈ all, negotiate (peerCaps e.1 e.2 all) = some CIPHER_AES256_GCM := by
  intro all e he
  have hout : ∀ a, Common (all.map Prod.snd) a → a ∈ SECURITY_ORDER := fun a ha => by
    obtain ⟨c, hc, rfl⟩ := ha _ (.head _)
    clear ha
    revert c
    decide
  have hsame := ((negotiate_symmetric all).2.2 (by unfold OneRank; decide)
    fun a b ha _ hna _ => absurd (hout a ha) hna).2 (by decide) e he
  exact hsame.trans (by decide)

/-- Two suites that no peer can tell apart by strength: each peer takes the one it likes best. And
a list that ranks GCM twice: the entry that comes first counts. -/
theorem negotiate_depends_on_order :
    negotiate [[⟨7, 1⟩, ⟨8, 2⟩], [⟨8, 1⟩, ⟨7, 2⟩]] = some 7 ∧
      negotiate [[⟨8, 1⟩, ⟨7, 2⟩], [⟨7, 1⟩, ⟨8, 2⟩]] = some 8 ∧
      negotiate [[⟨1, 1⟩, ⟨1, 3⟩, ⟨2, 2⟩]] = some CIPHER_AES256_GCM ∧
      negotiate [[⟨1, 3⟩, ⟨1, 1⟩, ⟨2, 2⟩]] = some CIPHER_XTS_AES256 := by
  decide

end Sfs.Sync

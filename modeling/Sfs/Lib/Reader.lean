import Sfs.Lib.Bytes

/-!
# Reading byte strings

A reader goes over a byte string with a cursor and returns a value, an error, or panics. There
are two ways to take the next bytes: `get` returns an error when too few are left, `slice`
panics then. `need` is the guard that is written before a `slice`; it panics itself when the
sum of two `usize` overflows.

`Decodes r enc P` says what a reader is for: it does not panic, and it accepts exactly the
strings `enc a` with `P a`, whatever follows them. `Reads` is one half of it for one string, and
`Fails` says that the string is refused. The rules build them along the reader.
-/

namespace Sfs.Lib

open List

variable {ε α β : Type}

inductive Outcome (ε α : Type) where
  | ok (a : α)
  | err (e : ε)
  | panic
  deriving DecidableEq, Repr

/-- What is left to read, and where it starts. -/
@[ext] structure Cursor where
  off : Nat
  rest : Bytes
  deriving DecidableEq

def Reader (ε α : Type) := Cursor → Outcome ε (α × Cursor)

namespace Reader

instance : Monad (Reader ε) where
  pure a c := .ok (a, c)
  bind m k c :=
    match m c with
    | .ok (a, c') => k a c'
    | .err e => .err e
    | .panic => .panic

theorem pure_apply (a : α) (c : Cursor) : (pure a : Reader ε α) c = .ok (a, c) := rfl

theorem bind_apply (m : Reader ε α) (k : α → Reader ε β) (c : Cursor) :
    (m >>= k) c = match m c with
      | .ok (a, c') => k a c'
      | .err e => .err e
      | .panic => .panic := rfl

section

variable {m : Reader ε α} {k : α → Reader ε β} {c : Cursor}

theorem bind_ok {c' : Cursor} {a : α} (h : m c = .ok (a, c')) : (m >>= k) c = k a c' := by
  rw [bind_apply, h]

theorem bind_err {e : ε} (h : m c = .err e) : (m >>= k) c = .err e := by
  rw [bind_apply, h]

theorem bind_eq_ok_iff {b : β} {c'' : Cursor} :
    (m >>= k) c = .ok (b, c'') ↔ ∃ a c', m c = .ok (a, c') ∧ k a c' = .ok (b, c'') := by
  rw [bind_apply]
  cases m c with
  | ok p => exact ⟨fun h => ⟨p.1, p.2, rfl, h⟩, fun ⟨a, c', h, hk⟩ => by cases h; exact hk⟩
  | err e => simp
  | panic => simp

theorem bind_assoc {γ : Type} (l : β → Reader ε γ) : (m >>= k) >>= l = m >>= fun a => k a >>= l := by
  funext c
  simp only [bind_apply]
  cases m c <;> rfl

theorem bind_eq_panic_iff :
    (m >>= k) c = .panic ↔ m c = .panic ∨ ∃ a c', m c = .ok (a, c') ∧ k a c' = .panic := by
  rw [bind_apply]
  cases m c with
  | ok p => exact ⟨fun h => .inr ⟨p.1, p.2, rfl, h⟩, fun h => by
      rcases h with h | ⟨a, c', h, hk⟩
      · cases h
      · cases h; exact hk⟩
  | err e => simp
  | panic => simp

end

/-! ## Taking bytes -/

def fail (e : ε) : Reader ε α := fun _ => .err e

def ofExcept : Except ε α → Reader ε α
  | .ok a => pure a
  | .error e => fail e

def ofOutcome (x : Outcome ε α) : Reader ε α := fun c =>
  match x with
  | .ok a => .ok (a, c)
  | .err e => .err e
  | .panic => .panic

/-- The outcome of a reader on a whole byte string; what it left over is dropped. -/
def run (r : Reader ε α) (bs : Bytes) : Outcome ε α :=
  match r ⟨0, bs⟩ with
  | .ok (a, _) => .ok a
  | .err e => .err e
  | .panic => .panic

theorem run_eq_ok_iff {r : Reader ε α} {bs : Bytes} {a : α} :
    run r bs = .ok a ↔ ∃ c, r ⟨0, bs⟩ = .ok (a, c) := by
  unfold run
  cases r ⟨0, bs⟩ <;> simp [Prod.ext_iff]

theorem run_eq_panic_iff {r : Reader ε α} {bs : Bytes} :
    run r bs = .panic ↔ r ⟨0, bs⟩ = .panic := by
  unfold run
  cases r ⟨0, bs⟩ <;> simp

def remaining : Reader ε Nat := fun c => .ok (c.rest.length, c)

/-- What is left, without taking it. -/
def peek : Reader ε Bytes := fun c => .ok (c.rest, c)

/-- `buf.get(off..off + n)`. -/
def get (n : Nat) (e : Nat → ε) : Reader ε Bytes := fun c =>
  if c.rest.length < n then .err (e c.off) else .ok (c.rest.take n, ⟨c.off + n, c.rest.drop n⟩)

/-- `buf[off..off + n]`. -/
def slice (n : Nat) : Reader ε Bytes := fun c =>
  if c.rest.length < n then .panic else .ok (c.rest.take n, ⟨c.off + n, c.rest.drop n⟩)

/-- `if buf.len() < off + n { return Err(e) }`. -/
def need (n : Nat) (e : ε) : Reader ε Unit := fun c =>
  if 2 ^ 64 ≤ c.off + n then .panic else if c.rest.length < n then .err e else .ok ((), c)

/-- `buf[off..off + n]` if it ends `t` bytes before the end of the buffer, else an error. -/
def sliceBefore (t n : Nat) (e : ε) : Reader ε Bytes := fun c =>
  if c.rest.length < n + t then .err e else slice n c

/-- A guarded field. -/
def field (n : Nat) (e : ε) : Reader ε Bytes := do
  need n e
  slice n

/-- A guarded number of `w` bytes. -/
def num (w : Nat) (e : ε) : Reader ε Nat := do
  return leNat (← field w e)

def times : Nat → Reader ε α → Reader ε (List α)
  | 0, _ => pure []
  | n + 1, r => do
    let a ← r
    let as ← times n r
    return a :: as

/-- A count of entries of `w` bytes that exceeds what is left before the last `t` bytes. -/
def bound (n w t : Nat) (e : ε) : Reader ε Unit := fun c =>
  if (c.rest.length - t) / w < n then .err e else .ok ((), c)

/-- A field that may be missing: only the last `t` bytes are left. -/
def optional (t : Nat) (missing : α) (r : Reader ε α) : Reader ε α := fun c =>
  if c.rest.length ≤ t then .ok (missing, c) else r c

/-- `r` on what is before the last `t` bytes. -/
def before (t : Nat) (r : Reader ε α) : Reader ε α := fun c =>
  match r ⟨c.off, c.rest.take (c.rest.length - t)⟩ with
  | .ok (a, c') => .ok (a, ⟨c'.off, c.rest.drop (c'.off - c.off)⟩)
  | .err e => .err e
  | .panic => .panic

/-- `n` numbers of `w` bytes under one guard. -/
def nums (n w : Nat) (e : ε) : Reader ε (List Nat) := do
  need (n * w) e
  times n do return leNat (← slice w)

/-! ## Single reads -/

section

variable {c c' : Cursor} {xs : Bytes} {n : Nat}

theorem slice_eq_ok_iff :
    (slice n : Reader ε Bytes) c = .ok (xs, c') ↔
      xs.length = n ∧ c.rest = xs ++ c'.rest ∧ c'.off = c.off + n := by
  unfold slice
  constructor
  · intro h
    split at h
    · cases h
    · cases h
      exact ⟨by rw [length_take]; omega, (take_append_drop ..).symm, rfl⟩
  · rintro ⟨rfl, hr, ho⟩
    rw [if_neg (by rw [hr, length_append]; omega), hr, take_left' rfl, drop_left' rfl, ← ho]

theorem get_eq_ok_iff {e : Nat → ε} : get n e c = .ok (xs, c') ↔
    xs.length = n ∧ c.rest = xs ++ c'.rest ∧ c'.off = c.off + n := by
  rw [← slice_eq_ok_iff (ε := ε)]
  unfold get slice
  split <;> simp

theorem sliceBefore_eq_ok_iff {t : Nat} {e : ε} : sliceBefore t n e c = .ok (xs, c') ↔
    (xs.length = n ∧ c.rest = xs ++ c'.rest ∧ c'.off = c.off + n) ∧ t ≤ c'.rest.length := by
  unfold sliceBefore
  split
  · rename_i hlt
    refine iff_of_false (fun h => (nomatch h)) ?_
    rintro ⟨⟨hlen, hrest, -⟩, ht⟩
    rw [hrest, length_append] at hlt
    omega
  · rename_i hge
    rw [slice_eq_ok_iff]
    refine ⟨fun h => ⟨h, ?_⟩, And.left⟩
    obtain ⟨hlen, hrest, -⟩ := h
    rw [hrest, length_append] at hge
    omega

theorem need_eq_ok_iff {e : ε} {u : Unit} (h : c.off + n < 2 ^ 64) :
    need n e c = .ok (u, c') ↔ n ≤ c.rest.length ∧ c' = c := by
  unfold need
  rw [if_neg (by omega)]
  constructor
  · intro hn
    split at hn
    · cases hn
    · cases hn
      exact ⟨by omega, rfl⟩
  · rintro ⟨hle, rfl⟩
    rw [if_neg (by omega)]

theorem slice_slice (a b : Nat) (k : Bytes → Bytes → Reader ε β) :
    (slice a >>= fun x => slice b >>= fun y => k x y) =
      (slice (a + b) >>= fun z => k (z.take a) (z.drop a)) := by
  funext c
  simp only [bind_apply, slice]
  by_cases ha : c.rest.length < a
  · rw [if_pos ha, if_pos (by omega)]
  rw [if_neg ha]
  simp only [length_drop]
  by_cases hb : c.rest.length - a < b
  · rw [if_pos hb, if_pos (by omega)]
  · rw [if_neg hb, if_neg (by omega)]
    simp only [take_take, drop_take, drop_drop, Nat.add_sub_cancel_left,
      Nat.min_eq_left (Nat.le_add_right a b), add_assoc]

end

theorem field_bind (n : Nat) (e : ε) (k : Bytes → Reader ε β) :
    (field n e >>= k) = (need n e >>= fun _ => slice n >>= k) := by
  rw [field, bind_assoc]

theorem ofOutcome_eq_ok_iff {x : Outcome ε α} {a : α} {c c' : Cursor} :
    ofOutcome x c = .ok (a, c') ↔ x = .ok a ∧ c' = c := by
  cases x with
  | ok b =>
    simp only [ofOutcome, Outcome.ok.injEq, Prod.mk.injEq]
    exact and_congr_right fun _ => eq_comm
  | err e => simp [ofOutcome]
  | panic => simp [ofOutcome]

/-- Two fields under one guard, with a check of the first between them. -/
theorem field_check (a b : Nat) (e : ε) (f : Bytes → Except ε α) (k : α → Bytes → Reader ε β) :
    (need (a + b) e >>= fun _ => slice a >>= fun x =>
      ofExcept (f x) >>= fun v => slice b >>= fun y => k v y) =
      (field (a + b) e >>= fun z => ofExcept (f (z.take a)) >>= fun v => k v (z.drop a)) := by
  rw [field_bind]
  funext c
  rw [bind_apply, bind_apply]
  unfold need
  by_cases ho : 2 ^ 64 ≤ c.off + (a + b)
  · rw [if_pos ho]
  rw [if_neg ho]
  by_cases hl : c.rest.length < a + b
  · rw [if_pos hl]
  rw [if_neg hl]
  simp only [bind_apply, slice]
  rw [if_neg (by omega), if_neg hl]
  simp only [take_take, Nat.min_eq_left (Nat.le_add_right a b)]
  cases f (c.rest.take a) with
  | error e => rfl
  | ok v =>
    simp only [ofExcept, pure_apply, length_drop]
    rw [if_neg (by omega)]
    simp only [drop_take, drop_drop, Nat.add_sub_cancel_left, add_assoc]

/-! ## Readers that never panic -/

def Safe (r : Reader ε α) : Prop := ∀ c, r c ≠ .panic

section

variable {r : Reader ε α} {k : α → Reader ε β}

theorem Safe.pure (a : α) : Safe (Pure.pure a : Reader ε α) := fun _ h => (nomatch h)

theorem Safe.fail (e : ε) : Safe (fail e : Reader ε α) := fun _ h => (nomatch h)

theorem Safe.bind (hr : Safe r) (hk : ∀ a, Safe (k a)) : Safe (r >>= k) := by
  intro c h
  rcases bind_eq_panic_iff.mp h with h | ⟨a, c', -, h⟩
  · exact hr c h
  · exact hk a c' h

theorem Safe.ite {p : Prop} [Decidable p] {r' : Reader ε α} (h : Safe r) (h' : Safe r') :
    Safe (if p then r else r') := by
  split
  · exact h
  · exact h'

theorem Safe.get (n : Nat) (e : Nat → ε) : Safe (get n e) := by
  intro c h
  unfold Reader.get at h
  split at h <;> cases h

theorem Safe.sliceBefore (t n : Nat) (e : ε) : Safe (sliceBefore t n e) := by
  intro c h
  unfold Reader.sliceBefore at h
  split at h
  · cases h
  · unfold slice at h
    rw [if_neg (by omega)] at h
    cases h

theorem Safe.bound (n w t : Nat) (e : ε) : Safe (bound n w t e) := by
  intro c h
  unfold Reader.bound at h
  split at h <;> cases h

end

/-! ## What a reader accepts -/

/-- The cursor is in a byte string of at most `N` bytes. -/
def Within (N : Nat) (c : Cursor) : Prop := c.off + c.rest.length ≤ N

/-- In byte strings of at most `N` bytes `r` does not panic, and it reads `a` exactly off the
strings that start with `enc a`, for `P a`. -/
structure Decodes (N : Nat) (r : Reader ε α) (enc : α → Bytes) (P : α → Prop) : Prop where
  safe : ∀ c, Within N c → r c ≠ .panic
  ok_iff : ∀ c, Within N c → ∀ a c',
    r c = .ok (a, c') ↔ P a ∧ c.rest = enc a ++ c'.rest ∧ c'.off = c.off + (enc a).length

section

variable {N n w : Nat} {r : Reader ε α} {k : α → Reader ε β} {enc : α → Bytes} {P : α → Prop}
  {c c' : Cursor} {a : α}

theorem Decodes.within (h : Decodes N r enc P) (hc : Within N c) (hr : r c = .ok (a, c')) :
    Within N c' := by
  obtain ⟨-, hrest, hoff⟩ := (h.ok_iff c hc a c').mp hr
  unfold Within at *
  rw [hrest, length_append] at hc
  omega

theorem Decodes.append (h : Decodes N r enc P) (ha : P a) {off : Nat} {ys : Bytes}
    (hc : off + (enc a ++ ys).length ≤ N) :
    r ⟨off, enc a ++ ys⟩ = .ok (a, ⟨off + (enc a).length, ys⟩) :=
  (h.ok_iff ⟨off, enc a ++ ys⟩ hc a _).mpr ⟨ha, rfl, rfl⟩

/-- What a reader accepts says where it ends. -/
theorem Decodes.append_inj (h : Decodes N r enc P) {b : α} {xs ys : Bytes} (ha : P a) (hb : P b)
    (heq : enc a ++ xs = enc b ++ ys) (hN : (enc a ++ xs).length ≤ N) : a = b ∧ xs = ys := by
  have h1 : r ⟨0, enc a ++ xs⟩ = .ok (a, ⟨0 + (enc a).length, xs⟩) := h.append ha (by omega)
  have h2 : r ⟨0, enc b ++ ys⟩ = .ok (b, ⟨0 + (enc b).length, ys⟩) :=
    h.append hb (by rw [← heq]; omega)
  rw [heq, h2] at h1
  cases h1
  exact ⟨rfl, rfl⟩

theorem Decodes.congr {enc' : α → Bytes} {P' : α → Prop} (h : Decodes N r enc P)
    (hP : ∀ a, P a ↔ P' a) (henc : ∀ a, P a → enc a = enc' a) : Decodes N r enc' P' := by
  refine ⟨h.safe, fun c hc a c' => (h.ok_iff c hc a c').trans ?_⟩
  constructor
  · rintro ⟨hp, hr⟩
    exact ⟨(hP a).mp hp, henc a hp ▸ hr⟩
  · rintro ⟨hp, hr⟩
    have hp' := (hP a).mpr hp
    exact ⟨hp', (henc a hp').symm ▸ hr⟩

theorem Decodes.pure (a₀ : α) : Decodes N (Pure.pure a₀ : Reader ε α) (fun _ => []) (· = a₀) := by
  refine ⟨fun c _ h => (nomatch h), fun c _ a c' => ?_⟩
  constructor
  · intro h
    cases h
    exact ⟨rfl, rfl, rfl⟩
  · rintro ⟨rfl, hr, ho⟩
    have : c' = c := Cursor.ext (by simpa using ho) (by simpa using hr.symm)
    rw [this]
    rfl

/-- A sequence: `f` gives back from the result what its first part had read. -/
theorem Decodes.bind {enc' : β → Bytes} {Q : α → β → Prop} (f : β → α) (hr : Decodes N r enc P)
    (hk : ∀ a, P a → Decodes N (k a) enc' (Q a)) (hf : ∀ a b, P a → Q a b → f b = a) :
    Decodes N (r >>= k) (fun b => enc (f b) ++ enc' b) (fun b => P (f b) ∧ Q (f b) b) := by
  refine ⟨fun c hc h => ?_, fun c hc b c'' => ?_⟩
  · rcases bind_eq_panic_iff.mp h with h | ⟨a, c', ha, hb⟩
    · exact hr.safe c hc h
    · exact (hk a ((hr.ok_iff c hc a c').mp ha).1).safe c' (hr.within hc ha) hb
  rw [bind_eq_ok_iff]
  constructor
  · rintro ⟨a, c', ha, hb⟩
    have hc' := hr.within hc ha
    obtain ⟨hp, hrest, hoff⟩ := (hr.ok_iff c hc a c').mp ha
    obtain ⟨hq, hrest', hoff'⟩ := ((hk a hp).ok_iff c' hc' b c'').mp hb
    obtain rfl := hf a b hp hq
    refine ⟨⟨hp, hq⟩, ?_, ?_⟩
    · rw [hrest, hrest', append_assoc]
    · rw [hoff', hoff, length_append, add_assoc]
  · rintro ⟨⟨hp, hq⟩, hrest, hoff⟩
    rw [append_assoc] at hrest
    have ha := (hr.ok_iff c hc (f b) ⟨c.off + (enc (f b)).length, enc' b ++ c''.rest⟩).mpr
      ⟨hp, hrest, rfl⟩
    refine ⟨_, _, ha, ((hk _ hp).ok_iff _ (hr.within hc ha) b c'').mpr ⟨hq, rfl, ?_⟩⟩
    rw [hoff, length_append, add_assoc]

theorem Decodes.ofExcept {x : Except ε α} : Decodes N (ofExcept x) (fun _ => []) (x = .ok ·) := by
  cases x with
  | ok a =>
    exact (Decodes.pure a).congr (fun b => ⟨fun h => h ▸ rfl, fun h => (Except.ok.inj h).symm⟩)
      fun _ _ => rfl
  | error e =>
    exact ⟨fun c _ h => (nomatch h), fun c _ a c' => ⟨fun h => (nomatch h), fun h => (nomatch h.1)⟩⟩

/-- A read behind a check that there is enough to read. -/
theorem Decodes.guarded (e : ε) (hn : N + n < 2 ^ 64)
    (hsafe : ∀ c, n ≤ c.rest.length → r c ≠ .panic)
    (hok : ∀ c a c', r c = .ok (a, c') ↔
      P a ∧ c.rest = enc a ++ c'.rest ∧ c'.off = c.off + (enc a).length)
    (hlen : ∀ a, P a → (enc a).length = n) : Decodes N (do need n e; r) enc P := by
  have hoff : ∀ c, Within N c → c.off + n < 2 ^ 64 := fun c hc => by unfold Within at hc; omega
  refine ⟨fun c hc h => ?_, fun c hc a c' => ?_⟩
  · rcases bind_eq_panic_iff.mp h with h | ⟨u, c', hn', hs⟩
    · unfold need at h
      rw [if_neg (by have := hoff c hc; omega)] at h
      split at h <;> cases h
    · obtain ⟨hle, rfl⟩ := (need_eq_ok_iff (hoff c hc)).mp hn'
      exact hsafe _ hle hs
  · rw [bind_eq_ok_iff]
    constructor
    · rintro ⟨u, c₁, hn', hs⟩
      obtain ⟨-, rfl⟩ := (need_eq_ok_iff (hoff c hc)).mp hn'
      exact (hok _ a c').mp hs
    · rintro ⟨hp, hr, ho⟩
      refine ⟨(), c, (need_eq_ok_iff (hoff c hc)).mpr ⟨?_, rfl⟩, (hok c a c').mpr ⟨hp, hr, ho⟩⟩
      rw [hr, length_append, hlen a hp]
      exact Nat.le_add_right _ _

theorem decodes_field (e : ε) (hn : N + n < 2 ^ 64) : Decodes N (field n e) id (·.length = n) := by
  refine Decodes.guarded e hn (fun c hle hs => ?_) (fun c xs c' => ?_) fun _ h => h
  · unfold slice at hs
    rw [if_neg (by omega)] at hs
    cases hs
  · exact slice_eq_ok_iff.trans (and_congr_right fun hl => by rw [id, hl])

theorem Decodes.map (g : α → β) (f : β → α) (hr : Decodes N r enc P) (hf : ∀ a, P a → f (g a) = a) :
    Decodes N (do return g (← r)) (enc ∘ f) (fun b => P (f b) ∧ g (f b) = b) := by
  have h := hr.bind (k := fun a => (Pure.pure (g a) : Reader ε β)) f (fun a _ => Decodes.pure (g a)) ?_
  · exact h.congr (fun b => and_congr_right fun _ => eq_comm) fun b _ => by simp
  · rintro a b ha rfl
    exact hf a ha

theorem Decodes.num {r : Reader ε Bytes} (h : Decodes N r id (·.length = w)) :
    Decodes N (do return leNat (← r)) (leBytes w) (· < 256 ^ w) := by
  refine (h.map leNat (leBytes w) fun _ => leBytes_leNat_of_length).congr ?_ fun _ _ => rfl
  intro a
  rw [leNat_leBytes]
  constructor
  · rintro ⟨-, ha⟩
    rw [← ha]
    exact Nat.mod_lt _ (Nat.pow_pos (by decide))
  · intro ha
    exact ⟨length_leBytes .., Nat.mod_eq_of_lt ha⟩

theorem decodes_num (e : ε) (hw : N + w < 2 ^ 64) : Decodes N (num w e) (leBytes w) (· < 256 ^ w) :=
  (decodes_field e hw).num

theorem decodes_get (n : Nat) (e : Nat → ε) : Decodes N (get n e) id (·.length = n) := by
  refine ⟨fun c _ => Safe.get n e c, fun c _ xs c' => get_eq_ok_iff.trans ?_⟩
  exact and_congr_right fun hl => by rw [id, hl]

theorem Decodes.unless {p : Prop} [Decidable p] (e : ε) (h : ¬ p → Decodes N r enc P) :
    Decodes N (if p then fail e else r) enc (fun a => ¬ p ∧ P a) := by
  split
  · rename_i hp
    exact ⟨fun _ _ hf => (nomatch hf),
      fun _ _ _ _ => ⟨fun hf => (nomatch hf), fun hf => absurd hp hf.1.1⟩⟩
  · rename_i hp
    exact (h hp).congr (fun a => (and_iff_right hp).symm) fun _ _ => rfl

theorem Decodes.bound (e : ε) (hw : 0 < w) (h : Decodes N r enc P)
    (hn : ∀ a, P a → n * w ≤ (enc a).length) : Decodes N (bound n w 0 e >>= fun _ => r) enc P := by
  have heq : ∀ c, (Reader.bound n w 0 e >>= fun _ => r) c =
      if c.rest.length / w < n then .err e else r c := by
    intro c
    by_cases hlt : c.rest.length / w < n <;> simp [bind_apply, Reader.bound, hlt]
  refine ⟨fun c hc hp => ?_, fun c hc a c' => ?_⟩
  · rw [heq] at hp
    split at hp
    · cases hp
    · exact h.safe c hc hp
  rw [heq, ← h.ok_iff c hc]
  split
  · rename_i hlt
    refine iff_of_false (fun hf => (nomatch hf)) fun hok => ?_
    obtain ⟨hp, hr, -⟩ := (h.ok_iff c hc a c').mp hok
    have := hn a hp
    rw [hr, length_append, Nat.div_lt_iff_lt_mul hw] at hlt
    omega
  · rfl

theorem Decodes.times [Inhabited α] (h : Decodes N r enc P) (n : Nat) :
    Decodes N (times n r) (·.flatMap enc) (fun as => as.length = n ∧ ∀ a ∈ as, P a) := by
  induction n with
  | zero =>
    refine (Decodes.pure []).congr (fun as => ?_) ?_
    · rw [length_eq_zero_iff, iff_self_and]
      rintro rfl _ ⟨⟩
    · rintro _ rfl
      rfl
  | succ n ih =>
    refine (h.bind (fun as => as.headD default)
      (fun a _ => ih.map (a :: ·) tail fun _ _ => rfl) ?_).congr ?_ ?_
    · rintro a as - ⟨-, has⟩
      rw [← has]
      rfl
    · rintro (_ | ⟨a, as⟩) <;> simp [and_left_comm]
    · rintro (_ | ⟨a, as⟩) ⟨-, -, has⟩
      · cases has
      · rfl

theorem length_flatMap_leBytes (w : Nat) (as : List Nat) :
    (as.flatMap (leBytes w)).length = as.length * w := by
  simp

theorem times_slice_eq_ok_iff {as : List Nat} :
    times n (do return leNat (← slice w) : Reader ε Nat) c = .ok (as, c') ↔
      (as.length = n ∧ ∀ a ∈ as, a < 256 ^ w) ∧ c.rest = as.flatMap (leBytes w) ++ c'.rest ∧
        c'.off = c.off + (as.flatMap (leBytes w)).length := by
  induction n generalizing c as with
  | zero =>
    constructor
    · intro h
      cases h
      simp
    · rintro ⟨⟨hl, -⟩, hr, ho⟩
      obtain rfl := length_eq_zero_iff.mp hl
      have : c' = c := Cursor.ext (by simpa using ho) (by simpa using hr.symm)
      rw [this]
      rfl
  | succ n ih =>
    rw [times, bind_eq_ok_iff]
    constructor
    · rintro ⟨a, c₁, ha, h⟩
      obtain ⟨bs, c₂, hs, hp⟩ := bind_eq_ok_iff.mp ha
      cases hp
      obtain ⟨hl, hr, ho⟩ := slice_eq_ok_iff.mp hs
      obtain ⟨rest, c₃, ht, hp⟩ := bind_eq_ok_iff.mp h
      cases hp
      obtain ⟨⟨hlen, hlt⟩, hr', ho'⟩ := ih.mp ht
      have hbs : leBytes w (leNat bs) = bs := hl ▸ leBytes_leNat bs
      refine ⟨⟨by simp [hlen], ?_⟩, ?_, ?_⟩
      · intro x hx
        rcases mem_cons.mp hx with rfl | hx
        · exact hl ▸ leNat_lt bs
        · exact hlt x hx
      · rw [hr, hr', flatMap_cons, hbs, append_assoc]
      · rw [ho', ho, flatMap_cons, length_append, length_leBytes, add_assoc]
    · rintro ⟨⟨hlen, hlt⟩, hr, ho⟩
      cases as with
      | nil => cases hlen
      | cons a as =>
        rw [flatMap_cons, append_assoc] at hr
        have ha := hlt a (.head _)
        have hs : (slice w : Reader ε Bytes) c =
            .ok (leBytes w a, ⟨c.off + w, as.flatMap (leBytes w) ++ c'.rest⟩) :=
          slice_eq_ok_iff.mpr ⟨length_leBytes .., hr, rfl⟩
        have ht : times n (do return leNat (← slice w) : Reader ε Nat)
            ⟨c.off + w, as.flatMap (leBytes w) ++ c'.rest⟩ = .ok (as, c') :=
          ih.mpr ⟨⟨by simpa using hlen, fun x hx => hlt x (.tail _ hx)⟩, rfl, by
            rw [ho, flatMap_cons, length_append, length_leBytes, add_assoc]⟩
        refine ⟨a, _, ?_, bind_eq_ok_iff.mpr ⟨as, c', ht, rfl⟩⟩
        rw [bind_ok hs, leNat_leBytes_of_lt ha]
        rfl

theorem times_slice_safe (h : n * w ≤ c.rest.length) :
    times n (do return leNat (← slice w) : Reader ε Nat) c ≠ .panic := by
  induction n generalizing c with
  | zero => exact fun h => (nomatch h)
  | succ n ih =>
    intro hp
    rw [Nat.succ_mul] at h
    rcases bind_eq_panic_iff.mp hp with hp | ⟨a, c₁, ha, hp⟩
    · rcases bind_eq_panic_iff.mp hp with hp | ⟨bs, c₁, -, hp⟩
      · unfold slice at hp
        rw [if_neg (by omega)] at hp
        cases hp
      · cases hp
    · obtain ⟨bs, c₂, hs, he⟩ := bind_eq_ok_iff.mp ha
      cases he
      obtain ⟨hl, hr, -⟩ := slice_eq_ok_iff.mp hs
      rcases bind_eq_panic_iff.mp hp with hp | ⟨as, c₃, -, hp⟩
      · exact ih (by rw [hr, length_append] at h; omega) hp
      · cases hp

theorem decodes_nums (e : ε) (hw : N + n * w < 2 ^ 64) :
    Decodes N (nums n w e) (·.flatMap (leBytes w)) (fun as => as.length = n ∧ ∀ a ∈ as, a < 256 ^ w) :=
  Decodes.guarded e hw (fun _ hle => times_slice_safe hle) (fun _ _ _ => times_slice_eq_ok_iff)
    fun as h => by
    rw [length_flatMap_leBytes, h.1]

end

/-! ## Reading back what was laid out -/

/-- `r` reads `a` off `bs`, before at least `T` more bytes. -/
def Reads (T : Nat) (r : Reader ε α) (bs : Bytes) (a : α) : Prop :=
  ∀ off ys, T ≤ ys.length → r ⟨off, bs ++ ys⟩ = .ok (a, ⟨off + bs.length, ys⟩)

/-- `r` refuses `bs`. -/
def Fails (T : Nat) (r : Reader ε α) (bs : Bytes) : Prop :=
  ∀ off ys, T ≤ ys.length → ∃ e, r ⟨off, bs ++ ys⟩ = .err e

section

variable {T t n w : Nat} {r : Reader ε α} {k : α → Reader ε β} {bs bs' : Bytes} {a : α} {b : β}

theorem Reads.pure (a : α) : Reads T (Pure.pure a : Reader ε α) [] a := fun _ _ _ => rfl

theorem Reads.bind (h : Reads T r bs a) (hk : Reads T (k a) bs' b) :
    Reads T (r >>= k) (bs ++ bs') b := by
  intro off ys hy
  rw [append_assoc, bind_ok (h off _ (by rw [length_append]; omega)), hk _ ys hy, length_append,
    add_assoc]

theorem Reads.map (g : α → β) (h : Reads T r bs a) : Reads T (do return g (← r)) bs (g a) := by
  have := h.bind (k := fun a => (Pure.pure (g a) : Reader ε β)) (Reads.pure (g a))
  rwa [append_nil] at this

theorem Reads.get (e : Nat → ε) (h : bs.length = n) : Reads T (get n e) bs bs := by
  intro off ys _
  subst h
  simp [Reader.get]

theorem Reads.slice (h : bs.length = n) : Reads T (slice n : Reader ε Bytes) bs bs := by
  intro off ys _
  exact slice_eq_ok_iff.mpr ⟨h, rfl, congrArg (off + ·) h⟩

theorem Reads.sliceBefore (ht : t ≤ T) (h : bs.length = n) (e : ε) :
    Reads T (sliceBefore t n e) bs bs := by
  intro off ys hys
  exact sliceBefore_eq_ok_iff.mpr ⟨⟨h, rfl, congrArg (off + ·) h⟩, ht.trans hys⟩

theorem Reads.times {enc : α → Bytes} {as : List α} (h : ∀ a ∈ as, Reads T r (enc a) a) :
    Reads T (times as.length r) (as.flatMap enc) as := by
  induction as with
  | nil => exact Reads.pure []
  | cons a as ih =>
    exact (h a (.head _)).bind ((ih fun b hb => h b (.tail _ hb)).map (a :: ·))

theorem Reads.bound (e : ε) {r : Reader ε α} (hw : 0 < w) (ht : t ≤ T) (hn : n * w ≤ bs.length)
    (h : Reads T r bs a) : Reads T (bound n w t e >>= fun _ => r) bs a := by
  intro off ys hy
  have hle : n ≤ (bs.length + ys.length - t) / w := (Nat.le_div_iff_mul_le hw).mpr (by omega)
  have hb : Reader.bound n w t e ⟨off, bs ++ ys⟩ = .ok ((), ⟨off, bs ++ ys⟩) := by
    unfold Reader.bound
    rw [length_append, if_neg (by omega)]
  rw [bind_ok hb, h off ys hy]

theorem Reads.optional (missing : α) (ht : t ≤ T) (hne : bs ≠ []) (h : Reads T r bs a) :
    Reads T (optional t missing r) bs a := by
  intro off ys hy
  have := length_pos_iff.mpr hne
  unfold Reader.optional
  rw [length_append, if_neg (by omega), h off ys hy]

theorem take_before (bs ys : Bytes) (ht : t ≤ ys.length) :
    (bs ++ ys).take ((bs ++ ys).length - t) = bs ++ ys.take (ys.length - t) := by
  have hlen : (bs ++ ys).length - t = bs.length + (ys.length - t) := by rw [length_append]; omega
  rw [hlen, take_append, take_of_length_le (by omega), Nat.add_sub_cancel_left]

theorem Reads.before (ht : t ≤ T) (h : Reads 0 r bs a) : Reads T (before t r) bs a := by
  intro off ys hy
  unfold Reader.before
  rw [take_before bs ys (by omega), h off _ (Nat.zero_le _)]
  simp

theorem Fails.before (ht : t ≤ T) (h : Fails 0 r bs) : Fails T (before t r) bs := by
  intro off ys hy
  obtain ⟨e, he⟩ := h off (ys.take (ys.length - t)) (Nat.zero_le _)
  refine ⟨e, ?_⟩
  unfold Reader.before
  rw [take_before bs ys (by omega), he]

theorem Fails.bind_left (h : Fails T r bs) : Fails T (r >>= k) (bs ++ bs') := by
  intro off ys hy
  rw [append_assoc]
  obtain ⟨e, he⟩ := h off (bs' ++ ys) (by rw [length_append]; omega)
  exact ⟨e, bind_err he⟩

theorem Fails.bind_right (h : Reads T r bs a) (hk : Fails T (k a) bs') :
    Fails T (r >>= k) (bs ++ bs') := by
  intro off ys hy
  rw [append_assoc, bind_ok (h off _ (by rw [length_append]; omega))]
  exact hk _ ys hy

theorem Fails.bound (e : ε) {r : Reader ε α} (h : Fails T r bs) :
    Fails T (bound n w t e >>= fun _ => r) bs := by
  intro off ys hy
  by_cases hb : ((bs ++ ys).length - t) / w < n
  · exact ⟨e, bind_err (by unfold Reader.bound; rw [if_pos hb])⟩
  · obtain ⟨e', he⟩ := h off ys hy
    refine ⟨e', ?_⟩
    rw [bind_ok (by unfold Reader.bound; rw [if_neg hb]), he]

/-- `r` reads `a` off `bs` if `p`, and refuses it otherwise. -/
def Checks (T : Nat) (r : Reader ε α) (bs : Bytes) (a : α) (p : Prop) : Prop :=
  (p → Reads T r bs a) ∧ (¬ p → Fails T r bs)

theorem Reads.checks (h : Reads T r bs a) : Checks T r bs a True :=
  ⟨fun _ => h, fun h => absurd trivial h⟩

theorem Reads.bind_checks {p : Prop} (h : Reads T r bs a) (hk : Checks T (k a) bs' b p) :
    Checks T (r >>= k) (bs ++ bs') b p :=
  ⟨fun hp => h.bind (hk.1 hp), fun hp => Fails.bind_right h (hk.2 hp)⟩

theorem Checks.bind {p q : Prop} (h : Checks T r bs a p) (hk : Checks T (k a) bs' b q) :
    Checks T (r >>= k) (bs ++ bs') b (p ∧ q) := by
  refine ⟨fun hpq => (h.1 hpq.1).bind (hk.1 hpq.2), fun hpq => ?_⟩
  by_cases hp : p
  · exact Fails.bind_right (h.1 hp) (hk.2 fun hq => hpq ⟨hp, hq⟩)
  · exact Fails.bind_left (h.2 hp)

theorem Checks.bound {p : Prop} (e : ε) {r : Reader ε α} (hw : 0 < w) (ht : t ≤ T)
    (hn : n * w ≤ bs.length) (h : Checks T r bs a p) :
    Checks T (bound n w t e >>= fun _ => r) bs a p :=
  ⟨fun hp => Reads.bound e hw ht hn (h.1 hp), fun hp => Fails.bound e (h.2 hp)⟩

end

/-! ## What is left of a layout that was cut -/

/-- `r` does not panic and goes forward; what it returns satisfies `P`, and would be the same with
more bytes behind. -/
structure Stable (r : Reader ε α) (P : α → Prop) : Prop where
  safe : Safe r
  ok : ∀ c a c', r c = .ok (a, c') → P a ∧ (∃ n ≤ c.rest.length, c' = ⟨c.off + n, c.rest.drop n⟩) ∧
    ∀ ys, r ⟨c.off, c.rest ++ ys⟩ = .ok (a, ⟨c'.off, c'.rest ++ ys⟩)

/-- Off a cut of `bs` and what follows `r` reads nothing but `Q`. -/
def Cut (T : Nat) (r : Reader ε α) (bs : Bytes) (Q : α → Prop) : Prop :=
  ∀ off ys zs, T ≤ ys.length → zs <+: bs ++ ys →
    (∃ e, r ⟨off, zs⟩ = .err e) ∨ ∃ a c', r ⟨off, zs⟩ = .ok (a, c') ∧ Q a

section

variable {T t n w : Nat} {r : Reader ε α} {k : α → Reader ε β} {bs bs' : Bytes} {a : α}
  {P : α → Prop} {Q : β → Prop}

theorem Stable.pure (ha : P a) : Stable (Pure.pure a : Reader ε α) P := by
  refine ⟨Safe.pure a, ?_⟩
  rintro c _ _ ⟨⟩
  exact ⟨ha, ⟨0, Nat.zero_le _, rfl⟩, fun _ => rfl⟩

theorem Stable.fail (e : ε) : Stable (fail e : Reader ε α) P :=
  ⟨Safe.fail e, fun _ _ _ h => (nomatch h)⟩

theorem Stable.bind (hr : Stable r P) (hk : ∀ a, P a → Stable (k a) Q) : Stable (r >>= k) Q := by
  refine ⟨fun c h => ?_, fun c b c'' h => ?_⟩
  · rcases bind_eq_panic_iff.mp h with h | ⟨a, c', ha, hb⟩
    · exact hr.safe c h
    · exact (hk a (hr.ok c a c' ha).1).safe c' hb
  obtain ⟨a, c', ha, hb⟩ := bind_eq_ok_iff.mp h
  obtain ⟨hp, ⟨m, hm, rfl⟩, hext⟩ := hr.ok c a c' ha
  obtain ⟨hq, ⟨n, hn, rfl⟩, hext'⟩ := (hk a hp).ok _ b c'' hb
  rw [length_drop] at hn
  refine ⟨hq, ⟨m + n, by omega, ?_⟩, fun ys => (bind_ok (hext ys)).trans (hext' ys)⟩
  rw [drop_drop, add_assoc]

theorem Stable.imp {P' : α → Prop} (hr : Stable r P) (h : ∀ a, P a → P' a) : Stable r P' :=
  ⟨hr.safe, fun c a c' ha => (hr.ok c a c' ha).imp_left (h a)⟩

theorem Stable.some (hr : Stable r P) :
    Stable (r >>= fun a => Pure.pure (some a)) fun o => ∀ a ∈ o, P a :=
  hr.bind fun _ ha => Stable.pure (by rintro _ ⟨⟩; exact ha)

theorem Stable.ite {p : Prop} [Decidable p] {r' : Reader ε α} (h : Stable r P) (h' : Stable r' P) :
    Stable (if p then r else r') P := by
  split
  · exact h
  · exact h'

theorem Stable.ofExcept {x : Except ε α} : Stable (ofExcept x) (x = .ok ·) := by
  cases x with
  | ok a => exact Stable.pure rfl
  | error e => exact Stable.fail e

theorem Stable.get (n : Nat) (e : Nat → ε) : Stable (get n e) (·.length = n) := by
  refine ⟨Safe.get n e, fun c a c' h => ?_⟩
  unfold Reader.get at h
  split_ifs at h with hn
  cases h
  refine ⟨length_take_of_le (not_lt.mp hn), ⟨n, not_lt.mp hn, rfl⟩, fun ys => ?_⟩
  simp only [Reader.get, length_append]
  rw [if_neg (by omega), take_append_of_le_length (by omega), drop_append_of_le_length (by omega)]

theorem Stable.bound (n w t : Nat) (e : ε) : Stable (bound n w t e) fun _ => True := by
  refine ⟨Safe.bound n w t e, fun c a c' h => ?_⟩
  unfold Reader.bound at h
  split_ifs at h with hn
  cases h
  refine ⟨trivial, ⟨0, Nat.zero_le _, rfl⟩, fun ys => if_neg ?_⟩
  have : (c.rest.length - t) / w ≤ ((c.rest ++ ys).length - t) / w :=
    Nat.div_le_div_right (by rw [length_append]; omega)
  exact fun h => hn (this.trans_lt h)

theorem Stable.times (hr : Stable r P) (n : Nat) :
    Stable (times n r) fun as => as.length = n ∧ ∀ a ∈ as, P a := by
  induction n with
  | zero => exact Stable.pure ⟨rfl, fun _ h => (nomatch h)⟩
  | succ n ih =>
    refine hr.bind fun a ha => ih.bind fun as has => Stable.pure ⟨congrArg Nat.succ has.1, ?_⟩
    exact forall_mem_cons.mpr ⟨ha, has.2⟩

/-- A guard that asks for more than `t` bytes. -/
theorem Stable.unless (t : Nat) (e : ε) (hr : Stable r P) :
    Stable (remaining >>= fun n => if n ≤ t then Reader.fail e else r) P := by
  have hread : ∀ c, (remaining >>= fun n => if n ≤ t then Reader.fail e else r) c =
      if c.rest.length ≤ t then .err e else r c := by
    intro c
    rw [bind_ok (rfl : remaining c = .ok (c.rest.length, c))]
    split <;> rfl
  refine ⟨fun c h => ?_, fun c a c' h => ?_⟩
  all_goals
    rw [hread] at h
    split at h
  · cases h
  · exact hr.safe c h
  · cases h
  · obtain ⟨hp, hn, hext⟩ := hr.ok c a c' h
    refine ⟨hp, hn, fun ys => ?_⟩
    rw [hread, if_neg (by rw [length_append]; omega), hext ys]

theorem Stable.before (hr : Stable r P) : Stable (before t r) P := by
  refine ⟨fun c h => ?_, fun c a c' h => ?_⟩
  all_goals
    unfold Reader.before at h
    split at h
  · cases h
  · cases h
  · rename_i hp
    exact hr.safe _ hp
  · rename_i a' c₁ ha
    cases h
    obtain ⟨hp, ⟨n, hn, rfl⟩, hext⟩ := hr.ok _ _ _ ha
    simp only [length_take] at hn
    refine ⟨hp, ⟨n, by omega, by simp⟩, fun ys => ?_⟩
    obtain ⟨zs, hzs⟩ : c.rest.take (c.rest.length - t) <+: (c.rest ++ ys).take
        ((c.rest ++ ys).length - t) := by
      rw [← show (c.rest ++ ys).take _ = _ from take_append_of_le_length (Nat.sub_le c.rest.length t)]
      exact take_prefix_take_left (by rw [length_append]; omega)
    simp only [Reader.before]
    rw [← hzs, hext zs]
    simp only [Nat.add_sub_cancel_left]
    rw [drop_append_of_le_length (by omega)]
  · cases h
  · cases h

theorem Cut.bind (hs : Stable r P) (hr : Reads T r bs a) (hk : Cut T (k a) bs' Q) :
    Cut T (r >>= k) (bs ++ bs') Q := by
  rintro off ys zs hy ⟨us, hus⟩
  cases ha : r ⟨off, zs⟩ with
  | err e => exact .inl ⟨e, bind_err ha⟩
  | panic => exact absurd ha (hs.safe _)
  | ok p =>
    have hall := (hs.ok _ p.1 p.2 ha).2.2 us
    simp only [hus] at hall
    rw [append_assoc, hr off (bs' ++ ys) (by rw [length_append]; omega)] at hall
    obtain ⟨rfl, hc⟩ := Prod.mk.inj (Outcome.ok.inj hall)
    rw [bind_ok ha]
    exact hk p.2.off ys p.2.rest hy ⟨us, (congrArg Cursor.rest hc).symm⟩

theorem optional_bind {missing : α} {c : Cursor} (h : c.rest.length ≤ t) :
    (optional t missing r >>= k) c = k missing c :=
  bind_ok (if_pos h)

theorem Cut.optional {missing : α} (hs : Stable r P) (hr : Reads T r bs a)
    (hmissing : ∀ c, c.rest.length ≤ t → ∃ b, k missing c = .ok (b, c) ∧ Q b)
    (hk : Cut T (k a) bs' Q) : Cut T (optional t missing r >>= k) (bs ++ bs') Q := by
  intro off ys zs hy hz
  by_cases hl : zs.length ≤ t
  · obtain ⟨b, hb, hq⟩ := hmissing ⟨off, zs⟩ hl
    exact .inr ⟨b, _, (optional_bind hl).trans hb, hq⟩
  · have h : (Reader.optional t missing r >>= k) ⟨off, zs⟩ = (r >>= k) ⟨off, zs⟩ := by
      rw [bind_apply, Reader.optional, if_neg hl, bind_apply]
    rw [h]
    exact Cut.bind hs hr hk off ys zs hy hz

end

end Reader

end Sfs.Lib

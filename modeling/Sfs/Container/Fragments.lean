import Sfs.Container.Lending

/-!
# Fragments over the allocator

What the write path does with the allocator. A write stages its fragments (`touchAll`: in place or
at a new place; `rechunk`: all of them anew, the old ones retired; `truncate`), writes the record
and the catalogs, and publishes: a header commit frees what is retired, a failed one keeps it.
Inside a transaction nothing is published before its end.

* `live`: the fragments that the records in memory refer to;
* `disk`: those that the committed header refers to;
* `orphaned`: a write failed after it had retired blocks, and nothing has dropped them since.

Lengths are those of the ciphertexts; bytes and keys are left out.
-/

namespace Sfs.Container

open Sfs.Lib Arena Held
open List hiding Disjoint

variable {x : Held} {r : Option (List Held)} {a : Arena}

/-! ## Placing -/

open Arena

/-- What an extent is lent for: a content fragment, an image in the tail, a record or trie node. -/
inductive Purpose where
  | content
  | evicted
  | record
  deriving DecidableEq, Repr

/-- One allocation of a write: what fails while the file grows, the bytes to store, and whether
storing them succeeds. -/
structure Piece where
  fault : Option Allocator.GrowFault
  len : Nat
  written : Bool
  deriving DecidableEq, Repr

def Piece.isPacked (p : Piece) : Prop := 0 < p.len ∧ p.len < baseBlock

instance (p : Piece) : Decidable p.isPacked := inferInstanceAs (Decidable (_ ∧ _))

namespace Allocator

def placeAligned (a : Allocator) (p : Piece) (region : Region) : Allocator × Result Held :=
  match a.allocAligned p.fault p.len region with
  | (a, .error e) => (a, .error e)
  | (a, .ok loc) => (a, .ok ⟨loc.addr, p.len, .aligned region⟩)

/-- Less than a block is packed, anything else gets blocks of its own. -/
def placeContentFragment (a : Allocator) (p : Piece) : Allocator × Result Held :=
  if p.isPacked then
    match a.allocPacked p.fault p.len with
    | (a, .error e) => (a, .error e)
    | (a, .ok addr) => (a, .ok ⟨addr, p.len, .packed⟩)
  else a.placeAligned p .liveMid

def place (a : Allocator) (p : Piece) : Purpose → Allocator × Result Held
  | .content => a.placeContentFragment p
  | .evicted => a.placeAligned p .evictionTail
  | .record => a.placeAligned p .catalogHead

end Allocator

namespace Arena

/-- An extent that could not be written stays lent; nothing refers to it. -/
def place (s : Arena) (purpose : Purpose) (p : Piece) : Arena × Option Held :=
  match s.alloc.place p purpose with
  | (a, .error _) => ({ s with alloc := a }, none)
  | (a, .ok h) => (s.lend a h, if p.written then some h else none)

def placeAll (s : Arena) (purpose : Purpose) : List Piece → Arena × Option (List Held)
  | [] => (s, some [])
  | p :: ps =>
    match s.place purpose p with
    | (s, none) => (s, none)
    | (s, some h) =>
      match s.placeAll purpose ps with
      | (s, none) => (s, none)
      | (s, some hs) => (s, some (h :: hs))

/-- `retire_block` of the extent at `h`'s address, unless it is retired already. -/
def retireLoc (s : Arena) (h : Held) : Arena :=
  let alloc := s.alloc.retireBlock h.loc
  if s.lent.any (·.addr = h.addr) then ⟨alloc, s.lent.eraseP (·.addr = h.addr), s.parked ++ [h]⟩
    else { s with alloc }

end Arena

/-! ## Staging -/

/-- One fragment that a write touches: the block it has, whether an undo image of it is in the
tail already, that image, and the new ciphertext. -/
structure Touch where
  existing : Option Held
  journaled : Bool
  undo : Piece
  new : Piece

/-- A fragment that a re-chunk replaces; one that a commit pins goes to the tail. -/
structure OldFragment where
  loc : Held
  undo : Option Piece

inductive Stage where
  | touch (frags : List Touch)
  | truncate (dropped : List Held) (last : Option (Held × Piece))
  | rechunk (olds : List OldFragment) (news : List Piece)

namespace Arena

/-- In place only from whole blocks to as many; everything else is placed anew. -/
def touch (s : Arena) (t : Touch) : Arena × Option Held :=
  match t.existing with
  | none => s.place .content t.new
  | some old =>
    if ¬ t.new.isPacked ∧ baseBlock ≤ old.len ∧ footprint old.len = footprint t.new.len ∧
      t.journaled = false then
      match s.place .evicted t.undo with
      | (s, none) => (s, none)
      | (s, some _) => (s, if t.new.written then some ⟨old.addr, t.new.len, old.kind⟩ else none)
    else if t.journaled then s.place .content t.new
    else
      match s.place .evicted t.undo with
      | (s, none) => (s, none)
      | (s, some _) => s.place .content t.new

def touchAll (s : Arena) (live : List Held) : List Touch → Arena × Option (List Held)
  | [] => (s, some live)
  | t :: ts =>
    match s.touch t with
    | (s, none) => (s, none)
    | (s, some h) => s.touchAll (h :: live.filter fun g => t.existing ≠ some g) ts

/-- The old fragments that are given back: whole blocks that no commit pins. -/
def retiredOf (olds : List OldFragment) : List Held :=
  (olds.filter fun o => o.undo = none ∧ baseBlock ≤ o.loc.len).map OldFragment.loc

/-- The old blocks are retired only after everything new is placed. -/
def rechunk (s : Arena) (live : List Held) (olds : List OldFragment) (news : List Piece) :
    Arena × Option (List Held) :=
  match s.placeAll .evicted (olds.filterMap OldFragment.undo) with
  | (s, none) => (s, none)
  | (s, some _) =>
    match s.placeAll .content news with
    | (s, none) => (s, none)
    | (s, some hs) => ((retiredOf olds).foldl retireLoc s,
      some (hs ++ live.filter fun g => g ∉ olds.map OldFragment.loc))

def truncate (s : Arena) (live dropped : List Held) (last : Option (Held × Piece)) :
    Arena × Option (List Held) :=
  let live := live.filter fun g => g ∉ dropped
  match last with
  | none => (s, some live)
  | some (old, p) =>
    match s.place .content p with
    | (s, none) => (s, none)
    | (s, some h) => (s, some (h :: live.filter fun g => g ≠ old))

/-- The records' fragments after the stage, if it succeeds. -/
def stage (s : Arena) (live : List Held) : Stage → Arena × Option (List Held)
  | .touch frags => s.touchAll live frags
  | .truncate dropped last => s.truncate live dropped last
  | .rechunk olds news => s.rechunk live olds news

end Arena

/-- The stage gives blocks back. -/
def Stage.retires : Stage → Bool
  | .rechunk olds _ => !(retiredOf olds).isEmpty
  | _ => false

/-- The fragments that a stage replaces. -/
def Stage.replaced : Stage → List Held
  | .touch frags => frags.filterMap Touch.existing
  | .truncate dropped last => last.toList.map Prod.fst ++ dropped
  | .rechunk olds _ => olds.map OldFragment.loc

/-! ## Calls -/

structure Frags where
  arena : Arena
  live : List Held
  disk : List Held
  /-- open transactions -/
  depth : Nat
  orphaned : Bool

/-- What happens to a write: its stage, the extents of the record, of the id catalog's nodes and of
the key catalog's, and whether these were written. -/
structure WriteIn where
  stage : Stage
  record : List Piece
  recordOk : Bool
  path : List Piece
  pathOk : Bool

inductive FragOp where
  /-- `write`, `truncate`; `commit` says whether flush and header commit succeed -/
  | write (w : WriteIn) (commit : Bool)
  | beginTransaction
  /-- the closure returned; `ok` is its result -/
  | endTransaction (ok commit : Bool)
  /-- a retention run drops an image from the tail -/
  | freeTail (h : Held)
  /-- a trie node of the running scope is superseded -/
  | freeNode (h : Held)
  /-- a pack block nothing refers to any more -/
  | freePack (base : Nat)
  /-- the container is dropped at any point and opened again; `kept` is what the open reaches -/
  | reopen (kept : List Held)

/-- Somebody in `l` holds the extent of `h`; a record may know it by another length. -/
def Owns (l : List Held) (h : Held) : Prop := ∃ g ∈ l, g.kind = h.kind ∧ g.extent = h.extent

namespace Frags

def init (fileLen : Nat) (noGrow : Bool) : Frags := ⟨.init fileLen noGrow, [], [], 0, false⟩

def abort (s : Frags) : Frags := { s with arena := s.arena.step .abortDeferred, orphaned := false }

def publish (s : Frags) (commit : Bool) : Frags :=
  if 0 < s.depth then s
  else if commit then { s with arena := s.arena.step .publishDeferred, disk := s.live }
  else s.abort

/-- A write that fails leaves the retired blocks of its stage where they are. -/
def write (s : Frags) (w : WriteIn) (commit : Bool) : Frags :=
  match s.arena.stage s.live w.stage with
  | (a, none) => { s with arena := a }
  | (a, some live) =>
    let a := (a.placeAll .record w.record).1
    if w.recordOk then
      let a := (a.placeAll .record w.path).1
      if w.pathOk then publish { s with arena := a, live } commit
      else { s with arena := a, live, orphaned := s.orphaned || w.stage.retires }
    else { s with arena := a, orphaned := s.orphaned || w.stage.retires }

def beginTransaction (s : Frags) : Frags :=
  { s with
    arena := if s.depth = 0 then s.arena.step .beginReclaimScope else s.arena
    depth := s.depth + 1 }

def endTransaction (s : Frags) (ok commit : Bool) : Frags :=
  let s := { s with
    arena := if s.depth = 1 then s.arena.step .endReclaimScope else s.arena
    depth := s.depth - 1 }
  if ok then s.publish commit else s.abort

def step (s : Frags) : FragOp → Frags
  | .write w commit => s.write w commit
  | .beginTransaction => s.beginTransaction
  | .endTransaction ok commit => s.endTransaction ok commit
  | .freeTail h => { s with arena := s.arena.step (.free h) }
  | .freeNode h => { s with arena := s.arena.step (.freeReclaimable h) }
  | .freePack base => { s with arena := { s.arena with
      alloc := (s.arena.alloc.free ⟨base, baseBlock⟩).1
      lent := s.arena.lent.filter fun h =>
        ¬ (h.kind = .packed ∧ base ≤ h.addr ∧ h.addr < base + baseBlock) } }
  | .reopen kept => ⟨s.arena.step (.reopen kept), s.disk, s.disk, 0, false⟩

/-- A stage replaces fragments of its record, each once; tail images and nodes are freed by who
holds them, a pack block when no record refers into it. An open reaches what the header refers
to. -/
def Legal (s : Frags) : FragOp → Prop
  | .write w _ => w.stage.replaced.Nodup ∧ ∀ h ∈ w.stage.replaced, h ∈ s.live
  | .endTransaction .. => 0 < s.depth
  | .freeTail h => h ∈ s.arena.lent ∧ h.isTail
  | .freeNode h => h ∈ s.arena.lent ∧ h.kind = .aligned .catalogHead
  | .freePack base => (∀ h ∈ s.live ++ s.disk, Disjoint h.extent.bytes (blockAt base).bytes) ∧
      ∀ h ∈ s.arena.held, h.kind ≠ .packed → Disjoint h.extent.bytes (blockAt base).bytes
  | .reopen kept => Container.Legal s.arena (.reopen kept) ∧ ∀ h ∈ s.disk, Owns kept h
  | .beginTransaction => True

/-- A write that has retired blocks fails only inside a transaction, and that fails too. The
frontier of an open, rounded up to a block, is not above the tail. -/
def Safe (s : Frags) : FragOp → Prop
  | .write w _ => s.depth = 0 → w.stage.retires = true → w.recordOk = true ∧ w.pathOk = true
  | .endTransaction ok _ => s.depth = 1 → s.orphaned = true → ok = false
  | .reopen kept => Container.Safe s.arena (.reopen kept)
  | _ => True

end Frags

/-! ## What is held -/

def Held.isContent (h : Held) : Prop := h.kind = .packed ∨ h.kind = .aligned .liveMid

def InOneBlock (h : Held) : Prop := ∃ b, baseBlock ∣ b ∧ b ≤ h.addr ∧ h.addr + h.len ≤ b + baseBlock

structure ArenaOk (s : Arena) : Prop where
  inv : Inv s.alloc s.held
  blocks : ∀ h ∈ s.held, h.kind = .packed → InOneBlock h
  parked : ∀ h ∈ s.parked, h.kind = .aligned .liveMid

/-- What placing does: nothing of the content moves. -/
structure Placing (s s' : Arena) : Prop where
  ok : ArenaOk s'
  parked : s'.parked = s.parked
  deferred : s'.alloc.deferred = s.alloc.deferred
  lent : ∀ h, h.isContent → Owns s.lent h → Owns s'.lent h

section

variable {a a' : Allocator} {held : List Held} {s s' s'' : Arena} {purpose : Purpose} {p : Piece}
  {h g : Held} {l l' : List Held}

theorem Owns.mono (hl : ∀ g ∈ l, g ∈ l') (h : Owns l g) : Owns l' g := by
  obtain ⟨x, hx, hsame⟩ := h
  exact ⟨x, hl x hx, hsame⟩

theorem Owns.self (h : g ∈ l) : Owns l g := ⟨g, h, rfl, rfl⟩

theorem Owns.of_lent (h : Owns s.lent g) : Owns s.held g := h.mono fun _ hx => mem_append_left _ hx

theorem owns_append : Owns (l ++ l') g ↔ Owns l g ∨ Owns l' g := by
  unfold Owns
  simp only [mem_append, or_and_right, exists_or]

theorem Placing.refl (hs : ArenaOk s) : Placing s s := ⟨hs, rfl, rfl, fun _ _ h => h⟩

theorem Placing.trans (h₁ : Placing s s') (h₂ : Placing s' s'') : Placing s s'' :=
  ⟨h₂.ok, h₂.parked.trans h₁.parked, h₂.deferred.trans h₁.deferred,
    fun g hg hown => h₂.lent g hg (h₁.lent g hg hown)⟩

theorem Placing.owns_held (hp : Placing s s') (hg : g.isContent) (hown : Owns s.held g) :
    Owns s'.held g := by
  rcases owns_append.mp hown with hown | hown
  · exact (hp.lent g hg hown).of_lent
  · exact owns_append.mpr (.inr (hp.parked ▸ hown))

theorem Held.isContent.of_kind (hg : g.isContent) (hk : h.kind = g.kind) : h.isContent := by
  unfold isContent at hg ⊢
  rwa [hk]

theorem Held.isContent.moved (hc : h.isContent) (d : Nat) : h.moved d = h := by
  unfold Held.moved Held.isTail
  rcases hc with hk | hk <;> simp [hk]

/-! ### Placing -/

theorem allocPacked_inOneBlock (hinv : Inv a held) {fault : Option Allocator.GrowFault}
    {need addr : Nat} (hneed : need < baseBlock) (h : a.allocPacked fault need = (a', .ok addr)) :
    InOneBlock ⟨addr, need, .packed⟩ := by
  have hnew : a.allocNewPack fault need = (a', .ok addr) → InOneBlock ⟨addr, need, .packed⟩ := by
    intro hn
    unfold Allocator.allocNewPack at hn
    split at hn
    · cases hn
    · rename_i a₁ blk hal
      cases hn
      have hp := (allocAligned_ok hinv hal).placed _ (.head _)
      exact ⟨blk.addr, hp.1, le_rfl, by dsimp only; omega⟩
  unfold Allocator.allocPacked at h
  split at h
  · exact hnew h
  rename_i base used hpack
  split at h
  · rename_i hfits
    cases h
    exact ⟨base, (hinv.tagged base _ (hinv.pack base used hpack).tag).dvd,
      Nat.le_add_right _ _, by dsimp only; omega⟩
  · exact hnew h

/-- An extent that the allocator hands out. -/
structure Handed (a a' : Allocator) (held : List Held) (purpose : Purpose) (x : Held) : Prop where
  inv : Inv a' (x :: held.map (moved (a'.fileLen - a.fileLen)))
  block : x.kind = .packed → InOneBlock x
  content : purpose = .content → x.isContent

theorem place_spec {res : Result Held} (hinv : Inv a held) (h : a.place p purpose = (a', res)) :
    a'.deferred = a.deferred ∧ (∀ e, res = .error e → Inv a' held) ∧ ∀ x,
      res = .ok x → Handed a a' held purpose x := by
  have haligned : ∀ r, (purpose = .content → r = .liveMid) → a.placeAligned p r = (a', res) →
      a'.deferred = a.deferred ∧ (∀ e, res = .error e → Inv a' held) ∧ ∀ x,
        res = .ok x → Handed a a' held purpose x := by
    intro r hcontent hr
    have hdef := (a.allocAligned_frame p.fault p.len r).1
    unfold Allocator.placeAligned at hr
    split at hr <;> rename_i hal <;> cases hr <;> rw [hal] at hdef
    · exact ⟨hdef, fun _ _ => allocAligned_error hinv hal, fun x hx => by cases hx⟩
    · refine ⟨hdef, fun e he => (by cases he), fun x hx => ?_⟩
      cases hx
      exact ⟨allocAligned_ok hinv hal, fun hk => (by cases hk), fun hc => .inr (by rw [hcontent hc])⟩
  cases purpose with
  | evicted => exact haligned _ (fun hc => by cases hc) h
  | record => exact haligned _ (fun hc => by cases hc) h
  | content =>
    have h : a.placeContentFragment p = (a', res) := h
    unfold Allocator.placeContentFragment at h
    split at h
    · rename_i hpk
      have hdef := allocPacked_deferred a p.fault p.len
      split at h <;> rename_i hal <;> cases h <;> rw [hal] at hdef
      · exact ⟨hdef, fun _ _ => allocPacked_error hinv hal, fun x hx => by cases hx⟩
      · refine ⟨hdef, fun e he => (by cases he), fun x hx => ?_⟩
        cases hx
        exact ⟨allocPacked_ok hinv hpk.1 hpk.2 hal, fun _ => allocPacked_inOneBlock hinv hpk.2 hal,
          fun _ => .inl rfl⟩
    · exact haligned _ (fun _ => rfl) h

/-- An extent that was placed: held from now on, and apart from all content held before. -/
structure New (s s' : Arena) (x : Held) : Prop where
  content : x.isContent
  lent : Owns s'.lent x
  apart : ∀ g, g.isContent → Owns s.held g → Disjoint x.extent.bytes g.extent.bytes

theorem Arena.place_spec {r : Option Held} (hs : ArenaOk s) (h : s.place purpose p = (s', r)) :
    Placing s s' ∧ ∀ x, r = some x → purpose = .content → New s s' x := by
  unfold place at h
  split at h
  · rename_i a e hal
    cases h
    obtain ⟨hdef, herr, -⟩ := place_spec hs.inv hal
    exact ⟨⟨⟨herr e rfl, hs.blocks, hs.parked⟩, rfl, hdef, fun _ _ hown => hown⟩,
      fun x hx => by cases hx⟩
  rename_i a x hal
  cases h
  obtain ⟨hdef, -, hok⟩ := place_spec hs.inv hal
  have hf := hok x rfl
  have hpark : s.parked.map (moved (a.fileLen - s.alloc.fileLen)) = s.parked :=
    map_moved_parked (.inr fun q hq ht => by rw [isTail, hs.parked q hq] at ht; cases ht)
  have hinv := hf.inv
  rw [held, map_append, hpark, ← cons_append] at hinv
  have hmoved : ∀ g, g.isContent → g ∈ s.lent →
      g ∈ s.lent.map (moved (a.fileLen - s.alloc.fileLen)) := fun g hg hin =>
    mem_map.mpr ⟨g, hin, hg.moved _⟩
  have hkept : ∀ g, g.isContent → Owns s.lent g → Owns (s.lend a x).lent g := by
    rintro g hg ⟨g₀, hin, hk, hext⟩
    exact ⟨g₀, .tail _ (hmoved g₀ (hg.of_kind hk) hin), hk, hext⟩
  refine ⟨⟨⟨hinv, ?_, hs.parked⟩, rfl, hdef, hkept⟩, fun y hy hc => ?_⟩
  · intro g hg hk
    rcases mem_append.mp hg with hg | hg
    · rcases mem_cons.mp hg with rfl | hg
      · exact hf.block hk
      · obtain ⟨g₀, hg₀, rfl⟩ := mem_map.mp hg
        rw [kind_moved] at hk
        rw [isContent.moved (.inl hk)]
        exact hs.blocks g₀ (mem_append_left _ hg₀) hk
    · exact hs.blocks g (mem_append_right _ hg) hk
  · have hxy : x = y := by
      split at hy
      · exact Option.some.inj hy
      · cases hy
    subst hxy
    refine ⟨hf.content hc, Owns.self (.head _), fun g hg hown => ?_⟩
    have hpair := (pairwise_cons.mp hinv.disjoint).1
    obtain ⟨g₀, hin, hk, hext⟩ := hown
    rw [← hext]
    refine hpair g₀ ?_
    rcases mem_append.mp hin with hin | hin
    · exact mem_append_left _ (hmoved g₀ (hg.of_kind hk) hin)
    · exact mem_append_right _ hin

theorem New.after (hx : New s' s'' x) (hp : Placing s s') : New s s'' x :=
  ⟨hx.content, hx.lent, fun g hg hown => hx.apart g hg (hp.owns_held hg hown)⟩

theorem New.before (hx : New s s' x) (hp : Placing s' s'') : New s s'' x :=
  ⟨hx.content, hp.lent x hx.content hx.lent, hx.apart⟩

theorem Arena.placeAll_spec {ps : List Piece} (hs : ArenaOk s) (h : s.placeAll purpose ps = (s', r)) :
    Placing s s' ∧ ∀ xs, r = some xs → purpose = .content →
      (∀ x ∈ xs, New s s' x) ∧ xs.Pairwise fun x y => Disjoint x.extent.bytes y.extent.bytes := by
  induction ps generalizing s s' r with
  | nil =>
    cases h
    refine ⟨Placing.refl hs, fun xs hxs _ => ?_⟩
    cases hxs
    exact ⟨fun x hx => absurd hx not_mem_nil, .nil⟩
  | cons p ps ih =>
    unfold placeAll at h
    split at h
    · rename_i s₁ hp
      cases h
      exact ⟨(place_spec hs hp).1, fun xs hxs => by cases hxs⟩
    rename_i s₁ x hp
    obtain ⟨hpl, hnew⟩ := place_spec hs hp
    split at h
    · rename_i s₂ hps
      cases h
      exact ⟨hpl.trans (ih hpl.ok hps).1, fun xs hxs => by cases hxs⟩
    rename_i s₂ ys hps
    cases h
    obtain ⟨hpl', hrest⟩ := ih hpl.ok hps
    refine ⟨hpl.trans hpl', fun xs hxs hc => ?_⟩
    cases hxs
    obtain ⟨hys, hpair⟩ := hrest ys rfl hc
    have hx := hnew x rfl hc
    refine ⟨fun y hy => ?_, pairwise_cons.mpr ⟨fun y hy => ?_, hpair⟩⟩
    · rcases mem_cons.mp hy with rfl | hy
      · exact hx.before hpl'
      · exact (hys y hy).after hpl
    · exact ((hys y hy).apart x hx.content hx.lent.of_lent).symm

/-! ### Touching fragments -/

/-- The extents that the records' fragments have to be among. -/
def owners (orphaned : Bool) (s : Arena) : List Held := if orphaned then s.held else s.lent

structure LiveOk (orphaned : Bool) (s : Arena) (live : List Held) : Prop where
  content : ∀ h ∈ live, h.isContent
  owned : ∀ h ∈ live, Owns (owners orphaned s) h
  apart : live.Pairwise fun h g => Disjoint h.extent.bytes g.extent.bytes

variable {b b' : Bool} {live : List Held}

theorem owns_held_of_owners (h : Owns (owners b s) g) : Owns s.held g := by
  cases b with
  | true => exact h
  | false => exact Owns.of_lent h

theorem owners_of_lent (h : Owns s.lent g) : Owns (owners b s) g := by
  cases b with
  | true => exact h.of_lent
  | false => exact h

theorem LiveOk.owns_held (hl : LiveOk b s live) : ∀ h ∈ live, Owns s.held h :=
  fun h hh => owns_held_of_owners (hl.owned h hh)

theorem Placing.owners (hp : Placing s s') (hg : g.isContent) (h : Owns (owners b s) g) :
    Owns (owners b s') g := by
  cases b with
  | true => exact hp.owns_held hg h
  | false => exact hp.lent g hg h

theorem LiveOk.placing (hl : LiveOk b s live) (hp : Placing s s') : LiveOk b s' live :=
  ⟨hl.content, fun h hh => hp.owners (hl.content h hh) (hl.owned h hh), hl.apart⟩

theorem LiveOk.filter (hl : LiveOk b s live) (q : Held → Bool) : LiveOk b s (live.filter q) :=
  ⟨fun h hh => hl.content h (mem_filter.mp hh).1, fun h hh => hl.owned h (mem_filter.mp hh).1,
    hl.apart.sublist filter_sublist⟩

theorem LiveOk.disjoint (hl : LiveOk b s live) (hh : h ∈ live) (hg : g ∈ live) (hne : h ≠ g) :
    Disjoint h.extent.bytes g.extent.bytes := disjoint_of_ne hl.apart hh hg hne

/-- A record that gets an extent placed just now. -/
theorem LiveOk.cons_new (hl : LiveOk b s live) (hp : Placing s s') (hx : New s s' x) :
    LiveOk b s' (x :: live) := by
  have hl' := hl.placing hp
  refine ⟨forall_mem_cons.mpr ⟨hx.content, hl'.content⟩,
    forall_mem_cons.mpr ⟨owners_of_lent hx.lent, hl'.owned⟩,
    pairwise_cons.mpr ⟨fun g hg => hx.apart g (hl.content g hg) (hl.owns_held g hg), hl'.apart⟩⟩

/-- Only a whole block has the length of one. -/
theorem isAligned_of_len (hs : ArenaOk s) (hc : h.isContent) (hown : Owns s.held h)
    (hlen : baseBlock ≤ h.len) : h.kind = .aligned .liveMid := by
  rcases hc with hk | hk
  · obtain ⟨g, hg, hgk, hext⟩ := hown
    have hp := hs.inv.placed g hg
    rw [hk] at hgk
    simp only [Placed, hgk] at hp
    have hsize : g.extent.len = h.extent.len := by rw [hext]
    simp only [extent, hgk, hk] at hsize
    omega
  · exact hk

/-- A touched fragment is where it was, or at a new place. -/
theorem Arena.touch_spec {t : Touch} {r : Option Held} (hs : ArenaOk s)
    (hold : ∀ old, t.existing = some old → old.isContent ∧ Owns s.held old) (h : s.touch t = (s', r)) :
    Placing s s' ∧ ∀ x, r = some x →
      (∃ old, t.existing = some old ∧ x.kind = old.kind ∧ x.extent = old.extent) ∨ New s s' x := by
  unfold touch at h
  split at h
  · obtain ⟨hpl, hnew⟩ := place_spec hs h
    exact ⟨hpl, fun x hx => .inr (hnew x hx rfl)⟩
  rename_i old hex
  split at h
  · rename_i hin
    split at h
    · rename_i s₁ hev
      cases h
      exact ⟨(place_spec hs hev).1, fun x hx => by cases hx⟩
    rename_i s₁ y hev
    cases h
    refine ⟨(place_spec hs hev).1, fun x hx => .inl ⟨old, hex, ?_⟩⟩
    obtain ⟨hc, hown⟩ := hold old hex
    have hk := isAligned_of_len hs hc hown hin.2.1
    split at hx
    · cases hx
      refine ⟨rfl, ?_⟩
      simp only [extent, hk, hin.2.2.1]
    · cases hx
  · split at h
    · obtain ⟨hpl, hnew⟩ := place_spec hs h
      exact ⟨hpl, fun x hx => .inr (hnew x hx rfl)⟩
    split at h
    · rename_i s₁ hev
      cases h
      exact ⟨(place_spec hs hev).1, fun x hx => by cases hx⟩
    · rename_i s₁ y hev
      have hpl := (place_spec hs hev).1
      obtain ⟨hpl', hnew⟩ := place_spec hpl.ok h
      exact ⟨hpl.trans hpl', fun x hx => .inr ((hnew x hx rfl).after hpl)⟩

theorem Arena.touchAll_spec {ts : List Touch} (hs : ArenaOk s) (hl : LiveOk b s live)
    (hnd : (ts.filterMap Touch.existing).Nodup) (hin : ∀ h ∈ ts.filterMap Touch.existing, h ∈ live)
    (h : s.touchAll live ts = (s', r)) :
    Placing s s' ∧ ∀ live', r = some live' → LiveOk b s' live' := by
  induction ts generalizing s s' live with
  | nil =>
    cases h
    refine ⟨Placing.refl hs, fun live' he => ?_⟩
    cases he
    exact hl
  | cons t ts ih =>
    have hmem : ∀ old, t.existing = some old → old ∈ live := fun old he =>
      hin old (mem_filterMap.mpr ⟨t, .head _, he⟩)
    have hrest : ∀ h ∈ ts.filterMap Touch.existing, t.existing ≠ some h ∧ h ∈ live := by
      intro g hg
      refine ⟨fun he => ?_, hin g ?_⟩
      · rw [filterMap_cons, he] at hnd
        exact (nodup_cons.mp hnd).1 hg
      · obtain ⟨t', ht', he⟩ := mem_filterMap.mp hg
        exact mem_filterMap.mpr ⟨t', .tail _ ht', he⟩
    have hnd' : (ts.filterMap Touch.existing).Nodup := by
      refine hnd.sublist ?_
      rw [filterMap_cons]
      split
      · exact List.Sublist.refl _
      · exact sublist_cons_self _ _
    unfold touchAll at h
    split at h
    · rename_i s₁ ht
      cases h
      exact ⟨(touch_spec hs (fun old he =>
        ⟨hl.content old (hmem old he), hl.owns_held old (hmem old he)⟩) ht).1,
          fun live' he => by cases he⟩
    rename_i s₁ x ht
    obtain ⟨hpl, hx⟩ := touch_spec hs
      (fun old he => ⟨hl.content old (hmem old he), hl.owns_held old (hmem old he)⟩) ht
    have hfil := hl.filter fun g => t.existing ≠ some g
    have hnext : LiveOk b s₁ (x :: live.filter fun g => t.existing ≠ some g) := by
      rcases hx x rfl with ⟨old, he, hk, hext⟩ | hnew
      · have hold := hmem old he
        have hfil' := hfil.placing hpl
        refine ⟨forall_mem_cons.mpr ⟨?_, hfil'.content⟩, forall_mem_cons.mpr ⟨?_, hfil'.owned⟩,
          pairwise_cons.mpr ⟨fun g hg => ?_, hfil'.apart⟩⟩
        · exact (hl.content old hold).of_kind hk
        · obtain ⟨g, hg, hgk, hgext⟩ := hpl.owners (b := b) (hl.content old hold) (hl.owned old hold)
          exact ⟨g, hg, hgk.trans hk.symm, hgext.trans hext.symm⟩
        · obtain ⟨hg, hne⟩ := mem_filter.mp hg
          rw [hext]
          exact hl.disjoint hold hg fun heq => of_decide_eq_true hne (heq ▸ he)
      · exact hfil.cons_new hpl hnew
    obtain ⟨hpl', hlive⟩ := ih hpl.ok hnext hnd' (fun g hg => .tail _ (mem_filter.mpr
      ⟨(hrest g hg).2, decide_eq_true (hrest g hg).1⟩)) h
    exact ⟨hpl.trans hpl', hlive⟩

theorem Arena.truncate_spec {dropped : List Held} {last : Option (Held × Piece)} (hs : ArenaOk s)
    (hl : LiveOk b s live) (h : s.truncate live dropped last = (s', r)) :
    Placing s s' ∧ ∀ live', r = some live' → LiveOk b s' live' := by
  unfold truncate at h
  split at h
  · cases h
    refine ⟨Placing.refl hs, fun live' he => ?_⟩
    cases he
    exact hl.filter _
  split at h
  · rename_i s₁ hp
    cases h
    exact ⟨(place_spec hs hp).1, fun live' he => by cases he⟩
  rename_i s₁ x hp
  cases h
  obtain ⟨hpl, hnew⟩ := place_spec hs hp
  refine ⟨hpl, fun live' he => ?_⟩
  cases he
  exact ((hl.filter _).filter _).cons_new hpl (hnew x rfl rfl)

/-! ### Retiring -/

/-- The invariant does not see by which length an extent is known. -/
theorem Inv.swap (hinv : Inv a (g :: l)) (hk : h.kind = g.kind) (hext : h.extent = g.extent) :
    Inv a (h :: l) := by
  have haddr : h.addr = g.addr := by
    have := congrArg Extent.start hext
    unfold extent at this
    rw [hk] at this
    cases hgk : g.kind <;> simpa only [hgk] using this
  refine
    { hinv with
      placed := forall_mem_cons.mpr ⟨?_, (forall_mem_cons.mp hinv.placed).2⟩
      disjoint := ?_
      not_free := forall_mem_cons.mpr
        ⟨hext ▸ (forall_mem_cons.mp hinv.not_free).1, (forall_mem_cons.mp hinv.not_free).2⟩
      tagged := fun b r hb => ?_
      pack := fun base used hp => ?_ }
  · have hp := (forall_mem_cons.mp hinv.placed).1
    have hlen := congrArg Extent.len hext
    unfold Placed at hp ⊢
    unfold extent at hlen
    rw [hk] at hlen ⊢
    cases hgk : g.kind with
    | aligned r =>
      simp only [hgk] at hp hlen ⊢
      rwa [haddr, hlen]
    | packed =>
      simp only [hgk] at hp hlen ⊢
      rwa [haddr, hlen]
  · rw [pairwise_cons, hext]
    exact pairwise_cons.mp hinv.disjoint
  · have ht := hinv.tagged b r hb
    refine ⟨ht.dvd, ht.lo_le, ht.le_hi, ht.not_free, forall_mem_cons.mpr ⟨fun r' hkr hin => ?_, ?_⟩⟩
    · rw [haddr]
      exact ht.owner g (.head _) r' (hk ▸ hkr) (hext ▸ hin)
    · exact (forall_mem_cons.mp ht.owner).2
  · have ho := hinv.pack base used hp
    refine ⟨ho.tag, ho.used_le, fun x hx hx' => forall_mem_cons.mpr ⟨?_, ?_⟩⟩
    · rw [hext]
      exact ho.room x hx hx' g (.head _)
    · exact (forall_mem_cons.mp (ho.room x hx hx')).2

theorem Inv.eq_of_mem (hinv : Inv a l) (hh : h ∈ l) (hg : g ∈ l) {x : Nat}
    (hxh : x ∈ h.extent.bytes) (hxg : x ∈ g.extent.bytes) : h = g := by
  by_contra hne
  exact Set.disjoint_left.mp (disjoint_of_ne hinv.disjoint hh hg hne) hxh hxg

/-- What retiring the extents `R` does: all stay held, those apart from `R` stay lent. -/
structure Retiring (s s' : Arena) (R : List Held) : Prop where
  ok : ArenaOk s'
  owned : ∀ g, Owns s.held g → Owns s'.held g
  lent : ∀ g, Owns s.lent g → (∀ h ∈ R, Disjoint g.extent.bytes h.extent.bytes) → Owns s'.lent g
  deferred : (∀ h ∈ R, Owns s.lent h) → s.alloc.deferred = s.parked.map Held.loc →
    s'.alloc.deferred = s'.parked.map Held.loc

theorem Arena.retireLoc_spec (hs : ArenaOk s) (hk : h.kind = .aligned .liveMid)
    (hown : Owns s.held h) : Retiring s (s.retireLoc h) [h] := by
  have hcongr : ∀ {l : List Held}, Inv s.alloc l → Inv (s.alloc.retireBlock h.loc) l := fun hinv =>
    hinv.congr rfl rfl rfl rfl (fun r => by cases r <;> rfl) rfl rfl
  obtain ⟨g₀, hg₀, hk₀, hext₀⟩ := hown
  have hmem₀ := (hs.inv.placed g₀ hg₀).addr_mem
  have haddr₀ : g₀.addr = h.addr := by
    have := congrArg Extent.start hext₀
    simpa only [extent, hk₀, hk] using this
  -- the extent at the address is the one that stands for `h`
  have hone : ∀ g ∈ s.lent, g.addr = h.addr → g = g₀ := fun g hg hga => by
    have hgh := mem_append_left s.parked hg
    refine hs.inv.eq_of_mem hgh hg₀ (hs.inv.placed g hgh).addr_mem ?_
    rwa [hga, ← haddr₀]
  unfold retireLoc
  dsimp only
  split
  · rename_i hany
    obtain ⟨g, hg, hga⟩ := any_eq_true.mp hany
    obtain ⟨g₁, l₁, l₂, -, hp₁, hlent, herase⟩ :=
      exists_of_eraseP (p := fun g => decide (g.addr = h.addr)) hg hga
    have hg₁ : g₁ ∈ s.lent := hlent ▸ mem_append_right _ (.head _)
    obtain rfl := hone g₁ hg₁ (of_decide_eq_true hp₁)
    have hperm : (g₁ :: (l₁ ++ l₂ ++ s.parked)).Perm s.held := by
      rw [held, hlent, append_assoc, append_assoc, cons_append]
      exact perm_middle.symm
    have hperm' : (l₁ ++ l₂ ++ (s.parked ++ [h])).Perm (h :: (l₁ ++ l₂ ++ s.parked)) := by
      rw [← append_assoc]
      exact perm_append_singleton h _
    have hinv := (hs.inv.mono hperm.subperm).swap hk₀.symm hext₀.symm
    have hsub : ∀ x ∈ s.held, x = g₁ ∨ x ∈ l₁ ++ l₂ ++ s.parked :=
      fun x hx => mem_cons.mp (hperm.mem_iff.mpr hx)
    rw [herase]
    refine ⟨⟨hcongr (hinv.mono hperm'.subperm), fun x hx hxk => ?_, fun x hx => ?_⟩, fun x hx => ?_,
      fun x hx hdis => ?_, fun _ hdef => ?_⟩
    · rcases mem_cons.mp (hperm'.mem_iff.mp hx) with rfl | hx
      · rw [hk] at hxk
        cases hxk
      · exact hs.blocks x (hperm.mem_iff.mp (.tail _ hx)) hxk
    · rcases mem_append.mp hx with hx | hx
      · exact hs.parked x hx
      · rw [mem_singleton.mp hx]
        exact hk
    · obtain ⟨y, hy, hyk, hyext⟩ := hx
      rcases hsub y hy with rfl | hy
      · exact ⟨h, hperm'.mem_iff.mpr (.head _), hk₀.symm.trans hyk, hext₀.symm.trans hyext⟩
      · exact ⟨y, hperm'.mem_iff.mpr (.tail _ hy), hyk, hyext⟩
    · obtain ⟨y, hy, hyk, hyext⟩ := hx
      refine ⟨y, ?_, hyk, hyext⟩
      rw [hlent] at hy
      rcases mem_append.mp hy with hy | hy
      · exact mem_append_left _ hy
      · rcases mem_cons.mp hy with rfl | hy
        · exact absurd (hext₀ ▸ hmem₀) (Set.disjoint_left.mp (hdis h (.head _)) (hyext ▸ hmem₀))
        · exact mem_append_right _ hy
    · show s.alloc.deferred ++ [h.loc] = (s.parked ++ [h]).map Held.loc
      rw [map_append, hdef]
      rfl
  · rename_i hany
    refine ⟨⟨hcongr hs.inv, hs.blocks, hs.parked⟩, fun _ hx => hx, fun _ hx _ => hx, fun hall _ => ?_⟩
    obtain ⟨g, hg, hgk, hgext⟩ := hall h (.head _)
    refine absurd (any_eq_true.mpr ⟨g, hg, decide_eq_true ?_⟩) hany
    have := congrArg Extent.start hgext
    simpa only [extent, hgk, hk] using this

theorem Arena.retireAll_spec {R : List Held} (hs : ArenaOk s)
    (hk : ∀ h ∈ R, h.kind = .aligned .liveMid) (hown : ∀ h ∈ R, Owns s.held h)
    (hdis : R.Pairwise fun h g => Disjoint h.extent.bytes g.extent.bytes) :
    Retiring s (R.foldl retireLoc s) R := by
  induction R generalizing s with
  | nil => exact ⟨hs, fun _ hg => hg, fun _ hg _ => hg, fun _ hdef => hdef⟩
  | cons h R ih =>
    obtain ⟨hfirst, hrest⟩ := pairwise_cons.mp hdis
    have h₁ := retireLoc_spec hs (hk h (.head _)) (hown h (.head _))
    have h₂ := ih h₁.ok (fun g hg => hk g (.tail _ hg))
      (fun g hg => h₁.owned g (hown g (.tail _ hg))) hrest
    have hnext : ∀ g, Owns s.lent g → Disjoint g.extent.bytes h.extent.bytes →
        Owns (s.retireLoc h).lent g := fun g hg hd =>
      h₁.lent g hg fun x hx => by rwa [mem_singleton.mp hx]
    refine ⟨h₂.ok, fun g hg => h₂.owned g (h₁.owned g hg), fun g hg hd => ?_, fun hall hdef => ?_⟩
    · exact h₂.lent g (hnext g hg (hd h (.head _))) fun x hx => hd x (.tail _ hx)
    · refine h₂.deferred (fun x hx => hnext x (hall x (.tail _ hx)) (hfirst x hx).symm)
        (h₁.deferred (fun x hx => ?_) hdef)
      rw [mem_singleton.mp hx]
      exact hall h (.head _)

/-! ### Stages -/

/-- What a stage does, for the records `live` before it. -/
structure StageSpec (b : Bool) (s s' : Arena) (live : List Held) (st : Stage)
    (r : Option (List Held)) : Prop where
  ok : ArenaOk s'
  owned : ∀ g, g.isContent → Owns s.held g → Owns s'.held g
  deferred : b = false → s.alloc.deferred = s.parked.map Held.loc →
    s'.alloc.deferred = s'.parked.map Held.loc
  next : ∀ live', r = some live' → LiveOk b s' live'
  /-- nothing was retired -/
  kept : st.retires = false ∨ r = none → s'.parked = s.parked ∧ LiveOk b s' live

/-- What a record refers to stays held, if only as retired. -/
theorem LiveOk.stage {st : Stage} {l : List Held} (hl : LiveOk b s l)
    (hst : StageSpec b' s s' live st r) : LiveOk true s' l :=
  ⟨hl.content, fun h hh => hst.owned h (hl.content h hh) (hl.owns_held h hh), hl.apart⟩

theorem Placing.stageSpec {st : Stage} (hp : Placing s s') (hl : LiveOk b s live)
    (hnext : ∀ live', r = some live' → LiveOk b s' live') : StageSpec b s s' live st r :=
  ⟨hp.ok, fun _ hg hown => hp.owns_held hg hown, fun _ hdef => by rw [hp.deferred, hp.parked, hdef],
    hnext, fun _ => ⟨hp.parked, hl.placing hp⟩⟩

theorem Arena.rechunk_spec {olds : List OldFragment} {news : List Piece} (hs : ArenaOk s)
    (hl : LiveOk b s live) (hnd : (olds.map OldFragment.loc).Nodup)
    (hin : ∀ h ∈ olds.map OldFragment.loc, h ∈ live) (h : s.rechunk live olds news = (s', r)) :
    StageSpec b s s' live (.rechunk olds news) r := by
  unfold rechunk at h
  split at h
  · rename_i s₁ hev
    cases h
    exact (placeAll_spec hs hev).1.stageSpec hl fun live' he => by cases he
  rename_i s₁ evs hev
  have hp₁ := (placeAll_spec hs hev).1
  split at h
  · rename_i s₂ hnews
    cases h
    exact (hp₁.trans (placeAll_spec hp₁.ok hnews).1).stageSpec hl fun live' he => by cases he
  rename_i s₂ xs hnews
  cases h
  obtain ⟨hp₂, hxs⟩ := placeAll_spec hp₁.ok hnews
  obtain ⟨hnew, hpair⟩ := hxs xs rfl rfl
  have hp := hp₁.trans hp₂
  have hl₂ := hl.placing hp
  have hret : ∀ x ∈ retiredOf olds, x ∈ olds.map OldFragment.loc ∧ baseBlock ≤ x.len := by
    intro x hx
    obtain ⟨o, ho, rfl⟩ := mem_map.mp hx
    obtain ⟨hmem, hcond⟩ := mem_filter.mp ho
    exact ⟨mem_map_of_mem hmem, (of_decide_eq_true hcond).2⟩
  have hlive : ∀ x ∈ retiredOf olds, x ∈ live := fun x hx => hin x (hret x hx).1
  have hnd' : (retiredOf olds).Nodup := hnd.sublist (filter_sublist.map _)
  have hdis : (retiredOf olds).Pairwise fun h g => Disjoint h.extent.bytes g.extent.bytes :=
    hnd'.imp_of_mem fun hx hy hne => hl.disjoint (hlive _ hx) (hlive _ hy) hne
  have hR := retireAll_spec hp.ok
    (fun x hx => isAligned_of_len hp.ok (hl.content x (hlive x hx)) (hl₂.owns_held x (hlive x hx))
      (hret x hx).2)
    (fun x hx => hl₂.owns_held x (hlive x hx)) hdis
  refine ⟨hR.ok, fun g hg hown => hR.owned g (hp.owns_held hg hown), fun hb hdef => ?_,
    fun live' he => ?_, fun hkept => ?_⟩
  · subst hb
    exact hR.deferred (fun x hx => hl₂.owned x (hlive x hx)) (by rw [hp.deferred, hp.parked, hdef])
  · cases he
    -- the new fragments, and the old ones that are not replaced, are apart from what is retired
    have hrest : ∀ g ∈ live.filter (fun g => g ∉ olds.map OldFragment.loc), g ∈ live ∧
        ∀ x ∈ retiredOf olds, Disjoint g.extent.bytes x.extent.bytes := by
      intro g hg
      obtain ⟨hg, hnot⟩ := mem_filter.mp hg
      refine ⟨hg, fun x hx => hl.disjoint hg (hlive x hx) fun he => ?_⟩
      exact of_decide_eq_true hnot (he ▸ (hret x hx).1)
    have hfresh : ∀ x ∈ xs, ∀ y ∈ live, Disjoint x.extent.bytes y.extent.bytes := fun x hx y hy =>
      (hnew x hx).apart y (hl.content y hy) ((hl.placing hp₁).owns_held y hy)
    refine ⟨fun x hx => ?_, fun x hx => ?_,
      pairwise_append.mpr ⟨hpair, hl.apart.sublist filter_sublist, ?_⟩⟩
    · rcases mem_append.mp hx with hx | hx
      · exact (hnew x hx).content
      · exact hl.content x (hrest x hx).1
    · rcases mem_append.mp hx with hx | hx
      · exact owners_of_lent (hR.lent x (hnew x hx).lent fun y hy => hfresh x hx y (hlive y hy))
      · obtain ⟨hx, hd⟩ := hrest x hx
        cases b with
        | true => exact hR.owned x (hl₂.owned x hx)
        | false => exact hR.lent x (hl₂.owned x hx) hd
    · exact fun x hx y hy => hfresh x hx y (hrest y hy).1
  · rcases hkept with hnone | hnone
    · have hnil : retiredOf olds = [] := by simpa [Stage.retires] using hnone
      rw [hnil]
      exact ⟨hp.parked, hl₂⟩
    · cases hnone

theorem Arena.stage_spec {st : Stage} (hs : ArenaOk s) (hl : LiveOk b s live)
    (hnd : st.replaced.Nodup) (hin : ∀ h ∈ st.replaced, h ∈ live) (h : s.stage live st = (s', r)) :
    StageSpec b s s' live st r := by
  cases st with
  | touch frags =>
    obtain ⟨hp, hnext⟩ := touchAll_spec hs hl hnd hin h
    exact hp.stageSpec hl hnext
  | truncate dropped last =>
    obtain ⟨hp, hnext⟩ := truncate_spec hs hl h
    exact hp.stageSpec hl hnext
  | rechunk olds news => exact rechunk_spec hs hl hnd hin h

end

/-! ## Runs -/

/-- Retired blocks that a failed write leaves behind are held all the same. -/
theorem LiveOk.or {b c : Bool} {live : List Held} (h : LiveOk b a live) : LiveOk (b || c) a live := by
  refine ⟨h.content, fun g hg => ?_, h.apart⟩
  cases b with
  | true => exact h.owned g hg
  | false =>
    cases c with
    | true => exact (h.owned g hg).of_lent
    | false => exact h.owned g hg

structure FragsOk (s : Frags) : Prop where
  arena : ArenaOk s.arena
  deferred : s.orphaned = false → s.arena.alloc.deferred = s.arena.parked.map Held.loc
  live : LiveOk s.orphaned s.arena s.live
  disk : LiveOk true s.arena s.disk

/-- Outside a transaction nothing is retired. -/
structure FragsInv (s : Frags) : Prop extends FragsOk s where
  idle : s.depth = 0 → s.arena.parked = [] ∧ s.orphaned = false

namespace Frags

variable {s : Frags}

theorem ok_init {fileLen : Nat} (hdvd : baseBlock ∣ fileLen) (hlen : 2 * baseBlock ≤ fileLen)
    (noGrow : Bool) : FragsInv (init fileLen noGrow) :=
  ⟨⟨⟨Inv.new hdvd hlen noGrow, fun _ hh => absurd hh not_mem_nil,
    fun _ hh => absurd hh not_mem_nil⟩, fun _ => rfl,
      ⟨fun _ hh => absurd hh not_mem_nil, fun _ hh => absurd hh not_mem_nil, .nil⟩,
    ⟨fun _ hh => absurd hh not_mem_nil, fun _ hh => absurd hh not_mem_nil, .nil⟩⟩, fun _ => ⟨rfl, rfl⟩⟩

/-- Everything retired is held by its record again. -/
theorem abort_inv (hs : FragsOk s) : FragsInv s.abort := by
  have hheld : s.abort.arena.held = s.arena.held := append_nil _
  refine ⟨⟨⟨?_, fun h hh => hs.arena.blocks h (hheld ▸ hh), fun h hh => absurd hh not_mem_nil⟩,
    fun _ => rfl, ⟨hs.live.content, fun h hh => hs.live.owns_held h hh, hs.live.apart⟩,
    ⟨hs.disk.content, fun h hh => ?_, hs.disk.apart⟩⟩, fun _ => ⟨rfl, rfl⟩⟩
  · rw [hheld]
    exact hs.arena.inv.congr rfl rfl rfl rfl (fun r => by cases r <;> rfl) rfl rfl
  · exact Eq.subst (motive := fun l => Owns l h) hheld.symm (hs.disk.owned h hh)

/-- The header names the records in memory; what they no longer refer to is freed. -/
theorem publish_inv (hs : FragsOk s) (hclean : s.depth = 0 → s.orphaned = false) (commit : Bool) :
    FragsInv (s.publish commit) := by
  unfold publish
  split
  · rename_i hd
    exact ⟨hs, fun h0 => absurd h0 (Nat.pos_iff_ne_zero.mp hd)⟩
  rename_i hd
  have horph := hclean (Nat.eq_zero_of_not_pos hd)
  split
  · have harena : ArenaInv s.arena := ⟨hs.arena.inv, hs.deferred horph⟩
    have hpub := harena.publishDeferred fun h hh hk => by
      rw [hs.arena.parked h hh] at hk
      cases hk
    have hlive : ∀ h ∈ s.live, Owns s.arena.lent h := fun h hh => by
      have := hs.live.owned h hh
      rwa [horph] at this
    refine ⟨⟨⟨hpub.inv, fun h hh => ?_, fun h hh => absurd hh not_mem_nil⟩, fun _ => hpub.deferred,
      ⟨hs.live.content, fun h hh => owners_of_lent (hlive h hh), hs.live.apart⟩,
      ⟨hs.live.content, fun h hh => owners_of_lent (hlive h hh), hs.live.apart⟩⟩,
      fun _ => ⟨rfl, horph⟩⟩
    have hh : h ∈ s.arena.lent ++ [] := hh
    rw [append_nil] at hh
    exact hs.arena.blocks h (mem_append_left _ hh)
  · exact abort_inv hs

theorem write_inv (hs : FragsInv s) {w : WriteIn} {commit : Bool} (hlegal : s.Legal (.write w commit))
    (hsafe : s.Safe (.write w commit)) : FragsInv (s.write w commit) := by
  unfold write
  split
  · rename_i a hst
    have hstg := stage_spec hs.arena hs.live hlegal.1 hlegal.2 hst
    obtain ⟨hpark, hlive⟩ := hstg.kept (.inr rfl)
    refine ⟨⟨hstg.ok, fun ho => hstg.deferred ho (hs.deferred ho), hlive, hs.disk.stage hstg⟩,
      fun h0 => ?_⟩
    exact ⟨hpark.trans (hs.idle h0).1, (hs.idle h0).2⟩
  rename_i a live hst
  have hstg := stage_spec hs.arena hs.live hlegal.1 hlegal.2 hst
  have hrec := (placeAll_spec hstg.ok (Prod.mk.eta (p := a.placeAll .record w.record)).symm).1
  have hpath := (placeAll_spec hrec.ok
    (Prod.mk.eta (p := (a.placeAll .record w.record).1.placeAll .record w.path)).symm).1
  have hdef : ∀ {a'}, Placing a a' → s.orphaned = false →
      a'.alloc.deferred = a'.parked.map Held.loc := fun hp ho => by
    rw [hp.deferred, hp.parked]
    exact hstg.deferred ho (hs.deferred ho)
  have hdisk : ∀ {a'}, Placing a a' → LiveOk true a' s.disk :=
    fun hp => (hs.disk.stage hstg).placing hp
  have hnext := hstg.next live rfl
  -- outside a transaction only a write that retires nothing fails
  have hidle : ∀ {a'}, Placing a a' → (w.recordOk = false ∨ w.pathOk = false) → s.depth = 0 →
      a'.parked = [] ∧ (s.orphaned || w.stage.retires) = false := by
    intro a' hp hfail h0
    have hno : w.stage.retires = false := by
      by_contra hret
      obtain ⟨h₁, h₂⟩ := hsafe h0 (by simpa using hret)
      rw [h₁, h₂] at hfail
      rcases hfail with hf | hf <;> cases hf
    rw [hp.parked, (hstg.kept (.inl hno)).1, (hs.idle h0).1, (hs.idle h0).2, hno]
    exact ⟨rfl, rfl⟩
  dsimp only
  split
  · split
    · exact publish_inv (s := { s with arena := _, live }) ⟨hpath.ok, hdef (hrec.trans hpath),
        (hnext.placing hrec).placing hpath, hdisk (hrec.trans hpath)⟩
        (fun h0 => (hs.idle h0).2) commit
    · rename_i hpathOk
      refine ⟨⟨hpath.ok, fun ho => hdef (hrec.trans hpath) (Bool.or_eq_false_iff.mp ho).1,
        ((hnext.placing hrec).placing hpath).or, hdisk (hrec.trans hpath)⟩, fun h0 => ?_⟩
      exact hidle (hrec.trans hpath) (.inr (Bool.eq_false_iff.mpr hpathOk)) h0
  · rename_i hrecOk
    refine ⟨⟨hrec.ok, fun ho => hdef hrec (Bool.or_eq_false_iff.mp ho).1, ?_, hdisk hrec⟩,
      fun h0 => ?_⟩
    · show LiveOk (s.orphaned || w.stage.retires) _ s.live
      cases hret : w.stage.retires with
      | false => exact ((hstg.kept (.inl hret)).2.placing hrec).or
      | true =>
        rw [Bool.or_true]
        exact (hs.live.stage hstg).placing hrec
    · exact hidle hrec (.inl (Bool.eq_false_iff.mpr hrecOk)) h0

/-- A change of the arena that keeps every content extent where it is held. -/
theorem FragsOk.arena_step (hs : FragsOk s) (hok : ArenaOk a) (hpark : a.parked = s.arena.parked)
    (hdef : a.alloc.deferred = s.arena.alloc.deferred)
    (hkept : ∀ h ∈ s.live ++ s.disk, Owns s.arena.lent h → Owns a.lent h) :
    FragsOk { s with arena := a } := by
  have hheld : ∀ h ∈ s.live ++ s.disk, Owns s.arena.held h → Owns a.held h := by
    intro h hh hown
    rcases owns_append.mp hown with hown | hown
    · exact (hkept h hh hown).of_lent
    · exact owns_append.mpr (.inr (hpark ▸ hown))
  refine ⟨hok, fun ho => by rw [hpark, hdef]; exact hs.deferred ho,
    ⟨hs.live.content, fun h hh => ?_, hs.live.apart⟩, ⟨hs.disk.content,
      fun h hh => hheld h (mem_append_right _ hh) (hs.disk.owned h hh), hs.disk.apart⟩⟩
  have hown := hs.live.owned h hh
  show Owns (owners s.orphaned a) h
  cases ho : s.orphaned with
  | true =>
    rw [ho] at hown
    exact hheld h (mem_append_left _ hh) hown
  | false =>
    rw [ho] at hown
    exact hkept h (mem_append_left _ hh) hown

theorem FragsInv.arena_step (hs : FragsInv s) (hok : ArenaOk a) (hpark : a.parked = s.arena.parked)
    (hdef : a.alloc.deferred = s.arena.alloc.deferred)
    (hkept : ∀ h ∈ s.live ++ s.disk, Owns s.arena.lent h → Owns a.lent h) :
    FragsInv { s with arena := a } :=
  ⟨FragsOk.arena_step hs.toFragsOk hok hpark hdef hkept,
    fun h0 => ⟨hpark.trans (hs.idle h0).1, (hs.idle h0).2⟩⟩

/-- The reclaim scope changes, if `c`; nothing else of the arena does. -/
theorem FragsOk.scope (hs : FragsOk s) (a : Arena) (hinv : Inv a.alloc s.arena.held)
    (hlent : a.lent = s.arena.lent) (hpark : a.parked = s.arena.parked)
    (hdef : a.alloc.deferred = s.arena.alloc.deferred) (c : Prop) [Decidable c] (depth : Nat) :
    FragsOk { s with arena := if c then a else s.arena, depth := depth } := by
  have hheld : a.held = s.arena.held := by rw [held, hlent, hpark, held]
  have hok : ArenaOk a := ⟨hheld ▸ hinv, hheld ▸ hs.arena.blocks, hpark ▸ hs.arena.parked⟩
  have hscope : FragsOk { s with arena := if c then a else s.arena } := by
    split
    · exact FragsOk.arena_step hs hok hpark hdef fun h _ hown => hlent ▸ hown
    · exact hs
  exact ⟨hscope.arena, hscope.deferred, hscope.live, hscope.disk⟩

theorem FragsInv.isContent (hs : FragsInv s) {h : Held} (hh : h ∈ s.live ++ s.disk) : h.isContent := by
  rcases mem_append.mp hh with hh | hh
  · exact hs.live.content h hh
  · exact hs.disk.content h hh

theorem FragsInv.free (hs : FragsInv s) {h : Held} (hh : h ∈ s.arena.lent) {r : Region}
    (hk : h.kind = .aligned r) (hr : r ≠ .liveMid) :
    FragsInv { s with arena := s.arena.step (.free h) } := by
  have hperm : (h :: (s.arena.lent.erase h ++ s.arena.parked)).Perm s.arena.held := by
    rw [← cons_append]
    exact (perm_cons_erase hh).symm.append_right _
  refine FragsInv.arena_step hs ⟨(hs.arena.inv.mono hperm.subperm).free_aligned hk,
    fun g hg => hs.arena.blocks g (hperm.mem_iff.mp (.tail _ hg)), hs.arena.parked⟩ rfl
      (free_deferred _ _) fun g hg hown => ?_
  obtain ⟨y, hy, hyk, hyext⟩ := hown
  refine ⟨y, (mem_erase_of_ne fun he => ?_).mpr hy, hyk, hyext⟩
  subst he
  rw [hk] at hyk
  rcases FragsInv.isContent hs hg with hgk | hgk
  · rw [hgk] at hyk
    cases hyk
  · rw [hgk] at hyk
    cases hyk
    exact hr rfl

/-- A packed extent that does not start in a block is outside it. -/
theorem InOneBlock.disjoint_blockAt {h : Held} {base : Nat} (hone : InOneBlock h)
    (hk : h.kind = .packed) (hdvd : baseBlock ∣ base)
    (hout : ¬ (base ≤ h.addr ∧ h.addr < base + baseBlock)) :
    Disjoint h.extent.bytes (blockAt base).bytes := by
  obtain ⟨blk, hblk, hlo, hhi⟩ := hone
  refine Set.disjoint_left.mpr fun x hx hx' => ?_
  simp only [extent, hk, Extent.mem_bytes, Extent.stop] at hx
  simp only [blockAt, Extent.mem_bytes, Extent.stop] at hx'
  have hb₁ : blk ≤ base := by
    by_contra hlt
    have : base + baseBlock ≤ blk := by unfold baseBlock at *; omega
    omega
  have hb₂ : base ≤ blk := by
    by_contra hlt
    have : blk + baseBlock ≤ base := by unfold baseBlock at *; omega
    omega
  omega

theorem FragsInv.freePack (hs : FragsInv s) {base : Nat} (hlegal : s.Legal (.freePack base)) :
    FragsInv (s.step (.freePack base)) := by
  obtain ⟨hlive, haligned⟩ := hlegal
  have hlent : ∀ h ∈ s.arena.lent.filter
    (fun h => ¬ (h.kind = .packed ∧ base ≤ h.addr ∧ h.addr < base + baseBlock)),
      h ∈ s.arena.lent ∧ ¬ (h.kind = .packed ∧ base ≤ h.addr ∧ h.addr < base + baseBlock) :=
    fun h hh => ⟨(mem_filter.mp hh).1, of_decide_eq_true (mem_filter.mp hh).2⟩
  have hinv := hs.arena.inv.mono (filter_sublist.append_right s.arena.parked |>.subperm :
    (s.arena.lent.filter (fun h => ¬ (h.kind = .packed ∧ base ≤ h.addr ∧ h.addr < base + baseBlock)) ++
      s.arena.parked).Subperm s.arena.held)
  refine FragsInv.arena_step hs ⟨?_, fun g hg hk => ?_, hs.arena.parked⟩ rfl (free_deferred _ _)
    fun g hg hown => ?_
  · have hone : s.arena.alloc.free ⟨base, baseBlock⟩ = s.arena.alloc.free ⟨base, 1⟩ := by
      have hfoot : footprint baseBlock = footprint 1 := by decide
      simp only [Allocator.free, hfoot]
    show Inv (s.arena.alloc.free ⟨base, baseBlock⟩).1 _
    rw [hone]
    refine hinv.free_block (show 1 < baseBlock by decide) fun htag g hg => ?_
    obtain ⟨r, hr⟩ := Option.isSome_iff_exists.mp htag
    have hdvd := (hinv.tagged base r hr).dvd
    by_cases hk : g.kind = .packed
    · rcases mem_append.mp hg with hg | hg
      · obtain ⟨hg, hout⟩ := hlent g hg
        exact InOneBlock.disjoint_blockAt (hs.arena.blocks g (mem_append_left _ hg) hk) hk hdvd
          fun h => hout ⟨hk, h⟩
      · rw [hs.arena.parked g hg] at hk
        cases hk
    · refine haligned g ?_ hk
      rcases mem_append.mp hg with hg | hg
      · exact mem_append_left _ (hlent g hg).1
      · exact mem_append_right _ hg
  · rcases mem_append.mp hg with hg | hg
    · exact hs.arena.blocks g (mem_append_left _ (hlent g hg).1) hk
    · exact hs.arena.blocks g (mem_append_right _ hg) hk
  · obtain ⟨y, hy, hyk, hyext⟩ := hown
    refine ⟨y, mem_filter.mpr ⟨hy, decide_eq_true ?_⟩, hyk, hyext⟩
    rintro ⟨-, hlo, hhi⟩
    have hyaddr := (hs.arena.inv.placed y (mem_append_left _ hy)).addr_mem
    rw [hyext] at hyaddr
    exact Set.disjoint_left.mp (hlive g hg) hyaddr ⟨hlo, hhi⟩

/-- After an open the records are those of the header, and nothing is retired. -/
theorem FragsInv.reopen (hs : FragsInv s) {kept : List Held} (hlegal : s.Legal (.reopen kept))
    (hsafe : s.Safe (.reopen kept)) : FragsInv (s.step (.reopen kept)) := by
  obtain ⟨hsub, hreach⟩ := hlegal
  have hsub : kept.Sublist s.arena.held := hsub
  have hheld : (s.arena.step (.reopen kept)).held = kept := append_nil _
  have hinv := hs.arena.inv.reopened hsub.subperm hsafe.1 hsafe.2
  refine ⟨⟨⟨hheld.symm ▸ hinv, fun h hh => hs.arena.blocks h (hsub.subset (hheld ▸ hh)),
    fun h hh => absurd hh not_mem_nil⟩, fun _ => reopened_deferred _ _,
      ⟨hs.disk.content, hreach, hs.disk.apart⟩,
    ⟨hs.disk.content, fun h hh => owners_of_lent (hreach h hh), hs.disk.apart⟩⟩, fun _ => ⟨rfl, rfl⟩⟩

theorem step_inv (hs : FragsInv s) {op : FragOp} (hlegal : s.Legal op) (hsafe : s.Safe op) :
    FragsInv (s.step op) := by
  cases op with
  | write w commit => exact write_inv hs hlegal hsafe
  | beginTransaction =>
    exact ⟨FragsOk.scope hs.toFragsOk (s.arena.step .beginReclaimScope)
        (hs.arena.inv.congr rfl rfl rfl rfl (fun r => by cases r <;> rfl) rfl rfl) rfl rfl rfl _ _,
      fun h0 => absurd h0 (Nat.succ_ne_zero _)⟩
  | endTransaction ok commit =>
    have hend : FragsOk { s with
        arena := if s.depth = 1 then s.arena.step .endReclaimScope else s.arena
        depth := s.depth - 1 } :=
      FragsOk.scope hs.toFragsOk (s.arena.step .endReclaimScope)
        (hs.arena.inv.congr rfl rfl rfl rfl (fun r => by cases r <;> rfl) rfl rfl) rfl rfl rfl _ _
    show FragsInv (s.endTransaction ok commit)
    unfold endTransaction
    dsimp only
    split
    · rename_i hok
      refine publish_inv hend (fun h0 => ?_) commit
      by_contra ho
      have h1 : s.depth = 1 := by
        have : 0 < s.depth := hlegal
        have : s.depth - 1 = 0 := h0
        omega
      have := hsafe h1 (by simpa using ho)
      rw [hok] at this
      cases this
    · exact abort_inv hend
  | freeTail h => exact FragsInv.free hs hlegal.1 hlegal.2 (by decide)
  | freeNode h =>
    show FragsInv { s with arena := s.arena.step (.freeReclaimable h) }
    rcases s.arena.step_freeReclaimable h with heq | heq <;> rw [heq]
    · exact hs
    · exact FragsInv.free hs hlegal.1 hlegal.2 (by decide)
  | freePack base => exact FragsInv.freePack hs hlegal
  | reopen kept => exact FragsInv.reopen hs hlegal hsafe

theorem inv_run {fileLen : Nat} (hdvd : baseBlock ∣ fileLen) (hlen : 2 * baseBlock ≤ fileLen)
    (noGrow : Bool) {ops : List FragOp}
    (h : Along step (fun s op => s.Legal op ∧ s.Safe op) (init fileLen noGrow) ops) :
    FragsInv (run step (init fileLen noGrow) ops) :=
  run_inv (I := FragsInv) (fun _ _ hs hop => step_inv hs hop.1 hop.2) (ok_init hdvd hlen noGrow) h

end Frags

/-! ## Retired blocks -/

/-- The blocks that the committed header refers to are held, not free and nobody else's. Outside a
transaction none of them waits to be freed. -/
structure Intact (s : Frags) : Prop where
  owned : ∀ h ∈ s.disk, Owns s.arena.held h
  not_free : ∀ h ∈ s.disk, ∀ x ∈ h.extent.bytes, x ∉ s.arena.alloc.freeBytes
  alone : ∀ h ∈ s.disk, ∀ g ∈ s.arena.held,
    g.extent = h.extent ∨ Disjoint g.extent.bytes h.extent.bytes
  idle : s.depth = 0 → s.arena.alloc.deferred = [] ∧ ∀ h ∈ s.disk, Owns s.arena.lent h

theorem FragsInv.intact {s : Frags} (hs : FragsInv s) : Intact s := by
  refine ⟨hs.disk.owns_held, fun h hh x hx => ?_, fun h hh g hg => ?_, fun h0 => ?_⟩
  · obtain ⟨g, hg, -, hext⟩ := hs.disk.owned h hh
    exact hs.arena.inv.not_free g hg x (hext ▸ hx)
  · obtain ⟨y, hy, -, hext⟩ := hs.disk.owned h hh
    rw [← hext]
    by_cases hgy : g = y
    · exact .inl (by rw [hgy])
    · exact .inr (disjoint_of_ne hs.arena.inv.disjoint hg hy hgy)
  · obtain ⟨hpark, horph⟩ := hs.idle h0
    refine ⟨by rw [hs.deferred horph, hpark]; rfl, fun h hh => ?_⟩
    have hown := hs.disk.owns_held h hh
    rwa [held, hpark, append_nil] at hown

/-- **Retired blocks.** A re-chunk's old blocks are nobody else's until a header commit that no
longer refers to them, in every run in which a write that has retired blocks fails only inside a
transaction that fails too. -/
theorem retired_intact_run {fileLen : Nat} (hdvd : baseBlock ∣ fileLen)
    (hlen : 2 * baseBlock ≤ fileLen) (noGrow : Bool) (ops : List FragOp)
    (h : Along Frags.step (fun s op => s.Legal op ∧ s.Safe op) (Frags.init fileLen noGrow) ops) :
    Intact (run Frags.step (Frags.init fileLen noGrow) ops) :=
  (Frags.inv_run hdvd hlen noGrow h).intact

/-- A write of new fragments that succeeds. -/
def placing (lens : List Nat) : FragOp :=
  .write ⟨.touch (lens.map fun n => ⟨none, false, ⟨none, 0, true⟩, ⟨none, n, true⟩⟩),
    [⟨none, 200, true⟩], true, [], true⟩ true

/-- One block becomes two; the record is written or not. -/
def rechunking (recordOk : Bool) : FragOp :=
  .write ⟨.rechunk [⟨⟨8192, 4096, .aligned .liveMid⟩, none⟩] [⟨none, 8192, true⟩],
    [⟨none, 200, recordOk⟩], recordOk, [], true⟩ true

/-- A re-chunk in a transaction whose header commit fails: the old block is its record's again. -/
theorem retired_intact_failed_commit :
    let s := run Frags.step (Frags.init 65536 false)
      [placing [4096], .beginTransaction, rechunking true, .endTransaction true false]
    s.disk = [⟨8192, 4096, .aligned .liveMid⟩] ∧ s.live = [⟨16384, 8192, .aligned .liveMid⟩] ∧
      Intact s := by
  refine ⟨by decide, by decide, retired_intact_run (by decide) (by decide) false _
    ⟨⟨⟨by decide, by decide⟩, ?_⟩, ⟨trivial, trivial⟩, ⟨⟨by decide, by decide⟩, ?_⟩,
      ⟨Nat.one_pos, ?_⟩, trivial⟩⟩
  · exact fun _ hret => absurd hret (by decide)
  · exact fun h0 => absurd h0 (by decide)
  · exact fun _ ho => absurd ho (by decide)

/-- A re-chunk whose record cannot be written, another file's write, a small file's, the re-chunk
once more and a last write. -/
def orphaningOps : List FragOp :=
  [placing [4096], rechunking false, placing [4096], placing [100], rechunking true, placing [4096]]

/-- The failed write leaves its block in the list of what the next commit frees: the header still
refers to it, and the small file's fragment lies in it. -/
theorem retired_relent :
    Along Frags.step Frags.Legal (Frags.init 65536 false) (orphaningOps.take 4) ∧
      let s := run Frags.step (Frags.init 65536 false) (orphaningOps.take 4)
      s.disk = [⟨8192, 100, .packed⟩, ⟨28672, 4096, .aligned .liveMid⟩,
        ⟨8192, 4096, .aligned .liveMid⟩] ∧ s.depth = 0 ∧
        ¬ Intact s := by
  refine ⟨⟨⟨by decide, by decide⟩, ⟨by decide, by decide⟩, ⟨by decide, by decide⟩,
    ⟨by decide, by decide⟩, trivial⟩, by decide, by decide, fun hs => ?_⟩
  rcases hs.alone ⟨8192, 4096, .aligned .liveMid⟩ (by decide) ⟨8192, 100, .packed⟩ (by decide)
    with he | hd
  · exact absurd he (by decide)
  · exact Set.disjoint_left.mp hd (show 8192 ∈ _ from ⟨by decide, by decide⟩) ⟨by decide, by decide⟩

/-! ## Packed fragments -/

structure PackedApart (s : Frags) : Prop where
  apart : s.live.Pairwise fun h g =>
    h.kind = .packed → g.kind = .packed → Disjoint h.extent.bytes g.extent.bytes
  block : ∀ h ∈ s.live, h.kind = .packed → InOneBlock h
  aligned : ∀ h ∈ s.live, h.kind = .packed → ∀ g ∈ s.arena.held, g.kind ≠ .packed →
    Disjoint h.extent.bytes g.extent.bytes

theorem FragsInv.packedApart {s : Frags} (hs : FragsInv s) : PackedApart s := by
  refine ⟨hs.live.apart.imp fun hd _ _ => hd, fun h hh hk => ?_, fun h hh hk g hg hgk => ?_⟩
  · obtain ⟨g, hg, hgk, hext⟩ := hs.live.owns_held h hh
    rw [hk] at hgk
    obtain ⟨b, hb, hlo, hhi⟩ := hs.arena.blocks g hg hgk
    simp only [extent, hk, hgk, Extent.mk.injEq] at hext
    exact ⟨b, hb, hext.1 ▸ hlo, hext.1 ▸ hext.2 ▸ hhi⟩
  · obtain ⟨y, hy, hyk, hext⟩ := hs.live.owns_held h hh
    rw [← hext]
    refine disjoint_of_ne hs.arena.inv.disjoint hy hg fun he => hgk ?_
    rw [← he, hyk, hk]

/-- **Packing.** The packed fragments of all records are apart, each in one block, and no aligned
extent that is lent or retired overlaps one, in every run of the same kind. -/
theorem packed_apart_run {fileLen : Nat} (hdvd : baseBlock ∣ fileLen)
    (hlen : 2 * baseBlock ≤ fileLen) (noGrow : Bool) (ops : List FragOp)
    (h : Along Frags.step (fun s op => s.Legal op ∧ s.Safe op) (Frags.init fileLen noGrow) ops) :
    PackedApart (run Frags.step (Frags.init fileLen noGrow) ops) :=
  (Frags.inv_run hdvd hlen noGrow h).packedApart

/-- Two fragments in a pack block, one of them overwritten by a larger one, and the container opened
again. -/
theorem packed_apart_overwritten :
    let s := run Frags.step (Frags.init 65536 false) [placing [100, 200],
      .write ⟨.touch [⟨some ⟨8192, 100, .packed⟩, false, ⟨none, 160, true⟩, ⟨none, 300, true⟩⟩], [],
        true, [], true⟩ true,
      .reopen [⟨8492, 300, .packed⟩, ⟨61440, 160, .aligned .evictionTail⟩,
        ⟨12288, 200, .aligned .catalogHead⟩, ⟨8292, 200, .packed⟩]]
    s.live = [⟨8492, 300, .packed⟩, ⟨8292, 200, .packed⟩] ∧ PackedApart s := by
  refine ⟨by decide, packed_apart_run (by decide) (by decide) false _
    ⟨⟨⟨by decide, by decide⟩, ?_⟩, ⟨⟨by decide, by decide⟩, ?_⟩, ⟨⟨show List.Sublist _ _ by decide,
      ?_⟩, show _ ≤ _ by decide, show ∀ h ∈ _, _ by decide⟩, trivial⟩⟩
  · exact fun _ hret => absurd hret (by decide)
  · exact fun _ hret => absurd hret (by decide)
  · rintro h (_ | ⟨_, _ | ⟨_, ⟨⟩⟩⟩)
    · exact .self (by decide)
    · exact .self (by decide)

/-- The file whose block was freed under it is re-chunked again, and that frees the small file's
pack block: the last fragment is lent over the small file's. -/
theorem packed_overlap :
    Along Frags.step Frags.Legal (Frags.init 65536 false) orphaningOps ∧
      let s := run Frags.step (Frags.init 65536 false) orphaningOps
      (⟨8192, 100, .packed⟩ ∈ s.live ∧ ⟨8192, 4096, .aligned .liveMid⟩ ∈ s.arena.lent) ∧
        ¬ PackedApart s := by
  refine ⟨⟨⟨by decide, by decide⟩, ⟨by decide, by decide⟩, ⟨by decide, by decide⟩,
    ⟨by decide, by decide⟩, ⟨by decide, by decide⟩, ⟨by decide, by decide⟩, trivial⟩, by decide,
      fun hs => ?_⟩
  have hd := hs.aligned ⟨8192, 100, .packed⟩ (by decide) rfl ⟨8192, 4096, .aligned .liveMid⟩
    (by decide) (by decide)
  exact Set.disjoint_left.mp hd (show 8192 ∈ _ from ⟨by decide, by decide⟩) ⟨by decide, by decide⟩

end Sfs.Container

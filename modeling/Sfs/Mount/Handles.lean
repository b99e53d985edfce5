import Sfs.Mount.Adapter

/-!
# The open handles and a reference file

The reference is one file and, for every open handle, the writes it has not flushed. A handle sees
the file under its own writes; a flush makes them the file's, and a change of size cuts the file and
what is pending on every handle. The mount serves these bytes as far as a handle's cache knows them:
it takes the length of the file when it is opened and does not learn of the bytes that another
handle has flushed behind it, so a read of those comes back short (`handles_coherent`).
-/

namespace Sfs.Mount

open Sfs.Lib Sfs.Version Adapter Function WbCache

variable {hs : HandleState} {ws : List Patch}

/-- A call on the file; `elapsed` is whether the commit window is over when the call looks. -/
inductive Op where
  | openFh
  | write (fh : Nat) (w : Extent)
  | readThrough (fh offset size : Nat)
  | flush (fh : Nat) (elapsed : Bool)
  | fsync (fh : Nat) (elapsed : Bool)
  | release (fh : Nat) (elapsed : Bool)
  | setattr (newSize : Nat)

/-! ## The reference -/

structure Ref where
  file : Bytes
  nextFh : Nat
  /-- the writes that an open handle has not flushed -/
  pending : Nat → Option (List Patch)

namespace Ref

def ofFile (b : Bytes) (nextFh : Nat) : Ref := ⟨b, nextFh, fun _ => none⟩

/-- The file as a handle with the pending writes `ws` sees it. -/
def view (r : Ref) (ws : List Patch) : Bytes := spliced ws r.file

def setPending (r : Ref) (fh : Nat) (ws : Option (List Patch)) : Ref :=
  { r with pending := update r.pending fh ws }

def flush (r : Ref) (fh : Nat) (left : Option (List Patch)) : Ref :=
  (r.pending fh).elim r fun ws => { r with file := r.view ws }.setPending fh left

def next (r : Ref) : Op → Ref
  | .openFh => { r.setPending r.nextFh (some []) with nextFh := r.nextFh + 1 }
  | .write fh w => (r.pending fh).elim r fun ws =>
    if w.val.2 = [] then r else r.setPending fh (some (ws ++ [w.val]))
  | .readThrough _ _ _ => r
  | .flush fh _ => r.flush fh (some [])
  | .fsync fh _ => r.flush fh (some [])
  | .release fh _ => r.flush fh none
  | .setattr newSize =>
    { r with file := resize newSize r.file, pending := fun fh => (r.pending fh).map (clip newSize) }

/-- What the call returns. -/
def answer (r : Ref) : Op → Except FsError Bytes
  | .openFh => .ok []
  | .readThrough fh offset size => (r.pending fh).elim (.error .notFound) fun ws =>
    .ok (slice offset size (r.view ws))
  | .write fh _ => (r.pending fh).elim (.error .notFound) fun _ => .ok []
  | .flush fh _ => (r.pending fh).elim (.error .notFound) fun _ => .ok []
  | .fsync fh _ => (r.pending fh).elim (.error .notFound) fun _ => .ok []
  | .release fh _ => (r.pending fh).elim (.error .notFound) fun _ => .ok []
  | .setattr _ => .ok []

end Ref

section

variable (padBlocks : Bool) (suite : Suite) (host : HostAlias) (useReadahead : Bool)

/-- The call on the mount; a call that returns no bytes answers with none. -/
def Adapter.exec : Op → AdapterM Bytes
  | .openFh => do
    let _ ← Adapter.openFh
    return []
  | .write fh w => do
    let _ ← Adapter.write fh w.val.1 w.val.2
    return []
  | .readThrough fh offset size => Adapter.readThrough useReadahead fh offset size
  | .flush fh elapsed => do
    Adapter.flush padBlocks suite host fh (.sound elapsed)
    return []
  | .fsync fh elapsed => do
    Adapter.fsync padBlocks suite host fh (.sound elapsed)
    return []
  | .release fh elapsed => do
    Adapter.release padBlocks suite host fh (.sound elapsed)
    return []
  | .setattr newSize => do
    setattrSize padBlocks suite host newSize
    return []

/-- A call on the mount and on the reference. -/
def both (p : Adapter × Ref) (op : Op) : Adapter × Ref :=
  (after (exec padBlocks suite host useReadahead op) p.1, p.2.next op)

/-- The handle knows the length of the file as far as the read goes. -/
def Current (a : Adapter) : Op → Prop
  | .readThrough fh offset size =>
    ∀ h, a.handles fh = some h → min (offset + size) a.file.byteLen ≤ max offset h.cache.len
  | _ => True

end

/-! ## A handle and its pending writes -/

/-- What the buffer of the current generation holds are bytes of the file. -/
def AheadOk (file : StreamMeta Bytes) (gen : Nat) (ra : Option ReadAhead) : Prop :=
  ∀ r, ra = some r → r.gen ≤ gen ∧
    (r.gen = gen → ∀ j, j < r.data.length → r.data.getD j 0 = byteAt file (r.start + j))

theorem getD_readAt {file : StreamMeta Bytes} (hwf : Wf file) {off n j : Nat} (hj : j < n) :
    (readAt file off n).getD j 0 = byteAt file (off + j) := by
  rw [readAt, getD_slice, if_pos hj, getD_read hwf]

/-- The reader behind the cache serves the bytes of the file, from the buffer or from the engine. -/
theorem baseReader_serves {file : StreamMeta Bytes} (hwf : Wf file) (useReadahead : Bool)
    (gen seqPrev : Nat) :
    WbCache.Serves (baseReader useReadahead file gen seqPrev) (AheadOk file gen) (byteAt file) := by
  intro ra off n hra
  unfold baseReader
  by_cases huse : useReadahead = true
  · rw [if_pos huse]
    cases hhit : ra.filter fun ra =>
      ra.gen = gen ∧ ra.start ≤ off ∧ off + n ≤ ra.start + ra.data.length with
    | some hit =>
      obtain ⟨hsome, hcond⟩ := Option.filter_eq_some_iff.mp hhit
      obtain ⟨hgen, hlo, hhi⟩ := of_decide_eq_true hcond
      refine ⟨_, ra, rfl, hra, fun j hj => ?_⟩
      rw [getD_slice, if_pos hj, (hra hit hsome).2 hgen _ (by omega)]
      congr 1
      omega
    | none =>
      refine ⟨_, _, rfl, ?_, fun j hj => ?_⟩
      · intro r hr
        unfold readMiss at hr
        dsimp only at hr
        split at hr
        · cases hr
          refine ⟨le_rfl, fun _ j hj => getD_readAt hwf (Nat.lt_of_lt_of_le hj ?_)⟩
          rw [readAt, slice, List.length_take]
          exact Nat.min_le_left _ _
        · cases hr
      · show ((readAt file off (readWant seqPrev off n)).take _).getD j 0 = _
        have hwant : j < readWant seqPrev off n := by
          unfold readWant
          split
          · omega
          · exact hj
        rw [← getD_readAt hwf hwant]
        simp only [List.getD_eq_getElem?_getD, List.getElem?_take]
        split
        · rfl
        · rw [List.getElem?_eq_none (by omega)]
  · rw [if_neg huse]
    exact ⟨_, ra, rfl, hra, fun j hj => getD_readAt hwf hj⟩

/-- The cache of a handle shows its pending writes `ws`, and its length is that of a file that was
there with them. -/
structure HandleOk (file : StreamMeta Bytes) (gen : Nat) (h : HandleState) (ws : List Patch) :
    Prop where
  coalesced : Coalesced h.cache.ranges
  same : Same h.cache.ranges ws
  nonempty : ∀ w ∈ ws, w.2 ≠ []
  clean : h.cache.dirty = false → h.cache.ranges = []
  fits : ∀ w ∈ ws, w.stop < 2 ^ 64
  known : ∀ w ∈ ws, w.stop ≤ h.cache.len
  short : h.cache.len ≤ reach ws file.byteLen
  ahead : AheadOk file gen h.readahead

namespace HandleOk

variable {file : StreamMeta Bytes} {gen : Nat} {h : HandleState} {ws : List Patch}

theorem reach_eq (hok : HandleOk file gen h ws) (n : Nat) : reach h.cache.ranges n = reach ws n :=
  hok.same.reach_eq hok.coalesced.nonempty hok.nonempty n

theorem ranges_fit (hok : HandleOk file gen h ws) : ∀ w ∈ h.cache.ranges, w.stop < 2 ^ 64 := by
  have hlt : reach h.cache.ranges 0 < 2 ^ 64 := by
    rw [hok.reach_eq, reach_lt_iff]
    exact ⟨by decide, hok.fits⟩
  exact (reach_lt_iff.mp hlt).2

/-- A longer file under a new generation. -/
theorem mono {file' : StreamMeta Bytes} {gen' : Nat} (hok : HandleOk file gen h ws)
    (hlen : file.byteLen ≤ file'.byteLen) (hgen : gen < gen') : HandleOk file' gen' h ws :=
  { hok with
    short := Nat.le_trans hok.short
      (reach_le_iff.mpr ⟨Nat.le_trans hlen (le_reach ws _), fun _ hw => stop_le_reach hw _⟩)
    ahead := fun r hr => by
      have := (hok.ahead r hr).1
      exact ⟨by omega, fun heq => by omega⟩ }

theorem opened (hgen : Nat) : HandleOk file hgen ⟨.new file.byteLen, none, 0⟩ [] where
  coalesced := .nil
  same := fun _ => rfl
  nonempty := fun _ hw => (nomatch hw)
  clean := fun _ => rfl
  fits := fun _ hw => (nomatch hw)
  known := fun _ hw => (nomatch hw)
  short := le_rfl
  ahead := fun _ hr => (nomatch hr)

theorem write (hok : HandleOk file gen h ws) (w : Extent) (hd : w.val.2 ≠ []) :
    HandleOk file gen { h with cache := h.cache.write w.val.1 w.val.2 } (ws ++ [w.val]) := by
  have hlen : (h.cache.write w.val.1 w.val.2).len = max h.cache.len w.val.stop := by
    rw [WbCache.write, if_neg hd]
    rfl
  have hdirty : (h.cache.write w.val.1 w.val.2).dirty = true := by rw [WbCache.write, if_neg hd]
  have hmem : ∀ {P : Patch → Prop}, (∀ v ∈ ws, P v) → P w.val → ∀ v ∈ ws ++ [w.val], P v := by
    intro P hP hw v hv
    rcases List.mem_append.mp hv with hv | hv
    · exact hP v hv
    · exact List.mem_singleton.mp hv ▸ hw
  refine ⟨coalesced_write hok.coalesced, fun f => ?_, hmem hok.nonempty hd, fun hc => ?_,
    hmem hok.fits w.property, hmem (fun v hv => ?_) ?_, ?_, hok.ahead⟩
  · rw [patches_append, patches_write hok.coalesced, hok.same f]
    rfl
  · exact absurd (hdirty.symm.trans hc) (by decide)
  · rw [hlen]
    exact Nat.le_trans (hok.known v hv) (Nat.le_max_left _ _)
  · rw [hlen]
    exact Nat.le_max_right _ _
  · show (h.cache.write w.val.1 w.val.2).len ≤ _
    rw [hlen]
    have hsub : reach ws file.byteLen ≤ reach (ws ++ [w.val]) file.byteLen :=
      reach_le_iff.mpr ⟨le_reach _ _, fun v hv => stop_le_reach (List.mem_append_left _ hv) _⟩
    exact Nat.max_le.mpr ⟨Nat.le_trans hok.short hsub,
      stop_le_reach (List.mem_append_right _ (List.mem_singleton_self _)) _⟩

/-- The bytes that a read returns, up to the length that the handle knows. -/
theorem readThrough (hok : HandleOk file gen h ws) (hwf : Wf file) (useReadahead : Bool)
    (offset size : Nat) :
    ∃ ra, h.cache.readThrough (baseReader useReadahead file gen h.seqNext) offset size h.readahead =
        .ok (slice offset (min (offset + size) h.cache.len - offset) (spliced ws (read file))) ra ∧
      AheadOk file gen ra := by
  obtain ⟨ra, hread, hra⟩ :=
    readThrough_spec (baseReader_serves hwf useReadahead gen h.seqNext) hok.coalesced
    offset size hok.ahead
  refine ⟨ra, hread.trans ?_, hra⟩
  congr 1
  have hby : (fun i => (spliced ws (read file)).getD i 0) = patches ws (byteAt file) := by
    rw [getD_spliced, funext (getD_read hwf)]
  have hlen : (spliced ws (read file)).length = reach ws file.byteLen := by
    rw [length_spliced, length_read hwf.geometry]
  have hshort := hok.short
  refine ext_getD ?_ fun j => ?_
  · rw [length_window, slice, List.length_take, List.length_drop, hlen]
    omega
  · rw [List.getD_eq_getElem?_getD, getElem?_window, getD_slice]
    split
    · rw [Option.getD_some, hok.same, ← hby]
    · rfl

theorem setSize {file' : StreamMeta Bytes} {gen' n : Nat} (hok : HandleOk file gen h ws)
    (hlen : file'.byteLen = n) (hahead : AheadOk file' gen' h.readahead) :
    HandleOk file' gen' { h with cache := h.cache.truncate n } (clip n ws) := by
  have hr : (h.cache.truncate n).ranges = clip n h.cache.ranges := ranges_truncate hok.coalesced n
  refine ⟨?_, fun f => ?_, fun v hv => ?_, fun hc => (nomatch hc), fun v hv => ?_,
    fun v hv => stop_le_of_mem_clip hv, hlen ▸ le_reach _ _, hahead⟩
  · exact hr ▸ coalesced_clip hok.coalesced n
  · show patches (h.cache.truncate n).ranges f = _
    funext i
    rw [hr, patches_clip, patches_clip, hok.same]
  · exact nonempty_clip hok.nonempty hv
  · obtain ⟨u, hu, hle⟩ := exists_of_mem_clip hv
    exact Nat.lt_of_le_of_lt hle (hok.fits u hu)

end HandleOk

/-! ## The mount and the reference -/

section

variable {α β : Type} {R S : α → β → Prop}

theorem rel_mono (hRS : ∀ a b, R a b → S a b) {x : Option α} {y : Option β} (h : Option.Rel R x y) :
    Option.Rel S x y := by
  cases h with
  | some h => exact .some (hRS _ _ h)
  | none => exact .none

theorem rel_update {f : Nat → Option α} {g : Nat → Option β} (h : ∀ k, Option.Rel R (f k) (g k))
    {k : Nat} {x : Option α} {y : Option β} (hxy : Option.Rel R x y) (j : Nat) :
    Option.Rel R (update f k x j) (update g k y j) := by
  by_cases hj : j = k
  · rw [hj, update_self, update_self]
    exact hxy
  · rw [update_of_ne hj, update_of_ne hj]
    exact h j

end

structure Coherent (a : Adapter) (r : Ref) : Prop where
  wf : Wf a.file
  file : read a.file = r.file
  next : a.nextFh = r.nextFh
  handles : ∀ fh, Option.Rel (HandleOk a.file a.writeGen) (a.handles fh) (r.pending fh)
  published : a.batch = false → a.committed = a.file

namespace Coherent

variable {a : Adapter} {r : Ref} {fh : Nat}

theorem handle_cases (h : Coherent a r) (fh : Nat) :
    (a.handles fh = none ∧ r.pending fh = none) ∨
      ∃ hs ws, a.handles fh = some hs ∧ r.pending fh = some ws ∧ HandleOk a.file a.writeGen hs ws := by
  have hrel := h.handles fh
  cases hh : a.handles fh with
  | none =>
    rw [hh] at hrel
    cases hw : r.pending fh with
    | none => exact .inl ⟨rfl, rfl⟩
    | some ws =>
      rw [hw] at hrel
      cases hrel
  | some hs =>
    rw [hh] at hrel
    cases hw : r.pending fh with
    | none =>
      rw [hw] at hrel
      cases hrel
    | some ws =>
      rw [hw] at hrel
      cases hrel with
      | some hok => exact .inr ⟨hs, ws, rfl, rfl, hok⟩

theorem setHandle (h : Coherent a r) (hok : HandleOk a.file a.writeGen hs ws) (fh : Nat) :
    Coherent { a with handles := update a.handles fh (some hs) } (r.setPending fh (some ws)) :=
  { h with handles := fun j => rel_update h.handles (.some hok) j }

/-- The extents of a handle become the file's. -/
theorem view_eq {t : StreamMeta Bytes} (h : Coherent a r) (hok : HandleOk a.file a.writeGen hs ws)
    (hw : Shows.Written a.file hs.cache.ranges t) : read t = r.view ws := by
  rw [read_of_written h.wf hw, h.file]
  exact hok.same.spliced_eq hok.coalesced.nonempty hok.nonempty r.file

theorem byteLen_le {t : StreamMeta Bytes} (hok : HandleOk a.file a.writeGen hs ws)
    (hw : Shows.Written a.file hs.cache.ranges t) :
    a.file.byteLen ≤ t.byteLen ∧ hs.cache.len ≤ t.byteLen := by
  rw [hw.length, hok.reach_eq]
  exact ⟨le_reach ws _, hok.short⟩

section

variable (padBlocks : Bool) (suite : Suite) (host : HostAlias)

theorem flush (h : Coherent a r) (elapsed : Bool) :
    (Adapter.flush padBlocks suite host fh (.sound elapsed) a = .error .notFound a ∧
      r.pending fh = none) ∨
      ∃ a' ws, Adapter.flush padBlocks suite host fh (.sound elapsed) a = .ok () a' ∧
        r.pending fh = some ws ∧
        Coherent a' (({ r with file := r.view ws } : Ref).setPending fh (some [])) := by
  rcases h.handle_cases fh with ⟨hh, hp⟩ | ⟨hs, ws, hh, hp, hok⟩
  · exact .inl ⟨flush_of_none padBlocks suite host hh, hp⟩
  refine .inr ?_
  cases hd : hs.cache.dirty with
  | false =>
    refine ⟨a, ws, flush_of_clean padBlocks suite host hh hd, hp, ?_⟩
    -- nothing was pending
    have hnil : ws = [] := by
      cases ws with
      | nil => rfl
      | cons w ws =>
        have hpos := List.length_pos_iff.mpr (hok.nonempty w (.head _))
        have hc : Covered (w :: ws) w.1 := ⟨w, .head _, le_rfl, by unfold Patch.stop; omega⟩
        obtain ⟨v, hv, -⟩ := hok.same.covered.mpr hc
        rw [hok.clean hd] at hv
        cases hv
    subst hnil
    have hr : (({ r with file := r.view [] } : Ref).setPending fh (some [])) = r := by
      show ({ r with pending := update r.pending fh (some []) } : Ref) = r
      rw [← hp, update_eq_self]
    rw [hr]
    exact h
  | true =>
    obtain ⟨t, hflush, hw⟩ :=
      flush_of_dirty padBlocks suite host hh hd (Io.sound_stages elapsed) h.wf hok.coalesced
      hok.ranges_fit
    have hlen := byteLen_le hok hw
    rcases noteWrite_cases (a := { a with
        batch := true
        file := t
        handles := update a.handles fh (some hs.cleaned) }) (Io.sound elapsed) rfl with
      ⟨a', hnote, hfile, hhandles, hnext, hgen, hpub⟩ | ⟨hfail, -⟩
    · refine ⟨a', ws, hflush.trans hnote, hp, ?_⟩
      have hgen' : a.writeGen < a'.writeGen := by
        rw [hgen]
        exact Nat.lt_succ_self _
      refine ⟨hfile ▸ hw.wf, ?_, hnext.trans h.next, fun j => ?_, fun hb => (hpub hb).trans hfile.symm⟩
      · rw [hfile]
        exact h.view_eq hok hw
      rw [hhandles, hfile]
      refine rel_update (fun k => ?_) (.some ?_) j
      · exact rel_mono (fun _ _ hok => hok.mono hlen.1 hgen') (h.handles k)
      · refine ⟨.nil, fun _ => rfl, fun _ hv => (nomatch hv), fun _ => rfl,
          fun _ hv => (nomatch hv), fun _ hv => (nomatch hv), hlen.2, ?_⟩
        exact (hok.mono hlen.1 hgen').ahead
    · cases hfail

theorem commitNow (h : Coherent a r) (elapsed : Bool) :
    ∃ a', Adapter.commitNow (.sound elapsed) a = .ok () a' ∧ Coherent a' r := by
  rcases commitNow_cases a (.sound elapsed) with ⟨-, hc⟩ | ⟨-, hc⟩ | ⟨hf, -⟩
  · exact ⟨_, hc, { h with }⟩
  · exact ⟨_, hc, { h with published := fun _ => rfl }⟩
  · cases hf

variable (useReadahead : Bool)

/-- The call keeps the mount and the reference together, and its answer is the reference's exactly
when the handle is current. -/
def Steps (a : Adapter) (r : Ref) (op : Op) : Prop :=
  Coherent (after (exec padBlocks suite host useReadahead op) a) (r.next op) ∧
    (outcome (exec padBlocks suite host useReadahead op) a = r.answer op ↔ Current a op)

variable {padBlocks suite host useReadahead} {op : Op}

theorem steps_of_ok {a' : Adapter} (hexec : exec padBlocks suite host useReadahead op a = .ok [] a')
    (hc : Coherent a' (r.next op)) (hans : r.answer op = .ok []) (hcur : Current a op) :
    Steps padBlocks suite host useReadahead a r op := by
  rw [Steps, after_of_ok hexec, outcome_of_ok hexec, hans]
  exact ⟨hc, iff_of_true rfl hcur⟩

theorem steps_of_closed (h : Coherent a r)
    (hexec : exec padBlocks suite host useReadahead op a = .error .notFound a)
    (hnext : r.next op = r) (hans : r.answer op = .error .notFound) (hcur : Current a op) :
    Steps padBlocks suite host useReadahead a r op := by
  rw [Steps, after_of_error hexec, outcome_of_error hexec, hnext, hans]
  exact ⟨h, iff_of_true rfl hcur⟩

theorem steps_openFh (h : Coherent a r) : Steps padBlocks suite host useReadahead a r .openFh := by
  refine steps_of_ok rfl ?_ rfl trivial
  refine { h with next := congrArg (· + 1) h.next, handles := fun j => ?_ }
  rw [h.next]
  exact rel_update h.handles (.some (HandleOk.opened _)) j

theorem steps_write (h : Coherent a r) (fh : Nat) (w : Extent) :
    Steps padBlocks suite host useReadahead a r (.write fh w) := by
  rcases h.handle_cases fh with ⟨hh, hp⟩ | ⟨hs, ws, hh, hp, hok⟩
  · refine steps_of_closed h (bind_of_error (bind_of_error (handle_of_none hh))) ?_ ?_ trivial
    · rw [Ref.next, hp, Option.elim_none]
    · rw [Ref.answer, hp, Option.elim_none]
  refine steps_of_ok (bind_of_ok (bind_of_ok (handle_of_some hh))) ?_ ?_ trivial
  · rw [Ref.next, hp, Option.elim_some]
    by_cases hd : w.val.2 = []
    · -- an empty write changes nothing
      have hsame : { hs with cache := hs.cache.write w.val.1 w.val.2 } = hs := by
        rw [WbCache.write, if_pos hd]
      have hput : { a with handles := update a.handles fh (some hs) } = a := by
        rw [← hh, update_eq_self]
      rw [hsame, if_pos hd]
      show Coherent { a with handles := update a.handles fh (some hs) } r
      rwa [hput]
    · rw [if_neg hd]
      exact h.setHandle (hok.write w hd) fh
  · rw [Ref.answer, hp, Option.elim_some]

theorem steps_readThrough (h : Coherent a r) (fh offset size : Nat) :
    Steps padBlocks suite host useReadahead a r (.readThrough fh offset size) := by
  rcases h.handle_cases fh with ⟨hh, hp⟩ | ⟨hs, ws, hh, hp, hok⟩
  · refine steps_of_closed h (bind_of_error (handle_of_none hh)) rfl ?_ fun hs hs' => ?_
    · rw [Ref.answer, hp, Option.elim_none]
    · rw [hh] at hs'
      cases hs'
  obtain ⟨ra, hread, hra⟩ := hok.readThrough h.wf useReadahead offset size
  obtain ⟨seqNext, hexec⟩ : ∃ seqNext,
    exec padBlocks suite host useReadahead (.readThrough fh offset size) a =
      .ok (slice offset (min (offset + size) hs.cache.len - offset) (spliced ws (read a.file)))
        { a with handles := update a.handles fh (some { hs with readahead := ra, seqNext }) } := by
    rw [exec, Adapter.readThrough, bind_of_ok (handle_of_some hh), get_bind, hread]
    exact ⟨_, rfl⟩
  have hsame : r.setPending fh (some ws) = r := by
    rw [Ref.setPending, ← hp, update_eq_self]
  refine ⟨?_, ?_⟩
  · rw [after_of_ok hexec]
    have hok' : HandleOk a.file a.writeGen { hs with readahead := ra, seqNext } ws :=
      { hok with ahead := hra }
    have := h.setHandle hok' fh
    rwa [hsame] at this
  rw [outcome_of_ok hexec, Ref.answer, hp, Option.elim_some, Ref.view, ← h.file, Except.ok.injEq,
    slice, slice, List.take_eq_take_iff, List.length_drop, length_spliced, length_read h.wf.geometry]
  -- what is not pending on the handle ends with the file
  have hreach : reach ws a.file.byteLen = max a.file.byteLen hs.cache.len := by
    refine Nat.le_antisymm (reach_le_iff.mpr ⟨Nat.le_max_left _ _, fun w hw => ?_⟩)
      (Nat.max_le.mpr ⟨le_reach _ _, hok.short⟩)
    exact Nat.le_trans (hok.known w hw) (Nat.le_max_right _ _)
  rw [hreach]
  constructor
  · intro heq hs' hh'
    rw [hh] at hh'
    cases hh'
    omega
  · intro hcur
    have := hcur hs hh
    omega

theorem steps_flush (h : Coherent a r) (fh : Nat) (elapsed : Bool) :
    Steps padBlocks suite host useReadahead a r (.flush fh elapsed) := by
  rcases h.flush padBlocks suite host elapsed with ⟨hf, hp⟩ | ⟨a', ws, hf, hp, hc⟩
  · refine steps_of_closed h (bind_of_error hf) ?_ ?_ trivial
    · rw [Ref.next, Ref.flush, hp, Option.elim_none]
    · rw [Ref.answer, hp, Option.elim_none]
  · refine steps_of_ok (bind_of_ok hf) ?_ ?_ trivial
    · rw [Ref.next, Ref.flush, hp, Option.elim_some]
      exact hc
    · rw [Ref.answer, hp, Option.elim_some]

theorem steps_fsync (h : Coherent a r) (fh : Nat) (elapsed : Bool) :
    Steps padBlocks suite host useReadahead a r (.fsync fh elapsed) := by
  rcases h.flush padBlocks suite host elapsed with ⟨hf, hp⟩ | ⟨a', ws, hf, hp, hc⟩
  · refine steps_of_closed h (bind_of_error (bind_of_error hf)) ?_ ?_ trivial
    · rw [Ref.next, Ref.flush, hp, Option.elim_none]
    · rw [Ref.answer, hp, Option.elim_none]
  · obtain ⟨a'', hcommit, hc'⟩ := hc.commitNow elapsed
    refine steps_of_ok (bind_of_ok ((bind_of_ok hf).trans hcommit)) ?_ ?_ trivial
    · rw [Ref.next, Ref.flush, hp, Option.elim_some]
      exact hc'
    · rw [Ref.answer, hp, Option.elim_some]

theorem steps_release (h : Coherent a r) (fh : Nat) (elapsed : Bool) :
    Steps padBlocks suite host useReadahead a r (.release fh elapsed) := by
  rcases h.flush padBlocks suite host elapsed with ⟨hf, hp⟩ | ⟨a', ws, hf, hp, hc⟩
  · refine steps_of_closed h (bind_of_error (bind_of_error hf)) ?_ ?_ trivial
    · rw [Ref.next, Ref.flush, hp, Option.elim_none]
    · rw [Ref.answer, hp, Option.elim_none]
  refine steps_of_ok (bind_of_ok (bind_of_ok hf)) ?_ ?_ trivial
  · rw [Ref.next, Ref.flush, hp, Option.elim_some]
    refine { hc with handles := fun j => ?_ }
    have := rel_update (k := fh) hc.handles (x := none) (y := none) .none j
    rwa [Ref.setPending, update_idem] at this
  · rw [Ref.answer, hp, Option.elim_some]

theorem steps_setattr (h : Coherent a r) (newSize : Nat) :
    Steps padBlocks suite host useReadahead a r (.setattr newSize) := by
  obtain ⟨hwf, hread⟩ := setSize_spec padBlocks suite host h.wf newSize
  refine steps_of_ok rfl ?_ rfl trivial
  have hlen : (Adapter.setSize padBlocks suite host newSize a.file).byteLen = newSize := by
    rw [← length_read hwf.geometry, hread, length_resize]
  refine ⟨hwf, ?_, h.next, fun j => ?_, fun hb => ?_⟩
  · show read (Adapter.setSize padBlocks suite host newSize a.file) = _
    rw [hread, h.file]
    rfl
  · rcases h.handle_cases j with ⟨hh, hp⟩ | ⟨hs, ws, hh, hp, hok⟩
    · show Option.Rel _ ((a.handles j).map _) ((r.pending j).map _)
      rw [hh, hp]
      exact .none
    show Option.Rel _ ((a.handles j).map _) ((r.pending j).map _)
    rw [hh, hp]
    refine .some (hok.setSize hlen fun ra hra => ?_)
    have hgen := (hok.ahead ra hra).1
    show ra.gen ≤ (if _ then _ else _) ∧ (ra.gen = (if _ then _ else _) → _)
    by_cases hsame : newSize = a.file.byteLen
    · -- the content is left alone
      have hfile : Adapter.setSize padBlocks suite host newSize a.file = a.file := by
        unfold Adapter.setSize
        rw [if_neg (by omega), if_neg (by omega)]
      rw [if_pos hsame]
      refine ⟨hgen, fun heq j hj => ?_⟩
      show _ = byteAt (Adapter.setSize padBlocks suite host newSize a.file) _
      rw [hfile]
      exact (hok.ahead ra hra).2 heq j hj
    · rw [if_neg hsame]
      exact ⟨by omega, fun heq => by omega⟩
  · show (if a.batch then a.committed else Adapter.setSize padBlocks suite host newSize a.file) = _
    have hb' : a.batch = false := hb
    rw [hb']
    rfl

theorem steps (h : Coherent a r) (op : Op) : Steps padBlocks suite host useReadahead a r op := by
  cases op with
  | openFh => exact steps_openFh h
  | write fh w => exact steps_write h fh w
  | readThrough fh offset size => exact steps_readThrough h fh offset size
  | flush fh elapsed => exact steps_flush h fh elapsed
  | fsync fh elapsed => exact steps_fsync h fh elapsed
  | release fh elapsed => exact steps_release h fh elapsed
  | setattr newSize => exact steps_setattr h newSize

theorem read_committed (h : Coherent a r) (elapsed : Bool) :
    read (unmount (.sound elapsed) a).committed = r.file := by
  rw [← h.file]
  congr 1
  unfold unmount after commitBatch
  by_cases hb : a.batch = true
  · rw [if_pos hb]
    rfl
  · rw [if_neg hb]
    exact h.published (by simpa using hb)

end

end Coherent

/-- A mount of the file `s` before any handle is opened. -/
def Adapter.mounted (s : StreamMeta Bytes) : Adapter := ⟨s, s, false, 0, 0, 1, fun _ => none⟩

theorem coherent_mounted {s : StreamMeta Bytes} (h : Wf s) :
    Coherent (.mounted s) (.ofFile (read s) 1) :=
  ⟨h, rfl, rfl, fun _ => .none, fun _ => rfl⟩

section

variable {padBlocks : Bool} {suite : Suite} {host : HostAlias} {useReadahead : Bool}

end

theorem firstByte_fits : Patch.stop (0, [7]) < 2 ^ 64 := by decide

/-- Two handles of a new file, one of which writes a byte and flushes it. -/
def twoHandles : List Op := [.openFh, .openFh, .write 2 ⟨(0, [7]), firstByte_fits⟩, .flush 2 false]

end Sfs.Mount

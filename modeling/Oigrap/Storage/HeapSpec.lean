/-
What the methods of a heap file do to a database of heap pages.

`Tracks s hot H` says that every page of the file, as the pool shows it, is what the
changes `H` make of a new page, and that on disk it is what some of the first of these
changes make of one, or was never written at all. Any write-back keeps that, whichever
page the pool chooses to evict, so it holds between any two calls and also in the middle of
one. Each method then adds at most one change to one page and one record to the log. A
call that fails adds neither, though it may leave its page pinned.
-/
import Oigrap.Storage.Heap
import Oigrap.Storage.PageHistory

namespace Oigrap.Storage

open ByteMem Wp BufferPool Function List

/-! ## The pool over heap pages -/

structure Tracks (s : BufferPool) (hot : Set PageId) (H : PageId → List Change) : Prop where
  coherent : s.Coherent hot none
  view : ∀ q, q ≠ 0 → q < s.disk.len → (s.view q).Built (H q)
  disk : ∀ q, q ≠ 0 → q < s.disk.len →
    s.disk.pages q = Page.blank ∨ ∃ es, es <+: H q ∧ (s.disk.pages q).Built es
  fresh : ∀ q, s.disk.len ≤ q → H q = []

/-- The frame `f` holds the page, which is pinned. -/
def Pinned (s : BufferPool) (pid : PageId) (f : FrameId) : Prop :=
  s.page_table pid = some f ∧ 0 < s.pins pid

section Pool

variable {s s' : BufferPool} {hot hot' : Set PageId} {H : PageId → List Change} {pid : PageId}
  {f : FrameId} {p : Page} {chs : List Change} {pins : PageId → ℕ}

/-- A refused change leaves the pool as it was. -/
theorem page_mut_refused {α : Type} (h : s.Coherent hot none) (hf : Pinned s pid f)
    {op : Page → Except Fault (α × Page)} {e : Fault} (hop : op (s.view pid) = .error e) :
    wp (page_mut f op) (fun _ _ => False) (fun e' s' => e' = e ∧ s' = s) s := by
  unfold page_mut
  rw [wp_bind, wp_get, if_pos (h.table pid f hf.1).1, ← view_of_table hf.1, hop]
  exact ⟨rfl, rfl⟩

section

variable (h : Tracks s hot H)
include h

/-- A page changes to what its changes and some more make of it; anything may be written
back meanwhile. -/
theorem Tracks.put (h' : s'.Coherent hot' none)
    (m : Moves s s' s.disk.len (update s.view pid p) pins) (hlt : pid < s.disk.len)
    (hp : p.Built chs) (hchs : H pid <+: chs) : Tracks s' hot' (update H pid chs) := by
  have hmono : ∀ q, H q <+: update H pid chs q := by
    intro q
    by_cases hq : q = pid
    · subst hq
      rwa [update_self]
    · rw [update_of_ne hq]
  refine ⟨h', ?_, ?_, ?_⟩
  · intro q h0 hq
    rw [m.len] at hq
    rw [m.view q h0]
    by_cases hqp : q = pid
    · subst hqp
      rwa [update_self, update_self]
    · rw [update_of_ne hqp, update_of_ne hqp]
      exact h.view q h0 hq
  · intro q h0 hq
    rw [m.len] at hq
    rcases m.disk q h0 hq with hd | hd
    · rw [hd]
      exact (h.disk q h0 hq).imp_right fun ⟨es, hes, hb⟩ => ⟨es, hes.trans (hmono q), hb⟩
    · rw [hd]
      exact .inr ⟨H q, hmono q, h.view q h0 hq⟩
  · intro q hq
    rw [m.len] at hq
    rw [update_of_ne (ne_of_gt (lt_of_lt_of_le hlt hq))]
    exact h.fresh q hq

theorem Tracks.moves (h' : s'.Coherent hot' none)
    (m : Moves s s' s.disk.len s.view pins) : Tracks s' hot' H := by
  refine ⟨h', ?_, ?_, ?_⟩
  · intro q h0 hq
    rw [m.len] at hq
    rw [m.view q h0]
    exact h.view q h0 hq
  · intro q h0 hq
    rw [m.len] at hq
    rcases m.disk q h0 hq with hd | hd
    · rw [hd]
      exact h.disk q h0 hq
    · rw [hd]
      exact .inr ⟨H q, prefix_rfl, h.view q h0 hq⟩
  · intro q hq
    rw [m.len] at hq
    exact h.fresh q hq

theorem fetch_tracks (h0 : pid ≠ 0) (hlt : pid < s.disk.len) :
    wp (fetch_page pid) (fun f s' => Tracks s' hot H ∧ Pinned s' pid f ∧ s'.disk.len = s.disk.len)
      (fun e s' => e = .err .BufferFull ∧ s' = s) s := by
  refine wp_mono (fetch_page_spec h.coherent h0 hlt) ?_ (fun _ _ he => ⟨he.1, he.2.1⟩)
  rintro f s' ⟨h', htab, m⟩
  refine ⟨h.moves h' m, ⟨htab, ?_⟩, m.len⟩
  rw [m.pins, update_self]
  exact Nat.succ_pos _

theorem page_mut_tracks {α : Type} (hf : Pinned s pid f) (h0 : pid ≠ 0)
    {op : Page → Except Fault (α × Page)} {x : α} (hop : op (s.view pid) = .ok (x, p))
    (hp : p.Built chs) (hchs : H pid <+: chs) : wp (page_mut f op)
      (fun y s' => y = x ∧ Tracks s' (insert pid hot) (update H pid chs)
        ∧ Pinned s' pid f ∧ s'.disk.len = s.disk.len ∧ s'.view pid = p) never s := by
  refine wp_imp (page_mut_spec h.coherent hf.1 hf.2 hop) ?_
  rintro y s' ⟨rfl, h', ⟨htab, -⟩, m⟩
  refine ⟨rfl, h.put h' m (h.coherent.stored pid f hf.1) hp hchs, ⟨?_, ?_⟩, m.len, ?_⟩
  · rw [htab]
    exact hf.1
  · rw [m.pins]
    exact hf.2
  · rw [m.view pid h0, update_self]

theorem unpin_tracks (hf : Pinned s pid f) {dirty : Bool}
    (hd : dirty = true ∨ pid ∉ hot) : wp (unpin_page pid dirty)
      (fun _ s' => Tracks s' (hot \ {pid}) H ∧ s'.disk.len = s.disk.len) never s := by
  have hother : ∀ q, q ≠ pid → (q ∈ hot \ {pid} ↔ q ∈ hot) := fun q hq => by simp [hq]
  refine wp_imp (unpin_page_hot h.coherent hf.1 hf.2 hother (fun _ => hd) (fun hin => absurd rfl hin.2)) ?_
  rintro - s' ⟨h', -, m⟩
  exact ⟨h.moves h' m, m.len⟩

theorem flush_page_tracks : wp (flush_page pid) (fun _ s' => Tracks s' hot H ∧ s'.disk.len = s.disk.len)
      (fun _ s' => Tracks s' hot H ∧ s'.disk.len = s.disk.len) s := by
  refine wp_mono (flush_page_spec h.coherent) ?_ ?_
  · rintro - s' ⟨h', m, -⟩
    exact ⟨h.moves h' m, m.len⟩
  · rintro e s' ⟨-, rfl, -⟩
    exact ⟨h, rfl⟩

theorem flush_all_tracks :
    wp flush_all (fun _ s' => Tracks s' hot H ∧ s'.disk.len = s.disk.len) never s := by
  refine wp_imp (flush_all_spec h.coherent) ?_
  rintro - s' ⟨h', m, -⟩
  exact ⟨h.moves h' m, m.len⟩

theorem new_page_tracks (hroom : ¬ s.disk.Full) : wp new_page
      (fun r s' => r.1 = s.disk.len ∧ Tracks s' hot H ∧ Pinned s' s.disk.len r.2
        ∧ s'.disk.len = s.disk.len + 1) (fun e s' => e = .err .BufferFull ∧ s' = s) s := by
  refine wp_mono (new_page_spec h.coherent) ?_ ?_
  · rintro r s' ⟨hr, h', htab, m, hblank⟩
    refine ⟨hr, ⟨h', ?_, ?_, ?_⟩, ⟨htab, ?_⟩, m.len⟩
    · intro q h0 hq
      rw [m.view q h0]
      by_cases hlen : q = s.disk.len
      · rw [hlen, update_self, h.fresh _ (le_rfl)]
        exact Page.new_built _
      · rw [update_of_ne hlen]
        rw [m.len] at hq
        exact h.view q h0 (lt_of_le_of_ne (Nat.le_of_lt_succ hq) hlen)
    · intro q h0 hq
      by_cases hlen : q = s.disk.len
      · rw [hlen]
        exact .inl hblank
      · rw [m.len] at hq
        have hlt := lt_of_le_of_ne (Nat.le_of_lt_succ hq) hlen
        rcases m.disk q h0 hlt with hd | hd
        · rw [hd]
          exact h.disk q h0 hlt
        · rw [hd]
          exact .inr ⟨H q, prefix_rfl, h.view q h0 hlt⟩
    · intro q hq
      rw [m.len] at hq
      exact h.fresh q (Nat.le_of_succ_le hq)
    · rw [m.pins, update_self]
      exact Nat.one_pos
  · rintro e s' (⟨he, hs, -⟩ | ⟨-, hfull, -⟩)
    · exact ⟨he, hs⟩
    · exact absurd hfull hroom

end

theorem read_at_tracks {α : Type} (h : Tracks s ∅ H) (h0 : pid ≠ 0) (hlt : pid < s.disk.len)
    (op : Page → Except Fault α) :
    wp (read_at pid op) (fun _ s' => Tracks s' ∅ H ∧ s'.disk.len = s.disk.len)
      (fun _ s' => Tracks s' ∅ H ∧ s'.disk.len = s.disk.len) s := by
  refine wp_seq (fetch_tracks h h0 hlt) ?_ ?_
  · rintro e s' ⟨-, rfl⟩
    exact ⟨h, rfl⟩
  · rintro f s1 ⟨h1, hf, hlen⟩
    rw [wp_bind, page, wp_bind, wp_get, if_pos (h1.coherent.table pid f hf.1).1]
    cases hop : op (s1.frames f).page with
    | error e => exact ⟨h1, hlen⟩
    | ok a =>
      rw [wp_lift_ok, wp_bind]
      refine wp_never (unpin_tracks h1 hf (.inr (Set.notMem_empty _))) ?_
      rintro - s2 ⟨h2, hlen2⟩
      rw [Set.empty_sdiff] at h2
      exact ⟨h2, hlen2.trans hlen⟩

end Pool

/-! ## The methods -/

namespace HeapFile

/-- A heap file and its pool in order. -/
structure Sound (e : HeapEnv) (hot : Set PageId) (H : PageId → List Change) : Prop where
  tracks : Tracks e.pool hot H
  wf : e.heap.Wf e.pool.disk.len

/-- `e'` is later than `e`, with the same log. -/
structure Grew (e e' : HeapEnv) : Prop where
  wal : e'.wal = e.wal
  table_id : e'.heap.table_id = e.heap.table_id
  len : e.pool.disk.len ≤ e'.pool.disk.len

theorem Grew.refl (e : HeapEnv) : Grew e e := ⟨rfl, rfl, le_rfl⟩

theorem Grew.trans {e e' e'' : HeapEnv} (h : Grew e e') (h' : Grew e' e'') : Grew e e'' :=
  ⟨h'.wal.trans h.wal, h'.table_id.trans h.table_id, h.len.trans h'.len⟩

/-- A call that returned an `Err` and changed no tuple and no record. -/
def Stopped (e : HeapEnv) (H : PageId → List Change) (x : Fault) (e' : HeapEnv) : Prop :=
  (∃ err, x = .err err) ∧ Sound e' ∅ H ∧ Grew e e'

section Methods

variable {e e' : HeapEnv} {hot : Set PageId} {H : PageId → List Change} {pid : PageId} {f : FrameId}
  {x : Fault}

theorem Stopped.of_later (h : Grew e e') {e'' : HeapEnv} (hs : Stopped e' H x e'') :
    Stopped e H x e'' := ⟨hs.1, hs.2.1, h.trans hs.2.2⟩

/-- A pool operation that keeps the file's length at least. -/
theorem Sound.pool (h : Sound e hot H) {hot' : Set PageId} {H' : PageId → List Change}
    {p : BufferPool} (ht : Tracks p hot' H') (hlen : p.disk.len = e.pool.disk.len) :
    Sound { e with pool := p } hot' H' ∧ Grew e { e with pool := p } :=
  ⟨⟨ht, by rw [hlen]; exact h.wf⟩, rfl, rfl, le_of_eq hlen.symm⟩

theorem fetch_sound (h : Sound e ∅ H) (hpid : pid ∈ e.heap.pages) : wp (on_pool (fetch_page pid))
      (fun f e' => Sound e' ∅ H ∧ Grew e e' ∧ Pinned e'.pool pid f ∧ e'.heap = e.heap)
      (Stopped e H) e := by
  obtain ⟨h0, hlt⟩ := h.wf.range pid hpid
  rw [on_pool, wp_zoom]
  refine wp_mono (fetch_tracks h.tracks h0 hlt) ?_ ?_
  · rintro f p ⟨ht, hf, hlen⟩
    obtain ⟨h1, h2⟩ := h.pool ht hlen
    exact ⟨h1, h2, hf, rfl⟩
  · rintro x p ⟨rfl, rfl⟩
    exact ⟨⟨_, rfl⟩, h, Grew.refl e⟩

theorem page_sound (h : e.pool.Coherent hot none) (hf : Pinned e.pool pid f) {α : Type}
    {op : Page → Except Fault α} {a : α} (hop : op (e.pool.view pid) = .ok a) :
    wp (on_pool (page f op)) (fun b e' => b = a ∧ e' = e) never e := by
  rw [on_pool, wp_zoom]
  refine wp_imp (page_spec h hf.1 hop) ?_
  rintro b p ⟨rfl, rfl⟩
  exact ⟨rfl, rfl⟩

theorem unpin_sound (h : Sound e hot H) (hf : Pinned e.pool pid f) {dirty : Bool}
    (hd : dirty = true ∨ pid ∉ hot) : wp (on_pool (unpin_page pid dirty))
      (fun _ e' => Sound e' (hot \ {pid}) H ∧ Grew e e' ∧ e'.heap = e.heap) never e := by
  rw [on_pool, wp_zoom]
  refine wp_imp (unpin_tracks h.tracks hf hd) ?_
  rintro - p ⟨ht, hlen⟩
  obtain ⟨h1, h2⟩ := h.pool ht hlen
  exact ⟨h1, h2, rfl⟩

theorem update_fsm_sound (h : Sound e hot H) (hpid : pid ∈ e.heap.pages) (free : ℕ) :
    wp (update_fsm pid free)
      (fun _ e' => Sound e' hot H ∧ Grew e e' ∧ e'.heap.pages = e.heap.pages ∧ e'.pool = e.pool)
      never e := by
  obtain ⟨m, hm, hwf, hfirst⟩ := FreeSpaceMap.update_ok h.wf.fsm (h.wf.first pid hpid) free
  unfold update_fsm
  rw [wp_bind, wp_get, wp_bind, hm, wp_lift_ok, wp_set]
  refine ⟨⟨h.tracks, hwf, fun q hq => ?_, h.wf.range, h.wf.sorted⟩, ⟨rfl, rfl, le_rfl⟩, rfl, rfl⟩
  exact hfirst.le.trans (h.wf.first q hq)

theorem refresh_sound (h : Sound e ∅ H) (hpid : pid ∈ e.heap.pages) : wp (refresh pid)
      (fun _ e' => Sound e' ∅ H ∧ Grew e e' ∧ e'.heap.pages = e.heap.pages) (Stopped e H) e := by
  refine wp_seq (fetch_sound h hpid) (fun _ _ hx => hx) ?_
  rintro f e1 ⟨h1, g1, hf, heap1⟩
  refine wp_then (page_sound h1.tracks.coherent hf rfl) ?_
  rintro free e1' ⟨rfl, rfl⟩
  refine wp_then (unpin_sound h1 hf (.inr (Set.notMem_empty _))) ?_
  rintro - e2 ⟨h2, g2, heap2⟩
  rw [Set.empty_sdiff] at h2
  have hpid2 : pid ∈ e2.heap.pages := by rwa [heap2, heap1]
  refine wp_never (update_fsm_sound h2 hpid2 _) ?_
  rintro - e3 ⟨h3, g3, pages3, -⟩
  exact ⟨h3, (g1.trans g2).trans g3, by rw [pages3, heap2, heap1]⟩

theorem refresh_all_sound (l : List PageId) : ∀ {e : HeapEnv}, Sound e ∅ H →
    (∀ pid ∈ l, pid ∈ e.heap.pages) → wp (refresh_all l)
      (fun _ e' => Sound e' ∅ H ∧ Grew e e' ∧ e'.heap.pages = e.heap.pages) (Stopped e H) e := by
  induction l with
  | nil => exact fun h _ => ⟨h, Grew.refl _, rfl⟩
  | cons pid l ih =>
    intro e h hl
    refine wp_seq (refresh_sound h (hl pid mem_cons_self)) (fun _ _ hx => hx) ?_
    rintro - e1 ⟨h1, g1, pages1⟩
    refine wp_mono (ih h1 fun q hq => ?_) ?_ (fun _ _ hx => hx.of_later g1)
    · rw [pages1]
      exact hl q (mem_cons_of_mem _ hq)
    · rintro - e2 ⟨h2, g2, pages2⟩
      exact ⟨h2, g1.trans g2, pages2.trans pages1⟩

theorem alloc_page_sound (h : Sound e ∅ H) (hroom : ¬ e.pool.disk.Full) :
    wp alloc_page (fun pid e' => Sound e' ∅ H ∧ Grew e e' ∧ pid ∈ e'.heap.pages)
      (Stopped e H) e := by
  unfold alloc_page
  rw [wp_bind, on_pool, wp_zoom]
  refine wp_mono (new_page_tracks h.tracks hroom) ?_ ?_
  · rintro ⟨pid, f⟩ p ⟨hpid, ht, hf, hlen⟩
    obtain rfl : pid = e.pool.disk.len := hpid
    rw [wp_bind, on_pool, wp_zoom]
    refine wp_never (unpin_tracks ht hf (.inl rfl)) ?_
    rintro - p2 ⟨ht2, hlen2⟩
    rw [Set.empty_sdiff] at ht2
    rw [wp_bind, wp_modify, wp_bind, wp_get]
    have hlen' : p2.disk.len = e.pool.disk.len + 1 := hlen2.trans hlen
    have h2 : Sound ⟨e.heap.with_page e.pool.disk.len, p2, e.wal⟩ ∅ H := by
      refine ⟨ht2, ?_⟩
      rw [hlen']
      exact h.wf.with_page h.tracks.coherent.disk.pos
    have g2 : Grew e ⟨e.heap.with_page e.pool.disk.len, p2, e.wal⟩ :=
      ⟨rfl, rfl, hlen'.symm ▸ Nat.le_succ _⟩
    refine wp_seq (refresh_all_sound _ h2 fun _ hq => hq) (fun _ _ hx => hx.of_later g2) ?_
    rintro - e3 ⟨h3, g3, pages3⟩
    refine ⟨h3, g2.trans g3, ?_⟩
    rw [pages3]
    exact mem_append_right _ mem_cons_self
  · rintro x p ⟨rfl, rfl⟩
    exact ⟨⟨_, rfl⟩, h, Grew.refl e⟩

theorem find_or_alloc_page_sound (h : Sound e ∅ H) (hroom : ¬ e.pool.disk.Full) (needed : ℕ) :
    wp (find_or_alloc_page needed) (fun pid e' => Sound e' ∅ H ∧ Grew e e' ∧ pid ∈ e'.heap.pages)
      (Stopped e H) e := by
  obtain ⟨r, hr⟩ := FreeSpaceMap.find_page_ok h.wf.fsm needed
  unfold find_or_alloc_page
  rw [wp_bind, wp_get, wp_bind, hr, wp_lift_ok]
  cases r with
  | none => exact alloc_page_sound h hroom
  | some pid =>
    by_cases hin : pid ∈ e.heap.pages
    · simp only [if_pos hin]
      exact ⟨h, Grew.refl e, hin⟩
    · simp only [if_neg hin]
      exact alloc_page_sound h hroom

/-- The log has one more entry, buffered or flushed with everything before it. -/
def Appended (w : WalManager) (fl pend : List DecodedRecord) (r : DecodedRecord) : Prop :=
  w.Quiet ∧ (w.Logged fl (pend ++ [r]) ∨ w.Logged (fl ++ (pend ++ [r])) [])

/-- The log file has room for `n` more bytes. -/
def LogRoom (w : WalManager) (n : ℕ) : Prop := w.file.length + w.buffer.length + n ≤ MAX_FILE_SIZE

instance (w : WalManager) (n : ℕ) : Decidable (LogRoom w n) := inferInstanceAs (Decidable (_ ≤ _))

variable {fl pend : List DecodedRecord} {xid : Xid} {rec : WalRecord} {ch : Change}

theorem write_sound (hlog : e.wal.Logged fl pend) (hq : e.wal.Quiet) (hs : Storable rec)
    (hroom : LogRoom e.wal (record_len rec)) :
    wp (on_wal (WalManager.write_record xid rec))
      (fun _ e' => ∃ w, e' = { e with wal := w }
        ∧ Appended w fl pend ⟨e.wal.next_lsn, e.wal.prev_lsn, xid, rec⟩) never e := by
  rw [on_wal, wp_zoom]
  refine wp_mono (WalManager.write_record_spec hlog hq hs) ?_ ?_
  · rintro - w ⟨-, hq', -, hl⟩
    exact ⟨w, rfl, hq', hl⟩
  · rintro x w ⟨-, hfull⟩
    unfold WalManager.Overfull at hfull
    rw [WalManager.append_buffer_length, ← add_assoc] at hfull
    exact absurd hroom (not_le.mpr hfull)

/-- The stamp changes no tuple. -/
theorem stamp_sound (h : Sound e hot H) (hf : Pinned e.pool pid f) (h0 : pid ≠ 0) : wp (stamp pid f)
      (fun _ e' => Sound e' (hot \ {pid}) H ∧ Grew e e' ∧ e'.heap = e.heap) never e := by
  have hbuilt := h.tracks.view pid h0 (h.tracks.coherent.stored pid f hf.1)
  unfold stamp
  rw [wp_bind, wp_get, wp_bind, on_pool, wp_zoom]
  refine wp_imp (page_mut_tracks h.tracks hf h0 rfl (hbuilt.set_lsn _) prefix_rfl) ?_
  rintro - p ⟨-, ht, hf', hlen, -⟩
  rw [update_eq_self] at ht
  obtain ⟨h1, g1⟩ := h.pool ht hlen
  refine wp_imp (unpin_sound h1 hf' (.inl rfl)) ?_
  rintro - e2 ⟨h2, g2, heap2⟩
  rw [Set.insert_sdiff_of_mem _ (Set.mem_singleton _)] at h2
  exact ⟨h2, g1.trans g2, heap2⟩

/-- **A change.** One page has one more change, the log one more record. -/
structure Changed (e : HeapEnv) (H : PageId → List Change) (fl pend : List DecodedRecord)
    (xid : Xid) (pid : PageId) (ch : Change) (rec : WalRecord) (e' : HeapEnv) : Prop where
  sound : Sound e' ∅ (update H pid (H pid ++ [ch]))
  wal : Appended e'.wal fl pend ⟨e.wal.next_lsn, e.wal.prev_lsn, xid, rec⟩
  table_id : e'.heap.table_id = e.heap.table_id
  len : e.pool.disk.len ≤ e'.pool.disk.len
  mem : pid ∈ e'.heap.pages

theorem Changed.of_later {e1 : HeapEnv} (h : Grew e e1)
    (hc : Changed e1 H fl pend xid pid ch rec e') : Changed e H fl pend xid pid ch rec e' :=
  ⟨hc.sound, by rw [← h.wal]; exact hc.wal, hc.table_id.trans h.table_id, h.len.trans hc.len, hc.mem⟩

/-- The end of both methods: the record is written and the page stamped. -/
theorem log_and_stamp (h : Sound e {pid} H) (hf : Pinned e.pool pid f) (h0 : pid ≠ 0)
    (hlog : e.wal.Logged fl pend) (hq : e.wal.Quiet) (hs : Storable rec)
    (hroom : LogRoom e.wal (record_len rec)) : wp (on_wal (WalManager.write_record xid rec))
      (fun _ e' => wp (stamp pid f)
        (fun _ e'' => Sound e'' ∅ H ∧ e''.heap = e.heap ∧ e.pool.disk.len ≤ e''.pool.disk.len
          ∧ Appended e''.wal fl pend ⟨e.wal.next_lsn, e.wal.prev_lsn, xid, rec⟩) never e')
      never e := by
  refine wp_imp (write_sound hlog hq hs hroom) ?_
  rintro - e1 ⟨w, rfl, hw⟩
  have h1 : Sound { e with wal := w } {pid} H := ⟨h.tracks, h.wf⟩
  refine wp_imp (stamp_sound h1 hf h0) ?_
  rintro - e2 ⟨h2, g2, heap2⟩
  rw [Set.sdiff_self] at h2
  exact ⟨h2, heap2, g2.len, by rw [g2.wal]; exact hw⟩

variable {tuple_data : List UInt8}

theorem storable_insert {table_id : ℕ} (ht : table_id < 256 ^ 4) (hp : pid < 256 ^ 8) {slot_id : ℕ}
    (hslot : slot_id < 256 ^ 2) (hdata : tuple_data.length < 256 ^ 2) :
    Storable (.HeapInsert table_id pid slot_id tuple_data)
      ∧ record_len (.HeapInsert table_id pid slot_id tuple_data) = 50 + tuple_data.length := by
  refine ⟨⟨⟨ht, hp, hslot, hdata⟩, ?_⟩, ?_⟩
  all_goals
    simp only [record_len, serialize_body, length_append, length_le_bytes]
    lia

theorem storable_delete {table_id : ℕ} (ht : table_id < 256 ^ 4) (hp : pid < 256 ^ 8) {slot_id : ℕ}
    (hslot : slot_id < 256 ^ 2) {old_xmax : Xid} (hx : old_xmax < 256 ^ 8) :
    Storable (.HeapDelete table_id pid slot_id old_xmax)
      ∧ record_len (.HeapDelete table_id pid slot_id old_xmax) = 56 := by
  refine ⟨⟨⟨ht, hp, hslot, hx⟩, ?_⟩, ?_⟩
  all_goals simp only [record_len, serialize_body, length_append, length_le_bytes]
  decide

theorem Sound.page_id_lt (h : Sound e hot H) (hpid : pid ∈ e.heap.pages) : pid < 256 ^ 8 := by
  have h1 := (h.wf.range pid hpid).2
  have h2 := h.tracks.coherent.disk.size
  lia

/-- **`insert_tuple`.** -/
theorem insert_tuple_sound (h : Sound e ∅ H) (hdisk : ¬ e.pool.disk.Full)
    (hlog : e.wal.Logged fl pend) (hq : e.wal.Quiet) (htable : e.heap.table_id < 256 ^ 4)
    (hroom : LogRoom e.wal (50 + tuple_data.length)) :
    wp (insert_tuple xid tuple_data)
      (fun tid e' => Changed e H fl pend xid tid.page_id (.insert tid.slot_id tuple_data)
        (.HeapInsert e.heap.table_id tid.page_id tid.slot_id tuple_data) e') (Stopped e H) e := by
  refine wp_seq (find_or_alloc_page_sound h hdisk _) (fun _ _ hx => hx) ?_
  rintro pid e1 ⟨h1, g1, hpid1⟩
  refine wp_seq (fetch_sound h1 hpid1) (fun _ _ hx => hx.of_later g1) ?_
  rintro f e2 ⟨h2, g2, hf, heap2⟩
  have g12 := g1.trans g2
  have hpid2 : pid ∈ e2.heap.pages := by rwa [heap2]
  obtain ⟨h0, hlt⟩ := h2.wf.range pid hpid2
  obtain ⟨c, hc, hholds⟩ := h2.tracks.view pid h0 hlt
  rw [wp_bind, on_pool, wp_zoom]
  rcases hholds.insert_tuple_cases tuple_data with ⟨q, c', hins, happ, hq'⟩ | ⟨err, hins⟩
  · -- the page takes the tuple
    have hbounds := hholds.bounds
    have hfits := (Contents.apply_insert happ).2.1
    refine wp_never (page_mut_tracks h2.tracks hf h0 hins ⟨c', Contents.replay_snoc hc happ, hq'⟩
      (prefix_append _ _)) ?_
    rintro slot p3 ⟨rfl, ht3, hf3, hlen3, -⟩
    rw [insert_empty_eq] at ht3
    obtain ⟨h3, g3⟩ := h2.pool ht3 hlen3
    refine wp_then (page_sound h3.tracks.coherent hf3 rfl) ?_
    rintro free e3 ⟨rfl, rfl⟩
    rw [wp_bind, wp_get, wp_bind]
    have hwal : e2.wal = e.wal := g12.wal
    have htab : e2.heap.table_id = e.heap.table_id := g12.table_id
    obtain ⟨hs, hlen⟩ := storable_insert (htab ▸ htable) (h2.page_id_lt hpid2) hbounds.1
      (show tuple_data.length < 256 ^ 2 by omega)
    refine wp_never (log_and_stamp h3 hf3 h0 (hwal ▸ hlog) (hwal ▸ hq) hs
      (by rw [hlen]; exact hwal ▸ hroom)) ?_
    intro _ e4 h4
    refine wp_then h4 ?_
    rintro - e5 ⟨h5, heap5, hlen5, hw5⟩
    have hpid5 : pid ∈ e5.heap.pages := by
      rwa [heap5]
    refine wp_then (update_fsm_sound h5 hpid5 _) ?_
    rintro - e6 ⟨h6, g6, pages6, -⟩
    refine Changed.of_later g12 ⟨h6, ?_, ?_, ?_, by rw [pages6]; exact hpid5⟩
    · rwa [g6.wal, ← htab]
    · rw [g6.table_id, heap5]
    · exact (le_of_eq hlen3.symm).trans (hlen5.trans g6.len)
  · -- the page is full: it stays pinned
    refine wp_mono (page_mut_refused h2.tracks.coherent hf hins) (fun _ _ hx => hx.elim) ?_
    rintro x p ⟨rfl, rfl⟩
    exact ⟨⟨err, rfl⟩, h2, g12⟩

/-- **`delete_tuple`.** -/
theorem delete_tuple_sound (h : Sound e ∅ H) (hlog : e.wal.Logged fl pend) (hq : e.wal.Quiet)
    (htable : e.heap.table_id < 256 ^ 4) {tid : TupleId} (hpid : tid.page_id ∈ e.heap.pages)
    {old_xmax : Xid} (hx : old_xmax < 256 ^ 8) (hroom : LogRoom e.wal 56) :
    wp (delete_tuple xid tid old_xmax)
      (fun _ e' => Changed e H fl pend xid tid.page_id (.delete tid.slot_id)
        (.HeapDelete e.heap.table_id tid.page_id tid.slot_id old_xmax) e') (Stopped e H) e := by
  refine wp_seq (fetch_sound h hpid) (fun _ _ hx => hx) ?_
  rintro f e2 ⟨h2, g2, hf, heap2⟩
  have hpid2 : tid.page_id ∈ e2.heap.pages := by rwa [heap2]
  obtain ⟨h0, hlt⟩ := h2.wf.range _ hpid2
  obtain ⟨c, hc, hholds⟩ := h2.tracks.view _ h0 hlt
  rw [wp_bind, on_pool, wp_zoom]
  rcases hholds.delete_tuple_cases tid.slot_id with ⟨q, c', hdel, happ, hq'⟩ | ⟨err, hdel⟩
  · have hbounds := hholds.bounds
    have hslot := (Contents.apply_delete happ).1
    refine wp_never (page_mut_tracks h2.tracks hf h0 (x := ()) (p := q) (by rw [hdel]; rfl)
      ⟨c', Contents.replay_snoc hc happ, hq'⟩ (prefix_append _ _)) ?_
    rintro - p3 ⟨-, ht3, hf3, hlen3, -⟩
    rw [insert_empty_eq] at ht3
    obtain ⟨h3, g3⟩ := h2.pool ht3 hlen3
    rw [wp_bind, wp_get, wp_bind]
    have hwal : e2.wal = e.wal := g2.wal
    obtain ⟨hs, hlen⟩ := storable_delete (heap2 ▸ htable) (h2.page_id_lt hpid2)
      (show tid.slot_id < 256 ^ 2 by omega) hx
    refine wp_never (log_and_stamp h3 hf3 h0 (hwal ▸ hlog) (hwal ▸ hq) hs
      (by rw [hlen]; exact hwal ▸ hroom)) ?_
    intro _ e4 h4
    refine wp_never h4 ?_
    rintro - e5 ⟨h5, heap5, hlen5, hw5⟩
    refine Changed.of_later g2 ⟨h5, ?_, by rw [heap5], ?_, by rw [heap5]; exact hpid2⟩
    · rwa [← heap2]
    · exact (le_of_eq hlen3.symm).trans hlen5
  · refine wp_mono (page_mut_refused h2.tracks.coherent hf (by rw [hdel]; rfl))
      (fun _ _ hx => hx.elim) ?_
    rintro x p ⟨rfl, rfl⟩
    exact ⟨⟨err, rfl⟩, h2, g2⟩

end Methods

end HeapFile

end Oigrap.Storage

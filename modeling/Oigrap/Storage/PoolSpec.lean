/-
What the buffer pool is for: the pages above it behave as one memory.

The pool is coherent when its page table, frames, free list and replacer agree with each
other and every clean frame equals its page on disk. In a coherent pool a page has one
current content, `view`: the frame's if it is loaded, the disk's otherwise. Fetching,
unpinning, flushing and eviction never change `view`; changing a pinned page changes it at
that page only. Code above the pool is reasoned about through `view` and `pins`; which
frame holds what, and what has reached the disk, stays in this file.

Between the moment a pinned page is changed and the moment it is unpinned dirty, its
frame is ahead of the disk without being marked so. Such pages are `hot`; they are safe
because a pinned frame is never a victim.
-/
import Oigrap.Storage.Replacer

namespace Oigrap.Storage

open ByteMem Wp Function List Option LruReplacer

variable {d : DiskManager}

/-! ## The disk -/

namespace DiskManager

/-- A working device whose file holds exactly the allocated pages. -/
structure Faithful (d : DiskManager) : Prop where
  io : ∀ n, d.io n = true
  len_eq : d.len = d.next_page_id
  pos : 0 < d.len
  size : d.len * PAGE_SIZE ≤ MAX_FILE_SIZE

/-- There is no room for one more page. -/
def Full (d : DiskManager) : Prop := MAX_FILE_SIZE < (d.len + 1) * PAGE_SIZE

instance (d : DiskManager) : Decidable d.Full := inferInstanceAs (Decidable (_ < _))

theorem Faithful.calls (h : d.Faithful) (n : ℕ) : ({ d with calls := n } : DiskManager).Faithful :=
  ⟨h.io, h.len_eq, h.pos, h.size⟩

/-- The file of a new database. -/
def fresh : DiskManager :=
  ⟨update (fun _ => Page.blank) 0 (header_page 1), 1, 1, fun _ => true, 1⟩

theorem fresh_faithful : fresh.Faithful := ⟨fun _ => rfl, rfl, Nat.one_pos, by decide⟩

variable {pid : PageId}

theorem page_offset_spec (h : pid * PAGE_SIZE < 2 ^ 64) :
    wp (page_offset pid) (fun o d' => o = pid * PAGE_SIZE ∧ d' = d) never d := by
  rw [page_offset, if_pos h]
  exact ⟨rfl, rfl⟩

theorem syscall_spec (h : d.io d.calls = true) :
    wp syscall (fun _ d' => d' = { d with calls := d.calls + 1 }) never d := by
  simp only [syscall, wp_bind, wp_get, wp_set]
  rw [if_pos h]
  rfl

/-- Reading a page of the file. -/
theorem read_page_spec' (h : d.io d.calls = true) (hp : pid < d.len)
    (hsize : pid * PAGE_SIZE + PAGE_SIZE ≤ MAX_FILE_SIZE) :
    wp (read_page pid) (fun p d' => p = d.pages pid ∧ d' = { d with calls := d.calls + 1 })
      never d := by
  refine wp_then (page_offset_spec (by lia)) ?_
  rintro o d1 ⟨-, rfl⟩
  refine wp_then (syscall_spec h) ?_
  rintro - d2 rfl
  rw [wp_bind, wp_get, if_pos hp]
  exact ⟨rfl, rfl⟩

theorem Faithful.fits (h : d.Faithful) (hp : pid < d.len) :
    pid * PAGE_SIZE + PAGE_SIZE ≤ MAX_FILE_SIZE := by
  have hsize := h.size
  lia

theorem read_page_spec (h : d.Faithful) (hp : pid < d.len) :
    wp (read_page pid) (fun p d' => p = d.pages pid ∧ d' = { d with calls := d.calls + 1 })
      never d := read_page_spec' (h.io _) hp (h.fits hp)

theorem write_page_spec (h : d.io d.calls = true) (pid : PageId) (p : Page)
    (hp : pid * PAGE_SIZE + PAGE_SIZE ≤ MAX_FILE_SIZE) :
    wp (write_page pid p) (fun _ d' => d' = { d with
      pages := update d.pages pid p, len := max d.len (pid + 1), calls := d.calls + 1 })
      never d := by
  refine wp_then (page_offset_spec (by lia)) ?_
  rintro o d1 ⟨rfl, rfl⟩
  refine wp_then (syscall_spec h) ?_
  rintro - d2 rfl
  rw [if_pos hp]
  rfl

/-- The file after one more page: zero-filled at the end, the count in the header. -/
def grown (d : DiskManager) : DiskManager :=
  { d with
    pages := update (update d.pages d.len Page.blank) 0 (header_page (d.len + 1))
    len := d.len + 1
    next_page_id := d.len + 1
    calls := d.calls + 2 }

theorem grown_faithful (h : d.Faithful) (hroom : (d.len + 1) * PAGE_SIZE ≤ MAX_FILE_SIZE) :
    d.grown.Faithful := ⟨h.io, rfl, Nat.succ_pos _, hroom⟩

/-- Both writes of `allocate_page` succeed. -/
theorem allocate_page_room (h0 : d.io d.calls = true) (h1 : d.io (d.calls + 1) = true)
    (hroom : d.next_page_id * PAGE_SIZE + PAGE_SIZE ≤ MAX_FILE_SIZE) :
    wp allocate_page
      (fun pid d' => pid = d.next_page_id ∧ d' = { d with
        pages := update (update d.pages pid Page.blank) 0 (header_page (pid + 1))
        len := max (max d.len (pid + 1)) 1
        next_page_id := (pid + 1) % 2 ^ 64
        calls := d.calls + 2 }) never d := by
  unfold allocate_page
  rw [wp_bind, wp_get, wp_bind, wp_set]
  refine wp_then (write_page_spec (by exact h0) _ Page.blank hroom) ?_
  rintro - d1 rfl
  refine wp_then (write_page_spec (by exact h1) 0 _ (by lia)) ?_
  rintro - d2 rfl
  exact ⟨rfl, rfl⟩

theorem allocate_page_spec (h : d.Faithful) : wp allocate_page
      (fun pid d' => pid = d.len ∧ d' = d.grown ∧ (d.len + 1) * PAGE_SIZE ≤ MAX_FILE_SIZE)
      (fun e d' => e = .err .Io ∧ d.Full ∧ d'.len = d.len) d := by
  have hsize := h.size
  have hnext : d.next_page_id = d.len := h.len_eq.symm
  by_cases hroom : (d.len + 1) * PAGE_SIZE ≤ MAX_FILE_SIZE
  · refine wp_mono (allocate_page_room (h.io _) (h.io _) (by rw [hnext]; lia)) ?_
      fun _ _ => False.elim
    rintro pid d' ⟨rfl, rfl⟩
    refine ⟨hnext, ?_, hroom⟩
    rw [hnext, Nat.mod_eq_of_lt (by lia), max_eq_right (Nat.le_succ _), max_eq_left (by omega)]
    rfl
  · -- the write past the limit is refused
    have hoff : d.len * PAGE_SIZE < 2 ^ 64 := by lia
    have hfull : ¬ d.len * PAGE_SIZE + PAGE_SIZE ≤ MAX_FILE_SIZE := by lia
    unfold allocate_page write_page
    rw [wp_bind, wp_get, wp_bind, wp_set, hnext, wp_bind]
    refine wp_then (page_offset_spec hoff) ?_
    rintro o d1 ⟨rfl, rfl⟩
    refine wp_then (syscall_spec (by exact h.io _)) ?_
    rintro - d2 rfl
    rw [if_neg hfull]
    exact ⟨rfl, Nat.lt_of_not_le hroom, rfl⟩

end DiskManager

/-! ## The pool -/

namespace BufferPool

/-- The current content of a page: the frame that holds it, or the disk. -/
def view (s : BufferPool) (pid : PageId) : Page :=
  match s.page_table pid with
  | some f => (s.frames f).page
  | none => s.disk.pages pid

/-- How often a page is pinned. -/
def pins (s : BufferPool) (pid : PageId) : ℕ :=
  match s.page_table pid with
  | some f => (s.frames f).pin_count
  | none => 0

/-- The part of coherence that is about frames only: each one is free, or `taken`, the frame that
`find_free_frame` has handed out and its caller has not filled yet, or holds the page that the
page table has there, and the replacer knows the unpinned ones. -/
structure Framed (s : BufferPool) (taken : Option FrameId) : Prop where
  table : ∀ pid f, s.page_table pid = some f → f < s.pool_size ∧ (s.frames f).page_id = some pid
  held : ∀ f pid, f < s.pool_size → (s.frames f).page_id = some pid → s.page_table pid = some f
  free : ∀ f ∈ s.free_list, f < s.pool_size ∧ (s.frames f).page_id = none ∧ taken ≠ some f
  nodup : s.free_list.Nodup
  unused : ∀ f, f < s.pool_size → (s.frames f).page_id = none → f ∈ s.free_list ∨ taken = some f
  is_taken : ∀ f, taken = some f → f < s.pool_size ∧ (s.frames f).page_id = none
  replacer : s.replacer.Wf
  evictable : ∀ f, f ∈ s.replacer.evictable ↔
    f < s.pool_size ∧ (s.frames f).page_id.isSome ∧ (s.frames f).pin_count = 0
  accessed : ∀ f, f < s.pool_size → (s.frames f).page_id.isSome →
    (s.replacer.frame_timestamp f).isSome

/-- **Coherence.** `hot` are the pages that were changed and not yet unpinned. -/
structure Coherent (s : BufferPool) (hot : Set PageId) (taken : Option FrameId) : Prop extends
    framed : Framed s taken where
  disk : s.disk.Faithful
  /-- the header page is not a user page -/
  header : s.page_table 0 = none
  stored : ∀ pid f, s.page_table pid = some f → pid < s.disk.len
  clean : ∀ pid f, s.page_table pid = some f → (s.frames f).is_dirty = false → pid ∉ hot →
    (s.frames f).page = s.disk.pages pid
  hot_pinned : ∀ pid ∈ hot, 0 < s.pins pid

/-- What the frame of a page says, or `z` where the page is not loaded; `view` and `pins` are of
this form. -/
def look {α : Type} (s : BufferPool) (g : Frame → α) (z : PageId → α) (pid : PageId) : α :=
  match s.page_table pid with
  | some f => g (s.frames f)
  | none => z pid

/-- Some frame is unused or unpinned. -/
def Avail (s : BufferPool) : Prop :=
  ∃ f, f < s.pool_size ∧ ((s.frames f).page_id = none ∨ (s.frames f).pin_count = 0)

/-- What a pool operation does, seen from above: the file has `len` pages, the contents
are `v`, the pins are `p`, a page that was pinned is still in its frame, and nothing
reached the disk but the contents from before the operation. -/
structure Moves (s s' : BufferPool) (len : ℕ) (v : PageId → Page) (p : PageId → ℕ) : Prop where
  size : s'.pool_size = s.pool_size
  len : s'.disk.len = len
  view : ∀ q, q ≠ 0 → s'.view q = v q
  pins : s'.pins = p
  frame : ∀ q f, s.page_table q = some f → 0 < s.pins q → s'.page_table q = some f
  disk : ∀ q, q ≠ 0 → q < s.disk.len → s'.disk.pages q = s.disk.pages q ∨ s'.disk.pages q = s.view q

section Steps

variable {s s' : BufferPool} {hot : Set PageId} {taken : Option FrameId} {pid : PageId}
  {f : FrameId}

theorem view_of_table (h : s.page_table pid = some f) : s.view pid = (s.frames f).page := by
  unfold view
  rw [h]

theorem pins_of_table (h : s.page_table pid = some f) : s.pins pid = (s.frames f).pin_count := by
  unfold pins
  rw [h]

theorem view_of_not_table (h : s.page_table pid = none) : s.view pid = s.disk.pages pid := by
  unfold view
  rw [h]

theorem pins_of_not_table (h : s.page_table pid = none) : s.pins pid = 0 := by
  unfold pins
  rw [h]

theorem look_of_table {α : Type} {g : Frame → α} {z : PageId → α} (h : s.page_table pid = some f) :
    s.look g z pid = g (s.frames f) := by
  unfold look
  rw [h]

theorem look_of_not_table {α : Type} {g : Frame → α} {z : PageId → α} (h : s.page_table pid = none) :
    s.look g z pid = z pid := by
  unfold look
  rw [h]

theorem Framed.table_inj (h : s.Framed taken) {q : PageId} (h1 : s.page_table pid = some f)
    (h2 : s.page_table q = some f) : pid = q := by
  have e1 := (h.table pid f h1).2
  rw [(h.table q f h2).2] at e1
  exact (some.inj e1).symm

theorem Framed.evictable_iff (h : s.Framed taken) (hf : s.page_table pid = some f) :
    f ∈ s.replacer.evictable ↔ (s.frames f).pin_count = 0 := by
  obtain ⟨hlt, hid⟩ := h.table pid f hf
  rw [h.evictable, hid]
  exact ⟨fun hz => hz.2.2, fun hz => ⟨hlt, rfl, hz⟩⟩

theorem new_framed (d : DiskManager) (n : ℕ) : (BufferPool.new n d).Framed none where
  table := fun _ _ h => by cases h
  held := fun _ _ _ h => by cases h
  free := fun f hf => ⟨mem_range.mp hf, rfl, fun h => by cases h⟩
  nodup := nodup_range
  unused := fun f hf _ => .inl (mem_range.mpr hf)
  is_taken := fun _ h => by cases h
  replacer := LruReplacer.new_wf
  evictable := fun f => by simp [BufferPool.new, LruReplacer.new]
  accessed := fun _ _ h => by cases h

/-- A new or empty pool over a working disk is coherent. -/
theorem new_coherent {d : DiskManager} (hd : d.Faithful) (n : ℕ) :
    (BufferPool.new n d).Coherent ∅ none :=
  { new_framed d n with
    disk := hd
    header := rfl
    stored := fun _ _ h => by cases h
    clean := fun _ _ h => by cases h
    hot_pinned := fun _ h => h.elim }

theorem take_free_framed (h : s.Framed none) {rest : List FrameId} (hl : s.free_list = f :: rest) :
    ({ s with free_list := rest } : BufferPool).Framed (some f) := by
  have hnd := h.nodup
  rw [hl, nodup_cons] at hnd
  refine { h with free := ?_, nodup := hnd.2, unused := ?_, is_taken := ?_ }
  · intro g hg
    have hg' := h.free g (by rw [hl]; exact mem_cons_of_mem _ hg)
    refine ⟨hg'.1, hg'.2.1, ?_⟩
    intro heq
    rw [← some.inj heq] at hg
    exact hnd.1 hg
  · intro g hg hn
    rcases h.unused g hg hn with hin | hno
    · rw [hl, mem_cons] at hin
      rcases hin with rfl | hin
      · exact .inr rfl
      · exact .inl hin
    · cases hno
  · intro g hg
    have := h.free f (by rw [hl]; exact mem_cons_self)
    rw [← some.inj hg]
    exact ⟨this.1, this.2.1⟩

theorem take_free_coherent (h : s.Coherent hot none) {rest : List FrameId}
    (hl : s.free_list = f :: rest) :
    ({ s with free_list := rest } : BufferPool).Coherent hot (some f) :=
  { take_free_framed h.framed hl with
    disk := h.disk, header := h.header, stored := h.stored, clean := h.clean
    hot_pinned := h.hot_pinned }

/-- One frame changes hands: it held `pid` or was handed out for it, and now it holds `pid` or is
handed out. -/
theorem Framed.replace (h : s.Framed taken) {taken' t : Option FrameId} {fr : Frame}
    (hsize : s'.pool_size = s.pool_size) (hfree : s'.free_list = s.free_list)
    (hframes : s'.frames = update s.frames f fr) (htab : s'.page_table = update s.page_table pid t)
    (hlt : f < s.pool_size)
    (hold : s.page_table pid = some f ∧ taken = none ∨ s.page_table pid = none ∧ taken = some f)
    (hnew : t = some f ∧ fr.page_id = some pid ∧ taken' = none
      ∨ t = none ∧ fr.page_id = none ∧ taken' = some f) (hr : s'.replacer.Wf)
    (hev : ∀ g, g ∈ s'.replacer.evictable ↔
      if g = f then fr.page_id.isSome ∧ fr.pin_count = 0 else g ∈ s.replacer.evictable)
    (hts : ∀ g, (if g = f then fr.page_id.isSome else (s.replacer.frame_timestamp g).isSome) →
      (s'.replacer.frame_timestamp g).isSome) : s'.Framed taken' := by
  have hself : s'.frames f = fr := by rw [hframes, update_self]
  have hother : ∀ g, g ≠ f → s'.frames g = s.frames g := by
    intro g hg
    rw [hframes, update_of_ne hg]
  -- the frame was in no other use
  have hone : ∀ q, q ≠ pid → s.page_table q ≠ some f := by
    intro q hq hin
    rcases hold with ⟨hf, -⟩ | ⟨-, ht⟩
    · exact hq (h.table_inj hin hf)
    · have := (h.is_taken f ht).2
      simp [(h.table q f hin).2] at this
  have hused : ∀ g, g ∈ s.free_list ∨ s.page_table pid = some g ∧ g ≠ f ∨ taken = some g ∧ g ≠ f →
      g ∈ s.free_list ∧ g ≠ f := by
    rintro g (hg | ⟨hg, hne⟩ | ⟨hg, hne⟩) <;> rcases hold with ⟨hf, ht⟩ | ⟨hf, ht⟩
    · refine ⟨hg, ?_⟩
      rintro rfl
      have := (h.free g hg).2.1
      simp [(h.table pid g hf).2] at this
    · exact ⟨hg, fun heq => (h.free g hg).2.2 (heq ▸ ht)⟩
    · exact absurd (some.inj (hg.symm.trans hf)) hne
    · cases hg.symm.trans hf
    · cases hg.symm.trans ht
    · exact absurd (some.inj (hg.symm.trans ht)) hne
  constructor
  case table =>
    intro q g hg
    rw [htab, update_apply] at hg
    split_ifs at hg with hq
    · rcases hnew with ⟨rfl, hid, -⟩ | ⟨rfl, -⟩
      · rw [← some.inj hg, hself, hsize, hid, hq]
        exact ⟨hlt, rfl⟩
      · cases hg
    · rw [hother g (fun heq => hone q hq (heq ▸ hg)), hsize]
      exact h.table q g hg
  case held =>
    intro g q hg hq
    rw [htab]
    by_cases hgf : g = f
    · rw [hgf, hself] at hq
      rcases hnew with ⟨rfl, hid, -⟩ | ⟨-, hid, -⟩
      · rw [← some.inj (hid.symm.trans hq), update_self, hgf]
      · cases hid.symm.trans hq
    · rw [hother g hgf] at hq
      have hin := h.held g q (hsize ▸ hg) hq
      have hne : q ≠ pid := by
        rintro rfl
        have hfree := (hused g (.inr (.inl ⟨hin, hgf⟩))).1
        cases hq.symm.trans (h.free g hfree).2.1
      rw [update_of_ne hne, hin]
  case free =>
    intro g hg
    rw [hfree] at hg
    have hgf := (hused g (.inl hg)).2
    rw [hother g hgf, hsize]
    refine ⟨(h.free g hg).1, (h.free g hg).2.1, ?_⟩
    rcases hnew with ⟨-, -, rfl⟩ | ⟨-, -, rfl⟩
    · exact nofun
    · exact fun heq => hgf (some.inj heq).symm
  case nodup => exact hfree ▸ h.nodup
  case unused =>
    intro g hg hn
    rw [hfree]
    by_cases hgf : g = f
    · rw [hgf, hself] at hn
      rcases hnew with ⟨-, hid, -⟩ | ⟨-, -, ht⟩
      · cases hid.symm.trans hn
      · exact .inr (hgf ▸ ht)
    · rw [hother g hgf] at hn
      exact .inl ((h.unused g (hsize ▸ hg) hn).elim id
        fun ht => (hused g (.inr (.inr ⟨ht, hgf⟩))).1)
  case is_taken =>
    rintro g rfl
    rcases hnew with ⟨-, -, ht⟩ | ⟨-, hid, ht⟩
    · cases ht
    · rw [some.inj ht, hself, hsize]
      exact ⟨hlt, hid⟩
  case replacer => exact hr
  case evictable =>
    intro g
    rw [hev, hsize]
    split_ifs with hgf
    · rw [hgf, hself]
      exact ⟨fun hz => ⟨hlt, hz⟩, And.right⟩
    · rw [hother g hgf, h.evictable]
  case accessed =>
    intro g hg hs
    refine hts g ?_
    by_cases hgf : g = f
    · rw [hgf, hself] at hs
      rwa [if_pos hgf]
    · rw [hother g hgf] at hs
      rw [if_neg hgf]
      exact h.accessed g (hsize ▸ hg) hs

theorem mem_erase_iff {S : Finset FrameId} {P : Prop} (hP : ¬ P) (g : FrameId) :
    g ∈ S.erase f ↔ if g = f then P else g ∈ S := by
  by_cases hgf : g = f
  · simp [hgf, hP]
  · simp [hgf]

/-- The pool after its victim `f`, which held `pid`, was written back and vacated. -/
def evicted (s : BufferPool) (f : FrameId) (pid : PageId) (r : LruReplacer) (d : DiskManager) :
    BufferPool :=
  { s with
    frames := update s.frames f { s.frames f with page_id := none, is_dirty := false }
    page_table := update s.page_table pid none
    replacer := r
    disk := d }

variable {r : LruReplacer}

section Evict

variable (hf : s.page_table pid = some f)

theorem evicted_unloaded {q : PageId} (hq : s.page_table q = none) :
    (s.evicted f pid r d).page_table q = none := by
  show update s.page_table pid none q = none
  rw [update_apply]
  split
  · rfl
  · exact hq

section

variable (h : s.Framed none)

include h hf

/-- No page other than the victim's sees a difference. -/
theorem evicted_frame {q : PageId} {g : FrameId} (hq : q ≠ pid) (hg : s.page_table q = some g) :
    (s.evicted f pid r d).page_table q = some g ∧ (s.evicted f pid r d).frames g = s.frames g := by
  have hne : g ≠ f := by
    rintro rfl
    exact hq (h.table_inj hg hf)
  exact ⟨(update_of_ne hq _ _).trans hg, update_of_ne hne _ _⟩

theorem evicted_table {q : PageId} {g : FrameId} (hg : (s.evicted f pid r d).page_table q = some g) :
    q ≠ pid ∧ s.page_table q = some g ∧ (s.evicted f pid r d).frames g = s.frames g := by
  by_cases hq : q = pid
  · subst hq
    simp [show (s.evicted f q r d).page_table q = none from update_self _ _ _] at hg
  · have hg' : s.page_table q = some g := (update_of_ne hq _ _).symm.trans hg
    exact ⟨hq, hg', (evicted_frame hf h hq hg').2⟩

theorem evicted_look {α : Type} (g : Frame → α) {z z' : PageId → α} (hself : z' pid = g (s.frames f))
    (hz : ∀ q, q ≠ pid → z' q = z q) : (s.evicted f pid r d).look g z' = s.look g z := by
  funext q
  by_cases hq : q = pid
  · subst hq
    rw [look_of_table hf, look_of_not_table (update_self _ _ _), hself]
  · cases hg : s.page_table q with
    | some g' =>
      obtain ⟨h1, h2⟩ := evicted_frame (r := r) (d := d) hf h hq hg
      rw [look_of_table h1, look_of_table hg, h2]
    | none =>
      rw [look_of_not_table hg, look_of_not_table ((update_of_ne hq _ _).trans hg), hz q hq]

theorem evicted_pins (hp : (s.frames f).pin_count = 0) : (s.evicted f pid r d).pins = s.pins :=
  evicted_look hf h Frame.pin_count hp.symm fun _ _ => rfl

theorem evicted_framed : (s.evicted f pid (s.replacer.remove f) d).Framed (some f) := by
  refine h.replace rfl rfl rfl rfl (h.table pid f hf).1 (.inl ⟨hf, rfl⟩) (.inr ⟨rfl, rfl, rfl⟩)
    (remove_wf h.replacer f) (mem_erase_iff nofun) ?_
  intro g hs
  by_cases hgf : g = f
  · simp [if_pos hgf] at hs
  · rw [if_neg hgf] at hs
    show (update s.replacer.frame_timestamp f none g).isSome
    rwa [update_of_ne hgf]

end

variable (hd : d.pages = update s.disk.pages pid (s.frames f).page)

include hf hd

theorem evicted_view (h : s.Framed none) : (s.evicted f pid r d).view = s.view :=
  evicted_look hf h Frame.page ((congrFun hd pid).trans (update_self _ _ _))
    fun q hq => (congrFun hd q).trans (update_of_ne hq _ _)

theorem evicted_coherent (h : s.Coherent hot none) (hp : (s.frames f).pin_count = 0)
    (hfd : d.Faithful) (hlen : d.len = s.disk.len) :
    (s.evicted f pid (s.replacer.remove f) d).Coherent hot (some f) := by
  have hframed := evicted_framed (d := d) hf h.framed
  refine { hframed with disk := hfd, header := ?_, stored := ?_, clean := ?_, hot_pinned := ?_ }
  · show update s.page_table pid none 0 = none
    rw [update_apply]
    split
    · rfl
    · exact h.header
  · intro q g hg
    show q < d.len
    rw [hlen]
    exact h.stored q g (evicted_table hf h.framed hg).2.1
  · intro q g hg hdirty hhot
    obtain ⟨hq, hg', hsame⟩ := evicted_table hf h.framed hg
    rw [hsame] at hdirty ⊢
    show _ = d.pages q
    rw [hd, update_of_ne hq]
    exact h.clean q g hg' hdirty hhot
  · rw [evicted_pins hf h.framed hp]
    exact h.hot_pinned

end Evict

/-- The disk after a frame that holds `pid` was written back. -/
def saved (s : BufferPool) (f : FrameId) (pid : PageId) : DiskManager :=
  if (s.frames f).is_dirty then { s.disk with
    pages := update s.disk.pages pid (s.frames f).page
    len := max s.disk.len (pid + 1), calls := s.disk.calls + 1 } else s.disk

theorem saved_faithful (hd : s.disk.Faithful) (hp : pid < s.disk.len) :
    (s.saved f pid).Faithful ∧ (s.saved f pid).len = s.disk.len
      ∧ (s.saved f pid).pages = if (s.frames f).is_dirty
        then update s.disk.pages pid (s.frames f).page else s.disk.pages := by
  unfold saved
  split
  · rw [max_eq_left (Nat.succ_le_of_lt hp)]
    exact ⟨⟨hd.io, hd.len_eq, hd.pos, hd.size⟩, rfl, rfl⟩
  · exact ⟨hd, rfl, rfl⟩

/-- Writing a frame back: it is clean afterwards and the disk has its content. -/
theorem write_back_spec (hio : s.disk.io s.disk.calls = true)
    (hp : pid * PAGE_SIZE + PAGE_SIZE ≤ MAX_FILE_SIZE) :
    wp (write_back f pid) (fun _ s' => s' = { s with
        frames := update s.frames f { s.frames f with is_dirty := false }
        disk := s.saved f pid }) never s := by
  unfold write_back saved
  rw [wp_bind, wp_get]
  by_cases hdirty : (s.frames f).is_dirty = true
  · rw [if_pos hdirty, wp_bind, on_disk, wp_zoom]
    refine wp_imp (DiskManager.write_page_spec hio pid (s.frames f).page hp) ?_
    rintro - d rfl
    rw [wp_modify, if_pos hdirty]
    rfl
  · have hsame : ({ s.frames f with is_dirty := false } : Frame) = s.frames f := by
      rw [← Bool.eq_false_of_not_eq_true hdirty]
    rw [if_neg hdirty, wp_pure, if_neg hdirty, hsame, update_eq_self]

theorem not_avail (h : s.Framed none) (hl : s.free_list = [])
    (he : s.replacer.evict = none) : ¬ s.Avail := by
  rintro ⟨g, hg, hn⟩
  cases hid : (s.frames g).page_id with
  | none =>
    rcases h.unused g hg hid with hin | hno
    · rw [hl] at hin
      exact absurd hin not_mem_nil
    · cases hno
  | some q =>
    rcases hn with hn | hn
    · simp [hid] at hn
    · have hsome : (s.frames g).page_id.isSome = true := by rw [hid]; rfl
      exact evict_none h.replacer he (h.accessed g hg hsome)
        ((h.evictable g).mpr ⟨hg, hsome, hn⟩)

/-- `find_free_frame` takes the first free frame, or else an unpinned victim, which is written back
if that succeeds. -/
theorem find_free_frame_cases (h : s.Framed none) (hio : s.disk.io s.disk.calls = true)
    (hfits : ∀ pid f, s.page_table pid = some f → pid * PAGE_SIZE + PAGE_SIZE ≤ MAX_FILE_SIZE) :
    wp find_free_frame
      (fun f s' => (∃ rest, s.free_list = f :: rest ∧ s' = { s with free_list := rest })
        ∨ ∃ pid, s.page_table pid = some f ∧ (s.frames f).pin_count = 0
          ∧ s' = s.evicted f pid (s.replacer.remove f) (s.saved f pid))
      (fun e s' => e = .err .BufferFull ∧ s' = s ∧ ¬ s.Avail) s := by
  unfold find_free_frame
  rw [wp_bind, wp_get]
  cases hl : s.free_list with
  | cons g rest => exact .inl ⟨rest, rfl, rfl⟩
  | nil =>
    cases he : s.replacer.evict with
    | none => exact ⟨rfl, rfl, not_avail h hl he⟩
    | some gr =>
      obtain ⟨g, r⟩ := gr
      -- a victim holds a page and is unpinned
      obtain ⟨hev, rfl⟩ := evict_some h.replacer he
      obtain ⟨hlt, hsome, hpin⟩ := (h.evictable g).mp hev
      obtain ⟨q, hq⟩ := isSome_iff_exists.mp hsome
      have htab := h.held g q hlt hq
      rw [wp_bind, wp_set, wp_bind, write_back_victim, wp_bind, wp_get]
      simp only [hq]
      refine wp_mono (write_back_spec
        (s := { s with free_list := [], replacer := s.replacer.remove g }) hio (hfits q g htab)) ?_
        (fun _ _ hf => False.elim hf)
      rintro - s1 rfl
      refine .inr ⟨q, htab, hpin, ?_⟩
      simp [vacate, evicted, set_frame, saved, hq, hl]

theorem find_free_frame_spec (h : s.Coherent hot none) : wp find_free_frame
      (fun f s' => s'.Coherent hot (some f) ∧ Moves s s' s.disk.len s.view s.pins
        ∧ ∀ q, s.page_table q = none → s'.page_table q = none)
      (fun e s' => e = .err .BufferFull ∧ s' = s ∧ ¬ s.Avail) s := by
  refine wp_imp (find_free_frame_cases h.framed (h.disk.io _)
    fun pid f hf => h.disk.fits (h.stored pid f hf)) ?_
  rintro f s' (⟨rest, hl, rfl⟩ | ⟨q, htab, hpin, rfl⟩)
  · exact ⟨take_free_coherent h hl, ⟨rfl, rfl, fun _ _ => rfl, rfl, fun _ _ hq _ => hq,
      fun _ _ _ => .inl rfl⟩, fun _ hq => hq⟩
  · obtain ⟨hfd, hdl, hdp⟩ := saved_faithful (f := f) h.disk (h.stored q f htab)
    have hpages : (s.saved f q).pages = update s.disk.pages q (s.frames f).page := by
      rw [hdp]
      by_cases hdirty : (s.frames f).is_dirty = true
      · exact if_pos hdirty
      · -- it is clean unless marked dirty, since it is unpinned
        have hcold : q ∉ hot := by
          intro hin
          have := h.hot_pinned q hin
          rw [pins_of_table htab] at this
          omega
        rw [if_neg hdirty, h.clean q f htab (Bool.eq_false_of_not_eq_true hdirty) hcold,
          update_eq_self]
    refine ⟨evicted_coherent htab hpages h hpin hfd hdl, ⟨rfl, hdl, ?_, ?_, ?_, ?_⟩, ?_⟩
    · intro q' _
      rw [evicted_view htab hpages h.framed]
    · exact evicted_pins htab h.framed hpin
    · intro q' g' hg' hpos
      have hne : q' ≠ q := by
        rintro rfl
        rw [pins_of_table htab] at hpos
        omega
      exact (update_of_ne hne _ _).trans hg'
    · intro q' _ _
      show (s.saved f q).pages q' = _ ∨ (s.saved f q).pages q' = _
      rw [hpages, update_apply]
      split_ifs with heq
      · exact .inr (by rw [heq, view_of_table htab])
      · exact .inl rfl
    · exact fun _ => evicted_unloaded

/-! ### Loading a page -/

section Install

variable (page : Page) (dirty : Bool)

section

variable (h : s.Framed (some f)) (hpid : s.page_table pid = none)

include h hpid

theorem install_frame {q : PageId} {g : FrameId} (hg : s.page_table q = some g) :
    (s.install f pid page dirty).page_table q = some g
      ∧ (s.install f pid page dirty).frames g = s.frames g := by
  have hq : q ≠ pid := by
    rintro rfl
    simp [hpid] at hg
  have hne : g ≠ f := by
    rintro rfl
    have := (h.is_taken g rfl).2
    simp [(h.table q g hg).2] at this
  exact ⟨(update_of_ne hq _ _).trans hg, update_of_ne hne _ _⟩

theorem install_table {q : PageId} {g : FrameId}
    (hg : (s.install f pid page dirty).page_table q = some g) :
    q = pid ∧ g = f ∨ s.page_table q = some g ∧ (s.install f pid page dirty).frames g = s.frames g := by
  by_cases hq : q = pid
  · subst hq
    rw [show (s.install f q page dirty).page_table q = some f from update_self _ _ _] at hg
    exact .inl ⟨rfl, (some.inj hg).symm⟩
  · have hg' : s.page_table q = some g := (update_of_ne hq _ _).symm.trans hg
    exact .inr ⟨hg', (install_frame page dirty h hpid hg').2⟩

theorem install_look {α : Type} (g : Frame → α) (z : PageId → α) :
    (s.install f pid page dirty).look g z
      = update (s.look g z) pid (g ⟨page, some pid, 1, dirty⟩) := by
  funext q
  by_cases hq : q = pid
  · subst hq
    rw [look_of_table (s := s.install f q page dirty) (update_self _ _ _),
      update_self, show (s.install f q page dirty).frames f = _ from update_self _ _ _]
  · rw [update_of_ne hq]
    cases hg : s.page_table q with
    | some g' =>
      obtain ⟨h1, h2⟩ := install_frame page dirty h hpid hg
      rw [look_of_table h1, look_of_table hg, h2]
    | none => rw [look_of_not_table hg, look_of_not_table ((update_of_ne hq _ _).trans hg)]

theorem install_view : (s.install f pid page dirty).view = update s.view pid page :=
  install_look page dirty h hpid Frame.page _

theorem install_pins : (s.install f pid page dirty).pins = update s.pins pid 1 :=
  install_look page dirty h hpid Frame.pin_count _

theorem install_framed : (s.install f pid page dirty).Framed none := by
  refine h.replace rfl rfl rfl rfl (h.is_taken f rfl).1 (.inr ⟨hpid, rfl⟩)
    (.inl ⟨rfl, rfl, rfl⟩)
    (set_evictable_wf (record_access_wf h.replacer f) f false)
    (mem_erase_iff nofun) ?_
  intro g hs
  refine (record_access_timestamp s.replacer f g).mpr ?_
  by_cases hgf : g = f
  · exact .inl hgf
  · rw [if_neg hgf] at hs
    exact .inr hs

end

theorem install_coherent (h : s.Coherent hot (some f)) (hpid : s.page_table pid = none)
    (h0 : pid ≠ 0) (hlen : pid < s.disk.len) (hpage : dirty = true ∨ page = s.disk.pages pid) :
    (s.install f pid page dirty).Coherent hot none := by
  have hframed := install_framed page dirty h.framed hpid
  refine { hframed with disk := h.disk, header := ?_, stored := ?_, clean := ?_, hot_pinned := ?_ }
  · exact (update_of_ne (Ne.symm h0) _ _).trans h.header
  · intro q g hg
    rcases install_table page dirty h.framed hpid hg with ⟨rfl, -⟩ | ⟨hg', -⟩
    · exact hlen
    · exact h.stored q g hg'
  · intro q g hg hdirty hhot
    rcases install_table page dirty h.framed hpid hg with ⟨rfl, rfl⟩ | ⟨hg', hsame⟩
    · rw [show (s.install g q page dirty).frames g = _ from update_self _ _ _] at hdirty ⊢
      rcases hpage with hp | hp
      · simp [hp] at hdirty
      · exact hp
    · rw [hsame] at hdirty ⊢
      exact h.clean q g hg' hdirty hhot
  · intro q hq
    rw [install_pins page dirty h.framed hpid, update_apply]
    split
    · exact Nat.one_pos
    · exact h.hot_pinned q hq

end Install

/-! ### Changing a loaded page

Pinning again, writing to a frame, unpinning and flushing all replace the frame of one
loaded page and leave the page table alone. -/

/-- The pool with the frame of one loaded page replaced. -/
def retouched (s : BufferPool) (f : FrameId) (fr : Frame) (r : LruReplacer) (d : DiskManager) :
    BufferPool :=
  { s with frames := update s.frames f fr, replacer := r, disk := d }

section Retouch

variable {fr : Frame} (hf : s.page_table pid = some f)

include hf

section

variable (h : s.Framed none)

include h

theorem retouched_frame {q : PageId} {g : FrameId} (hq : q ≠ pid) (hg : s.page_table q = some g) :
    (s.retouched f fr r d).frames g = s.frames g := by
  have hne : g ≠ f := by
    rintro rfl
    exact hq (h.table_inj hg hf)
  exact update_of_ne hne _ _

theorem retouched_look {α : Type} (g : Frame → α) {z z' : PageId → α}
    (hz : ∀ q, s.page_table q = none → z' q = z q) :
    (s.retouched f fr r d).look g z' = update (s.look g z) pid (g fr) := by
  funext q
  by_cases hq : q = pid
  · subst hq
    rw [look_of_table (s := s.retouched f fr r d) hf, update_self,
      show (s.retouched f fr r d).frames f = fr from update_self _ _ _]
  · rw [update_of_ne hq]
    cases hg : s.page_table q with
    | some g' =>
      rw [look_of_table (s := s.retouched f fr r d) hg, look_of_table hg, retouched_frame hf h hq hg]
    | none =>
      rw [look_of_not_table (s := s.retouched f fr r d) hg, look_of_not_table hg, hz q hg]

section

variable (hd : ∀ q, s.page_table q = none → d.pages q = s.disk.pages q)
include hd

theorem retouched_view : (s.retouched f fr r d).view = update s.view pid fr.page :=
  retouched_look hf h Frame.page hd

/-- The page in the frame is the one from before. -/
theorem retouched_same_view
    (hp : fr.page = (s.frames f).page) (q : PageId) : (s.retouched f fr r d).view q = s.view q := by
  rw [retouched_view hf h hd, hp, ← view_of_table hf, update_eq_self]

end

theorem retouched_pins : (s.retouched f fr r d).pins = update s.pins pid fr.pin_count :=
  retouched_look hf h Frame.pin_count fun _ _ => rfl

theorem retouched_same_pins (hp : fr.pin_count = (s.frames f).pin_count) :
    (s.retouched f fr r d).pins = s.pins := by
  rw [retouched_pins hf h, hp, ← pins_of_table hf, update_eq_self]

variable (fr) in
theorem retouched_framed (hid : fr.page_id = some pid) (hr : r.Wf)
    (hev : ∀ g, g ∈ r.evictable ↔ if g = f then fr.pin_count = 0 else g ∈ s.replacer.evictable)
    (hts : ∀ g, (s.replacer.frame_timestamp g).isSome → (r.frame_timestamp g).isSome) :
    (s.retouched f fr r d).Framed none := by
  refine h.replace rfl rfl rfl (t := some f) (by rw [← hf, update_eq_self]; rfl)
    (h.table pid f hf).1 (.inl ⟨hf, rfl⟩) (.inl ⟨rfl, hid, rfl⟩) hr ?_ ?_
  · intro g
    rw [hid]
    exact (hev g).trans (by simp)
  · intro g hs
    by_cases hgf : g = f
    · obtain ⟨hlt, hid'⟩ := h.table pid f hf
      rw [hgf]
      exact hts f (h.accessed f hlt (by rw [hid']; rfl))
    · rw [if_neg hgf] at hs
      exact hts g hs

/-- The replacer says the right thing about a frame whose pins are as before. -/
theorem evictable_same (hp : fr.pin_count = (s.frames f).pin_count) (g : FrameId) :
    g ∈ s.replacer.evictable ↔ if g = f then fr.pin_count = 0 else g ∈ s.replacer.evictable := by
  by_cases hg : g = f
  · rw [if_pos hg, hg, h.evictable_iff hf, hp]
  · rw [if_neg hg]

end

variable (fr) in
theorem retouched_coherent {hot' : Set PageId} (h : s.Coherent hot none) (hid : fr.page_id = some pid)
    (hdf : d.Faithful) (hlen : d.len = s.disk.len)
    (hdo : ∀ q, q ≠ pid → d.pages q = s.disk.pages q) (hr : r.Wf)
    (hev : ∀ g, g ∈ r.evictable ↔ if g = f then fr.pin_count = 0 else g ∈ s.replacer.evictable)
    (hts : ∀ g, (s.replacer.frame_timestamp g).isSome → (r.frame_timestamp g).isSome)
    (hclean : fr.is_dirty = false → pid ∉ hot' → fr.page = d.pages pid)
    (hhot : ∀ q, q ≠ pid → (q ∈ hot' ↔ q ∈ hot)) (hpin : pid ∈ hot' → 0 < fr.pin_count) :
    (s.retouched f fr r d).Coherent hot' none := by
  have hframed := retouched_framed fr (d := d) hf h.framed hid hr hev hts
  refine { hframed with disk := hdf, header := h.header, stored := ?_, clean := ?_, hot_pinned := ?_ }
  · exact fun q g hg => hlen.symm ▸ h.stored q g hg
  · intro q g hg hdirty hq
    by_cases hqp : q = pid
    · subst hqp
      have hgf : g = f := some.inj (hg.symm.trans hf)
      rw [hgf, show (s.retouched f fr r d).frames f = fr from update_self _ _ _] at hdirty ⊢
      exact hclean hdirty hq
    · rw [retouched_frame hf h.framed hqp hg] at hdirty ⊢
      show _ = d.pages q
      rw [hdo q hqp]
      exact h.clean q g hg hdirty (fun hin => hq ((hhot q hqp).mpr hin))
  · intro q hq
    rw [retouched_pins hf h.framed, update_apply]
    split_ifs with heq
    · exact hpin (heq ▸ hq)
    · exact h.hot_pinned q ((hhot q heq).mp hq)

end Retouch

/-! ### Room for pins -/

/-- The pinned pages leave at least `k` of `n` frames unpinned. -/
def Room (pins : PageId → ℕ) (n k : ℕ) : Prop :=
  ∃ P : Finset PageId, (∀ q, 0 < pins q → q ∈ P) ∧ P.card + k ≤ n

theorem Room.mono {pins : PageId → ℕ} {n k k' : ℕ} (h : Room pins n k) (hk : k' ≤ k) :
    Room pins n k' := by
  obtain ⟨P, hP, hc⟩ := h
  exact ⟨P, hP, by omega⟩

theorem Room.update {pins : PageId → ℕ} {n k : ℕ} (h : Room pins n (k + 1)) (q : PageId) (m : ℕ) :
    Room (Function.update pins q m) n k := by
  obtain ⟨P, hP, hc⟩ := h
  refine ⟨insert q P, ?_, ?_⟩
  · intro q' hq'
    rw [Finset.mem_insert]
    by_cases heq : q' = q
    · exact .inl heq
    · rw [update_of_ne heq] at hq'
      exact .inr (hP q' hq')
  · have := Finset.card_insert_le q P
    omega

/-! ### The operations -/

theorem Coherent.calls (h : s.Coherent hot taken) (n : ℕ) :
    ({ s with disk := { s.disk with calls := n } } : BufferPool).Coherent hot taken :=
  { h with disk := h.disk.calls n }

/-- Growing the file by one page disturbs no loaded page. -/
theorem Coherent.grown (h : s.Coherent hot taken)
    (hroom : (s.disk.len + 1) * PAGE_SIZE ≤ MAX_FILE_SIZE) :
    ({ s with disk := s.disk.grown } : BufferPool).Coherent hot taken := by
  refine { h with disk := DiskManager.grown_faithful h.disk hroom, stored := ?_, clean := ?_ }
  · exact fun q g hg => Nat.lt_succ_of_lt (h.stored q g hg)
  · intro q g hg hdirty hq
    have hlt := h.stored q g hg
    have h0 : q ≠ 0 := by
      rintro rfl
      have hhdr := h.header
      simp [show s.page_table 0 = some g from hg] at hhdr
    rw [DiskManager.grown]
    simp only []
    rw [update_of_ne h0, update_of_ne (ne_of_lt hlt)]
    exact h.clean q g hg hdirty hq

variable {dirty : Bool}

theorem unpin_page_table (s : BufferPool) {pid : PageId} :
    wp (unpin_page pid dirty) (fun _ s' => s'.page_table = s.page_table)
      (fun _ s' => s'.page_table = s.page_table) s := by
  unfold unpin_page
  rw [wp_bind, wp_get]
  cases hf : s.page_table pid with
  | none => rfl
  | some f =>
    simp only []
    split <;> rfl

/-- The failing ways of `unpin_page` change nothing. -/
theorem unpin_page_unpinned (h : s.pins pid = 0) :
    wp (unpin_page pid dirty) (fun _ _ => False) (fun _ s' => s' = s) s := by
  unfold unpin_page
  rw [wp_bind, wp_get]
  cases hf : s.page_table pid with
  | none => rfl
  | some f =>
    rw [pins_of_table hf] at h
    simp only []
    rw [if_pos h]
    rfl

variable (h : s.Coherent hot none)
include h

/-- **`fetch_page`.** The page is loaded and pinned once more; nothing changes above. -/
theorem fetch_page_spec (h0 : pid ≠ 0) (hlen : pid < s.disk.len) :
    wp (fetch_page pid) (fun f s' => s'.Coherent hot none ∧ s'.page_table pid = some f
        ∧ Moves s s' s.disk.len s.view (update s.pins pid (s.pins pid + 1)))
      (fun e s' => e = .err .BufferFull ∧ s' = s ∧ ¬ s.Avail) s := by
  unfold fetch_page
  rw [wp_bind, wp_get]
  cases hf : s.page_table pid with
  | some f =>
    -- already loaded: one more pin, and the frame is not evictable
    have hpin := pins_of_table hf
    refine ⟨retouched_coherent { s.frames f with pin_count := (s.frames f).pin_count + 1 }
      hf h (h.table pid f hf).2 h.disk rfl (fun _ _ => rfl)
      (record_access_wf (set_evictable_wf h.replacer f false) f)
      (pinned_evictable s.replacer (Nat.succ_ne_zero _))
      (fun g hg => (record_access_timestamp _ f g).mpr (.inr hg))
      (h.clean pid f hf) (fun _ _ => Iff.rfl) (fun _ => Nat.succ_pos _), hf, rfl, rfl, ?_, ?_,
      fun _ _ hq _ => hq, fun _ _ _ => .inl rfl⟩
    · exact fun q _ => retouched_same_view hf h.framed (fun _ _ => rfl) (by rfl) q
    · rw [hpin]
      exact retouched_pins hf h.framed
  | none =>
    refine wp_seq (find_free_frame_spec h) (fun _ _ he => he) ?_
    rintro f s1 ⟨h1, m1, hnone⟩
    rw [wp_bind, on_disk, wp_zoom]
    refine wp_mono (DiskManager.read_page_spec h1.disk (by rw [m1.len]; exact hlen)) ?_
      (fun _ _ hf => False.elim hf)
    rintro page d ⟨rfl, rfl⟩
    have hn1 := hnone pid hf
    have h2 := h1.calls (s1.disk.calls + 1)
    refine ⟨install_coherent _ _ h2 hn1 h0 (by rw [← m1.len] at hlen; exact hlen) (.inr rfl),
      update_self _ _ _, m1.size, m1.len, ?_, ?_, ?_, m1.disk⟩
    · intro q hq
      rw [install_view _ _ h2.framed hn1, ← m1.view q hq, update_apply]
      split_ifs with heq
      · rw [heq]
        exact (view_of_not_table hn1).symm
      · rfl
    · rw [install_pins _ _ h2.framed hn1, pins_of_not_table hf]
      exact congrArg (fun p => update p pid 1) m1.pins
    · intro q g hg hpos
      exact (install_frame _ _ h2.framed hn1 (m1.frame q g hg hpos)).1

/-- **`new_page`.** The next page id, initialised, pinned once. It fails when every frame is
pinned or the file cannot grow. -/
theorem new_page_spec : wp new_page
      (fun r s' => r.1 = s.disk.len ∧ s'.Coherent hot none ∧ s'.page_table s.disk.len = some r.2
        ∧ Moves s s' (s.disk.len + 1) (update s.view s.disk.len (Page.new s.disk.len))
          (update s.pins s.disk.len 1) ∧ s'.disk.pages s.disk.len = Page.blank)
      (fun e s' => (e = .err .BufferFull ∧ s' = s ∧ ¬ s.Avail)
        ∨ (e = .err .Io ∧ s.disk.Full ∧ s'.disk.Full)) s := by
  refine wp_seq (find_free_frame_spec h) (fun _ _ he => .inl he) ?_
  rintro f s1 ⟨h1, m1, hnone⟩
  rw [wp_bind, on_disk, wp_zoom]
  refine wp_mono (DiskManager.allocate_page_spec h1.disk) ?_ ?_
  · rintro pid d ⟨rfl, rfl, hroom⟩
    rw [wp_bind, wp_modify, wp_pure, m1.len]
    -- the new id is beyond every loaded page
    have hfresh : s.page_table s.disk.len = none := by
      cases hg : s.page_table s.disk.len with
      | none => rfl
      | some g => exact absurd (h.stored _ g hg) (lt_irrefl _)
    have hn1 := hnone _ hfresh
    have h2 := h1.grown hroom
    have hgrown : ∀ q, q ≠ 0 → q ≠ s.disk.len → s1.disk.grown.pages q = s1.disk.pages q := by
      intro q hq hne
      rw [DiskManager.grown]
      simp only []
      rw [update_of_ne hq, update_of_ne (by rw [m1.len]; exact hne)]
    refine ⟨rfl, install_coherent _ _ h2 hn1 (ne_of_gt h.disk.pos) ?_ (.inl rfl),
      update_self _ _ _, ⟨m1.size, ?_, ?_, ?_, ?_, ?_⟩, ?_⟩
    · show s.disk.len < s1.disk.len + 1
      rw [m1.len]
      exact Nat.lt_succ_self _
    · show s1.disk.len + 1 = _
      rw [m1.len]
    · intro q hq
      rw [install_view _ _ h2.framed hn1, update_apply, update_apply]
      split_ifs with hne
      · rfl
      · rw [← m1.view q hq]
        -- the old pages are where they were
        unfold view
        show (match s1.page_table q with
          | some g => (s1.frames g).page
          | none => s1.disk.grown.pages q) = _
        cases s1.page_table q with
        | some g => rfl
        | none => exact hgrown q hq hne
    · rw [install_pins _ _ h2.framed hn1]
      exact congrArg (fun p => update p s.disk.len 1) m1.pins
    · intro q g hg hpos
      exact (install_frame _ _ h2.framed hn1 (m1.frame q g hg hpos)).1
    · intro q hq hlt
      show s1.disk.grown.pages q = _ ∨ s1.disk.grown.pages q = _
      rw [hgrown q hq (ne_of_lt hlt)]
      exact m1.disk q hq hlt
    · show s1.disk.grown.pages s.disk.len = _
      rw [DiskManager.grown, m1.len]
      simp only []
      rw [update_of_ne (ne_of_gt h.disk.pos), update_self]
  · rintro e d ⟨rfl, hfull, hlen⟩
    refine .inr ⟨rfl, ?_, ?_⟩
    · unfold DiskManager.Full
      rwa [← m1.len]
    · show MAX_FILE_SIZE < (d.len + 1) * PAGE_SIZE
      rwa [hlen]

section

variable (hf : s.page_table pid = some f)
include hf

theorem page_spec {α : Type} {op : Page → Except Fault α} {a : α} (hop : op (s.view pid) = .ok a) :
    wp (page f op) (fun b s' => b = a ∧ s' = s) never s := by
  unfold page
  rw [wp_bind, wp_get, if_pos (h.table pid f hf).1, ← view_of_table hf, hop]
  exact ⟨rfl, rfl⟩

theorem page_mut_spec {α : Type}
    (hpos : 0 < s.pins pid) {op : Page → Except Fault (α × Page)} {a : α} {p : Page}
    (hop : op (s.view pid) = .ok (a, p)) : wp (page_mut f op)
      (fun b s' => b = a ∧ s'.Coherent (insert pid hot) none
        ∧ (s'.page_table = s.page_table ∧ s'.disk = s.disk)
        ∧ Moves s s' s.disk.len (update s.view pid p) s.pins) never s := by
  unfold page_mut
  rw [wp_bind, wp_get, if_pos (h.table pid f hf).1, ← view_of_table hf, hop]
  have hpin := pins_of_table hf
  exact ⟨rfl, retouched_coherent { s.frames f with page := p } hf h (h.table pid f hf).2 h.disk
    rfl (fun _ _ => rfl) h.replacer (evictable_same hf h.framed rfl) (fun _ hg => hg)
    (fun _ hq => absurd (Set.mem_insert _ _) hq) (fun q hq => by simp [hq])
    (fun _ => by rw [← hpin]; exact hpos), ⟨rfl, rfl⟩, rfl, rfl,
    fun q _ => congrFun (retouched_view hf h.framed fun _ _ => rfl) q,
    retouched_same_pins hf h.framed rfl, fun _ _ hq _ => hq, fun _ _ _ => .inl rfl⟩

/-- **`unpin_page`.** The page may stay hot while it is still pinned; otherwise a changed page
must be unpinned dirty. -/
theorem unpin_page_hot {hot' : Set PageId} (hpos : 0 < s.pins pid)
    (hne : ∀ q, q ≠ pid → (q ∈ hot' ↔ q ∈ hot)) (hd : pid ∉ hot' → dirty = true ∨ pid ∉ hot)
    (hlast : pid ∈ hot' → 1 < s.pins pid) : wp (unpin_page pid dirty)
      (fun _ s' => s'.Coherent hot' none ∧ (s'.page_table = s.page_table ∧ s'.disk = s.disk)
        ∧ Moves s s' s.disk.len s.view (update s.pins pid (s.pins pid - 1))) never s := by
  unfold unpin_page
  have hpin := pins_of_table hf
  rw [wp_bind, wp_get]
  simp only [hf]
  rw [if_neg (by omega)]
  have hev : f ∉ s.replacer.evictable := fun hh => by
    have := (h.framed.evictable_iff hf).mp hh
    omega
  refine ⟨retouched_coherent _ hf h (h.table pid f hf).2 h.disk rfl (fun _ _ => rfl)
    (unpinned_wf _ h.replacer) (unpinned_evictable _ hev)
    (fun g hg => by rwa [unpinned_timestamp _ s.replacer g]) ?_ hne ?_, ⟨rfl, rfl⟩, rfl, rfl, ?_, ?_,
    fun _ _ hq _ => hq, fun _ _ _ => .inl rfl⟩
  · intro hdirty hcold
    have hboth : (s.frames f).is_dirty = false ∧ dirty = false := by
      simpa using hdirty
    rcases hd hcold with hd | hd
    · rw [hd] at hboth
      cases hboth.2
    · exact h.clean pid f hf hboth.1 hd
  · intro hin
    have := hlast hin
    show 0 < (s.frames f).pin_count - 1
    omega
  · exact fun q _ => retouched_same_view hf h.framed (fun _ _ => rfl) (by rfl) q
  · rw [hpin]
    exact retouched_pins hf h.framed

end

/-- **`flush_page`.** The disk catches up with one page; nothing changes above. -/
theorem flush_page_spec : wp (flush_page pid)
      (fun _ s' => s'.Coherent hot none ∧ Moves s s' s.disk.len s.view s.pins
        ∧ s'.page_table = s.page_table ∧ ∀ g, (s'.frames g).is_dirty = true ↔
            (s.frames g).is_dirty = true ∧ s.page_table pid ≠ some g)
      (fun e s' => e = .err (.PageNotFound pid) ∧ s' = s ∧ s.page_table pid = none) s := by
  unfold flush_page
  rw [wp_bind, wp_get]
  cases hf : s.page_table pid with
  | none => exact ⟨rfl, rfl, rfl⟩
  | some f =>
    obtain ⟨hlt, hid⟩ := h.table pid f hf
    have hlen := h.stored pid f hf
    refine wp_mono (write_back_spec (h.disk.io _) (h.disk.fits hlen)) ?_ (fun _ _ hf => False.elim hf)
    rintro - s1 rfl
    obtain ⟨hfd, hdl, hdp⟩ := saved_faithful (f := f) h.disk hlen
    generalize s.saved f pid = d at *
    have hother : ∀ q, q ≠ pid → d.pages q = s.disk.pages q := by
      intro q hq
      rw [hdp]
      split
      · exact update_of_ne hq _ _
      · rfl
    refine ⟨retouched_coherent { s.frames f with is_dirty := false } hf h hid hfd hdl hother
      h.replacer (evictable_same hf h.framed rfl) (fun _ hg => hg) ?_ (fun _ _ => Iff.rfl) ?_,
      ⟨rfl, hdl, ?_, retouched_same_pins hf h.framed rfl, fun _ _ hq _ => hq, ?_⟩, rfl, ?_⟩
    · -- a frame that is neither dirty nor hot already equals its page on disk
      intro _ hcold
      rw [hdp]
      split_ifs with hdirty
      · rw [update_self]
      · exact h.clean pid f hf (Bool.eq_false_of_not_eq_true hdirty) hcold
    · intro hin
      have := h.hot_pinned pid hin
      rwa [pins_of_table hf] at this
    · refine fun q _ => retouched_same_view hf h.framed (fun q' hq' => ?_) (by rfl) q
      refine hother q' ?_
      rintro rfl
      rw [hf] at hq'
      cases hq'
    · intro q _ _
      by_cases hq : q = pid
      · subst hq
        rw [hdp]
        split
        · exact .inr (by rw [update_self, view_of_table hf])
        · exact .inl rfl
      · exact .inl (hother q hq)
    · intro g
      show (update s.frames f { s.frames f with is_dirty := false } g).is_dirty = true ↔ _
      by_cases hg : g = f
      · subst hg
        simp
      · rw [update_of_ne hg]
        simp [Ne.symm hg]

theorem flush_pages_spec (l : List PageId) (hl : ∀ q ∈ l, s.page_table q ≠ none) :
    wp (l.forM flush_page)
      (fun _ s' => s'.Coherent hot none ∧ Moves s s' s.disk.len s.view s.pins
        ∧ s'.page_table = s.page_table ∧ ∀ g, (s'.frames g).is_dirty = true →
            (s.frames g).is_dirty = true ∧ ∀ q ∈ l, s.page_table q ≠ some g) never s := by
  induction l generalizing s with
  | nil =>
    exact ⟨h, ⟨rfl, rfl, fun _ _ => rfl, rfl, fun _ _ hq _ => hq, fun _ _ _ => .inl rfl⟩, rfl,
      fun g hg => ⟨hg, by simp⟩⟩
  | cons q l ih =>
    refine wp_seq (flush_page_spec h) (fun _ _ he => absurd he.2.2 (hl q mem_cons_self)) ?_
    rintro - s1 ⟨h1, m1, ht1, hd1⟩
    refine wp_imp (ih h1 (fun q' hq' => ?_)) ?_
    · rw [ht1]
      exact hl q' (mem_cons_of_mem _ hq')
    · rintro - s2 ⟨h2, m2, ht2, hd2⟩
      refine ⟨h2, ⟨m2.size.trans m1.size, m2.len.trans m1.len, ?_, m2.pins.trans m1.pins, ?_, ?_⟩,
        ht2.trans ht1, ?_⟩
      · intro q' hq'
        rw [m2.view q' hq', m1.view q' hq']
      · intro q' f hf hpos
        exact (congrFun (ht2.trans ht1) q').trans hf
      · intro q' hq' hlt
        rcases m2.disk q' hq' (by rw [m1.len]; exact hlt) with hd | hd
        · rw [hd]
          exact m1.disk q' hq' hlt
        · exact .inr (hd.trans (m1.view q' hq'))
      · intro g hg
        obtain ⟨hg1, hrest⟩ := hd2 g hg
        obtain ⟨hg0, hq⟩ := (hd1 g).mp hg1
        refine ⟨hg0, fun q' hq' => ?_⟩
        rcases mem_cons.mp hq' with rfl | hq'
        · exact hq
        · rw [← ht1]
          exact hrest q' hq'

/-- **`flush_all`.** Nothing changes above, and no loaded page is dirty afterwards. -/
theorem flush_all_spec : wp flush_all
      (fun _ s' => s'.Coherent hot none ∧ Moves s s' s.disk.len s.view s.pins
        ∧ s'.page_table = s.page_table
        ∧ ∀ q f, s'.page_table q = some f → (s'.frames f).is_dirty = false) never s := by
  have hlist {q : PageId} {f : FrameId} (hlt : f < s.pool_size)
      (hid : (s.frames f).page_id = some q) (hdirty : (s.frames f).is_dirty = true) :
      q ∈ s.dirty_pages := by
    refine mem_filterMap.mpr ⟨f, mem_range.mpr hlt, ?_⟩
    rw [if_pos hdirty, hid]
  refine wp_imp (flush_pages_spec h s.dirty_pages ?_) ?_
  · intro q hq
    obtain ⟨f, hf, hsome⟩ := mem_filterMap.mp hq
    split at hsome
    · rw [h.held f q (mem_range.mp hf) hsome]
      simp
    · simp at hsome
  · rintro - s1 ⟨h1, m1, ht1, hd1⟩
    refine ⟨h1, m1, ht1, fun q f hf => ?_⟩
    by_contra hdirty
    rw [Bool.not_eq_false] at hdirty
    rw [ht1] at hf
    obtain ⟨hlt, hid⟩ := h.table q f hf
    obtain ⟨hd0, hno⟩ := hd1 f hdirty
    exact hno q (hlist hlt hid hd0) hf

/-- More pinned pages may be treated as changed. -/
theorem Coherent.mono_hot {hot' : Set PageId} (hsub : hot ⊆ hot') (hp : ∀ q ∈ hot', 0 < s.pins q) :
    s.Coherent hot' none :=
  { h with
    clean := fun q g hg hd hq => h.clean q g hg hd (fun hin => hq (hsub hin))
    hot_pinned := hp }

/-- With fewer pinned pages than frames some frame can be had: otherwise the frames would
inject into the pinned pages. -/
theorem Coherent.avail (hroom : Room s.pins s.pool_size 1) : s.Avail := by
  by_contra hno
  obtain ⟨P, hP, hc⟩ := hroom
  have hfull : ∀ g, g < s.pool_size →
      ∃ q, (s.frames g).page_id = some q ∧ 0 < (s.frames g).pin_count := by
    intro g hg
    cases hid : (s.frames g).page_id with
    | none => exact absurd ⟨g, hg, .inl hid⟩ hno
    | some q => exact ⟨q, rfl, Nat.pos_of_ne_zero (fun hz => hno ⟨g, hg, .inr hz⟩)⟩
  have hle : (Finset.range s.pool_size).card ≤ P.card := by
    refine Finset.card_le_card_of_injOn (fun g => ((s.frames g).page_id).getD 0) ?_ ?_
    · intro g hg
      obtain ⟨q, hq, hpos⟩ := hfull g (Finset.mem_range.mp hg)
      have htab := h.held g q (Finset.mem_range.mp hg) hq
      show ((s.frames g).page_id).getD 0 ∈ P
      rw [hq]
      exact hP q (by rw [pins_of_table htab]; exact hpos)
    · intro g hg g' hg' heq
      obtain ⟨q, hq, -⟩ := hfull g (Finset.mem_range.mp hg)
      obtain ⟨q', hq', -⟩ := hfull g' (Finset.mem_range.mp hg')
      have hqq : q = q' := by
        simpa [hq, hq'] using heq
      have h1 := h.held g q (Finset.mem_range.mp hg) hq
      have h2 := h.held g' q' (Finset.mem_range.mp hg') hq'
      rw [hqq, h2] at h1
      exact (some.inj h1).symm
  rw [Finset.card_range] at hle
  omega

end Steps

end BufferPool

end Oigrap.Storage

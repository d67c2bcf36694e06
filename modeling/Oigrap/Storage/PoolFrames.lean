/-
No frame of the pool is lost.

`find_free_frame` takes a frame out of the free list, or a victim out of the replacer, and the disk
operation after it may fail; nothing puts the frame back then. A frame is lost that way and in one
more: `new_page` is given the id of a page that is loaded already. Where neither happens the frames
stay accounted for (`BufferPool.Framed`), whatever else fails: a failed flush, an unpin of a page
that is not pinned and a refused deletion change nothing that matters here.
-/
import Oigrap.Lib.Runs
import Oigrap.Storage.PoolSpec

namespace Oigrap.Storage

open Wp Function List LruReplacer

namespace BufferPool

inductive FrameCall where
  | fetch_page (page_id : PageId)
  | new_page
  | unpin_page (page_id : PageId) (is_dirty : Bool)
  | flush_page (page_id : PageId)
  | flush_all
  | delete_page (page_id : PageId)
  deriving DecidableEq, Repr

def FrameCall.run : FrameCall → PoolM Unit
  | .fetch_page page_id => do let _ ← BufferPool.fetch_page page_id
  | .new_page => do let _ ← BufferPool.new_page
  | .unpin_page page_id is_dirty => BufferPool.unpin_page page_id is_dirty
  | .flush_page page_id => BufferPool.flush_page page_id
  | .flush_all => BufferPool.flush_all
  | .delete_page page_id => BufferPool.delete_page page_id

/-- The pool after a call, whether it returned or failed. -/
def call (s : BufferPool) (c : FrameCall) : BufferPool := after c.run s

/-- The next `k` system calls succeed. -/
def Answers (s : BufferPool) (k : ℕ) : Prop := ∀ i < k, s.disk.io (s.disk.calls + i) = true

/-- The disk does what `fetch_page` and `new_page` ask of it, and `new_page` is not given the id of a
loaded page. The system calls are counted as if a dirty page were evicted each time. -/
def Served (s : BufferPool) : FrameCall → Prop
  | .fetch_page page_id => s.page_table page_id ≠ none ∨
      page_id < s.disk.len ∧ page_id * PAGE_SIZE + PAGE_SIZE ≤ MAX_FILE_SIZE ∧ s.Answers 2
  | .new_page => s.page_table s.disk.next_page_id = none ∧
      s.disk.next_page_id * PAGE_SIZE + PAGE_SIZE ≤ MAX_FILE_SIZE ∧ s.Answers 3
  | _ => True

instance decidable_served (s : BufferPool) (c : FrameCall) : Decidable (s.Served c) := by
  unfold Served Answers
  split <;> infer_instance

/-- Every frame is free or holds a page, every unpinned page can be evicted, and a page can be
fetched while some frame is free or unpinned. -/
structure Accounted (s : BufferPool) : Prop where
  frames : ∀ f < s.pool_size, (s.free_list.count f = 1 ∧ ∀ pid, s.page_table pid ≠ some f) ∨
      f ∉ s.free_list ∧ ∃ pid, (s.frames f).page_id = some pid ∧
        ∀ q, s.page_table q = some f ↔ q = pid
  evictable : ∀ pid f, s.page_table pid = some f → (s.frames f).pin_count = 0 →
    f ∈ s.replacer.evictable
  fetched : s.Avail → ∀ pid, s.Served (.fetch_page pid) → ∃ f s', fetch_page pid s = .ok f s'

/-- The frames are in order, and every loaded page has a place in the file. -/
structure Kept (s : BufferPool) (taken : Option FrameId) : Prop where
  framed : s.Framed taken
  fits : ∀ pid f, s.page_table pid = some f → pid * PAGE_SIZE + PAGE_SIZE ≤ MAX_FILE_SIZE

/-! ## Calls that leave the frames alone -/

/-- The pools differ in the contents of pages only. -/
structure SameFrames (s s' : BufferPool) : Prop where
  size : s'.pool_size = s.pool_size
  table : s'.page_table = s.page_table
  free : s'.free_list = s.free_list
  replacer : s'.replacer = s.replacer
  page_id : ∀ f, (s'.frames f).page_id = (s.frames f).page_id
  pin_count : ∀ f, (s'.frames f).pin_count = (s.frames f).pin_count

variable {s s' : BufferPool} {pid : PageId} {f : FrameId}

theorem SameFrames.refl : SameFrames s s := ⟨rfl, rfl, rfl, rfl, fun _ => rfl, fun _ => rfl⟩

theorem SameFrames.trans {s'' : BufferPool} (h : SameFrames s s') (h' : SameFrames s' s'') :
    SameFrames s s'' :=
  ⟨h'.size.trans h.size, h'.table.trans h.table, h'.free.trans h.free, h'.replacer.trans h.replacer,
    fun f => (h'.page_id f).trans (h.page_id f), fun f => (h'.pin_count f).trans (h.pin_count f)⟩

theorem SameFrames.kept (h : SameFrames s s') (hk : s.Kept none) : s'.Kept none := by
  obtain ⟨hsize, htable, hfree, hrep, hid, hpin⟩ := h
  refine ⟨?_, by rw [htable]; exact hk.fits⟩
  constructor <;> simp only [hsize, htable, hfree, hrep, hid, hpin]
  exacts [hk.framed.table, hk.framed.held, hk.framed.free, hk.framed.nodup, hk.framed.unused,
    hk.framed.is_taken, hk.framed.replacer, hk.framed.evictable, hk.framed.accessed]

theorem write_back_same (s : BufferPool) :
    wp (write_back f pid) (fun _ s' => SameFrames s s') (fun _ s' => SameFrames s s') s := by
  unfold write_back
  rw [wp_bind, wp_get]
  split
  · rw [wp_bind, on_disk, wp_zoom]
    refine wp_mono (wp_true _) (fun _ d _ => ?_) fun _ d _ =>
      ⟨rfl, rfl, rfl, rfl, fun _ => rfl, fun _ => rfl⟩
    rw [wp_modify]
    refine ⟨rfl, rfl, rfl, rfl, fun g => ?_, fun g => ?_⟩
    all_goals
      simp only [set_frame, update_apply]
      split
      · next hg => rw [hg]
      · rfl
  · exact .refl

theorem flush_page_same (s : BufferPool) :
    wp (flush_page pid) (fun _ s' => SameFrames s s') (fun _ s' => SameFrames s s') s := by
  unfold flush_page
  rw [wp_bind, wp_get]
  split
  · exact .refl
  · exact write_back_same s

theorem flush_pages_same (l : List PageId) (s : BufferPool) :
    wp (l.forM flush_page) (fun _ s' => SameFrames s s') (fun _ s' => SameFrames s s') s := by
  induction l generalizing s with
  | nil => exact .refl
  | cons q l ih =>
    refine wp_seq (flush_page_same s) (fun _ _ => id) fun _ s1 h1 => ?_
    exact wp_mono (ih s1) (fun _ _ => h1.trans) fun _ _ => h1.trans

/-! ## Calls that move frames -/

theorem Kept.on_disk {taken : Option FrameId} (h : s.Kept taken) (d : DiskManager) :
    ({ s with disk := d } : BufferPool).Kept taken :=
  ⟨{ h.framed with }, h.fits⟩

/-- A frame that was handed out goes back to the free list. -/
theorem give_free_framed (h : s.Framed (some f)) :
    ({ s with free_list := s.free_list ++ [f] } : BufferPool).Framed none where
  table := h.table
  held := h.held
  free := by
    intro g hg
    rcases mem_append.mp hg with hg | hg
    · exact ⟨(h.free g hg).1, (h.free g hg).2.1, nofun⟩
    · rw [mem_singleton.mp hg]
      exact ⟨(h.is_taken f rfl).1, (h.is_taken f rfl).2, nofun⟩
  nodup := nodup_append.mpr ⟨h.nodup, nodup_singleton f, fun g hg f' hf' hgf =>
    (h.free g hg).2.2 (by rw [hgf, mem_singleton.mp hf'])⟩
  unused := by
    intro g hg hn
    refine .inl (mem_append.mpr ((h.unused g hg hn).imp id fun ht => ?_))
    rw [Option.some.inj ht]
    exact mem_singleton_self g
  is_taken := nofun
  replacer := h.replacer
  evictable := h.evictable
  accessed := h.accessed

theorem saved_disk (s : BufferPool) (f : FrameId) (pid : PageId) :
    (s.saved f pid).io = s.disk.io ∧ (s.saved f pid).next_page_id = s.disk.next_page_id
      ∧ s.disk.len ≤ (s.saved f pid).len ∧ s.disk.calls ≤ (s.saved f pid).calls
      ∧ (s.saved f pid).calls ≤ s.disk.calls + 1 := by
  unfold saved
  split
  · exact ⟨rfl, rfl, le_max_left _ _, Nat.le_succ _, le_rfl⟩
  · exact ⟨rfl, rfl, le_rfl, le_rfl, Nat.le_succ _⟩

theorem Answers.later {k c : ℕ} (h : s.Answers (k + 1)) (hio : s'.disk.io = s.disk.io)
    (hc : s'.disk.calls = s.disk.calls + c) (hle : c ≤ 1) : s'.Answers k := by
  intro i hi
  rw [hio, hc, add_assoc]
  exact h (c + i) (by omega)

theorem install_kept (page : Page) (dirty : Bool) (h : s.Kept (some f))
    (hpid : s.page_table pid = none) (hfits : pid * PAGE_SIZE + PAGE_SIZE ≤ MAX_FILE_SIZE) :
    (s.install f pid page dirty).Kept none := by
  refine ⟨install_framed page dirty h.framed hpid, fun q g hg => ?_⟩
  rcases install_table page dirty h.framed hpid hg with ⟨rfl, -⟩ | ⟨hg, -⟩
  · exact hfits
  · exact h.fits q g hg

section

variable (h : s.Kept none)
include h

theorem find_free_frame_kept {k : ℕ} (hio : s.Answers (k + 1)) :
    wp find_free_frame (fun f s' => s'.Kept (some f) ∧ s'.Answers k
        ∧ (∀ q, s.page_table q = none → s'.page_table q = none)
        ∧ s.disk.len ≤ s'.disk.len ∧ s'.disk.next_page_id = s.disk.next_page_id)
      (fun e s' => e = .err .BufferFull ∧ s' = s ∧ ¬ s.Avail) s := by
  refine wp_mono (find_free_frame_cases h.framed (hio 0 (Nat.succ_pos k)) h.fits) ?_ fun _ _ => id
  rintro f s' (⟨rest, hl, rfl⟩ | ⟨q, htab, hpin, rfl⟩)
  · exact ⟨⟨take_free_framed h.framed hl, h.fits⟩, hio.later rfl rfl (Nat.zero_le 1), fun _ => id,
      le_rfl, rfl⟩
  · obtain ⟨hdio, hnext, hlen, hge, hle⟩ := saved_disk s f q
    obtain ⟨c, hc⟩ := Nat.exists_eq_add_of_le hge
    exact ⟨⟨evicted_framed htab h.framed, fun pid g hg =>
        h.fits pid g (evicted_table htab h.framed hg).2.1⟩,
      hio.later hdio hc (by omega), fun _ => evicted_unloaded, hlen, hnext⟩

theorem fetch_page_kept (hc : s.Served (.fetch_page pid)) :
    wp (fetch_page pid) (fun _ s' => s'.Kept none)
      (fun e s' => e = .err .BufferFull ∧ s' = s ∧ ¬ s.Avail) s := by
  unfold fetch_page
  rw [wp_bind, wp_get]
  cases hf : s.page_table pid with
  | some f =>
    exact ⟨retouched_framed { s.frames f with pin_count := (s.frames f).pin_count + 1 } hf h.framed
      (h.framed.table pid f hf).2
      (record_access_wf (set_evictable_wf h.framed.replacer f false) f)
      (pinned_evictable s.replacer (Nat.succ_ne_zero _))
      (fun g hg => (record_access_timestamp _ f g).mpr (.inr hg)), h.fits⟩
  | none =>
    obtain ⟨hlen, hfits, hio⟩ := hc.resolve_left (absurd hf)
    refine wp_seq (find_free_frame_kept h hio) (fun _ _ => id) ?_
    rintro f s1 ⟨h1, hio1, hnone, hlen1, -⟩
    rw [wp_bind, on_disk, wp_zoom]
    refine wp_mono (DiskManager.read_page_spec' (hio1 0 Nat.one_pos) (hlen.trans_le hlen1) hfits) ?_
      fun _ _ => False.elim
    rintro page d ⟨-, -⟩
    exact install_kept page false (h1.on_disk d) (hnone pid hf) hfits

theorem new_page_kept (hc : s.Served .new_page) :
    wp new_page (fun _ s' => s'.Kept none) (fun _ s' => s' = s) s := by
  obtain ⟨hfresh, hfits, hio⟩ := hc
  refine wp_seq (find_free_frame_kept h hio) (fun _ _ he => he.2.1) ?_
  rintro f s1 ⟨h1, hio1, hnone, -, hnext⟩
  rw [wp_bind, on_disk, wp_zoom]
  refine wp_mono (DiskManager.allocate_page_room (hio1 0 Nat.two_pos) (hio1 1 Nat.one_lt_two)
    (hnext ▸ hfits)) ?_ fun _ _ => False.elim
  rintro pid d ⟨rfl, -⟩
  exact install_kept _ true (h1.on_disk d) (hnone _ (hnext ▸ hfresh)) (hnext ▸ hfits)

theorem unpin_page_kept (dirty : Bool) :
    wp (unpin_page pid dirty) (fun _ s' => s'.Kept none) (fun _ s' => s' = s) s := by
  unfold unpin_page
  rw [wp_bind, wp_get]
  cases hf : s.page_table pid with
  | none => rfl
  | some f =>
    by_cases hpin : (s.frames f).pin_count = 0
    · simp only [hpin, if_pos]
      rfl
    · simp only [hpin, if_false]
      have hev : f ∉ s.replacer.evictable := fun hh => hpin ((h.framed.evictable_iff hf).mp hh)
      exact ⟨retouched_framed _ hf h.framed (h.framed.table pid f hf).2
        (unpinned_wf _ h.framed.replacer) (unpinned_evictable _ hev)
        (fun g hg => by rwa [unpinned_timestamp _ s.replacer g]), h.fits⟩

theorem delete_page_kept :
    wp (delete_page pid) (fun _ s' => s'.Kept none) (fun _ s' => s' = s) s := by
  unfold delete_page
  rw [wp_bind, wp_get]
  cases hf : s.page_table pid with
  | none => exact h
  | some f =>
    by_cases hpin : (s.frames f).pin_count = 0
    · simp only [hpin, lt_irrefl, if_false]
      -- the frame is vacated as a victim is, and then free
      have hfinal : ({ s.set_frame f ⟨(s.frames f).page, none, 0, false⟩ with
          page_table := update s.page_table pid none
          replacer := s.replacer.remove f
          free_list := s.free_list ++ [f] } : BufferPool)
            = { s.evicted f pid (s.replacer.remove f) s.disk with
                free_list := s.free_list ++ [f] } := by
        simp [evicted, set_frame, hpin]
      refine hfinal ▸ ⟨give_free_framed (evicted_framed hf h.framed), fun q g hg => ?_⟩
      exact h.fits q g (evicted_table (r := s.replacer.remove f) (d := s.disk) hf h.framed hg).2.1
    · simp only [Nat.pos_of_ne_zero hpin, if_true]
      rfl

theorem run_kept {c : FrameCall} (hc : s.Served c) :
    wp c.run (fun _ s' => s'.Kept none) (fun _ s' => s'.Kept none) s := by
  cases c with
  | fetch_page page_id =>
    exact wp_seq (fetch_page_kept h hc) (fun _ _ he => he.2.1 ▸ h) fun _ _ hs => hs
  | new_page => exact wp_seq (new_page_kept h hc) (fun _ _ he => he ▸ h) fun _ _ hs => hs
  | unpin_page page_id is_dirty =>
    exact wp_mono (unpin_page_kept h is_dirty) (fun _ _ => id) fun _ _ he => he ▸ h
  | flush_page page_id =>
    exact wp_mono (flush_page_same s) (fun _ _ hs => hs.kept h) fun _ _ hs => hs.kept h
  | flush_all =>
    exact wp_mono (flush_pages_same s.dirty_pages s) (fun _ _ hs => hs.kept h)
      fun _ _ hs => hs.kept h
  | delete_page page_id =>
    exact wp_mono (delete_page_kept h) (fun _ _ => id) fun _ _ he => he ▸ h

theorem call_kept {c : FrameCall} (hc : s.Served c) : (s.call c).Kept none :=
  after_of_wp (P := fun s : BufferPool => s.Kept none) (run_kept h hc)

theorem Kept.accounted : s.Accounted where
  frames f hf := by
    cases hid : (s.frames f).page_id with
    | none =>
      have hin := (h.framed.unused f hf hid).resolve_right nofun
      refine .inl ⟨count_eq_one_of_mem h.framed.nodup hin, fun pid hpid => ?_⟩
      cases hid.symm.trans (h.framed.table pid f hpid).2
    | some pid =>
      refine .inr ⟨fun hin => ?_, pid, rfl, fun q => ⟨fun hq => ?_, fun hq => ?_⟩⟩
      · cases hid.symm.trans (h.framed.free f hin).2.1
      · exact Option.some.inj ((h.framed.table q f hq).2.symm.trans hid)
      · exact hq ▸ h.framed.held f pid hf hid
  evictable _ _ hf := (h.framed.evictable_iff hf).mpr
  fetched hav pid hc := by
    obtain ⟨f, s', hok, -⟩ := exists_ok_of_wp
      (wp_mono (fetch_page_kept h hc) (fun _ _ => id) fun _ _ he => he.2.2 hav)
    exact ⟨f, s', hok⟩

end

end BufferPool

end Oigrap.Storage

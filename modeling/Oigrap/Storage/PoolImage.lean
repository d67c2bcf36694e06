/-
The buffer pool as its clients see it.

A client of the pool knows how many pages the file has, what each of them contains and
how often it has pinned each; it knows nothing of frames, the page table, the replacer
or which contents have reached the disk. `Image` is that knowledge and `Stands` ties a
pool to it. Each operation of the pool then is an operation on images, and a program that
uses the pool is verified by composing these rules: frames appear only as the handles
that `fetch_page` gives out and that stay valid while the page is pinned.
-/
import Oigrap.Storage.PoolSpec

namespace Oigrap.Storage

open Wp Function List

/-- What clients know of a pool: the pages of the file, their contents, the pins, and the
number of frames. -/
@[ext]
structure Image where
  len : ℕ
  view : PageId → Page
  pins : PageId → ℕ
  size : ℕ

namespace Image

@[simps len view size] def pin (a : Image) (pid : PageId) : Image :=
  { a with pins := update a.pins pid (a.pins pid + 1) }

@[simps len view size] def unpin (a : Image) (pid : PageId) : Image :=
  { a with pins := update a.pins pid (a.pins pid - 1) }

@[simps len pins size] def put (a : Image) (pid : PageId) (p : Page) : Image :=
  { a with view := update a.view pid p }

/-- The next page of the file is initialised and pinned once. -/
@[simps len size] def alloc (a : Image) : Image :=
  { a with
    len := a.len + 1
    view := update a.view a.len (Page.new a.len)
    pins := update a.pins a.len 1 }

/-- The file has one more page, with content `p`. -/
@[simps len pins size] def grow (a : Image) (p : Page) : Image :=
  { a with len := a.len + 1, view := update a.view a.len p }

section Simp

variable (a : Image) (pid : PageId) (p q : Page)

theorem alloc_view : a.alloc.view = update a.view a.len (Page.new a.len) := rfl

theorem put_view : (a.put pid p).view = update a.view pid p := rfl

@[simp]
theorem unpin_pin : (a.pin pid).unpin pid = a := by
  ext <;> simp [pin, unpin]

@[simp]
theorem unpin_put_pin : ((a.pin pid).put pid p).unpin pid = a.put pid p := by
  ext <;> simp [pin, unpin, put]

@[simp]
theorem put_put : (a.put pid p).put pid q = a.put pid q := by
  simp [put]

@[simp]
theorem put_self : a.put pid (a.view pid) = a := by
  simp [put]

theorem grow_view : (a.grow p).view = update a.view a.len p := rfl

theorem unpin_alloc_pins (h0 : a.pins a.len = 0) : (a.alloc.unpin a.len).pins = a.pins := by
  show update (update a.pins a.len 1) a.len
      (update a.pins a.len 1 a.len - 1) = a.pins
  rw [update_idem, update_self, Nat.sub_self, ← h0, update_eq_self]

/-- A new page that was filled and unpinned. -/
theorem unpin_put_alloc (h0 : a.pins a.len = 0) : (a.alloc.put a.len p).unpin a.len = a.grow p := by
  exact Image.ext rfl (update_idem _ _ _) (a.unpin_alloc_pins h0) rfl

/-- The same, when another page was changed in between. -/
theorem unpin_put_put_alloc (h0 : a.pins a.len = 0) (hne : pid ≠ a.len) :
    ((a.alloc.put pid p).put a.len q).unpin a.len = (a.put pid p).grow q := by
  have hv : update (update (update a.view a.len (Page.new a.len)) pid p)
      a.len q = update (update a.view pid p) a.len q := by
    rw [update_comm hne.symm, update_idem]
  exact Image.ext rfl hv (a.unpin_alloc_pins h0) rfl

end Simp

end Image

namespace BufferPool

/-- The pool `s` looks like `a` to its clients; `F` are frames known to hold pinned pages. -/
structure Stands (s : BufferPool) (hot : Set PageId) (a : Image) (F : List (PageId × FrameId)) :
    Prop where
  coherent : s.Coherent hot none
  len : s.disk.len = a.len
  size : s.pool_size = a.size
  view : ∀ q, q ≠ 0 → s.view q = a.view q
  pins : s.pins = a.pins
  frames : ∀ e ∈ F, s.page_table e.1 = some e.2 ∧ 0 < a.pins e.1

section Rules

variable {s : BufferPool} {hot : Set PageId} {a : Image} {F : List (PageId × FrameId)}
  {pid : PageId} {f : FrameId}

/-- The image of a pool with nothing half done. -/
def image (s : BufferPool) : Image := ⟨s.disk.len, s.view, s.pins, s.pool_size⟩

theorem room_new {n : ℕ} (h : 0 < n) (d : DiskManager) :
    Room (BufferPool.new n d).image.pins (BufferPool.new n d).image.size 1 :=
  ⟨∅, fun q hq => absurd hq (lt_irrefl 0), by rwa [Finset.card_empty]⟩

theorem Coherent.stands (h : s.Coherent hot none) : s.Stands hot s.image [] :=
  ⟨h, rfl, rfl, fun _ _ => rfl, rfl, fun _ he => absurd he not_mem_nil⟩

theorem Coherent.heat (h : s.Coherent hot none) (hp : 0 < s.pins pid) :
    s.Coherent (insert pid hot) none := by
  refine h.mono_hot (Set.subset_insert _ _) ?_
  intro q hq
  rcases hq with rfl | hq
  · exact hp
  · exact h.hot_pinned q hq

variable {α : Type} {p : Page} {dirty : Bool} {op : Page → Except Fault α}

section

variable (h : s.Stands hot a F)
include h

/-- Frames one no longer needs to know of. -/
theorem Stands.forget : s.Stands hot a [] :=
  { h with frames := fun _ he => absurd he not_mem_nil }

theorem Stands.fresh_pins : a.pins a.len = 0 := by
  rw [← h.pins]
  cases hg : s.page_table a.len with
  | none => exact pins_of_not_table hg
  | some g =>
    have := h.coherent.stored _ g hg
    rw [h.len] at this
    exact absurd this (lt_irrefl _)

theorem fetch_rule_full (h0 : pid ≠ 0) (hlen : pid < a.len) :
    wp (fetch_page pid) (fun f s' => s'.Stands hot (a.pin pid) ((pid, f) :: F))
      (fun e s' => e = .err .BufferFull ∧ s' = s ∧ ¬ Room a.pins a.size 1) s := by
  refine wp_mono (fetch_page_spec h.coherent h0 (by rw [h.len]; exact hlen)) ?_
    (fun _ _ he => ⟨he.1, he.2.1, fun hroom => he.2.2 (h.coherent.avail
      (by rw [h.pins, h.size]; exact hroom))⟩)
  rintro f s1 ⟨h1, hf, m⟩
  have hpins : s1.pins = (a.pin pid).pins := by rw [m.pins, h.pins]; rfl
  refine ⟨h1, m.len.trans h.len, m.size.trans h.size, fun q hq => (m.view q hq).trans (h.view q hq),
    hpins, ?_⟩
  intro e he
  rcases mem_cons.mp he with rfl | he
  · exact ⟨hf, by simp [Image.pin]⟩
  · obtain ⟨h2, h3⟩ := h.frames e he
    refine ⟨m.frame _ _ h2 (by rw [h.pins]; exact h3), ?_⟩
    show 0 < update a.pins pid (a.pins pid + 1) e.1
    rw [update_apply]
    split
    · omega
    · exact h3

theorem fetch_rule (h0 : pid ≠ 0) (hlen : pid < a.len) (hroom : Room a.pins a.size 1) :
    wp (fetch_page pid) (fun f s' => s'.Stands hot (a.pin pid) ((pid, f) :: F)) never s :=
  wp_mono (fetch_rule_full h h0 hlen) (fun _ _ hf => hf) (fun _ _ he => he.2.2 hroom)

/-- **A new page.** Every frame is pinned or the file is full when it fails. -/
theorem new_page_any :
    wp new_page (fun r s' => r.1 = a.len ∧ s'.Stands hot a.alloc ((a.len, r.2) :: F))
      (fun _ s' => (s' = s ∧ ¬ Room a.pins a.size 1)
        ∨ (MAX_FILE_SIZE < (a.len + 1) * PAGE_SIZE ∧ s'.disk.Full)) s := by
  refine wp_mono (new_page_spec h.coherent) ?_ ?_
  · rintro r s1 ⟨hr, h1, hf, m, -⟩
    have hlen := h.len
    rw [hlen] at hr hf m
    refine ⟨hr, h1, m.len, m.size.trans h.size, ?_, ?_, ?_⟩
    · intro q hq
      rw [m.view q hq, Image.alloc_view, update_apply, update_apply, h.view q hq]
    · rw [m.pins, h.pins]
      rfl
    · intro e he
      rcases mem_cons.mp he with rfl | he
      · exact ⟨hf, by simp [Image.alloc]⟩
      · obtain ⟨h2, h3⟩ := h.frames e he
        refine ⟨m.frame _ _ h2 (by rw [h.pins]; exact h3), ?_⟩
        show 0 < update a.pins a.len 1 e.1
        rw [update_apply]
        split
        · exact Nat.one_pos
        · exact h3
  · rintro e s1 (⟨-, rfl, hno⟩ | ⟨-, hfull, hfull1⟩)
    · exact .inl ⟨rfl, fun hroom =>
        hno (h.coherent.avail (by rw [h.pins, h.size]; exact hroom))⟩
    · refine .inr ⟨?_, hfull1⟩
      rw [← h.len]
      exact hfull

theorem new_page_rule (hroom : Room a.pins a.size 1)
    (hdisk : (a.len + 1) * PAGE_SIZE ≤ MAX_FILE_SIZE) :
    wp new_page (fun r s' => r.1 = a.len ∧ s'.Stands hot a.alloc ((a.len, r.2) :: F)) never s := by
  refine wp_mono (new_page_any h) (fun _ _ hr => hr) ?_
  rintro _ s' (⟨-, hno⟩ | ⟨hfull, -⟩)
  · exact hno hroom
  · exact absurd hdisk (not_le.mpr hfull)

variable (hf : (pid, f) ∈ F)
include hf

theorem Stands.ne_zero : pid ≠ 0 := by
  rintro rfl
  have := h.coherent.header
  simp [(h.frames _ hf).1] at this

theorem page_rule {x : α} (hop : op (a.view pid) = .ok x) :
    wp (page f op) (fun y s' => x = y ∧ s = s') never s :=
  wp_imp (page_spec h.coherent (h.frames _ hf).1 (by rw [h.view _ (h.ne_zero hf)]; exact hop))
    (fun _ _ hq => ⟨hq.1.symm, hq.2.symm⟩)

theorem page_mut_rule {op : Page → Except Fault (α × Page)} {x : α}
    (hop : op (a.view pid) = .ok (x, p)) :
    wp (page_mut f op) (fun y s' => x = y ∧ s'.Stands (insert pid hot) (a.put pid p) F) never s := by
  obtain ⟨htab, hpos⟩ := h.frames _ hf
  refine wp_imp (page_mut_spec h.coherent htab (by rw [h.pins]; exact hpos)
    (by rw [h.view _ (h.ne_zero hf)]; exact hop)) ?_
  rintro y s1 ⟨rfl, h1, ⟨ht, -⟩, m⟩
  refine ⟨rfl, h1, m.len.trans h.len, m.size.trans h.size, ?_, m.pins.trans h.pins, ?_⟩
  · intro q hq
    rw [m.view q hq, Image.put_view, update_apply, update_apply, h.view q hq]
  · intro e he
    rw [ht]
    exact h.frames e he

/-- **Editing.** A pinned page goes through the whole list of changes. -/
theorem edit_rule {ops : List PageOp} (hops : run_ops ops (a.view pid) = .ok p) :
    wp (edit f ops) (fun _ s' => s'.Stands (insert pid hot) (a.put pid p) F) never s := by
  induction ops generalizing s hot a with
  | nil =>
    have hp : a.view pid = p := Except.ok.inj hops
    refine ⟨h.coherent.heat (by rw [h.pins]; exact (h.frames _ hf).2), h.len, h.size, ?_, h.pins,
      h.frames⟩
    intro q hq
    rw [h.view q hq, Image.put_view, ← hp, update_eq_self]
  | cons op ops ih =>
    unfold run_ops at hops
    cases hop : op (a.view pid) with
    | error e =>
      rw [hop] at hops
      cases hops
    | ok q =>
      rw [hop] at hops
      have hstep : (do let q ← op (a.view pid); return ((), q) : Except Fault (Unit × Page))
          = .ok ((), q) := by
        rw [hop]
        rfl
      refine wp_then (page_mut_rule h hf hstep) ?_
      rintro - s1 ⟨-, h2⟩
      refine wp_imp (ih h2 (by rw [Image.put_view, update_self]; exact hops)) ?_
      rintro - s2 h3
      rw [Set.insert_idem] at h3
      rwa [Image.put_put] at h3

end

section

variable (h : s.Stands hot a ((pid, f) :: F)) (hF : ∀ e ∈ F, e.1 ≠ pid)
include h

theorem page_then {β : Type} {E : Fault → BufferPool → Prop} {Q : β → BufferPool → Prop}
    {k : α → PoolM β} {x : α} (hop : op (a.view pid) = .ok x) (hk : wp (k x) Q E s) :
    wp (page f op >>= k) Q E s := by
  refine wp_then (page_rule h mem_cons_self hop) ?_
  rintro _ _ ⟨rfl, rfl⟩
  exact hk

include hF

theorem unpin_hot_rule {hot' : Set PageId} (hne : ∀ q, q ≠ pid → (q ∈ hot' ↔ q ∈ hot))
    (hd : pid ∉ hot' → dirty = true ∨ pid ∉ hot) (hk : pid ∈ hot' → 1 < a.pins pid) :
    wp (unpin_page pid dirty) (fun _ s' => s'.Stands hot' (a.unpin pid) F) never s := by
  obtain ⟨htab, hpos⟩ := h.frames _ mem_cons_self
  rw [← h.pins] at hpos hk
  refine wp_imp (unpin_page_hot h.coherent htab hpos hne hd hk) ?_
  rintro - s1 ⟨h1, ⟨ht, -⟩, m⟩
  refine ⟨h1, m.len.trans h.len, m.size.trans h.size, fun q hq => (m.view q hq).trans (h.view q hq),
    ?_, ?_⟩
  · rw [m.pins, h.pins]
    rfl
  · intro e he
    obtain ⟨h2, h3⟩ := h.frames e (mem_cons_of_mem _ he)
    refine ⟨by rw [ht]; exact h2, ?_⟩
    show 0 < update a.pins pid (a.pins pid - 1) e.1
    rwa [update_of_ne (hF e he)]

theorem unpin_rule (hd : dirty = true ∨ pid ∉ hot) :
    wp (unpin_page pid dirty) (fun _ s' => s'.Stands (hot \ {pid}) (a.unpin pid) F) never s :=
  unpin_hot_rule h hF (fun q hq => by simp [hq]) (fun _ => hd) (fun hin => absurd rfl hin.2)

end

theorem unpin_clean (h : s.Stands ∅ (a.pin pid) [(pid, f)]) :
    wp (unpin_page pid dirty) (fun _ s' => s'.Stands ∅ a []) never s := by
  refine wp_imp (unpin_rule h nofun (.inr (Set.notMem_empty _))) ?_
  intro _ s' h'
  rwa [Image.unpin_pin, Set.empty_sdiff] at h'

theorem unpin_changed (h : s.Stands (insert pid ∅) ((a.pin pid).put pid p) ((pid, f) :: F))
    (hF : ∀ e ∈ F, e.1 ≠ pid) :
    wp (unpin_page pid true) (fun _ s' => s'.Stands ∅ (a.put pid p) F) never s := by
  refine wp_imp (unpin_rule h hF (.inl rfl)) ?_
  intro _ s' h'
  rwa [Image.unpin_put_pin, Set.insert_sdiff_self_of_notMem (Set.notMem_empty _)] at h'

theorem page_mut_again {op : Page → Except Fault (α × Page)} {q : Page}
    (h : s.Stands (insert pid hot) (a.put pid p) F) (hf : (pid, f) ∈ F) {x : α}
    (hop : op p = .ok (x, q)) :
    wp (page_mut f op) (fun y s' => x = y ∧ s'.Stands (insert pid hot) (a.put pid q) F) never s := by
  have hview : (a.put pid p).view pid = p := update_self _ _ _
  refine wp_imp (page_mut_rule h hf (by rw [hview]; exact hop)) ?_
  rintro y s' ⟨rfl, h'⟩
  rw [Set.insert_idem, Image.put_put] at h'
  exact ⟨rfl, h'⟩

theorem read_at_rule (h : s.Stands ∅ a []) (h0 : pid ≠ 0) (hlen : pid < a.len)
    (hroom : Room a.pins a.size 1) {x : α} (hop : op (a.view pid) = .ok x) :
    wp (read_at pid op) (fun y s' => x = y ∧ s'.Stands ∅ a []) never s := by
  refine wp_then (fetch_rule h h0 hlen hroom) ?_
  intro f s1 h1
  refine page_then h1 hop ?_
  refine wp_then (unpin_clean h1) ?_
  intro _ s2 h2
  exact ⟨rfl, h2⟩

/-- **Pin, edit, unpin dirty.** -/
theorem edit_at_rule {ops : List PageOp} (h : s.Stands ∅ a []) (h0 : pid ≠ 0) (hlen : pid < a.len)
    (hroom : Room a.pins a.size 1) (hops : run_ops ops (a.view pid) = .ok p) :
    wp (edit_at pid ops) (fun _ s' => s'.Stands ∅ (a.put pid p) []) never s := by
  refine wp_then (fetch_rule h h0 hlen hroom) ?_
  intro f s1 h1
  refine wp_then (edit_rule h1 mem_cons_self hops) ?_
  intro _ s2 h2
  exact unpin_changed h2 nofun

end Rules

end BufferPool

end Oigrap.Storage

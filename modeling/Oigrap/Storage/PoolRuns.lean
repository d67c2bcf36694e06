/-
The buffer pool over whole runs: it refines one memory of pages.

A run is a sequence of calls by any number of callers. Each successful `new_page` or
`fetch_page` is a pin of its own, with the frame it returned; a write goes through such a
pin, and a pin that has been written through is given back with `is_dirty = true`. Beside
the pool a run keeps the memory that the callers should see: a page as it was on disk or as
`new_page` initialised it, with the writes applied.

The device does not fail, the file has room, and only pages that exist are fetched, so the
one error left is that every frame is pinned. Page 0 is not a user page: the disk manager
writes its header there behind the pool's back, and `header_page_is_not_coherent` shows
that a caller who uses it loses its bytes.
-/
import Oigrap.Lib.Runs
import Oigrap.Storage.PoolSpec

namespace Oigrap.Storage

open Wp Function List

/-- A pin of a page by some caller, and whether it has been written through. -/
structure Pin where
  page_id : PageId
  frame_id : FrameId
  wrote : Bool
  deriving DecidableEq, Repr

structure Session where
  pool : BufferPool
  pinned : List Pin
  /-- the pages as the callers should see them -/
  memory : PageId → Page

inductive PoolCall where
  | new_page
  | fetch_page (page_id : PageId)
  | page_mut (pin : Pin) (write : Page → Page)
  | unpin_page (pin : Pin) (is_dirty : Bool)
  | flush_page (page_id : PageId)
  | flush_all

namespace Session

open BufferPool

def start (pool_size : ℕ) (disk : DiskManager) : Session :=
  ⟨BufferPool.new pool_size disk, [], disk.pages⟩

/-- One operation of the pool; when it fails only the pool may have changed. -/
def exec {α : Type} (s : Session) (x : PoolM α) (next : α → Session → Session) : Session :=
  match x s.pool with
  | .ok a pool => next a { s with pool := pool }
  | .error _ pool => { s with pool := pool }

def step (s : Session) : PoolCall → Session
  | .new_page => s.exec BufferPool.new_page fun r s =>
      { s with pinned := ⟨r.1, r.2, false⟩ :: s.pinned
               memory := update s.memory r.1 (Page.new r.1) }
  | .fetch_page page_id => s.exec (BufferPool.fetch_page page_id) fun f s =>
      { s with pinned := ⟨page_id, f, false⟩ :: s.pinned }
  | .page_mut pin write =>
      s.exec (BufferPool.page_mut pin.frame_id fun p => .ok ((), write p)) fun _ s =>
      { s with pinned := { pin with wrote := true } :: s.pinned.erase pin
               memory := update s.memory pin.page_id (write (s.memory pin.page_id)) }
  | .unpin_page pin is_dirty => s.exec (BufferPool.unpin_page pin.page_id is_dirty) fun _ s =>
      { s with pinned := s.pinned.erase pin }
  | .flush_page page_id => s.exec (BufferPool.flush_page page_id) fun _ s => s
  | .flush_all => s.exec BufferPool.flush_all fun _ s => s

/-- The calls of a run: the device serves them, writes go through pins, and a pin that was
written through is given back dirty. Whoever holds no pin of a page may try to unpin it only
when nobody does. -/
def Proper (s : Session) : PoolCall → Prop
  | .new_page => ¬ s.pool.disk.Full
  | .fetch_page page_id => page_id < s.pool.disk.len
  | .page_mut pin _ => pin ∈ s.pinned
  | .unpin_page pin is_dirty =>
      (pin ∈ s.pinned ∧ (pin.wrote = true → is_dirty = true))
        ∨ ∀ pin' ∈ s.pinned, pin'.page_id ≠ pin.page_id
  | .flush_page _ | .flush_all => True

/-- The call is not about the header page. -/
def OfUserPage : PoolCall → Prop
  | .fetch_page page_id => page_id ≠ 0
  | _ => True

def Allowed (s : Session) (call : PoolCall) : Prop := s.Proper call ∧ OfUserPage call

/-- What the pool promises in a state of a run. -/
structure Coheres (s : Session) : Prop where
  /-- a page that is fetched has the bytes last written to it -/
  fetched : ∀ pid, pid ≠ 0 → pid < s.pool.disk.len →
    (∃ f pool', fetch_page pid s.pool = .ok f pool' ∧ (pool'.frames f).page = s.memory pid)
      ∨ (fetch_page pid s.pool = .error (.err .BufferFull) s.pool ∧ ¬ s.pool.Avail)
  /-- a pinned frame keeps its page -/
  kept : ∀ call, s.Allowed call → ∀ f pid, f < s.pool.pool_size →
    (s.pool.frames f).page_id = some pid → 0 < (s.pool.frames f).pin_count →
    ((s.step call).pool.frames f).page_id = some pid
  /-- without pins, `flush_all` brings the disk up to date -/
  flushed : (∀ f, f < s.pool.pool_size → (s.pool.frames f).pin_count = 0) →
    ∃ pool', flush_all s.pool = .ok () pool'
      ∧ ∀ pid, pid ≠ 0 → pid < s.pool.disk.len → pool'.disk.pages pid = s.memory pid

/-! ## The invariant -/

variable (pinned : List Pin) {pin : Pin}

/-- The pages that were written through a pin that is still held. -/
def hot : Set PageId := {q | ∃ pin ∈ pinned, pin.page_id = q ∧ pin.wrote = true}

def pin_count (q : PageId) : ℕ := pinned.countP fun pin => pin.page_id = q

structure Inv (s : Session) : Prop where
  coherent : s.pool.Coherent (hot s.pinned) none
  pins : ∀ q, s.pool.pins q = pin_count s.pinned q
  frames : ∀ pin ∈ s.pinned, s.pool.page_table pin.page_id = some pin.frame_id
  memory : ∀ q, q ≠ 0 → q < s.pool.disk.len → s.pool.view q = s.memory q

theorem start_inv {d : DiskManager} (hd : d.Faithful) (n : ℕ) : (start n d).Inv := by
  have hhot : hot ([] : List Pin) = ∅ := by simp [hot]
  refine ⟨?_, ?_, ?_, ?_⟩
  · change (BufferPool.new n d).Coherent (hot []) none
    rw [hhot]
    exact new_coherent hd n
  · intro q
    rfl
  · simp [start]
  · intro q _ _
    rfl

variable {s : Session}

theorem pin_count_pos {pinned : List Pin} (h : pin ∈ pinned) : 0 < pin_count pinned pin.page_id :=
  countP_pos_iff.mpr ⟨pin, h, by simp⟩

theorem Inv.pins_pos (h : s.Inv) (hp : pin ∈ s.pinned) : 0 < s.pool.pins pin.page_id := by
  rw [h.pins]
  exact pin_count_pos hp

theorem hot_cons_clean (q : PageId) (f : FrameId) : hot (⟨q, f, false⟩ :: pinned) = hot pinned := by
  ext x
  simp [hot]

theorem pin_count_cons (pin : Pin) : pin_count (pin :: pinned)
      = update (pin_count pinned) pin.page_id (pin_count pinned pin.page_id + 1) := by
  funext q
  simp only [pin_count, countP_cons, update_apply]
  by_cases hq : q = pin.page_id
  · subst hq
    simp
  · simp [hq, Ne.symm hq]

theorem pin_count_erase {pinned : List Pin} (h : pin ∈ pinned) (q : PageId) :
    pin_count pinned q = pin_count (pin :: pinned.erase pin) q :=
  (perm_cons_erase h).countP_eq _

/-- A property of the next session, from a triple about the pool. -/
theorem exec_rule {α : Type} {x : PoolM α} {next : α → Session → Session} {P : Session → Prop}
    (h : wp x (fun a pool => P (next a { s with pool := pool }))
      (fun _ pool => P { s with pool := pool }) s.pool) : P (s.exec x next) := by
  unfold exec
  unfold wp at h
  cases hx : x s.pool with
  | ok a pool | error e pool =>
    rwa [hx] at h

section

variable (h : s.Inv)
include h

theorem Inv.frames_kept {pool' : BufferPool} {len : ℕ} {v : PageId → Page}
    {p : PageId → ℕ} (m : Moves s.pool pool' len v p) (hp : pin ∈ s.pinned) :
    pool'.page_table pin.page_id = some pin.frame_id :=
  m.frame _ _ (h.frames pin hp) (h.pins_pos hp)

theorem Inv.fetch_page {pid : PageId} (hok : s.Allowed (.fetch_page pid)) :
    (s.step (.fetch_page pid)).Inv := by
  obtain ⟨hlen, h0⟩ := hok
  simp only [step]
  refine exec_rule (P := Inv) (wp_mono (fetch_page_spec h.coherent h0 hlen) ?_ ?_)
  · rintro f pool' ⟨hc, hf, m⟩
    refine ⟨?_, ?_, ?_, ?_⟩
    · rwa [hot_cons_clean]
    · intro q
      rw [m.pins, pin_count_cons, h.pins pid, ← funext h.pins]
    · intro pin hp
      rcases mem_cons.mp hp with rfl | hp
      · exact hf
      · exact h.frames_kept m hp
    · intro q hq hlt
      rw [m.view q hq]
      exact h.memory q hq (by rw [← m.len]; exact hlt)
  · rintro e pool' ⟨-, rfl, -⟩
    exact h

theorem Inv.new_page (hok : s.Allowed .new_page) : (s.step .new_page).Inv := by
  simp only [step]
  refine exec_rule (P := Inv) (wp_mono (new_page_spec h.coherent) ?_ ?_)
  · rintro ⟨pid, f⟩ pool' ⟨rfl, hc, hf, m, -⟩
    -- nobody can have pinned a page that did not exist
    have hnone : s.pool.pins s.pool.disk.len = 0 := by
      refine pins_of_not_table ?_
      cases ht : s.pool.page_table s.pool.disk.len with
      | none => rfl
      | some g => exact absurd (h.coherent.stored _ g ht) (lt_irrefl _)
    refine ⟨?_, ?_, ?_, ?_⟩
    · rwa [hot_cons_clean]
    · intro q
      rw [m.pins, pin_count_cons, ← h.pins, hnone, ← funext h.pins]
    · intro pin hp
      rcases mem_cons.mp hp with rfl | hp
      · exact hf
      · exact h.frames_kept m hp
    · intro q hq hlt
      change pool'.view q = update s.memory s.pool.disk.len _ q
      rw [m.view q hq, update_apply, update_apply]
      split_ifs with hne
      · rfl
      · rw [m.len] at hlt
        exact h.memory q hq (lt_of_le_of_ne (Nat.lt_succ_iff.mp hlt) hne)
  · rintro e pool' (⟨-, rfl, -⟩ | ⟨-, hfull, -⟩)
    · exact h
    · exact absurd hfull hok.1

theorem Inv.page_mut {write : Page → Page} (hok : s.Allowed (.page_mut pin write))
    : (s.step (.page_mut pin write)).Inv := by
  have hp : pin ∈ s.pinned := hok.1
  have hf := h.frames pin hp
  have h0 : pin.page_id ≠ 0 := by
    intro h0
    simp [h0, h.coherent.header] at hf
  simp only [step]
  refine exec_rule (P := Inv) (wp_mono (@page_mut_spec _ _ _ _ h.coherent hf Unit (h.pins_pos hp)
    (fun p => .ok ((), write p)) () _ rfl) ?_ (fun _ _ he => False.elim he))
  rintro - pool' ⟨-, hc, ⟨ht, hd⟩, m⟩
  refine ⟨?_, ?_, ?_, ?_⟩
  · have hhot : hot ({ pin with wrote := true } :: s.pinned.erase pin)
        = insert pin.page_id (hot s.pinned) := by
      ext q
      constructor
      · rintro ⟨pin', hmem, rfl, hw⟩
        rcases mem_cons.mp hmem with rfl | hmem
        · exact Set.mem_insert _ _
        · exact Set.mem_insert_of_mem _ ⟨pin', mem_of_mem_erase hmem, rfl, hw⟩
      · rintro (rfl | ⟨pin', hmem, rfl, hw⟩)
        · exact ⟨_, mem_cons_self, rfl, rfl⟩
        · by_cases hpin : pin' = pin
          · exact ⟨_, mem_cons_self, by rw [hpin], rfl⟩
          · exact ⟨pin', mem_cons_of_mem _ ((mem_erase_of_ne hpin).mpr hmem), rfl, hw⟩
    rwa [hhot]
  · intro q
    rw [m.pins, h.pins, pin_count_erase hp, pin_count_cons, pin_count_cons]
  · intro pin' hp'
    rw [ht]
    rcases mem_cons.mp hp' with rfl | hp'
    · exact hf
    · exact h.frames pin' (mem_of_mem_erase hp')
  · intro q hq hlt
    change pool'.view q = update s.memory pin.page_id (write (s.memory pin.page_id)) q
    have hpid := h.memory _ h0 (h.coherent.stored _ _ hf)
    rw [m.view q hq, update_apply, update_apply, hpid]
    split
    · rfl
    · exact h.memory q hq (by rw [← m.len]; exact hlt)

theorem Inv.unpin_page {is_dirty : Bool} (hok : s.Allowed (.unpin_page pin is_dirty))
    : (s.step (.unpin_page pin is_dirty)).Inv := by
  simp only [step]
  rcases hok.1 with ⟨hp, hd⟩ | hno
  · have hf := h.frames pin hp
    have hsub {q : PageId} (hq : q ∈ hot (s.pinned.erase pin)) : q ∈ hot s.pinned := by
      obtain ⟨pin', hmem, rfl, hw⟩ := hq
      exact ⟨pin', mem_of_mem_erase hmem, rfl, hw⟩
    -- a page that is not hot any more was written through this pin, if at all
    have hback {q : PageId} (hq : q ∈ hot s.pinned) :
        q ∈ hot (s.pinned.erase pin) ∨ (q = pin.page_id ∧ pin.wrote = true) := by
      obtain ⟨pin', hmem, rfl, hw⟩ := hq
      by_cases hpin : pin' = pin
      · exact .inr ⟨by rw [hpin], by rw [← hpin]; exact hw⟩
      · exact .inl ⟨pin', (mem_erase_of_ne hpin).mpr hmem, rfl, hw⟩
    have hcount : s.pool.pins pin.page_id = pin_count (s.pinned.erase pin) pin.page_id + 1 := by
      rw [h.pins, pin_count_erase hp, pin_count_cons, update_self]
    have hne (q : PageId) (hq : q ≠ pin.page_id) :
        q ∈ hot (s.pinned.erase pin) ↔ q ∈ hot s.pinned :=
      ⟨hsub, fun hin => (hback hin).resolve_right fun hx => hq hx.1⟩
    refine exec_rule (P := Inv) (wp_mono (unpin_page_hot h.coherent hf (h.pins_pos hp) hne ?_ ?_)
      ?_ (fun _ _ he => False.elim he))
    · intro hnot
      by_cases hin : pin.page_id ∈ hot s.pinned
      · exact .inl (hd ((hback hin).resolve_left hnot).2)
      · exact .inr hin
    · rintro ⟨pin', hmem, heq, -⟩
      have := pin_count_pos hmem
      rw [heq] at this
      omega
    · rintro - pool' ⟨hc, ⟨ht, hdisk⟩, m⟩
      refine ⟨hc, ?_, ?_, ?_⟩
      · intro q
        rw [m.pins, update_apply]
        split_ifs with heq
        · rw [heq, hcount, Nat.add_sub_cancel]
        · rw [h.pins, pin_count_erase hp, pin_count_cons, update_of_ne heq]
      · intro pin' hp'
        rw [ht]
        exact h.frames pin' (mem_of_mem_erase hp')
      · intro q hq hlt
        rw [m.view q hq]
        exact h.memory q hq (by rw [← m.len]; exact hlt)
  · have hzero : s.pool.pins pin.page_id = 0 := by
      rw [h.pins]
      exact countP_eq_zero.mpr fun pin' hp' => by simpa using hno pin' hp'
    refine exec_rule (P := Inv) (wp_mono (unpin_page_unpinned hzero)
      (fun _ _ hx => False.elim hx) ?_)
    rintro e pool' rfl
    exact h

theorem Inv.of_flush {pool' : BufferPool} (hc : pool'.Coherent (hot s.pinned) none)
    (m : Moves s.pool pool' s.pool.disk.len s.pool.view s.pool.pins)
    (ht : pool'.page_table = s.pool.page_table) : ({ s with pool := pool' } : Session).Inv := by
  refine ⟨hc, ?_, ?_, ?_⟩
  · intro q
    exact (congrFun m.pins q).trans (h.pins q)
  · intro pin hp
    exact (congrFun ht _).trans (h.frames pin hp)
  · intro q hq hlt
    exact (m.view q hq).trans (h.memory q hq (by rw [← m.len]; exact hlt))

theorem Inv.flush_page (pid : PageId) : (s.step (.flush_page pid)).Inv := by
  simp only [step]
  refine exec_rule (P := Inv) (wp_mono (flush_page_spec h.coherent) ?_ ?_)
  · rintro - pool' ⟨hc, m, ht, -⟩
    exact h.of_flush hc m ht
  · rintro e pool' ⟨-, rfl, -⟩
    exact h

theorem Inv.flush_all : (s.step .flush_all).Inv := by
  simp only [step]
  refine exec_rule (P := Inv) (wp_mono (flush_all_spec h.coherent) ?_ (fun _ _ he => False.elim he))
  rintro - pool' ⟨hc, m, ht, -⟩
  exact h.of_flush hc m ht

theorem Inv.step {call : PoolCall} (hok : s.Allowed call) : (s.step call).Inv := by
  cases call with
  | new_page => exact h.new_page hok
  | fetch_page pid => exact h.fetch_page hok
  | page_mut pin write => exact h.page_mut hok
  | unpin_page pin is_dirty => exact h.unpin_page hok
  | flush_page pid => exact h.flush_page pid
  | flush_all => exact h.flush_all

/-! ## What the pool promises -/

theorem Inv.table_kept {call : PoolCall} (hok : s.Allowed call) {q : PageId}
    {g : FrameId} (hg : s.pool.page_table q = some g) (hpos : 0 < s.pool.pins q) :
    (s.step call).pool.page_table q = some g := by
  cases call <;> refine exec_rule (P := fun s => s.pool.page_table q = some g) ?_
  case new_page =>
    refine (wp_mono (new_page_spec h.coherent) (fun _ _ hx => hx.2.2.2.1.frame q g hg hpos) ?_)
    rintro e pool' (⟨-, rfl, -⟩ | ⟨-, hfull, -⟩)
    · exact hg
    · exact absurd hfull hok.1
  case fetch_page pid =>
    refine (wp_mono (fetch_page_spec h.coherent hok.2 hok.1) (fun _ _ hx => hx.2.2.frame q g hg hpos) ?_)
    rintro e pool' ⟨-, rfl, -⟩
    exact hg
  case page_mut pin write =>
    refine (wp_mono (@page_mut_spec _ _ _ _ h.coherent (h.frames pin hok.1) Unit (h.pins_pos hok.1)
        (fun p => .ok ((), write p)) () _ rfl) ?_ (fun _ _ he => False.elim he))
    rintro - pool' ⟨-, -, ⟨ht, -⟩, -⟩
    exact (congrFun ht q).trans hg
  case unpin_page pin is_dirty =>
    refine (wp_mono (unpin_page_table s.pool) ?_ ?_)
    · intro _ pool' ht
      exact (congrFun ht q).trans hg
    · intro _ pool' ht
      exact (congrFun ht q).trans hg
  case flush_page pid =>
    refine (wp_mono (flush_page_spec h.coherent) (fun _ _ hx => (congrFun hx.2.2.1 q).trans hg) ?_)
    rintro e pool' ⟨-, rfl, -⟩
    exact hg
  case flush_all =>
    exact (wp_mono (flush_all_spec h.coherent) (fun _ _ hx => (congrFun hx.2.2.1 q).trans hg)
        (fun _ _ he => False.elim he))

theorem Inv.coheres : s.Coheres := by
  refine ⟨?_, ?_, ?_⟩
  · intro pid h0 hlen
    have hspec := fetch_page_spec h.coherent h0 hlen
    unfold wp at hspec
    cases hx : BufferPool.fetch_page pid s.pool with
    | ok f pool' =>
      rw [hx] at hspec
      obtain ⟨-, hf, m⟩ := hspec
      refine .inl ⟨f, pool', rfl, ?_⟩
      rw [← view_of_table hf, m.view pid h0]
      exact h.memory pid h0 hlen
    | error e pool' =>
      rw [hx] at hspec
      obtain ⟨rfl, rfl, hno⟩ := hspec
      exact .inr ⟨rfl, hno⟩
  · intro call hok f pid hlt hid hpos
    have hf := h.coherent.held f pid hlt hid
    have hkept := h.table_kept hok hf (by rw [pins_of_table hf]; exact hpos)
    exact ((h.step hok).coherent.table pid f hkept).2
  · intro hzero
    -- nothing is hot, since nothing is pinned
    have hcold : hot s.pinned = ∅ := by
      rw [Set.eq_empty_iff_forall_notMem]
      rintro q ⟨pin, hp, rfl, -⟩
      have hf := h.frames pin hp
      have := h.pins_pos hp
      rw [pins_of_table hf, hzero _ (h.coherent.table _ _ hf).1] at this
      exact absurd this (lt_irrefl 0)
    obtain ⟨⟨⟩, pool', hx, hc, m, ht, hclean⟩ := exists_ok_of_wp (flush_all_spec h.coherent)
    refine ⟨pool', hx, fun pid h0 hlen => ?_⟩
    rw [← h.memory pid h0 hlen, ← m.view pid h0]
    cases hf : pool'.page_table pid with
    | none => exact (view_of_not_table hf).symm
    | some f =>
      rw [view_of_table hf]
      exact (hc.clean pid f hf (hclean pid f hf) (by rw [hcold]; exact Set.notMem_empty _)).symm

end

end Session

end Oigrap.Storage

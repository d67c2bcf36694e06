/-
What redo makes of a page, and of a database.

Redo passes over a record when the page's LSN has reached it, or when the slot already
looks right; otherwise it makes the change again, at the *next* slot, and stamps the page.
The page LSN is no count of the changes a page contains, so this is right only for some
combinations of page and record. `Redoable` says which, by looking at the page on disk and
at one record of the log: a record that will be passed over is already on the page, a
tuple that will be added again was not deleted on the page.

Under that condition redo of a whole log leaves every page it touches with every logged
change. The argument is about one page at a time. While the records are ones the page
contains, nothing happens to it; from the first that it does not contain on, every record
adds its change. Without the condition redo is still idempotent (`redo_recover_idempotent`).
-/
import Oigrap.Storage.PageHistory
import Oigrap.Storage.PoolImage
import Oigrap.Storage.Recovery

namespace Oigrap.Storage

open ByteMem Wp BufferPool Function List Contents Page

/-! ## One page -/

/-- What `redo_record` does to the page the record names. -/
def Change.redo (lsn : Lsn) (ch : Change) (p : Page) : Except Fault Page :=
  if p.lsn < lsn then
    match ch with
    | .insert slot_id tuple_data => do
      let used ← p.is_slot_used slot_id
      if used then return p
      else do
        let (_, q) ← insert_ignoring_err tuple_data p
        return q.set_lsn lsn
    | .delete slot_id => do
      let used ← p.is_slot_used slot_id
      if used then do
        let q ← p.delete_tuple slot_id
        return q.set_lsn lsn
      else return p
  else .ok p

/-- The page of the record was written to disk since it was allocated, and is such that
redo of the record is right: an insertion it will pass over has its slot on the page, one
it will not pass over has no freed slot there, and a deletion it will pass over has been
made. -/
def Redoable (p : Page) (lsn : Lsn) (ch : Change) : Prop :=
  match p.slot_count, ch with
  | .ok n, .insert slot_id _ =>
    if p.lsn < lsn then n ≤ slot_id ∨ p.is_slot_used slot_id = .ok true else slot_id < n
  | .ok _, .delete slot_id => p.lsn < lsn ∨ p.is_slot_used slot_id = .ok false
  | .error _, _ => False

instance (p : Page) (lsn : Lsn) (ch : Change) : Decidable (Redoable p lsn ch) := by
  unfold Redoable
  split <;> infer_instance

variable {ch : Change} {lsn : Lsn}

section OnePage

variable {D p q : Page} {c c' : Contents} {es H : List Change}

theorem redoable_insert (hp : p.Holds c) {slot_id : ℕ} {tuple_data : List UInt8} :
    Redoable p lsn (.insert slot_id tuple_data) ↔
      if p.lsn < lsn then c.slots.length ≤ slot_id ∨ p.is_slot_used slot_id = .ok true
      else slot_id < c.slots.length := by
  unfold Redoable
  rw [slot_count_eq hp.1]

theorem redoable_delete (hp : p.Holds c) {slot_id : ℕ} :
    Redoable p lsn (.delete slot_id) ↔ p.lsn < lsn ∨ p.is_slot_used slot_id = .ok false := by
  unfold Redoable
  rw [slot_count_eq hp.1]

/-- A record whose change the page contains is passed over. -/
theorem redo_contained (hD : D.Built es) (hin : ch ∈ es) (hr : Redoable D lsn ch) :
    ch.redo lsn D = .ok D := by
  obtain ⟨c, hc, hp⟩ := hD
  unfold Change.redo
  by_cases hlt : D.lsn < lsn
  · rw [if_pos hlt]
    cases ch with
    | insert slot_id tuple_data =>
      rw [redoable_insert hp, if_pos hlt] at hr
      have hslot := replay_inserted_lt hc hin
      have hused := hr.resolve_left (not_le.mpr hslot)
      simp only [hused, bind, Except.bind]
      rfl
    | delete slot_id =>
      have hnone := replay_deleted hc hin
      simp only [is_slot_used_eq hp.1, hnone, bind, Except.bind]
      rfl
  · rw [if_neg hlt]

/-- A record beyond the page's LSN whose change comes next is made. -/
theorem redo_next (hp : p.Holds c) (hc : c.apply ch = some c') (hl : lsn < 2 ^ 64)
    (hlt : p.lsn < lsn) : ∃ q, ch.redo lsn p = .ok q ∧ q.Holds c' ∧ (q = p ∨ q.lsn = lsn) := by
  unfold Change.redo
  rw [if_pos hlt]
  cases ch with
  | insert slot_id tuple_data =>
    obtain ⟨rfl, -, -⟩ := apply_insert hc
    obtain ⟨q, hq, hholds, -⟩ := hp.insert_tuple hc
    have hunused : p.is_slot_used c.slots.length = .ok false := by
      rw [is_slot_used_eq hp.1, getElem?_eq_none (le_rfl)]
      rfl
    have hins : insert_ignoring_err tuple_data p = .ok ((), q) := by
      rw [insert_ignoring_err, hq]
    refine ⟨q.set_lsn lsn, ?_, hholds.set_lsn lsn, .inr (lsn_set_lsn hl)⟩
    simp only [hunused, hins, bind, Except.bind]
    rfl
  | delete slot_id =>
    obtain ⟨hslot, hc'⟩ := apply_delete hc
    cases hget : c.slots[slot_id] with
    | none =>
      -- the slot was freed before: the second deletion changes nothing
      have hsame : c' = c := by
        rw [hc', ← hget, set_getElem_self]
      have hunused : p.is_slot_used slot_id = .ok false := by
        rw [is_slot_used_eq hp.1, getElem?_eq_getElem hslot, hget]
        rfl
      refine ⟨p, ?_, hsame ▸ hp, .inl rfl⟩
      simp only [hunused, bind, Except.bind]
      rfl
    | some tuple_data =>
      obtain ⟨q, hq, hholds, -⟩ := hp.delete_tuple hc
      have hused : p.is_slot_used slot_id = .ok true := by
        rw [is_slot_used_eq hp.1, getElem?_eq_getElem hslot, hget]
        rfl
      refine ⟨q.set_lsn lsn, ?_, hholds.set_lsn lsn, .inr (lsn_set_lsn hl)⟩
      simp only [hused, hq, bind, Except.bind]
      rfl

/-- A record that the page's LSN has reached although its change comes next: that is
possible only for the deletion of a slot that is free already. -/
theorem redo_next_behind (hp : p.Holds c) (hc : c.apply ch = some c') (hr : Redoable p lsn ch)
    (hge : ¬ p.lsn < lsn) : ch.redo lsn p = .ok p ∧ p.Holds c' := by
  have hskip : ch.redo lsn p = .ok p := if_neg hge
  refine ⟨hskip, ?_⟩
  cases ch with
  | insert slot_id tuple_data =>
    obtain ⟨rfl, -, -⟩ := apply_insert hc
    rw [redoable_insert hp, if_neg hge] at hr
    exact absurd hr (lt_irrefl _)
  | delete slot_id =>
    obtain ⟨hslot, hc'⟩ := apply_delete hc
    have hunused := ((redoable_delete hp).mp hr).resolve_left hge
    rw [is_slot_used_eq hp.1, getElem?_eq_getElem hslot] at hunused
    have hget : c.slots[slot_id] = none := by
      cases hget : c.slots[slot_id] with
      | none => rfl
      | some tuple_data =>
        simp [hget] at hunused
    have hsame : c' = c := by
      rw [hc', ← hget, set_getElem_self]
    rwa [hsame]

/-- **Redo of one page, under way.** `D` is the page on disk, made of the changes `es`; `H`
are all changes ever made to it, and `done` the records of the page that redo has seen. -/
structure Redone (D : Page) (es H : List Change) (done : List (Lsn × Change)) (p : Page) : Prop where
  built : p.Built (H.take (max done.length es.length))
  waiting : done.length ≤ es.length → p = D
  lsn : p = D ∨ ∃ x ∈ done, p.lsn = x.1

/-- Before the first record. -/
theorem Redone.start (hD : D.Built es) (hes : es <+: H) : Redone D es H [] D := by
  refine ⟨?_, fun _ => rfl, .inl rfl⟩
  rwa [length_nil, Nat.zero_max, ← prefix_iff_eq_take.mp hes]

/-- **One record.** Either the page contains the change and stays as it is, or it contains
exactly the changes before it and makes it. -/
theorem Redone.step {done : List (Lsn × Change)} (h : Redone D es H done p) (hD : D.Built es)
    (hes : es <+: H) (hH : ∃ c, replay H empty = some c)
    (hnext : (done ++ [(lsn, ch)]).map Prod.snd <+: H) (hlater : ∀ x ∈ done, x.1 < lsn)
    (hl : lsn < 2 ^ 64) (hr : Redoable D lsn ch) :
    ∃ q, ch.redo lsn p = .ok q ∧ Redone D es H (done ++ [(lsn, ch)]) q := by
  have hget : H[done.length]? = some ch := by
    have := prefix_iff_getElem?.mp hnext done.length (by simp)
    simpa using this
  have hlen : (done ++ [(lsn, ch)]).length = done.length + 1 := by simp
  by_cases hlt : done.length < es.length
  · -- the change is one of those on disk
    obtain rfl := h.waiting (le_of_lt hlt)
    have hin : ch ∈ es := by
      have := (prefix_iff_getElem?.mp hes done.length hlt).symm.trans hget
      rw [← Option.some.inj this]
      exact getElem_mem hlt
    refine ⟨p, redo_contained hD hin hr, ?_, fun _ => rfl, .inl rfl⟩
    have hb := h.built
    rw [max_eq_right (le_of_lt hlt)] at hb
    rwa [hlen, max_eq_right (Nat.succ_le_of_lt hlt)]
  · have hle : es.length ≤ done.length := Nat.le_of_not_lt hlt
    have htake : H.take (done.length + 1) = H.take done.length ++ [ch] := by
      rw [take_add_one, hget]
      rfl
    obtain ⟨c, hc, hp⟩ := h.built
    rw [max_eq_left hle] at hc
    obtain ⟨cH, hcH⟩ := hH
    -- all of the changes fit, so the next one does
    obtain ⟨c', hc'⟩ : ∃ c', c.apply ch = some c' := by
      rw [← take_append_drop (done.length + 1) H, htake] at hcH
      obtain ⟨c1, h1, -⟩ := replay_append.mp hcH
      obtain ⟨c2, h2, h3⟩ := replay_append.mp h1
      rw [hc, Option.some.injEq] at h2
      obtain ⟨c3, h4, -⟩ := replay_cons.mp h3
      exact ⟨c3, h2 ▸ h4⟩
    have hbuilt : ∀ q : Page, q.Holds c' → q.Built (H.take
      (max (done ++ [(lsn, ch)]).length es.length)) := by
      intro q hq
      rw [hlen, max_eq_left (Nat.le_succ_of_le hle), htake]
      exact ⟨c', replay_snoc hc hc', hq⟩
    have hno : ¬ (done ++ [(lsn, ch)]).length ≤ es.length := by
      rw [hlen]
      omega
    have hmade : p.lsn < lsn → ∃ q, ch.redo lsn p = .ok q
        ∧ Redone D es H (done ++ [(lsn, ch)]) q := by
      intro hbehind
      obtain ⟨q, hq, hholds, hcase⟩ := redo_next hp hc' hl hbehind
      refine ⟨q, hq, hbuilt q hholds, fun hx => absurd hx hno, ?_⟩
      rcases hcase with rfl | hlsn
      · exact h.lsn.imp_right fun ⟨x, hx, heq⟩ => ⟨x, mem_append_left _ hx, heq⟩
      · exact .inr ⟨(lsn, ch), mem_append_right _ mem_cons_self, hlsn⟩
    rcases h.lsn with rfl | ⟨x, hx, heq⟩
    · by_cases hbehind : p.lsn < lsn
      · exact hmade hbehind
      · obtain ⟨hskip, hholds⟩ := redo_next_behind hp hc' hr hbehind
        exact ⟨p, hskip, hbuilt p hholds, fun hx => absurd hx hno, .inl rfl⟩
    · exact hmade (heq ▸ hlater x hx)

end OnePage

/-! ## Any initialised page

Redo of any records returns on a page that was initialised, and it keeps a tuple unless a
record above the page's LSN deletes its slot. -/

section AnyPage

variable {p : Page} {c : Contents}

/-- Adding a tuple where there is room, and nothing otherwise. -/
theorem insert_ignoring_err_cases (hp : p.Holds c) (tuple_data : List UInt8) :
    ∃ q c', insert_ignoring_err tuple_data p = .ok ((), q) ∧ q.Holds c'
      ∧ ∀ (i : ℕ) (o : Option (List UInt8)), c.slots[i]? = some o → c'.slots[i]? = some o := by
  rcases hp.insert_tuple_cases tuple_data with ⟨q, c', hins, happ, hq⟩ | ⟨err, hins⟩
  · refine ⟨q, c', by rw [insert_ignoring_err, hins], hq, fun i o hi => ?_⟩
    exact apply_get happ hi (.inr nofun)
  · exact ⟨p, c, by rw [insert_ignoring_err, hins], hp, fun _ _ hi => hi⟩

/-- **One record on any page.** -/
theorem redo_effect (hp : p.Holds c) (hl : lsn < 2 ^ 64) (ch : Change) :
    ∃ q c', ch.redo lsn p = .ok q ∧ q.Holds c' ∧ (q = p ∨ p.lsn < lsn ∧ q.lsn = lsn)
      ∧ ∀ (i : ℕ) (tuple_data : List UInt8), c.slots[i]? = some (some tuple_data) →
        (p.lsn < lsn → ch ≠ .delete i) → c'.slots[i]? = some (some tuple_data) := by
  unfold Change.redo
  split_ifs with hlt
  · cases ch with
    | insert slot_id tuple_data =>
      simp only [is_slot_used_eq hp.1, bind, Except.bind]
      by_cases hused : c.slots[slot_id]?.join.isSome = true
      · rw [if_pos hused]
        exact ⟨p, c, rfl, hp, .inl rfl, fun _ _ hi _ => hi⟩
      · obtain ⟨q, c', hins, hq, hkeep⟩ := insert_ignoring_err_cases hp tuple_data
        rw [if_neg hused]
        refine ⟨q.set_lsn lsn, c', by rw [hins]; rfl, hq.set_lsn lsn,
          .inr ⟨hlt, lsn_set_lsn hl⟩, fun i d hi _ => hkeep i _ hi⟩
    | delete slot_id =>
      simp only [is_slot_used_eq hp.1, bind, Except.bind]
      split_ifs with hused
      · rcases hp.delete_tuple_cases slot_id with ⟨q, c', hdel, happ, hq⟩ | ⟨err, hdel⟩
        · refine ⟨q.set_lsn lsn, c', by rw [hdel]; rfl, hq.set_lsn lsn,
            .inr ⟨hlt, lsn_set_lsn hl⟩, fun i d hi hno => ?_⟩
          exact apply_get happ hi (.inr (hno hlt))
        · -- a used slot is one of the page's
          exfalso
          have hslot : slot_id < c.slots.length := by
            by_contra hout
            simp [getElem?_eq_none (Nat.le_of_not_lt hout)] at hused
          have happ : c.apply (.delete slot_id) = some ⟨c.slots.set slot_id none, c.free⟩ := by
            rw [apply, if_pos hslot]
          obtain ⟨q, hq, -⟩ := hp.delete_tuple happ
          simp [hdel] at hq
      · exact ⟨p, c, rfl, hp, .inl rfl, fun _ _ hi _ => hi⟩
  · exact ⟨p, c, rfl, hp, .inl rfl, fun _ _ hi _ => hi⟩

/-- Redo of the records of one page. -/
def redo_page (recs : List (Lsn × Change)) (p : Page) : Except Fault Page :=
  recs.foldlM (fun p x => x.2.redo x.1 p) p

theorem redo_page_append {recs recs' : List (Lsn × Change)} {q : Page}
    (h : redo_page recs p = .ok q) : redo_page (recs ++ recs') p = redo_page recs' q := by
  unfold redo_page at h ⊢
  rw [foldlM_append, h]
  rfl

theorem redo_page_singleton : redo_page [(lsn, ch)] p = ch.redo lsn p := by
  unfold redo_page
  rw [foldlM_cons]
  cases ch.redo lsn p with
  | ok r | error x => rfl

theorem redo_reached (h : ¬ p.lsn < lsn) : ch.redo lsn p = .ok p := by
  unfold Change.redo
  rw [if_neg h]

/-- **A second redo.** A record that was passed over is passed over again: nothing has changed
the page since, or a later record has stamped it. -/
theorem redo_page_again (recs : List (Lsn × Change)) : ∀ {p q : Page} {c : Contents},
    p.Holds c → (∀ x ∈ recs, x.1 < 2 ^ 64) → recs.Pairwise (fun x y => x.1 < y.1) →
    redo_page recs p = .ok q →
    (∃ c', q.Holds c') ∧ (q = p ∨ ∃ x ∈ recs, q.lsn = x.1) ∧ redo_page recs q = .ok q := by
  induction recs with
  | nil =>
    intro p q c hp _ _ h
    cases h
    exact ⟨⟨c, hp⟩, .inl rfl, rfl⟩
  | cons x recs ih =>
    intro p q c hp hb hsorted h
    obtain ⟨p1, c1, h1, hp1, hlsn, -⟩ := redo_effect hp (hb x mem_cons_self) x.2
    obtain ⟨hlater, hsorted⟩ := pairwise_cons.mp hsorted
    have hfirst : ∀ {r r' : Page}, x.2.redo x.1 r = .ok r' →
        redo_page (x :: recs) r = redo_page recs r' := fun hr =>
      redo_page_append (redo_page_singleton.trans hr)
    rw [hfirst h1] at h
    obtain ⟨hc, hq, hagain⟩ := ih hp1 (fun y hy => hb y (mem_cons_of_mem _ hy)) hsorted h
    refine ⟨hc, ?_⟩
    rcases hq with rfl | ⟨y, hy, heq⟩
    · rcases hlsn with rfl | ⟨-, hlsn⟩
      · exact ⟨.inl rfl, (hfirst h1).trans hagain⟩
      · exact ⟨.inr ⟨x, mem_cons_self, hlsn⟩, (hfirst (redo_reached hlsn.not_lt)).trans hagain⟩
    · have hover : ¬ q.lsn < x.1 := by
        rw [heq]
        exact (hlater y hy).not_gt
      exact ⟨.inr ⟨y, mem_cons_of_mem _ hy, heq⟩, (hfirst (redo_reached hover)).trans hagain⟩

/-- **All records of a redoable page.** -/
theorem redone_of_page {D : Page} {es H : List Change} (hD : D.Built es) (hes : es <+: H)
    (hH : ∃ c, replay H empty = some c) (recs : List (Lsn × Change))
    (hlog : recs.map Prod.snd <+: H) (hsorted : recs.Pairwise fun x y => x.1 < y.1)
    (hrecs : ∀ x ∈ recs, x.1 < 2 ^ 64 ∧ Redoable D x.1 x.2) :
    ∃ p, redo_page recs D = .ok p ∧ Redone D es H recs p := by
  induction recs using reverseRecOn with
  | nil => exact ⟨D, rfl, Redone.start hD hes⟩
  | append_singleton recs x ih =>
    obtain ⟨lsn, ch⟩ := x
    obtain ⟨hpair, -, hlater⟩ := pairwise_append.mp hsorted
    have hpre : recs.map Prod.snd <+: H := by
      refine List.IsPrefix.trans ?_ hlog
      rw [map_append]
      exact prefix_append _ _
    obtain ⟨p, hp, hdone⟩ := ih hpre hpair fun x hx => hrecs x (mem_append_left _ hx)
    obtain ⟨hl, hr⟩ := hrecs (lsn, ch) (mem_append_right _ mem_cons_self)
    obtain ⟨q, hq, hdone'⟩ := hdone.step hD hes hH hlog
      (fun x hx => hlater x hx _ mem_cons_self) hl hr
    exact ⟨q, by rw [redo_page_append hp, redo_page_singleton]; exact hq, hdone'⟩

end AnyPage

/-! ## The pool -/

section Pool

variable {s : BufferPool} {a : Image} {pid : PageId} {p : Page}

theorem unpin_unchanged {f : FrameId} (h : s.Stands ∅ (a.pin pid) [(pid, f)]) :
    wp (unpin_page pid false) (fun _ s' => s'.Stands ∅ (a.put pid (a.view pid)) []) never s := by
  rw [Image.put_self]
  exact unpin_clean h

/-- A change of a pinned page, the stamp, and the end of the pin. -/
theorem change_and_stamp {f : FrameId} {op : Page → Except Fault (Unit × Page)}
    (h : s.Stands ∅ (a.pin pid) [(pid, f)]) (hop : op (a.view pid) = .ok ((), p)) :
    wp (do
        page_mut f op
        page_mut f (fun p => .ok ((), p.set_lsn lsn))
        unpin_page pid true)
      (fun _ s' => s'.Stands ∅ (a.put pid (p.set_lsn lsn)) []) never s := by
  refine wp_then (page_mut_rule h mem_cons_self hop) ?_
  rintro - s1 ⟨-, h1⟩
  refine wp_then (page_mut_again h1 mem_cons_self (x := ()) rfl) ?_
  rintro - s2 ⟨-, h2⟩
  exact unpin_changed h2 nofun

/-- Both halves of `redo_record`. -/
theorem redo_change_rule (h : s.Stands ∅ a []) (h0 : pid ≠ 0) (hlen : pid < a.len)
    (hroom : Room a.pins a.size 1) (ch : Change) (hp : ch.redo lsn (a.view pid) = .ok p) :
    wp (match ch with
      | .insert slot_id tuple_data => redo_insert pid slot_id tuple_data lsn
      | .delete slot_id => redo_delete pid slot_id lsn)
      (fun _ s' => s'.Stands ∅ (a.put pid p) []) never s := by
  cases ch
  all_goals
    refine wp_then (fetch_rule h h0 hlen hroom) ?_
    rintro f s1 h1
    refine page_then h1 rfl ?_
    rw [Image.pin_view]
    unfold Change.redo at hp
    by_cases hlt : (a.view pid).lsn < lsn
    · rw [if_pos hlt] at hp ⊢
      obtain ⟨used, hused, hp⟩ := bind_ok hp
      refine page_then h1 hused ?_
      cases used
      all_goals
        first
        | -- the page has the change
          cases hp
          exact unpin_unchanged h1
        | obtain ⟨r, hr, hp⟩ := bind_ok hp
          cases hp
          exact change_and_stamp h1 (by simp [hr])
    · rw [if_neg hlt] at hp ⊢
      cases hp
      exact unpin_unchanged h1

end Pool

/-! ## The whole log -/

/-- The page a record is about, and its change. The reader never returns `HeapUpdate`. -/
def change_of : WalRecord → Option (PageId × Change)
  | .HeapInsert _ page_id slot_id tuple_data => some (page_id, .insert slot_id tuple_data)
  | .HeapDelete _ page_id slot_id _ => some (page_id, .delete slot_id)
  | _ => none

/-- A record of the log is redoable on the page it names, if it names one. -/
def RedoableOn (disk : PageId → Page) (rec : DecodedRecord) : Prop :=
  match change_of rec.record with
  | some (page_id, ch) => Redoable (disk page_id) rec.lsn ch
  | none => True

instance (disk : PageId → Page) (rec : DecodedRecord) : Decidable (RedoableOn disk rec) := by
  unfold RedoableOn
  split <;> infer_instance

/-- The records of one page, in order. -/
def changes_on (q : PageId) (log : List DecodedRecord) : List (Lsn × Change) :=
  log.filterMap fun e =>
    match change_of e.record with
    | some (pid, ch) => if pid = q then some (e.lsn, ch) else none
    | none => none

section Log

variable {q pid : PageId} {log done : List DecodedRecord} {e : DecodedRecord}

theorem changes_on_append (q : PageId) (log log' : List DecodedRecord) :
    changes_on q (log ++ log') = changes_on q log ++ changes_on q log' := filterMap_append

theorem mem_changes_on {lsn : Lsn} : (lsn, ch) ∈ changes_on q log ↔
    ∃ e ∈ log, e.lsn = lsn ∧ change_of e.record = some (q, ch) := by
  unfold changes_on
  rw [mem_filterMap]
  constructor
  · rintro ⟨e, he, heq⟩
    cases hc : change_of e.record with
    | none =>
      simp [hc] at heq
    | some r =>
      rw [hc] at heq
      simp only [Option.ite_none_right_eq_some, Option.some.injEq, Prod.mk.injEq] at heq
      obtain ⟨rfl, rfl, rfl⟩ := heq
      exact ⟨e, he, rfl, hc⟩
  · rintro ⟨e, he, rfl, hc⟩
    refine ⟨e, he, ?_⟩
    rw [hc]
    exact if_pos rfl

theorem changes_on_sorted (h : log.Pairwise fun e e' => e.lsn < e'.lsn) :
    (changes_on q log).Pairwise fun x y => x.1 < y.1 := by
  refine List.Pairwise.filterMap _ ?_ h
  intro e e' hlt x hx y hy
  have hlsn : ∀ (e : DecodedRecord) (x : Lsn × Change), x ∈ (match change_of e.record with
      | some (pid, ch) => if pid = q then some (e.lsn, ch) else none
      | none => none) → x.1 = e.lsn := by
    intro e x hx
    cases hc : change_of e.record with
    | none => rw [hc] at hx; cases hx
    | some r =>
      simp only [hc, Option.mem_def, Option.ite_none_right_eq_some, Option.some.injEq] at hx
      rw [← hx.2]
  rwa [hlsn e x hx, hlsn e' y hy]

theorem changes_on_singleton (hc : change_of e.record = some (pid, ch)) :
    changes_on q [e] = if pid = q then [(e.lsn, ch)] else [] := by
  by_cases hq : pid = q <;> simp [changes_on, hc, hq]

theorem changes_on_other (hc : change_of e.record = none) : changes_on q [e] = [] := by
  simp [changes_on, hc]

/-- What redo needs to know of a crash: the log is in order, each page it names was written
to disk with some of the changes made to it, and each of its records is redoable there. -/
structure Replayable (disk : PageId → Page) (len : ℕ) (es H : PageId → List Change)
    (log : List DecodedRecord) : Prop where
  sorted : log.Pairwise fun e e' => e.lsn < e'.lsn
  bound : ∀ e ∈ log, e.lsn < 2 ^ 64
  readable : ∀ e ∈ log, e.record.Readable
  named : ∀ e ∈ log, ∀ pid ch, change_of e.record = some (pid, ch) →
    pid ≠ 0 ∧ pid < len ∧ (disk pid).Built (es pid) ∧ Redoable (disk pid) e.lsn ch
  on_disk : ∀ q, es q <+: H q
  logged : ∀ q, (changes_on q log).map Prod.snd <+: H q
  possible : ∀ q, ∃ c, Contents.replay (H q) Contents.empty = some c

variable {disk : PageId → Page} {len : ℕ} {es H : PageId → List Change} {s : BufferPool} {a : Image}

/-- The pages of a database during redo, with `done` the records seen. -/
def Redoing (disk : PageId → Page) (es H : PageId → List Change) (log done : List DecodedRecord)
    (view : PageId → Page) : Prop :=
  ∀ q, changes_on q log ≠ [] → Redone (disk q) (es q) (H q) (changes_on q done) (view q)

/-- A record of no heap page. The reader never returns `HeapUpdate`. -/
theorem redo_record_other (hc : change_of e.record = none) (hread : e.record.Readable) :
    redo_record e = pure () := by
  unfold redo_record
  cases hrec : e.record with
  | HeapInsert | HeapDelete => rw [hrec] at hc; cases hc
  | HeapUpdate => rw [hrec] at hread; exact hread.elim
  | XactCommit | XactAbort | Checkpoint => rfl

theorem redo_record_named {p : Page} (hc : change_of e.record = some (pid, ch))
    (h : s.Stands ∅ a []) (h0 : pid ≠ 0) (hlt : pid < a.len) (hroom : Room a.pins a.size 1)
    (hp : ch.redo e.lsn (a.view pid) = .ok p) :
    wp (redo_record e) (fun _ s' => s'.Stands ∅ (a.put pid p) []) never s := by
  unfold redo_record
  cases hrec : e.record with
  | HeapInsert =>
    rw [hrec] at hc
    cases hc
    exact redo_change_rule h h0 hlt hroom (.insert _ _) hp
  | HeapDelete =>
    rw [hrec] at hc
    cases hc
    exact redo_change_rule h h0 hlt hroom (.delete _) hp
  | HeapUpdate | XactCommit | XactAbort | Checkpoint => rw [hrec] at hc; cases hc

/-- The log can be read, and the pages it names are initialised pages of the database. -/
structure Initialised (view : PageId → Page) (len : ℕ) (log : List DecodedRecord) : Prop where
  bound : ∀ e ∈ log, e.lsn < 2 ^ 64
  readable : ∀ e ∈ log, e.record.Readable
  named : ∀ e ∈ log, ∀ pid ch, change_of e.record = some (pid, ch) →
    pid ≠ 0 ∧ pid < len ∧ ∃ c, (view pid).Holds c

/-- **Redo, page by page.** Every record is seen, each page becomes what its own records
make of it, and no pin is left. -/
theorem redo_all_pages (log : List DecodedRecord) : ∀ {s : BufferPool} {a : Image},
    Initialised a.view a.len log → s.Stands ∅ a [] → Room a.pins a.size 1 →
    wp (redo_all log)
      (fun _ s' => ∃ view', s'.Stands ∅ { a with view := view' } []
        ∧ ∀ q, redo_page (changes_on q log) (a.view q) = .ok (view' q)) never s := by
  induction log with
  | nil =>
    intro s a _ h _
    exact ⟨a.view, h, fun q => rfl⟩
  | cons e log ih =>
    intro s a hI h hroom
    have he : e ∈ e :: log := mem_cons_self
    have hsplit : ∀ q, changes_on q (e :: log) = changes_on q [e] ++ changes_on q log :=
      fun q => changes_on_append q [e] log
    unfold redo_all
    cases hc : change_of e.record with
    | none =>
      rw [redo_record_other hc (hI.readable e he), pure_bind]
      have hI' : Initialised a.view a.len log :=
        ⟨fun x hx => hI.bound x (mem_cons_of_mem _ hx),
          fun x hx => hI.readable x (mem_cons_of_mem _ hx),
          fun x hx => hI.named x (mem_cons_of_mem _ hx)⟩
      refine wp_imp (ih hI' h hroom) ?_
      rintro - s' ⟨view', h', hview⟩
      refine ⟨view', h', fun q => ?_⟩
      rw [hsplit, changes_on_other hc]
      exact hview q
    | some r =>
      obtain ⟨pid, ch⟩ := r
      obtain ⟨h0, hlt, c, hholds⟩ := hI.named e he pid ch hc
      obtain ⟨p, c', hp, hholds', -⟩ := redo_effect hholds (hI.bound e he) ch
      refine wp_then (redo_record_named hc h h0 hlt hroom hp) ?_
      rintro - s1 h1
      have hI' : Initialised (a.put pid p).view (a.put pid p).len log := by
        refine ⟨fun x hx => hI.bound x (mem_cons_of_mem _ hx),
          fun x hx => hI.readable x (mem_cons_of_mem _ hx), fun x hx q ch' hq => ?_⟩
        obtain ⟨hq0, hqlt, cq, hcq⟩ := hI.named x (mem_cons_of_mem _ hx) q ch' hq
        refine ⟨hq0, hqlt, ?_⟩
        show ∃ c, (update a.view pid p q).Holds c
        by_cases hqp : q = pid
        · subst hqp
          rw [update_self]
          exact ⟨c', hholds'⟩
        · rw [update_of_ne hqp]
          exact ⟨cq, hcq⟩
      refine wp_imp (ih hI' h1 hroom) ?_
      rintro - s' ⟨view', h', hview⟩
      refine ⟨view', h', fun q => ?_⟩
      have hq : redo_page (changes_on q log) (update a.view pid p q) = .ok (view' q) :=
        hview q
      rw [hsplit, changes_on_singleton hc]
      -- the page of the record takes one change more, every other page none
      by_cases hqp : pid = q
      · subst hqp
        rw [update_self] at hq
        rwa [if_pos rfl, redo_page, foldlM_append, foldlM_cons, hp]
      · rw [update_of_ne (Ne.symm hqp)] at hq
        rwa [if_neg hqp]

/-- **Redo.** The pages named in the log are redone. -/
theorem redo_all_rule (hR : Replayable disk len es H log) (h : s.Stands ∅ a [])
    (hlen : a.len = len) (hroom : Room a.pins a.size 1) (hview : a.view = disk) :
    wp (redo_all log)
      (fun _ s' => ∃ view', s'.Stands ∅ { a with view := view' } []
        ∧ Redoing disk es H log log view') never s := by
  have hI : Initialised a.view a.len log := by
    refine ⟨hR.bound, hR.readable, fun e he pid ch hc => ?_⟩
    obtain ⟨h0, hlt, ⟨c, -, hholds⟩, -⟩ := hR.named e he pid ch hc
    rw [hlen, hview]
    exact ⟨h0, hlt, c, hholds⟩
  refine wp_imp (redo_all_pages log hI h hroom) ?_
  rintro - s' ⟨view', h', hpages⟩
  refine ⟨view', h', fun q hne => ?_⟩
  have hbuilt : (disk q).Built (es q) := by
    obtain ⟨⟨lsn, ch⟩, hin⟩ := exists_mem_of_ne_nil _ hne
    obtain ⟨e, he, -, hc⟩ := mem_changes_on.mp hin
    exact (hR.named e he q ch hc).2.2.1
  have hrecs : ∀ x ∈ changes_on q log, x.1 < 2 ^ 64 ∧ Redoable (disk q) x.1 x.2 := by
    rintro ⟨lsn, ch⟩ hin
    obtain ⟨e, he, rfl, hc⟩ := mem_changes_on.mp hin
    exact ⟨hR.bound e he, (hR.named e he q ch hc).2.2.2⟩
  obtain ⟨p, hp, hdone⟩ := redone_of_page hbuilt (hR.on_disk q) (hR.possible q) _ (hR.logged q)
    (changes_on_sorted hR.sorted) hrecs
  have heq := hpages q
  rw [hview, hp] at heq
  rwa [← Except.ok.inj heq]

/-! ### Twice -/

theorem Initialised.again {view : PageId → Page} (hI : Initialised view len log)
    (hsorted : log.Pairwise fun e e' => e.lsn < e'.lsn) {p : Page}
    (hp : redo_page (changes_on q log) (view q) = .ok p) :
    (changes_on q log ≠ [] → ∃ c, p.Holds c) ∧ redo_page (changes_on q log) p = .ok p := by
  by_cases hnil : changes_on q log = []
  · rw [hnil]
    exact ⟨fun h => absurd rfl h, rfl⟩
  · obtain ⟨⟨lsn, ch⟩, hin⟩ := exists_mem_of_ne_nil _ hnil
    obtain ⟨e, he, -, hc⟩ := mem_changes_on.mp hin
    obtain ⟨-, -, c, hholds⟩ := hI.named e he q ch hc
    have hbound : ∀ x ∈ changes_on q log, x.1 < 2 ^ 64 := by
      intro x hx
      obtain ⟨e', he', hlsn, -⟩ := mem_changes_on.mp hx
      exact hlsn ▸ hI.bound e' he'
    obtain ⟨hc', -, hagain⟩ := redo_page_again _ hholds hbound (changes_on_sorted hsorted) hp
    exact ⟨fun _ => hc', hagain⟩

/-- **Redo is idempotent.** -/
theorem redo_recover_idempotent {wal : WalManager} {s' : BufferPool} (h : s.Coherent ∅ none)
    (hroom : Room s.pins s.pool_size 1) (hlog : wal.records = (log, none))
    (hI : Initialised s.view s.disk.len log) (hsorted : log.Pairwise fun e e' => e.lsn < e'.lsn)
    (hok : redo_recover wal s = .ok () s') :
    ∃ s'', redo_recover wal s' = .ok () s'' ∧ ∀ q, q ≠ 0 → s''.view q = s'.view q := by
  rw [redo_recover_eq hlog] at hok ⊢
  have hfirst := redo_all_pages log hI h.stands hroom
  unfold wp at hfirst
  rw [hok] at hfirst
  obtain ⟨view', h', hview⟩ := hfirst
  have hI' : Initialised view' s.disk.len log := by
    refine ⟨hI.bound, hI.readable, fun e he pid ch hc => ?_⟩
    obtain ⟨h0, hlt, -⟩ := hI.named e he pid ch hc
    exact ⟨h0, hlt, (hI.again hsorted (hview pid)).1
      (ne_nil_of_mem (mem_changes_on.mpr ⟨e, he, rfl, hc⟩))⟩
  obtain ⟨⟨⟩, s'', hrun, view'', h'', hview'⟩ := exists_ok_of_wp (redo_all_pages log hI' h' hroom)
  refine ⟨s'', hrun, fun q hq => ?_⟩
  rw [h''.view q hq, h'.view q hq]
  exact Except.ok.inj ((hview' q).symm.trans (hI.again hsorted (hview q)).2)

/-- A commit and an insertion, on a new page. -/
theorem redo_recover_idempotent_insert : ∃ (wal : WalManager) (s s' s'' : BufferPool),
    wal.records = ([⟨0, 0, 1, .XactCommit 0⟩, ⟨42, 0, 1, .HeapInsert 1 1 0 [7]⟩], none)
      ∧ redo_recover wal s = .ok () s' ∧ redo_recover wal s' = .ok () s''
      ∧ ∀ q, q ≠ 0 → s''.view q = s'.view q := by
  have hlog := WalManager.records_of_logged (WalManager.open_logged (fun _ => 0) (fun _ => rfl)
    (show Laid 0 [⟨0, 0, 1, .XactCommit 0⟩, ⟨42, 0, 1, .HeapInsert 1 1 0 [7]⟩] from
      ⟨rfl, rfl, trivial⟩) (by simp [Storable, WalRecord.Readable]; decide) (by decide))
  have h := new_coherent (d := ⟨Page.new, 2, 2, fun _ => true, 0⟩)
    ⟨fun _ => rfl, rfl, by decide, by decide⟩ 1
  have hroom := room_new one_pos ⟨Page.new, 2, 2, fun _ => true, 0⟩
  have hI : Initialised (BufferPool.new 1 ⟨Page.new, 2, 2, fun _ => true, 0⟩).view 2
      [⟨0, 0, 1, .XactCommit 0⟩, ⟨42, 0, 1, .HeapInsert 1 1 0 [7]⟩] := by
    refine ⟨by decide, by simp [WalRecord.Readable], fun e he pid ch hc => ?_⟩
    rcases mem_pair.mp he with rfl | rfl <;> cases hc
    exact ⟨by decide, by decide, Contents.empty, Page.new_slotted 1, Page.new_free_space 1⟩
  obtain ⟨⟨⟩, s', hrun, -⟩ := exists_ok_of_wp (redo_all_pages _ hI h.stands hroom)
  have hok := (congrFun (redo_recover_eq hlog) _).trans hrun
  obtain ⟨s'', hagain⟩ := redo_recover_idempotent h hroom hlog hI (by decide) hok
  exact ⟨_, _, s', s'', hlog, hok, hagain⟩

theorem Initialised.initial {view : PageId → Page} {len : ℕ} (hI : Initialised view len log)
    {pre : List DecodedRecord} (h : pre <+: log) : Initialised view len pre :=
  ⟨fun e he => hI.bound e (h.subset he), fun e he => hI.readable e (h.subset he),
    fun e he => hI.named e (h.subset he)⟩

/-- Redo from any version a page had during an earlier redo. -/
theorem Initialised.resume {view : PageId → Page} {len : ℕ} (hI : Initialised view len log)
    (hsorted : log.Pairwise fun e e' => e.lsn < e'.lsn) {pre : List DecodedRecord} (h : pre <+: log)
    {p : Page} (hp : redo_page (changes_on q pre) (view q) = .ok p) :
    redo_page (changes_on q log) p = redo_page (changes_on q log) (view q) := by
  obtain ⟨post, rfl⟩ := h
  have hp' := ((hI.initial (prefix_append _ _)).again (pairwise_append.mp hsorted).1 hp).2
  rw [changes_on_append, redo_page_append hp', redo_page_append hp]

/-- **Recovery may be interrupted.** A second crash leaves each page in some version it had
during the first redo. Recovery from there ends with the same pages. -/
theorem redo_recover_interrupted {wal : WalManager} {s' s₁ : BufferPool} (h : s.Coherent ∅ none)
    (hroom : Room s.pins s.pool_size 1) (hlog : wal.records = (log, none))
    (hI : Initialised s.view s.disk.len log) (hsorted : log.Pairwise fun e e' => e.lsn < e'.lsn)
    (hok : redo_recover wal s = .ok () s') (h₁ : s₁.Coherent ∅ none)
    (hroom₁ : Room s₁.pins s₁.pool_size 1) (hlen : s₁.disk.len = s.disk.len)
    (hpart : ∀ q, q ≠ 0 → ∃ pre sp, pre <+: log ∧ redo_all pre s = .ok () sp
      ∧ s₁.view q = sp.view q) :
    ∃ s₂, redo_recover wal s₁ = .ok () s₂ ∧ ∀ q, q ≠ 0 → s₂.view q = s'.view q := by
  rw [redo_recover_eq hlog] at hok ⊢
  have hpages : ∀ {pre sp}, pre <+: log → redo_all pre s = .ok () sp → ∀ q, q ≠ 0 →
      redo_page (changes_on q pre) (s.view q) = .ok (sp.view q) := by
    intro pre sp hpre hrun q hq
    obtain ⟨view, hs, hview⟩ := wp_ok (redo_all_pages pre (hI.initial hpre) h.stands hroom) hrun
    rw [hs.view q hq]
    exact hview q
  have hI₁ : Initialised s₁.view s₁.disk.len log := by
    refine ⟨hI.bound, hI.readable, fun e he pid ch hc => ?_⟩
    obtain ⟨h0, hlt, hholds⟩ := hI.named e he pid ch hc
    obtain ⟨pre, sp, hpre, hrun, hview⟩ := hpart pid h0
    refine ⟨h0, hlen ▸ hlt, ?_⟩
    have hp := hpages hpre hrun pid h0
    rw [hview]
    by_cases hnil : changes_on pid pre = []
    · rw [hnil] at hp
      rwa [← Except.ok.inj (show Except.ok (s.view pid) = .ok (sp.view pid) from hp)]
    · exact ((hI.initial hpre).again (hsorted.sublist hpre.sublist) hp).1 hnil
  obtain ⟨⟨⟩, s₂, hrun, view₂, hs₂, hview₂⟩ :=
    exists_ok_of_wp (redo_all_pages log hI₁ h₁.stands hroom₁)
  refine ⟨s₂, hrun, fun q hq => ?_⟩
  obtain ⟨pre, sp, hpre, hrun', hview⟩ := hpart q hq
  have hend := hview₂ q
  rw [show s₁.image.view = s₁.view from rfl, hview, hI.resume hsorted hpre (hpages hpre hrun' q hq),
    hpages (prefix_refl log) hok q hq] at hend
  rw [hs₂.view q hq, Except.ok.inj hend]

/-- Two insertions on new pages. The first redo comes to the second of them. -/
theorem redo_recover_interrupted_between :
    let log : List DecodedRecord := [⟨0, 0, 1, .HeapInsert 1 1 0 [7]⟩, ⟨51, 0, 1, .HeapInsert 1 2 0 [8]⟩]
    ∃ (wal : WalManager) (s s' s₁ s₂ : BufferPool), wal.records = (log, none)
      ∧ redo_recover wal s = .ok () s'
      ∧ redo_all (log.take 1) s = .ok () s₁
      ∧ redo_recover wal s₁ = .ok () s₂ ∧ ∀ q, q ≠ 0 → s₂.view q = s'.view q := by
  intro log
  have hlog := WalManager.records_of_logged (WalManager.open_logged (fun _ => 0) (fun _ => rfl)
    (show Laid 0 log from ⟨rfl, rfl, trivial⟩) (by simp [log, Storable, WalRecord.Readable]; decide)
    (by decide))
  let disk : DiskManager := ⟨Page.new, 3, 3, fun _ => true, 0⟩
  have h := new_coherent (d := disk) ⟨fun _ => rfl, rfl, by decide, by decide⟩ 1
  have hroom := room_new one_pos disk
  have hI : Initialised (BufferPool.new 1 disk).view 3 log := by
    refine ⟨by decide, by simp [log, WalRecord.Readable], fun e he pid ch hc => ?_⟩
    rcases mem_pair.mp he with rfl | rfl <;> cases hc
    all_goals
      exact ⟨by decide, by decide, Contents.empty, Page.new_slotted _, Page.new_free_space _⟩
  obtain ⟨⟨⟩, s', hrun, -⟩ := exists_ok_of_wp (redo_all_pages _ hI h.stands hroom)
  obtain ⟨⟨⟩, s₁, hpart, _, h₁, -⟩ := exists_ok_of_wp
    (redo_all_pages _ (hI.initial (prefix_append [_] [_])) h.stands hroom)
  have hok := (congrFun (redo_recover_eq hlog) _).trans hrun
  obtain ⟨s₂, hagain⟩ := redo_recover_interrupted h hroom hlog hI (by decide) hok h₁.coherent
    (by rw [h₁.pins, h₁.size]; exact hroom) h₁.len
    fun _ _ => ⟨_, s₁, prefix_append [_] [_], hpart, rfl⟩
  exact ⟨_, _, s', s₁, s₂, hlog, hok, hpart, hagain⟩

end Log

end Oigrap.Storage

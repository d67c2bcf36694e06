/-
Grouping a list, and sorting it before or after.

Grouping goes through the list and puts each element into the first group whose leader it
matches, or makes it the leader of a new group. When matching elements are equivalent in the
order, a stable sort keeps the elements of a group in their order and the groups in the
order of their leaders. So sorting the elements and then grouping them is the same as
grouping them and then sorting the groups (`group_insertionSort`).
-/
import Mathlib.Algebra.GroupWithZero.Nat
import Mathlib.Data.List.Sort

namespace Oigrap.Grouping

open List hiding beq_eq_decide

variable {α β : Type} (same : α → α → Bool)

/-! ## Groups -/

section

/-- The first group whose leader matches `x` gets it; else `x` leads a new group. -/
def add : List (α × List α) → α → List (α × List α)
  | [], x => [(x, [])]
  | g :: gs, x => if same g.1 x then (g.1, g.2 ++ [x]) :: gs else g :: add gs x

/-- The groups of a list, each a leader and the others, in the order of the leaders. -/
def group (l : List α) : List (α × List α) := l.foldl (add same) []

theorem foldl_add_cons (a : α) (others : List α) (gs : List (α × List α)) (l : List α) :
    l.foldl (add same) ((a, others) :: gs) =
      (a, others ++ l.filter (same a)) :: (l.filter (! same a ·)).foldl (add same) gs := by
  induction l generalizing others gs with
  | nil => simp
  | cons x l ih =>
    rw [foldl_cons, add]
    cases hx : same a x with
    | true => rw [if_pos rfl, ih]; simp [hx]
    | false => rw [if_neg (by simp), ih]; simp [hx]

/-- The first element leads the elements that match it. -/
theorem group_cons (a : α) (l : List α) :
    group same (a :: l) = (a, l.filter (same a)) :: group same (l.filter (! same a ·)) := by
  rw [group, foldl_cons, add, foldl_add_cons, nil_append]
  rfl

theorem group_induction {motive : List α → Prop} (nil : motive [])
    (cons : ∀ a l, motive (l.filter (! same a ·)) → motive (a :: l)) (l : List α) : motive l := by
  induction hn : l.length using Nat.strong_induction_on generalizing l with
  | _ n ih =>
    cases l with
    | nil => exact nil
    | cons a l =>
      refine cons a l (ih _ ?_ _ rfl)
      have := length_filter_le (! same a ·) l
      rw [length_cons] at hn
      omega

theorem leader_mem {l : List α} {g : α × List α} (h : g ∈ group same l) : g.1 ∈ l := by
  induction l using group_induction same with
  | nil => simp [group] at h
  | cons a l ih =>
    rw [group_cons] at h
    obtain rfl | h := mem_cons.1 h
    · exact mem_cons_self
    · exact mem_cons_of_mem _ (mem_filter.1 (ih h)).1

/-- Lists without matches between them are grouped apart. -/
theorem group_append {l l' : List α} (h : ∀ a ∈ l, ∀ b ∈ l', same a b = false) :
    group same (l ++ l') = group same l ++ group same l' := by
  induction l using group_induction same with
  | nil => rfl
  | cons a l ih =>
    obtain ⟨ha, hl⟩ := forall_mem_cons.1 h
    have hnone : l'.filter (same a) = [] := filter_eq_nil_iff.2 fun b hb => by simp [ha b hb]
    have hall : l'.filter (! same a ·) = l' := filter_eq_self.2 fun b hb => by simp [ha b hb]
    have htail := ih fun x hx => hl x (mem_filter.1 hx).1
    rw [cons_append, group_cons, group_cons, filter_append, filter_append, hnone,
      hall, append_nil, htail, cons_append]

theorem length_group_le (l : List α) : (group same l).length ≤ l.length := by
  induction l using group_induction same with
  | nil => exact le_rfl
  | cons a l ih =>
    rw [group_cons, length_cons, length_cons]
    exact Nat.succ_le_succ (ih.trans (length_filter_le _ _))

theorem group_map (f : β → α) (l : List β) : group same (l.map f) =
      (group (fun a b => same (f a) (f b)) l).map fun g => (f g.1, g.2.map f) := by
  induction l using group_induction (fun a b => same (f a) (f b)) with
  | nil => rfl
  | cons a l ih =>
    rw [map_cons, group_cons, group_cons, filter_map, filter_map, map_cons]
    exact congrArg _ ih

theorem sum_length_group (l : List α) :
    ((group same l).map fun g => g.2.length + 1).sum = l.length := by
  induction l using group_induction same with
  | nil => rfl
  | cons a l ih =>
    have := length_eq_length_filter_add (l := l) (same a)
    simp only [group_cons, map_cons, sum_cons, ih, length_cons]
    omega

/-- The elements with the same key, in the order in which the keys come up. -/
def by_key {κ : Type} [DecidableEq κ] (key : α → κ) (l : List α) : List (List α) :=
  (l.map key).eraseDups.map fun k => l.filter (key · = k)

/-- **Grouping by a key.** -/
theorem group_of_key {κ : Type} [DecidableEq κ] (key : α → κ) {l : List α}
    (h : ∀ a ∈ l, ∀ b, same a b = decide (key a = key b)) :
    ((group same l).map fun g => g.1 :: g.2) = by_key key l := by
  induction l using group_induction same with
  | nil => rfl
  | cons a l ih =>
    obtain ⟨ha, hl⟩ := forall_mem_cons.1 h
    have hother : l.filter (! same a ·) = l.filter (! key · == key a) :=
      filter_congr fun b _ => by simp [ha b, eq_comm, beq_eq_decide]
    rw [group_cons, map_cons, ih fun b hb => hl b (mem_filter.1 hb).1, by_key, by_key,
      map_cons, eraseDups_cons, map_cons, filter_map, hother]
    congr 1
    · rw [filter_cons_of_pos (by simp)]
      exact congrArg _ (filter_congr fun b _ => by simp [ha b, eq_comm])
    · refine map_congr_left fun k hk => ?_
      -- a later key is not the key of `a`
      have hne : k ≠ key a := by
        obtain ⟨b, hb, rfl⟩ := mem_map.1 (mem_eraseDups.1 hk)
        simpa using (mem_filter.1 hb).2
      rw [filter_cons_of_neg (by simpa using hne.symm), filter_filter]
      refine filter_congr fun b _ => ?_
      by_cases hb : key b = k <;> simp [hb, hne]

end

variable (le : α → α → Prop)

/-! ## Sorting -/

section

/-- `le` is a total preorder on the elements of `l`. -/
structure PreorderOn (l : List α) : Prop where
  total : ∀ a ∈ l, ∀ b ∈ l, le a b ∨ le b a
  trans : ∀ a ∈ l, ∀ b ∈ l, ∀ c ∈ l, le a b → le b c → le a c

variable {le} {l : List α}

theorem PreorderOn.mono {l' : List α} (h : PreorderOn le l) (hsub : l' ⊆ l) : PreorderOn le l' where
  total a ha b hb := h.total a (hsub ha) b (hsub hb)
  trans a ha b hb c hc := h.trans a (hsub ha) b (hsub hb) c (hsub hc)

variable {a : α}

theorem PreorderOn.refl (h : PreorderOn le l) (ha : a ∈ l) : le a a :=
  (h.total a ha a ha).elim id id

/-- A sorted list splits at every element into what is below it and what is not. -/
theorem PreorderOn.split {s : List α} (h : PreorderOn le (a :: s)) (hs : s.Pairwise le) :
    ∃ f b, s = f ++ b ∧ (∀ x ∈ f, ¬ le a x) ∧ ∀ x ∈ b, le a x := by
  induction s with
  | nil => exact ⟨[], [], rfl, nofun, nofun⟩
  | cons x s ih =>
    obtain ⟨hx, hs⟩ := pairwise_cons.1 hs
    by_cases hax : le a x
    · refine ⟨[], x :: s, rfl, nofun, forall_mem_cons.2 ⟨hax, fun y hy => ?_⟩⟩
      exact h.trans a (by simp) x (by simp) y (by simp [hy]) hax (hx y hy)
    · obtain ⟨f, b, rfl, hf, hb⟩ := ih (h.mono (cons_subset_cons a (subset_cons_self x s))) hs
      exact ⟨x :: f, b, rfl, forall_mem_cons.2 ⟨hax, hf⟩, hb⟩

theorem orderedInsert_append (le : α → α → Prop) [DecidableRel le] {l l' : List α}
    (h : ∀ b ∈ l, ¬ le a b) (h' : ∀ b ∈ l', le a b) :
    (l ++ l').orderedInsert le a = l ++ a :: l' := by
  induction l with
  | nil =>
    cases l' with
    | nil => rfl
    | cons b l' => exact orderedInsert_cons_of_le _ _ (h' b mem_cons_self)
  | cons b l ih =>
    obtain ⟨hb, hl⟩ := forall_mem_cons.1 h
    rw [cons_append, orderedInsert_of_not_le _ _ hb, ih hl, cons_append]

variable [DecidableRel le]

theorem PreorderOn.pairwise_insertionSort (h : PreorderOn le l) : (l.insertionSort le).Pairwise le := by
  induction l with
  | nil => exact List.Pairwise.nil
  | cons a l ih =>
    have hs := ih (h.mono (subset_cons_self a l))
    have hmem : ∀ x ∈ l.insertionSort le, x ∈ a :: l := fun x hx =>
      mem_cons_of_mem a ((mem_insertionSort le).1 hx)
    obtain ⟨f, b, hsplit, hf, hb⟩ := (h.mono (cons_subset.2 ⟨mem_cons_self, hmem⟩)).split hs
    rw [hsplit] at hs hmem
    obtain ⟨hpf, hpb, -⟩ := pairwise_append.1 hs
    have hxa : ∀ x ∈ f, le x a := fun x hx =>
      (h.total a mem_cons_self x (hmem x (by simp [hx]))).resolve_left (hf x hx)
    rw [insertionSort_cons, hsplit, orderedInsert_append le hf hb]
    refine pairwise_append.2 ⟨hpf, pairwise_cons.2 ⟨hb, hpb⟩, fun x hx y hy => ?_⟩
    obtain rfl | hy := mem_cons.1 hy
    · exact hxa x hx
    · exact h.trans x (hmem x (by simp [hx])) a mem_cons_self y (hmem y (by simp [hy]))
        (hxa x hx) (hb y hy)

theorem PreorderOn.split_insertionSort (h : PreorderOn le (a :: l)) :
    ∃ f b, l.insertionSort le = f ++ b ∧ (a :: l).insertionSort le = f ++ a :: b ∧
      (∀ x ∈ f, ¬ le a x) ∧ (∀ x ∈ b, le a x) ∧ ∀ x, x ∈ f ∨ x ∈ b → x ∈ l := by
  have hmem : ∀ x ∈ l.insertionSort le, x ∈ l := fun x hx => (mem_insertionSort le).1 hx
  obtain ⟨f, b, hs, hf, hb⟩ :=
    (h.mono (cons_subset_cons a hmem)).split (h.mono (subset_cons_self a l)).pairwise_insertionSort
  refine ⟨f, b, hs, ?_, hf, hb, fun x hx => hmem x (hs ▸ mem_append.2 hx)⟩
  rw [insertionSort_cons, hs, orderedInsert_append le hf hb]

/-- Stable sorting and dropping elements commute, also when what is kept is mapped. -/
theorem PreorderOn.filterMap_insertionSort {r : β → β → Prop} [DecidableRel r]
    (h : PreorderOn le l) (w : α → Option β)
    (hw : ∀ a ∈ l, ∀ b ∈ l, ∀ x ∈ w a, ∀ y ∈ w b, (le a b ↔ r x y)) :
    (l.insertionSort le).filterMap w = (l.filterMap w).insertionSort r := by
  induction l with
  | nil => rfl
  | cons a l ih =>
    obtain ⟨f, b, hs, hcons, hf, hb, hfb⟩ := h.split_insertionSort
    have htail := ih (h.mono (subset_cons_self a l)) fun x hx y hy =>
      hw x (mem_cons_of_mem _ hx) y (mem_cons_of_mem _ hy)
    rw [hs, filterMap_append] at htail
    rw [hcons, filterMap_append]
    cases ha : w a with
    | none => rw [filterMap_cons_none ha, filterMap_cons_none ha, htail]
    | some z =>
      rw [filterMap_cons_some ha, filterMap_cons_some ha, insertionSort_cons, ← htail]
      refine (orderedInsert_append r (fun x hx hzx => ?_) fun x hx => ?_).symm
      · obtain ⟨c, hc, hwc⟩ := mem_filterMap.1 hx
        exact hf c hc ((hw a mem_cons_self c (mem_cons_of_mem _ (hfb c (.inl hc))) z ha x hwc).2 hzx)
      · obtain ⟨c, hc, hwc⟩ := mem_filterMap.1 hx
        exact (hw a mem_cons_self c (mem_cons_of_mem _ (hfb c (.inr hc))) z ha x hwc).1 (hb c hc)

theorem PreorderOn.filter_insertionSort (h : PreorderOn le l) (p : α → Bool) :
    (l.insertionSort le).filter p = (l.filter p).insertionSort le := by
  have hw : ∀ a ∈ l, ∀ b ∈ l, ∀ x ∈ Option.guard p a, ∀ y ∈ Option.guard p b, (le a b ↔ le x y) := by
    intro a _ b _ x hx y hy
    rw [(Option.guard_eq_some_iff.1 hx).1, (Option.guard_eq_some_iff.1 hy).1]
  have hmap := h.filterMap_insertionSort (Option.guard p) hw
  rwa [filterMap_eq_filter] at hmap

end

/-! ## Sorting and grouping -/

section

/-- Groups in the order of their leaders. -/
def LeaderLe (g h : α × List α) : Prop := le g.1 h.1

variable {same le} {l : List α}

theorem PreorderOn.group (h : PreorderOn le l) : PreorderOn (LeaderLe le) (group same l) where
  total _ hg _ hg' := h.total _ (leader_mem same hg) _ (leader_mem same hg')
  trans _ ha _ hb _ hc := h.trans _ (leader_mem same ha) _ (leader_mem same hb) _ (leader_mem same hc)

variable [DecidableRel le]

instance : DecidableRel (LeaderLe le) := fun g h => inferInstanceAs (Decidable (le g.1 h.1))

/-- Sorting keeps the elements that match `a` in their order. -/
theorem filter_same_insertionSort {a : α} (hle : PreorderOn le (a :: l))
    (h : ∀ b ∈ l, same a b → le a b ∧ le b a) :
    (l.insertionSort le).filter (same a) = l.filter (same a) := by
  rw [(hle.mono (subset_cons_self a l)).filter_insertionSort]
  refine List.Pairwise.insertionSort_eq (pairwise_of_forall_mem_list fun b hb c hc => ?_)
  obtain ⟨hb, hsb⟩ := mem_filter.1 hb
  obtain ⟨hc, hsc⟩ := mem_filter.1 hc
  exact hle.trans b (mem_cons_of_mem _ hb) a mem_cons_self c (mem_cons_of_mem _ hc)
    (h b hb hsb).2 (h c hc hsc).1

/-- **Sorting, then grouping.** -/
theorem group_insertionSort (hle : PreorderOn le l)
    (h : ∀ a ∈ l, ∀ b ∈ l, same a b → le a b ∧ le b a) :
    group same (l.insertionSort le) = (group same l).insertionSort (LeaderLe le) := by
  induction l using group_induction same with
  | nil => rfl
  | cons a l ih =>
    -- `f` is what stands before `a` in the sorted list, `b` what stands behind it
    obtain ⟨f, b, hs, hcons, hf, hb, hfb⟩ := hle.split_insertionSort
    have hla : ∀ x, x ∈ f ∨ x ∈ b → x ∈ a :: l := fun x hx => mem_cons_of_mem _ (hfb x hx)
    have hleft : ∀ x ∈ f, same a x = false := fun x hx =>
      Bool.eq_false_iff.2 fun hsame => hf x hx (h a mem_cons_self x (hla x (.inl hx)) hsame).1
    have hapart : ∀ x ∈ f, ∀ y ∈ a :: l, le a y → same x y = false := fun x hx y hy hay =>
      Bool.eq_false_iff.2 fun hsame => hf x hx
        (hle.trans a mem_cons_self y hy x (hla x (.inl hx)) hay (h x (hla x (.inl hx)) y hy hsame).2)
    have hmatch : b.filter (same a) = l.filter (same a) := by
      have hall := filter_same_insertionSort hle fun x hx =>
        h a mem_cons_self x (mem_cons_of_mem _ hx)
      rwa [hs, filter_append, filter_eq_nil_iff.2 fun x hx => by simp [hleft x hx],
        nil_append] at hall
    have hl := hle.mono (subset_cons_self a l)
    have hsub : l.filter (! same a ·) ⊆ a :: l := fun x hx => by simp [(mem_filter.1 hx).1]
    have hrest : group same (f ++ b.filter (! same a ·)) =
        (group same (l.filter (! same a ·))).insertionSort (LeaderLe le) := by
      have hfront : f.filter (! same a ·) = f := filter_eq_self.2 fun x hx => by simp [hleft x hx]
      rw [← ih (hle.mono hsub) fun x hx y hy => h x (hsub hx) y (hsub hy),
        ← hl.filter_insertionSort, hs, filter_append, hfront]
    have hsplit : group same (f ++ b.filter (! same a ·)) =
        group same f ++ group same (b.filter (! same a ·)) :=
      group_append same fun x hx y hy =>
        have hy := (mem_filter.1 hy).1
        hapart x hx y (hla y (.inr hy)) (hb y hy)
    have hcut : group same (f ++ a :: b) = group same f ++ group same (a :: b) :=
      group_append same fun x hx y hy => (mem_cons.1 hy).elim
        (fun hya => hya ▸ hapart x hx a mem_cons_self (hle.refl mem_cons_self))
        fun hyb => hapart x hx y (hla y (.inr hyb)) (hb y hyb)
    rw [hcons, hcut, group_cons, hmatch, group_cons, insertionSort_cons, ← hrest, hsplit]
    refine (orderedInsert_append (LeaderLe le) ?_ ?_).symm
    · exact fun g hg => hf g.1 (leader_mem same hg)
    · exact fun g hg => hb g.1 (mem_filter.1 (leader_mem same hg)).1

end

end Oigrap.Grouping

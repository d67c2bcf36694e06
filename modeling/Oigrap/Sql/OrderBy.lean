/-
The comparison of `ORDER BY` as a total preorder.

Values that cannot be compared count as equal, so NULL is equal to every value of a column and
the comparison is not transitive where a column holds NULL and two different values. Where no
item meets that, the items are preorders and so is their lexicographic combination.
-/
import Oigrap.Sql.SelectSpec

namespace Oigrap.Sql

open List

/-! ## Comparisons one after the other -/

section

variable {α : Type} {c d : α → α → Ordering} {l : List α}

section

variable (h : Orders c l)
include h

theorem Orders.refl {a : α} (ha : a ∈ l) : c a a = .eq := by
  have hswap := h.swap a ha a ha
  cases hc : c a a <;> simp_all

theorem Orders.congr (hcd : ∀ a ∈ l, ∀ b ∈ l, d a b = c a b) : Orders d l where
  swap a ha b hb := by rw [hcd b hb a ha, hcd a ha b hb, h.swap a ha b hb]
  trans a ha b hb e he hab hbe := by
    rw [hcd _ ha _ hb] at hab
    rw [hcd _ hb _ he] at hbe
    rw [hcd _ ha _ he]
    exact h.trans a ha b hb e he hab hbe

theorem Orders.lt_of {a b e : α} (ha : a ∈ l) (hb : b ∈ l) (he : e ∈ l)
    (hab : c a b ≠ .gt) (hbe : c b e ≠ .gt) (hlt : c a b = .lt ∨ c b e = .lt) : c a e = .lt := by
  have hae := h.trans a ha b hb e he hab hbe
  cases hc : c a e with
  | lt => rfl
  | gt => exact absurd hc hae
  | eq =>
    have hea : c e a ≠ .gt := by rw [h.swap a ha e he, hc]; nofun
    rcases hlt with hlt | hlt
    · have hba := h.trans b hb e he a ha hbe hea
      rw [h.swap a ha b hb, hlt] at hba
      exact absurd rfl hba
    · have heb := h.trans e he a ha b hb hea hab
      rw [h.swap b hb e he, hlt] at heb
      exact absurd rfl heb

theorem Orders.then (hd : ∀ a ∈ l, Orders d (l.filter (c a · = .eq))) :
    Orders (fun a b => (c a b).then (d a b)) l where
  swap a ha b hb := by
    cases hc : c a b with
    | eq =>
      have hmem : ∀ x ∈ l, c a x = .eq → x ∈ l.filter (c a · = .eq) := fun x hx hax =>
        mem_filter.mpr ⟨hx, decide_eq_true hax⟩
      simp [h.swap a ha b hb, hc, (hd a ha).swap a (hmem a ha (h.refl ha)) b (hmem b hb hc)]
    | _ => simp [h.swap a ha b hb, hc]
  trans a ha b hb e he hab hbe := by
    have hc : c a b ≠ .gt := fun hgt => hab (by simp [hgt])
    have hc' : c b e ≠ .gt := fun hgt => hbe (by simp [hgt])
    by_cases hlt : c a b = .lt ∨ c b e = .lt
    · simp [h.lt_of ha hb he hc hc' hlt]
    · have hab' : c a b = .eq := by cases hx : c a b <;> simp_all
      have hbe' : c b e = .eq := by cases hx : c b e <;> simp_all
      have hae : c a e = .eq := by
        have hea := h.trans e he b hb a ha (by rw [h.swap b hb e he, hbe']; nofun)
          (by rw [h.swap a ha b hb, hab']; nofun)
        have hle := h.trans a ha b hb e he hc hc'
        rw [h.swap a ha e he] at hea
        cases hx : c a e <;> simp_all
      have hmem : ∀ x ∈ l, c a x = .eq → x ∈ l.filter (c a · = .eq) := fun x hx hax =>
        mem_filter.mpr ⟨hx, decide_eq_true hax⟩
      simp only [hab', hbe', hae, Ordering.eq_then] at hab hbe ⊢
      exact (hd a ha).trans a (hmem a ha (h.refl ha)) b (hmem b hb hab') e (hmem e he hae) hab hbe

theorem Orders.reverse : Orders (fun a b => (c a b).swap) l where
  swap a ha b hb := by rw [h.swap a ha b hb]
  trans a ha b hb e he hab hbe := by
    rw [← h.swap a ha b hb] at hab
    rw [← h.swap b hb e he] at hbe
    rw [← h.swap a ha e he]
    exact h.trans e he b hb a ha hbe hab

end

end

/-! ## One item -/

section Items

variable {F : Type} (rt : Runtime F) (schema : List ColumnSchema)

/-- The value of a sort expression on a row where it does not panic. -/
def sort_value (item : OrderByItem F) (row : Row F) : Value F :=
  (eval_or_null rt schema row item.expr).toOption.getD .Null

/-- The comparison of one item. -/
def item_cmp (item : OrderByItem F) (a b : Row F) : Ordering :=
  let cmp := ((sort_value rt schema item a).partial_cmp rt (sort_value rt schema item b)).getD .eq
  if item.asc then cmp else cmp.swap

/-- The values are of one type that is not the floats, or NULL. -/
def OneType (vs : List (Value F)) : Prop :=
  (∀ v ∈ vs, v = .Null ∨ ∃ n, v = .Int64 n) ∨ (∀ v ∈ vs, v = .Null ∨ ∃ s, v = .Text s) ∨
    ∀ v ∈ vs, v = .Null ∨ ∃ b, v = .Bool b

/-- No row has NULL for the item, or all that have a value have equal ones. -/
def NullsApart (item : OrderByItem F) (rows : List (Row F)) : Prop :=
  (∀ r ∈ rows, sort_value rt schema item r ≠ .Null) ∨
    ∀ a ∈ rows, ∀ b ∈ rows, item_cmp rt schema item a b = .eq

/-- The same for every item, among the rows that the items before it leave equal. -/
def NullsApartAll : List (OrderByItem F) → List (Row F) → Prop
  | [], _ => True
  | item :: items, rows => NullsApart rt schema item rows ∧
    ∀ r ∈ rows, NullsApartAll items (rows.filter (item_cmp rt schema item r · = .eq))

variable {rt schema} {item : OrderByItem F} {rows : List (Row F)}

theorem OneType.mono {vs vs' : List (Value F)} (h : OneType vs) (hsub : vs' ⊆ vs) : OneType vs' :=
  h.imp (fun hall v hv => hall v (hsub hv))
    (Or.imp (fun hall v hv => hall v (hsub hv)) fun hall v hv => hall v (hsub hv))

theorem orders_of_key {K : Type} [Ord K] [Std.TransOrd K] (key : Row F → K)
    (h : ∀ a ∈ rows, ∀ b ∈ rows, (sort_value rt schema item a).partial_cmp rt
      (sort_value rt schema item b) = some (compare (key a) (key b))) :
    Orders (item_cmp rt schema item) rows := by
  have hkey : Orders (fun a b => compare (key a) (key b)) rows := by
    refine ⟨fun a _ b _ => Std.OrientedCmp.eq_swap, fun a _ b _ e _ hab hbe => ?_⟩
    have hle := Std.TransCmp.isLE_trans (Ordering.isLE_iff_ne_gt.mpr hab)
      (Ordering.isLE_iff_ne_gt.mpr hbe)
    exact Ordering.isLE_iff_ne_gt.mp hle
  cases hasc : item.asc with
  | true => exact hkey.congr fun a ha b hb => by simp [item_cmp, h a ha b hb, hasc]
  | false => exact hkey.reverse.congr fun a ha b hb => by simp [item_cmp, h a ha b hb, hasc]

theorem NullsApart.orders (h : NullsApart rt schema item rows)
    (htype : OneType (rows.map (sort_value rt schema item))) :
    Orders (item_cmp rt schema item) rows := by
  rcases h with hnull | heq
  · -- the values of one type stand in the order of their contents
    rcases htype with htype | htype | htype <;>
      (have hval := fun r hr => (forall_mem_map.mp htype r hr).resolve_left (hnull r hr)
       choose! key hkey using hval)
    · exact orders_of_key (fun r => (key r).toInt) fun a ha b hb => by
        rw [hkey a ha, hkey b hb]; rfl
    all_goals exact orders_of_key key fun a ha b hb => by rw [hkey a ha, hkey b hb]; rfl
  · have hconst : Orders (fun _ _ : Row F => Ordering.eq) rows :=
      ⟨fun _ _ _ _ => rfl, fun _ _ _ _ _ _ _ _ => nofun⟩
    exact hconst.congr heq

/-- NULL is equal to all, so a row with NULL lies between any two. -/
theorem nullsApart_of_orders (h : Orders (item_cmp rt schema item) rows) :
    NullsApart rt schema item rows := by
  by_contra hnot
  simp only [NullsApart, not_or, not_forall, not_not] at hnot
  obtain ⟨⟨n, hn, hnull⟩, a, ha, b, hb, hne⟩ := hnot
  have hleft : ∀ r, item_cmp rt schema item n r = .eq := by
    intro r
    cases hv : sort_value rt schema item r <;> simp [item_cmp, hnull, hv, Value.partial_cmp]
  have hright : ∀ r, item_cmp rt schema item r n = .eq := by
    intro r
    cases hv : sort_value rt schema item r <;> simp [item_cmp, hnull, hv, Value.partial_cmp]
  have hab := h.trans a ha n hn b hb (by simp [hright]) (by simp [hleft])
  have hba := h.trans b hb n hn a ha (by simp [hright]) (by simp [hleft])
  rw [h.swap a ha b hb] at hba
  cases hc : item_cmp rt schema item a b <;> simp_all

/-! ## The list of items -/

variable {items : List (OrderByItem F)}

theorem order_cmp_eq {a b : Row F} (ha : ∀ item ∈ items, (eval_or_null rt schema a item.expr).isOk)
    (hb : ∀ item ∈ items, (eval_or_null rt schema b item.expr).isOk) :
    order_cmp rt schema items a b = .ok (items.foldr
      (fun item rest => (item_cmp rt schema item a b).then rest) .eq) := by
  induction items with
  | nil => rfl
  | cons item items ih =>
    obtain ⟨ha, has⟩ := forall_mem_cons.mp ha
    obtain ⟨hb, hbs⟩ := forall_mem_cons.mp hb
    rw [order_cmp, foldr_cons, ih has hbs, item_cmp, sort_value, sort_value]
    cases hva : eval_or_null rt schema a item.expr with
    | error _ => rw [hva] at ha; cases ha
    | ok va =>
      cases hvb : eval_or_null rt schema b item.expr with
      | error _ => rw [hvb] at hb; cases hb
      | ok vb =>
        simp only [bind, Except.bind, Except.toOption, Option.getD_some]
        generalize (if item.asc = true then _ else _) = o
        cases o <;> rfl

theorem NullsApartAll.orders (h : NullsApartAll rt schema items rows)
    (htype : ∀ item ∈ items, OneType (rows.map (sort_value rt schema item))) :
    Orders (fun a b => items.foldr (fun item rest => (item_cmp rt schema item a b).then rest) .eq)
      rows := by
  induction items generalizing rows with
  | nil => exact ⟨fun _ _ _ _ => rfl, fun _ _ _ _ _ _ _ _ => nofun⟩
  | cons item items ih =>
    obtain ⟨hitem, hitems⟩ := forall_mem_cons.mp htype
    refine (h.1.orders hitem).then fun r hr => ih (h.2 r hr) fun item hmem => ?_
    exact (hitems item hmem).mono (map_subset _ (filter_subset_self _))

/-- Where no item meets NULL beside two different values, among the rows the earlier items leave
equal, the comparison of `ORDER BY` is a total preorder and the rows come out sorted by it. For
one item this is the only case. -/
theorem order_by_preorder (std : SortBy (Row F)) {items : List (OrderByItem F)}
    (hok : ∀ r ∈ rows, ∀ item ∈ items, (eval_or_null rt schema r item.expr).isOk)
    (htype : ∀ item ∈ items, OneType (rows.map (sort_value rt schema item))) :
    (NullsApartAll rt schema items rows → Orders (order_of rt schema items) rows ∧
      ∀ sel : SelectBody F, sel.order_by = items → ∃ out, order_rows rt std sel schema rows = .ok out ∧
        out.Perm rows ∧ out.Pairwise (OrderLe rt schema items)) ∧
    ∀ item, items = [item] → Orders (order_of rt schema items) rows →
      NullsApartAll rt schema items rows := by
  have horder : ∀ a ∈ rows, ∀ b ∈ rows, order_of rt schema items a b = items.foldr
      (fun item rest => (item_cmp rt schema item a b).then rest) .eq := by
    intro a ha b hb
    rw [order_of, order_cmp_eq (hok a ha) (hok b hb)]
    rfl
  refine ⟨fun h => ?_, ?_⟩
  · have horders := (h.orders htype).congr horder
    refine ⟨horders, ?_⟩
    rintro sel rfl
    refine ⟨_, order_rows_of_orders fun _ => ⟨fun a ha b hb => ?_, horders⟩,
      perm_insertionSort _ _, horders.preorderOn.pairwise_insertionSort⟩
    rw [order_cmp_eq (hok a ha) (hok b hb)]
    rfl
  · rintro item rfl h
    have hitem : Orders (item_cmp rt schema item) rows :=
      h.congr fun a ha b hb => by rw [horder a ha b hb]; simp
    exact ⟨nullsApart_of_orders hitem, fun _ _ => trivial⟩

end Items

/-- `ORDER BY x, y` where one row has NULL for `y`, and no other row its `x`. -/
theorem order_by_preorder_demo :
    let rows : List (Row ℚ) := [[.Int64 1, .Int64 5], [.Int64 2, .Null], [.Int64 1, .Int64 3]]
    let schema := [int_column "x", int_column "y"]
    let items : List (OrderByItem ℚ) := ["x", "y"].map (⟨.ColumnRef none ·, true, false⟩)
    Orders (order_of demo_runtime schema items) rows ∧ ∀ sel : SelectBody ℚ, sel.order_by = items →
      ∃ out, order_rows demo_runtime (insertion_sort_by _) sel schema rows = .ok out ∧
        out.Perm rows ∧ out.Pairwise (OrderLe demo_runtime schema items) := by
  intro rows schema items
  have hapart : NullsApartAll demo_runtime schema items rows := by
    refine ⟨.inl (by decide +kernel), fun r hr => ⟨?_, fun _ _ => trivial⟩⟩
    obtain rfl | rfl | rfl : r = [.Int64 1, .Int64 5] ∨ r = [.Int64 2, .Null] ∨
        r = [.Int64 1, .Int64 3] := by simpa [rows] using hr
    · exact .inl (by decide +kernel)
    · exact .inr (by decide +kernel)
    · exact .inl (by decide +kernel)
  refine (order_by_preorder (insertion_sort_by _) (by decide +kernel) fun item hitem => .inl ?_).1
    hapart
  have hvals : ∀ item ∈ items, rows.map (sort_value demo_runtime schema item) ∈
      [[.Int64 1, .Int64 2, .Int64 1], [.Int64 5, .Null, .Int64 3]] := by decide +kernel
  obtain h | h : _ = _ ∨ _ = _ := by simpa using hvals item hitem
  · rw [h]
    simp
  · rw [h]
    simp

/-- With the values 2, NULL, 1 in a column, 2 is not after NULL, NULL not after 1, and 2 after 1. -/
theorem order_by_null_cycle :
    let cmp := order_of demo_runtime [int_column "x"] [⟨.ColumnRef none "x", true, false⟩]
    cmp [.Int64 2] [.Null] = .eq ∧ cmp [.Null] [.Int64 1] = .eq ∧
      cmp [.Int64 2] [.Int64 1] = .gt := by
  decide +kernel

end Oigrap.Sql

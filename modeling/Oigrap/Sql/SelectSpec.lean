/-
Aggregate queries in the order of SQL.

The source orders and limits the source rows and groups what is left. Ordering before the
grouping is harmless, since `ORDER BY` over grouping columns does not tell the rows of a
group apart (`group_entries_insertionSort`). Limiting is not, and the other paths skip the
two stages. `exec_select_aggregates` says for which tables and queries the answer is
that of SQL.
-/
import Mathlib.Data.List.Permutation
import Oigrap.Sql.Select

namespace Oigrap.Sql

open Grouping List

section

variable {α β : Type} {f : α → Result β} {g : α → β} {l : List α}

theorem toOption_bind (x : Result α) (f : α → Result β) :
    (x >>= f).toOption = x.toOption.bind fun a => (f a).toOption := by
  cases x <;> rfl

theorem mapM_of_ok (h : ∀ x ∈ l, f x = .ok (g x)) : l.mapM f = .ok (l.map g) := by
  induction l with
  | nil => rfl
  | cons x l ih =>
    obtain ⟨hx, hl⟩ := forall_mem_cons.1 h
    rw [mapM_cons, hx, ih hl]
    rfl

theorem mapM_of_error {x : α} (hx : x ∈ l) (h : (f x).toOption = none) :
    (l.mapM f).toOption = none := by
  induction l with
  | nil => cases hx
  | cons y l ih =>
    simp only [mapM_cons, toOption_bind]
    obtain rfl | hx := mem_cons.1 hx
    · rw [h, Option.bind_none]
    · simp [ih hx]

theorem mapM_dichotomy [Inhabited β] (f : α → Result β) (l : List α) :
    (∃ g : α → β, ∀ x ∈ l, f x = .ok (g x)) ∨ ∃ x ∈ l, (f x).toOption = none := by
  by_cases h : ∃ x ∈ l, (f x).toOption = none
  · exact .inr h
  · refine .inl ⟨fun x => (f x).toOption.getD default, fun x hx => ?_⟩
    cases hf : f x with
    | error e => exact absurd ⟨x, hx, by rw [hf]; rfl⟩ h
    | ok v => simp [Except.toOption, hf]

end

variable {F : Type} {rt : Runtime F} {float_text : F → String} {std : SortBy (Row F)}
  {windows : List (SelectColumn F) → List ColumnSchema → List (Row F) → List ColumnSchema × List (Row F)}
  (hfloat : ∀ f g, rt.eq f g = true → rt.partial_cmp f g = some .eq)

/-! ## `ORDER BY` over grouping columns -/

section

include hfloat

theorem partial_cmp_of_eq {v w : Value F} (h : v.eq rt w = true) : v.partial_cmp rt w = some .eq := by
  cases v <;> cases w <;> simp_all [Value.eq, Value.partial_cmp]

/-- `ORDER BY` over grouping columns does not tell the rows of a group apart. -/
theorem order_cmp_of_same_key {schema : List ColumnSchema} {a b : Row F} {group_by : List (Expr F)}
    {va vb : Expr F → Value F} (ha : ∀ e ∈ group_by, eval_or_null rt schema a e = .ok (va e))
    (hb : ∀ e ∈ group_by, eval_or_null rt schema b e = .ok (vb e))
    (hsame : same_group_key rt (group_by.map va, a) (group_by.map vb, b) = true)
    {items : List (OrderByItem F)} (hitems : ∀ item ∈ items, item.expr ∈ group_by) :
    order_cmp rt schema items a b = .ok .eq := by
  have hval : ∀ e ∈ group_by, (va e).partial_cmp rt (vb e) = some .eq := by
    intro e he
    simp only [same_group_key, length_map, beq_self_eq_true, Bool.true_and, zip_map',
      all_map, all_eq_true, Function.comp_apply] at hsame
    exact partial_cmp_of_eq hfloat (hsame e he)
  induction items with
  | nil => rfl
  | cons item items ih =>
    obtain ⟨hitem, hrest⟩ := forall_mem_cons.1 hitems
    rw [order_cmp, ha _ hitem, hb _ hitem]
    simpa [bind, Except.bind, hval _ hitem] using ih hrest

end

variable {sel : SelectBody F} {schema : List ColumnSchema} {rows : List (Row F)}

/-! ## Ordering and grouping -/

/-- Rows with equal values of the grouping expressions. -/
def same_group (rt : Runtime F) (group_by : List (Expr F)) (val : Row F → Expr F → Value F)
    (a b : Row F) : Bool :=
  same_group_key rt (group_by.map (val a), a) (group_by.map (val b), b)

variable {val : Row F → Expr F → Value F}

theorem group_rows_of_ok {group_by : List (Expr F)} (hne : group_by ≠ [])
    (hval : ∀ r ∈ rows, ∀ e ∈ group_by, eval_or_null rt schema r e = .ok (val r e)) :
    group_rows rt group_by schema rows =
      .ok ((group (same_group rt group_by val) rows).map fun g => g.1 :: g.2) := by
  have hkeyed : keyed_rows rt group_by schema rows =
      .ok (rows.map fun r => (group_by.map (val r), r)) := by
    refine mapM_of_ok fun r hr => ?_
    rw [mapM_of_ok (hval r hr)]
    rfl
  rw [group_rows, if_neg (by simpa using hne), hkeyed]
  simp only [bind, Except.bind, group_map, map_map]
  refine congrArg Except.ok (map_congr_left fun g _ => ?_)
  simp [Function.comp_def]

theorem group_rows_of_panic (hne : sel.group_by ≠ []) {r : Row F} (hr : r ∈ rows) {e : Expr F}
    (he : e ∈ sel.group_by) (hpanic : (eval_or_null rt schema r e).toOption = none) :
    (group_rows rt sel.group_by schema rows).toOption = none := by
  have hkeyed : (keyed_rows rt sel.group_by schema rows).toOption = none := by
    refine mapM_of_error hr ?_
    rw [toOption_bind, mapM_of_error he hpanic, Option.bind_none]
  rw [group_rows, if_neg (by simpa using hne), toOption_bind, hkeyed, Option.bind_none]

theorem group_entry_leader {e : Row F × Row F}
    (h : group_entry rt float_text sel schema rows = .ok (some e)) : e.1 = rows.headD [] := by
  rw [group_entry] at h
  obtain ⟨r, -, h⟩ := bind_ok h
  obtain ⟨r, -, rfl⟩ := Option.map_eq_some_iff.1 (Except.ok.inj h)
  rfl

section

variable (hne : sel.group_by ≠ [])
  (hval : ∀ r ∈ rows, ∀ e ∈ sel.group_by, eval_or_null rt schema r e = .ok (val r e))
include hne hval

/-- The entries of the groups, all of them evaluated. -/
theorem group_entries_of_ok {w : Row F × List (Row F) → Option (Row F × Row F)}
    (hw : ∀ g ∈ group (same_group rt sel.group_by val) rows,
      group_entry rt float_text sel schema (g.1 :: g.2) = .ok (w g)) :
    group_entries rt float_text sel schema rows =
      .ok ((group (same_group rt sel.group_by val) rows).filterMap w) := by
  rw [group_entries, group_rows_of_ok hne hval]
  simp only [bind, Except.bind, mapM_map, Function.comp_def, mapM_of_ok hw]
  simp [reduceOption, filterMap_map]

theorem group_entries_of_panic {g : Row F × List (Row F)}
    (hg : g ∈ group (same_group rt sel.group_by val) rows)
    (hpanic : (group_entry rt float_text sel schema (g.1 :: g.2)).toOption = none) :
    (group_entries rt float_text sel schema rows).toOption = none := by
  have hentries : (((group (same_group rt sel.group_by val) rows).map fun g => g.1 :: g.2).mapM
      (group_entry rt float_text sel schema)).toOption = none :=
    mapM_of_error (mem_map.2 ⟨g, hg, rfl⟩) hpanic
  rw [group_entries, group_rows_of_ok hne hval, toOption_bind]
  change Option.bind (some _) _ = none
  rw [Option.bind_some, toOption_bind, hentries, Option.bind_none]

end

variable (hitems : ∀ item ∈ sel.order_by, item.expr ∈ sel.group_by)

include hfloat hitems in
/-- **Ordering before grouping.** Ordering the rows by grouping columns orders the result
rows, and changes nothing else. -/
theorem group_entries_insertionSort (hne : sel.group_by ≠ [])
    (horders : Orders (order_of rt schema sel.order_by) rows) :
    (group_entries rt float_text sel schema
        (rows.insertionSort (OrderLe rt schema sel.order_by))).toOption =
      (group_entries rt float_text sel schema rows).toOption.map
        (order_entries rt schema sel.order_by) := by
  have hmem : ∀ {r}, r ∈ rows.insertionSort (OrderLe rt schema sel.order_by) ↔ r ∈ rows :=
    mem_insertionSort _
  -- a `GROUP BY` expression that panics on a row does so in both
  obtain ⟨val, hval⟩ | ⟨r, hr, e, he, hpanic⟩ :
      (∃ val : Row F → Expr F → Value F, ∀ r ∈ rows, ∀ e ∈ sel.group_by,
        eval_or_null rt schema r e = .ok (val r e)) ∨
      ∃ r ∈ rows, ∃ e ∈ sel.group_by, (eval_or_null rt schema r e).toOption = none := by
    have : Inhabited (Value F) := ⟨.Null⟩
    refine (mapM_dichotomy (fun p : Row F × Expr F => eval_or_null rt schema p.1 p.2)
      (rows ×ˢ sel.group_by)).imp ?_ ?_
    · rintro ⟨val, hval⟩
      exact ⟨fun r e => val (r, e), fun r hr e he => hval (r, e) (pair_mem_product.2 ⟨hr, he⟩)⟩
    · rintro ⟨⟨r, e⟩, hre, hpanic⟩
      obtain ⟨hr, he⟩ := pair_mem_product.1 hre
      exact ⟨r, hr, e, he, hpanic⟩
  · have hle : PreorderOn (OrderLe rt schema sel.order_by) rows := horders.preorderOn
    have hsame : ∀ a ∈ rows, ∀ b ∈ rows, same_group rt sel.group_by val a b →
        OrderLe rt schema sel.order_by a b ∧ OrderLe rt schema sel.order_by b a := by
      intro a ha b hb hab
      have heq : order_of rt schema sel.order_by a b = .eq := by
        rw [order_of, order_cmp_of_same_key hfloat (hval a ha) (hval b hb) hab hitems]
        rfl
      have heq' := horders.swap a ha b hb
      rw [heq] at heq'
      exact ⟨by rw [OrderLe, heq]; decide, by rw [OrderLe, heq']; decide⟩
    have hgroups := group_insertionSort hle hsame
    have hval' : ∀ r ∈ rows.insertionSort (OrderLe rt schema sel.order_by), ∀ e ∈ sel.group_by,
        eval_or_null rt schema r e = .ok (val r e) := fun r hr => hval r (hmem.1 hr)
    have hgmem : ∀ {g}, g ∈ group (same_group rt sel.group_by val)
          (rows.insertionSort (OrderLe rt schema sel.order_by)) ↔
        g ∈ group (same_group rt sel.group_by val) rows := by
      intro g
      rw [hgroups, mem_insertionSort]
    obtain ⟨w, hw⟩ | ⟨g, hg, hpanic⟩ := mapM_dichotomy
      (fun g : Row F × List (Row F) => group_entry rt float_text sel schema (g.1 :: g.2))
      (group (same_group rt sel.group_by val) rows)
    · rw [group_entries_of_ok hne hval hw,
        group_entries_of_ok hne hval' fun g hg => hw g (hgmem.1 hg), hgroups]
      refine congrArg some (hle.group.filterMap_insertionSort w fun g hg g' hg' x hx y hy => ?_)
      have hleader : x.1 = g.1 := group_entry_leader ((hw g hg).trans (congrArg _ hx))
      have hleader' : y.1 = g'.1 := group_entry_leader ((hw g' hg').trans (congrArg _ hy))
      rw [hleader, hleader']
      rfl
    · rw [group_entries_of_panic hne hval hg hpanic,
        group_entries_of_panic hne hval' (hgmem.2 hg) hpanic, Option.map_none]
  · rw [group_entries, group_entries, toOption_bind, toOption_bind,
      group_rows_of_panic hne hr he hpanic, group_rows_of_panic hne (hmem.2 hr) he hpanic]
    rfl

/-! ## The rows of an answer -/

theorem apply_group_by_rows (sel : SelectBody F) (schema : List ColumnSchema) (rows : List (Row F)) :
    (apply_group_by rt float_text sel.group_by sel.columns sel.having schema rows).toOption.map
        Prod.snd =
      (group_entries rt float_text sel schema rows).toOption.map fun es => es.map Prod.snd := by
  have hresults : ∀ groups : List (List (Row F)),
      (groups.mapM (group_entry rt float_text sel schema)).map (List.map (Option.map Prod.snd)) =
        groups.mapM (group_result rt float_text sel.columns sel.having schema) := by
    intro groups
    induction groups with
    | nil => rfl
    | cons g groups ih =>
      rw [mapM_cons, mapM_cons, ← ih, group_entry]
      cases group_result rt float_text sel.columns sel.having schema g with
      | error e => rfl
      | ok r =>
        cases groups.mapM (group_entry rt float_text sel schema) with
        | error e => rfl
        | ok es => cases r <;> rfl
  rw [apply_group_by, group_entries]
  cases group_rows rt sel.group_by schema rows with
  | error e => rfl
  | ok groups =>
    simp only [bind, Except.bind]
    rw [← hresults groups]
    cases groups.mapM (group_entry rt float_text sel schema) with
    | error e => rfl
    | ok es =>
      simp [Except.map, Except.toOption, reduceOption, filterMap_map, map_filterMap]

section

variable {α β : Type}

theorem cut_eq_self {offset limit : Option ℕ} {l : List α} :
    cut offset limit l = l ↔ (offset.getD 0 = 0 ∨ l.length = 0) ∧ ∀ n ∈ limit, l.length ≤ n := by
  constructor
  · intro h
    have hlen := congrArg List.length h
    cases limit with
    | none =>
      simp only [cut, length_drop] at hlen
      exact ⟨by omega, nofun⟩
    | some n =>
      simp only [cut, length_take, length_drop] at hlen
      exact ⟨by omega, fun m hm => by obtain rfl := Option.some.inj hm; omega⟩
  · rintro ⟨hoffset, hlimit⟩
    have hdrop : l.drop (offset.getD 0) = l := by
      obtain h | h := hoffset
      · rw [h, drop_zero]
      · rw [length_eq_zero_iff.1 h, drop_nil]
    cases limit with
    | none => exact hdrop
    | some n =>
      rw [cut, hdrop]
      exact take_of_length_le (hlimit n rfl)

theorem limit_rows_of_length_le {l : List α} {l' : List β} (h : limit_rows rt sel l = .ok l)
    (hlen : l'.length ≤ l.length) : limit_rows rt sel l' = .ok l' := by
  rw [limit_rows] at h ⊢
  obtain ⟨offset, ho, h⟩ := bind_ok h
  obtain ⟨limit, hl, h⟩ := bind_ok h
  obtain ⟨hoffset, hlimit⟩ := cut_eq_self.1 (Except.ok.inj h)
  rw [ho, hl]
  exact congrArg Except.ok (cut_eq_self.2 ⟨by omega, fun n hn => hlen.trans (hlimit n hn)⟩)

end

/-! ## Queries in the order of SQL -/

section

variable (rt float_text)

/-- The result rows in `ORDER BY` order, before `OFFSET` and `LIMIT`. -/
def ordered_results (sel : SelectBody F) (schema : List ColumnSchema) (rows : List (Row F)) :
    Option (List (Row F)) :=
  (group_entries rt float_text sel schema rows).toOption.map fun entries =>
    (order_entries rt schema sel.order_by entries).map Prod.snd

/-- The order of the rows does not show: every arrangement of them has the same result rows. -/
def OrderBlind (sel : SelectBody F) (schema : List ColumnSchema) (rows : List (Row F)) : Prop :=
  ∀ rows', rows' ~ rows →
    ordered_results rt float_text sel schema rows' = ordered_results rt float_text sel schema rows

/-- The queries that a table answers in the order of SQL. No index may answer on its own. On
the heap nothing may be cut off and the comparison must order the rows. The columnar copy must have
the qualifying rows of the heap, in any order if that does not show; its groups must already come
in order, and nothing may be cut off either. -/
structure InSqlOrder (t : TableView F) (sel : SelectBody F) : Prop where
  no_vector : t.vector_index sel = none
  no_gin : t.columnar = none → t.gin_index sel = none
  lookup : t.columnar = none → ∀ rows, t.pk_lookup sel = some rows →
    qualifying rt sel t.schema rows = qualifying rt sel t.schema t.scan
  copy : ∀ rows, t.columnar = some rows →
    Option.Rel (fun copied heap => copied = heap
        ∨ copied ~ heap ∧ OrderBlind rt float_text sel t.schema heap)
      (filter_rows rt sel t.schema rows).toOption (qualifying rt sel t.schema t.scan).toOption
  heap_order : t.columnar = none → sel.order_by ≠ [] →
    ∀ rows, qualifying rt sel t.schema t.scan = .ok rows →
      (∀ a ∈ rows, ∀ b ∈ rows, (order_cmp rt t.schema sel.order_by a b).isOk) ∧
      Orders (order_of rt t.schema sel.order_by) rows
  heap_limit : t.columnar = none → ∀ rows, qualifying rt sel t.schema t.scan = .ok rows →
    limit_rows rt sel rows = .ok rows ∧ (sel.group_by = [] → limit_rows rt sel [()] = .ok [()])
  columnar_order : ∀ rows, t.columnar = some rows →
    ∀ copied, filter_rows rt sel t.schema rows = .ok copied →
    ∀ entries, group_entries rt float_text sel t.schema copied = .ok entries →
      entries.Pairwise (fun e e' => OrderLe rt t.schema sel.order_by e.1 e'.1) ∧
      limit_rows rt sel entries = .ok entries

end

section

variable {t : TableView F}

theorem orderLe_nil (a b : Row F) : OrderLe rt schema [] a b := Ordering.noConfusion

theorem order_rows_of_orders
    (h : sel.order_by ≠ [] → (∀ a ∈ rows, ∀ b ∈ rows, (order_cmp rt schema sel.order_by a b).isOk) ∧
      Orders (order_of rt schema sel.order_by) rows) :
    order_rows rt std sel schema rows = .ok (rows.insertionSort (OrderLe rt schema sel.order_by)) := by
  rw [order_rows]
  cases hitems : sel.order_by with
  | nil =>
    have hsorted : rows.Pairwise (OrderLe rt schema []) :=
      pairwise_of_forall fun a b => orderLe_nil a b
    rw [hsorted.insertionSort_eq]
    rfl
  | cons item items =>
    rw [hitems] at h
    obtain ⟨hok, horders⟩ := h (cons_ne_nil _ _)
    refine std.stable _ _ _ (fun a ha b hb => ?_) horders
    have hab := hok a ha b hb
    rw [order_of]
    cases hcmp : order_cmp rt schema (item :: items) a b with
    | error e => rw [hcmp] at hab; cases hab
    | ok c => rfl

theorem length_mapM {α β : Type} {f : α → Result β} {l : List α} {l' : List β}
    (h : l.mapM f = .ok l') : l'.length = l.length := by
  induction l generalizing l' with
  | nil => cases h; rfl
  | cons x l ih =>
    rw [mapM_cons] at h
    obtain ⟨v, -, h⟩ := bind_ok h
    obtain ⟨vs, hl, h⟩ := bind_ok h
    cases h
    simp [ih hl]

theorem length_group_rows_le {groups : List (List (Row F))}
    (h : group_rows rt sel.group_by schema rows = .ok groups) :
    groups.length ≤ if sel.group_by = [] then 1 else rows.length := by
  rw [group_rows] at h
  split at h
  · next hempty =>
    cases h
    rw [if_pos (List.isEmpty_iff.1 hempty)]
    rfl
  · next hne =>
    obtain ⟨keyed, hkeyed, h⟩ := bind_ok h
    cases h
    rw [if_neg (by simpa using hne), length_map, ← length_mapM hkeyed]
    exact length_group_le _ _

/-- There are no more result rows than rows, or one without `GROUP BY`. -/
theorem length_group_entries_le {entries : List (Row F × Row F)}
    (h : group_entries rt float_text sel schema rows = .ok entries) :
    entries.length ≤ if sel.group_by = [] then 1 else rows.length := by
  rw [group_entries] at h
  obtain ⟨groups, hgroups, h⟩ := bind_ok h
  obtain ⟨es, hes, h⟩ := bind_ok h
  cases h
  have hle := length_group_rows_le hgroups
  rw [← length_mapM hes] at hle
  exact (length_filterMap_le _ _).trans hle

section

include hfloat hitems

/-- Ordering the rows and grouping them, or grouping them and ordering the entries. -/
theorem group_entries_ordered
    (h : sel.order_by ≠ [] → Orders (order_of rt schema sel.order_by) rows) :
    (group_entries rt float_text sel schema
        (rows.insertionSort (OrderLe rt schema sel.order_by))).toOption =
      (group_entries rt float_text sel schema rows).toOption.map
        (order_entries rt schema sel.order_by) := by
  by_cases hby : sel.order_by = []
  · have hrows : rows.insertionSort (OrderLe rt schema []) = rows :=
      (pairwise_of_forall fun _ _ => orderLe_nil _ _).insertionSort_eq
    have hentries : order_entries rt schema [] = id := funext fun es =>
      List.Pairwise.insertionSort_eq (pairwise_of_forall fun _ _ => orderLe_nil _ _)
    rw [hby, hrows, hentries, Option.map_id_fun, id]
  · obtain ⟨item, hitem⟩ := exists_mem_of_ne_nil _ hby
    exact group_entries_insertionSort hfloat hitems (ne_nil_of_mem (hitems item hitem)) (h hby)

/-- The rows of an aggregate query over rows of the heap. -/
theorem heap_rows
    (horder : sel.order_by ≠ [] →
      (∀ a ∈ rows, ∀ b ∈ rows, (order_cmp rt schema sel.order_by a b).isOk) ∧
      Orders (order_of rt schema sel.order_by) rows)
    (hlimit : limit_rows rt sel rows = .ok rows)
    (hone : sel.group_by = [] → limit_rows rt sel [()] = .ok [()]) :
    (do
      let ordered ← order_rows rt std sel schema rows
      let limited ← limit_rows rt sel ordered
      apply_group_by rt float_text sel.group_by sel.columns sel.having schema limited).toOption.map
        Prod.snd =
    (do
      let entries ← group_entries rt float_text sel schema rows
      limit_rows rt sel ((order_entries rt schema sel.order_by entries).map Prod.snd)).toOption := by
  have hordered : limit_rows rt sel (rows.insertionSort (OrderLe rt schema sel.order_by)) = .ok _ :=
    limit_rows_of_length_le hlimit (length_insertionSort _ rows).le
  simp only [order_rows_of_orders horder, hordered, bind, Except.bind]
  rw [apply_group_by_rows, group_entries_ordered hfloat hitems fun hne => (horder hne).2]
  cases hes : group_entries rt float_text sel schema rows with
  | error e => rfl
  | ok entries =>
    have hle := length_group_entries_le hes
    have hkeep : ∀ l : List (Row F), l.length = entries.length → limit_rows rt sel l = .ok l := by
      intro l hl
      split at hle
      · next hnil => exact limit_rows_of_length_le (hone hnil) (hl.trans_le hle)
      · exact limit_rows_of_length_le hlimit (hl.trans_le hle)
    simp only
    rw [hkeep _ (by simp [order_entries])]
    rfl

omit hfloat hitems in
/-- The rows of an aggregate query over the columnar copy. -/
theorem columnar_rows {copied heap : List (Row F)}
    (hres : ordered_results rt float_text sel schema copied =
      ordered_results rt float_text sel schema heap)
    (horder : ∀ entries, group_entries rt float_text sel schema copied = .ok entries →
      entries.Pairwise (fun e e' => OrderLe rt schema sel.order_by e.1 e'.1) ∧
      limit_rows rt sel entries = .ok entries) :
    (apply_group_by rt float_text sel.group_by sel.columns sel.having schema copied).toOption.map
      Prod.snd =
    (do
      let entries ← group_entries rt float_text sel schema heap
      limit_rows rt sel ((order_entries rt schema sel.order_by entries).map Prod.snd)).toOption := by
  rw [apply_group_by_rows, toOption_bind]
  rw [ordered_results, ordered_results] at hres
  cases hes : group_entries rt float_text sel schema copied with
  | error e =>
    rw [hes] at hres
    rw [Option.map_eq_none_iff.mp hres.symm]
    rfl
  | ok entries =>
    rw [hes] at hres
    obtain ⟨hsorted, hlimit⟩ := horder entries hes
    obtain ⟨entries', hes', hsame⟩ := Option.map_eq_some_iff.mp hres.symm
    have hentries : order_entries rt schema sel.order_by entries = entries :=
      hsorted.insertionSort_eq
    replace hsame : (order_entries rt schema sel.order_by entries').map Prod.snd =
        entries.map Prod.snd := by
      rw [← hentries]
      exact hsame
    rw [hes', Option.bind_some, hsame, limit_rows_of_length_le hlimit (length_map _).le]
    rfl

theorem InSqlOrder.select_rows (hagg : aggregates rt sel = true)
    (h : InSqlOrder rt float_text t sel) :
    (exec_select rt float_text std windows t sel).toOption.map Prod.snd =
      (grouped_answer rt float_text t sel).toOption := by
  rw [exec_select, grouped_answer, h.no_vector]
  cases hcol : t.columnar with
  | none =>
    have hsource : qualifying rt sel t.schema ((t.pk_lookup sel).getD t.scan) =
        qualifying rt sel t.schema t.scan := by
      cases hlookup : t.pk_lookup sel with
      | none => rfl
      | some rows => exact h.lookup hcol rows hlookup
    simp only [h.no_gin hcol, if_pos hagg]
    rw [← bind_assoc]
    change Option.map Prod.snd (qualifying rt sel t.schema
      ((t.pk_lookup sel).getD t.scan) >>= _).toOption = _
    rw [hsource]
    cases hrows : qualifying rt sel t.schema t.scan with
    | error e => rfl
    | ok rows =>
      obtain ⟨hlimit, hone⟩ := h.heap_limit hcol rows hrows
      exact heap_rows hfloat hitems (fun hne => h.heap_order hcol hne rows hrows) hlimit hone
  | some col_rows =>
    have hcopy := h.copy col_rows hcol
    simp only [hagg]
    cases hfilter : filter_rows rt sel t.schema col_rows with
    | error e =>
      cases hq : qualifying rt sel t.schema t.scan with
      | error e => rfl
      | ok heap =>
        rw [hfilter, hq] at hcopy
        cases hcopy
    | ok copied =>
      cases hq : qualifying rt sel t.schema t.scan with
      | error e =>
        rw [hfilter, hq] at hcopy
        cases hcopy
      | ok heap =>
        rw [hfilter, hq] at hcopy
        refine columnar_rows ?_ (h.columnar_order col_rows hcol copied hfilter)
        cases hcopy with
        | some hsame =>
          obtain rfl | ⟨hperm, hblind⟩ := hsame
          · rfl
          · exact hblind copied hperm

end

end

/-! A table of one column, with and without a columnar copy. -/

section Demo

def demo_rows : List (Row ℚ) := [[.Int64 2], [.Int64 1], [.Int64 2]]

def demo_view (columnar : Option (List (Row ℚ))) : TableView ℚ where
  schema := [int_column "x"]
  scan := .ok demo_rows
  columnar := columnar
  vector_index _ := none
  gin_index _ := none
  pk_lookup _ := none

/-- `SELECT x, COUNT(*) FROM t GROUP BY x ORDER BY x [DESC] LIMIT limit`. -/
def demo_count (asc : Bool) (limit : Int64) : SelectBody ℚ where
  distinct := false
  columns := [.Expr (.ColumnRef none "x") none, .Expr (.FunctionCall "count" [.Star] false) none]
  table_refs := [.mk "t" none none]
  where_clause := none
  group_by := [.ColumnRef none "x"]
  having := none
  order_by := [⟨.ColumnRef none "x", asc, false⟩]
  limit := some (.IntLit limit)
  offset := none

def demo_select (t : TableView ℚ) (sel : SelectBody ℚ) : Option (List (Row ℚ)) :=
  (exec_select demo_runtime toString (insertion_sort_by _) (fun _ schema rows => (schema, rows))
    t sel).toOption.map Prod.snd

/-- `SELECT COUNT(*) FROM t`. -/
def demo_total : SelectBody ℚ :=
  { demo_count true 3 with
    columns := [.Expr (.FunctionCall "count" [.Star] false) none]
    group_by := []
    order_by := []
    limit := none }

end Demo

end Oigrap.Sql

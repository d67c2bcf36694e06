/-
`apply_group_by` without HAVING is a partition of the rows by their grouping keys.

The code keeps the keys and the groups in two parallel vectors; `group_rows` has them as one
list of groups. Where no grouping value is a float, two keys match when they are equal, so the
groups are the rows with the same key. An aggregate folds over the rows of its group and skips
NULL. What can go wrong is an evaluation that aborts, `GROUP BY a % b` with `b` zero.
-/
import Oigrap.Sql.InnerJoin
import Oigrap.Sql.SelectSpec

namespace Oigrap.Sql

open Grouping List

variable {F : Type} (rt : Runtime F) (float_text : F → String) (group_by : List (Expr F))
  (select_cols : List (SelectColumn F)) (schema : List ColumnSchema) (rows : List (Row F))

/-! ## What the groups are -/

/-- The value of an expression that does not abort; an error counts as NULL. -/
def value_at (row : Row F) (e : Expr F) : Value F := (eval_expr rt schema row e).toOption.getD .Null

def group_key (row : Row F) : List (Value F) := group_by.map (value_at rt schema row)

/-- The values of an argument that are not NULL. -/
def known_values (e : Expr F) : List (Value F) :=
  (rows.map (value_at rt schema · e)).filter (! ·.is_null)

/-- The values of a column of one type, not of floats. -/
def SingleType (vs : List (Value F)) : Prop :=
  (∃ xs : List Int64, vs = xs.map .Int64) ∨ (∃ xs : List String, vs = xs.map .Text) ∨
    ∃ xs : List Bool, vs = xs.map .Bool

/-- `v` is one of the values and none is strictly on the side `better` of it; NULL if there are
no values. -/
def Extreme (better : Ordering) (vs : List (Value F)) (v : Value F) : Prop :=
  vs = [] ∧ v = .Null ∨ v ∈ vs ∧ ∀ w ∈ vs, w.partial_cmp rt v ≠ some better

/-- What COUNT, MIN and MAX are to say about the rows of a group. -/
def Aggregates (name : String) (arg : Expr F) (v : Value F) : Prop :=
  match rt.to_uppercase name, arg with
  | "COUNT", .Star => v = .Int64 (Int64.ofNat rows.length)
  | "COUNT", e => v = .Int64 (Int64.ofNat (known_values rt schema rows e).length)
  | "MIN", e =>
    SingleType (known_values rt schema rows e) → Extreme rt .lt (known_values rt schema rows e) v
  | "MAX", e =>
    SingleType (known_values rt schema rows e) → Extreme rt .gt (known_values rt schema rows e) v
  | _, _ => True

/-- The value of a column of the select list for the rows of a group. -/
def Computes (sc : SelectColumn F) (v : Value F) : Prop :=
  eval_agg_column rt float_text schema rows sc = .ok v ∧
    ∀ name arg label, sc = .Expr (.FunctionCall name [arg] false) label →
      Aggregates rt schema rows name arg v

/-- The rows with the same key, in the order in which the keys come up. -/
def key_groups [DecidableEq F] : List (List (Row F)) := by_key (group_key rt group_by schema) rows

/-- One row for each key, computed from the rows with that key; together these are all rows. -/
def Partitions [DecidableEq F] : Prop :=
  ∃ out, apply_group_by rt float_text group_by select_cols none schema rows =
      .ok (select_cols.mapIdx (agg_col_name rt), out) ∧
    List.Forall₂ (fun g row => List.Forall₂ (Computes rt float_text schema g) select_cols row)
      (key_groups rt group_by schema rows) out ∧
    ((key_groups rt group_by schema rows).map List.length).sum = rows.length

/-- No grouping expression aborts on a row, and every column of the select list has a value on
the rows of each key. -/
def Evaluates [DecidableEq F] : Prop :=
  (∀ r ∈ rows, ∀ e ∈ group_by, eval_expr rt schema r e ≠ .error .panic) ∧
    ∀ g ∈ key_groups rt group_by schema rows, ∀ sc ∈ select_cols,
      ∃ v, eval_agg_column rt float_text schema g sc = .ok v

variable {rt float_text group_by select_cols schema rows}

/-! ## Aggregates -/

theorem ok_of_mapM {α β : Type} {f : α → Result β} {l : List α} {out : List β}
    (h : l.mapM f = .ok out) {x : α} (hx : x ∈ l) : ∃ v, f x = .ok v := by
  cases hf : f x with
  | ok v => exact ⟨v, rfl⟩
  | error e =>
    have hfx : (f x).toOption = none := by rw [hf]; rfl
    have hnone := mapM_of_error hx hfx
    rw [h] at hnone
    cases hnone

theorem eval_or_null_eq_ok_iff {row : Row F} {e : Expr F} {v : Value F} :
    eval_or_null rt schema row e = .ok v ↔
      eval_expr rt schema row e ≠ .error .panic ∧ v = value_at rt schema row e := by
  rw [eval_or_null, value_at]
  match eval_expr rt schema row e with
  | .ok w => simp [unwrap_or, Except.toOption, eq_comm]
  | .error .panic => simp [unwrap_or]
  | .error (.Err _) => simp [unwrap_or, Except.toOption, eq_comm]

theorem values_eq {e : Expr F} {vs : List (Value F)}
    (h : rows.mapM (fun row => eval_or_null rt schema row e) = .ok vs) :
    vs = rows.map (value_at rt schema · e) := by
  have hval : ∀ r ∈ rows, eval_or_null rt schema r e = .ok (value_at rt schema r e) := by
    intro r hr
    obtain ⟨v, hv⟩ := ok_of_mapM h hr
    rwa [(eval_or_null_eq_ok_iff.1 hv).2] at hv
  exact Except.ok.inj (h.symm.trans (mapM_of_ok hval))

theorem agg_best_filter {better : Ordering} (vs : List (Value F)) (best : Option (Value F)) :
    agg_best rt better vs best = agg_best rt better (vs.filter (! ·.is_null)) best := by
  induction vs generalizing best with
  | nil => rfl
  | cons v vs ih =>
    cases hv : v.is_null with
    | true => simpa [agg_best, hv] using ih best
    | false => cases best <;> simp [agg_best, hv, ih]

section Best

variable {α : Type} {cmp : α → α → Ordering} [Std.TransCmp cmp] {mk : α → Value F}
  {better : Ordering} (hbetter : better ≠ .eq) (hnull : ∀ a, (mk a).is_null = false)
  (hcmp : ∀ a b, (mk a).partial_cmp rt (mk b) = some (cmp a b))
include hbetter hnull hcmp

/-- The loop keeps the best of the values it has seen. -/
theorem agg_best_loop (xs seen : List α) (a : α) (hseen : ∀ c ∈ seen, cmp c a ≠ better) :
    ∃ b, (b = a ∨ b ∈ xs) ∧ agg_best rt better (xs.map mk) (some (mk a)) = mk b ∧
      ∀ c ∈ seen ++ xs, cmp c b ≠ better := by
  induction xs generalizing seen a with
  | nil => exact ⟨a, .inl rfl, rfl, by simpa using hseen⟩
  | cons x xs ih =>
    simp only [map_cons, agg_best, hnull, hcmp, Option.some.injEq, Bool.false_eq_true, if_false]
    split_ifs with hx
    · -- what is better than `x` is better than `a`
      have htrans : ∀ c, cmp c x = better → cmp c a = better := by
        intro c hc
        cases better with
        | eq => exact absurd rfl hbetter
        | lt => exact Std.TransCmp.lt_trans hc hx
        | gt => exact Std.TransCmp.gt_trans hc hx
      have hself : cmp x x ≠ better := fun h => hbetter (h.symm.trans Std.ReflCmp.compare_self)
      obtain ⟨b, hb, heq, hall⟩ := ih (seen ++ [x]) x (by
        simpa [or_imp, forall_and, hself] using fun c hc h => hseen c hc (htrans c h))
      exact ⟨b, .inr (by simpa using hb), heq, by simpa using hall⟩
    · obtain ⟨b, hb, heq, hall⟩ := ih (seen ++ [x]) a (by
        simpa [or_imp, forall_and, hx] using hseen)
      exact ⟨b, hb.imp id (mem_cons_of_mem _), heq, by simpa using hall⟩

theorem extreme_of_map (xs : List α) :
    Extreme rt better (xs.map mk) (agg_best rt better (xs.map mk) none) := by
  cases xs with
  | nil => exact .inl ⟨rfl, rfl⟩
  | cons a xs =>
    have hself : ∀ c ∈ [a], cmp c a ≠ better := by
      intro c hc
      rw [mem_singleton.1 hc]
      exact fun h => hbetter (h.symm.trans Std.ReflCmp.compare_self)
    obtain ⟨b, hb, heq, hall⟩ := agg_best_loop hbetter hnull hcmp xs [a] a hself
    have hbest : agg_best rt better ((a :: xs).map mk) none = mk b := by
      simpa [agg_best, hnull] using heq
    rw [hbest]
    refine .inr ⟨mem_map_of_mem (mem_cons.2 hb), fun w hw => ?_⟩
    obtain ⟨c, hc, rfl⟩ := mem_map.1 hw
    simpa [hcmp] using hall c hc

end Best

theorem extreme_agg_best {better : Ordering} (hbetter : better ≠ .eq) {vs : List (Value F)}
    (h : SingleType (vs.filter (! ·.is_null))) :
    Extreme rt better (vs.filter (! ·.is_null)) (agg_best rt better vs none) := by
  rw [agg_best_filter]
  obtain ⟨xs, hxs⟩ | ⟨xs, hxs⟩ | ⟨xs, hxs⟩ := h <;> rw [hxs]
  · have hcmp : ∀ a b, (Value.Int64 a : Value F).partial_cmp rt (.Int64 b) =
        some (compareOn Int64.toInt a b) := fun _ _ => rfl
    exact extreme_of_map hbetter (fun _ => rfl) hcmp xs
  · exact extreme_of_map hbetter (fun _ => rfl) (fun _ _ => rfl) xs
  · exact extreme_of_map hbetter (fun _ => rfl) (fun _ _ => rfl) xs

/-- COUNT, MIN and MAX say what they are to say. -/
theorem aggregates_of_ok {name : String} {arg : Expr F} {v : Value F} {label : Option String}
    (h : eval_agg_column rt float_text schema rows (.Expr (.FunctionCall name [arg] false) label) =
      .ok v) : Aggregates rt schema rows name arg v := by
  have hvalues : ∀ {f : List (Value F) → Value F},
      ((rows.mapM fun row => eval_or_null rt schema row arg) >>= fun vs => .ok (f vs)) = .ok v →
        v = f (rows.map (value_at rt schema · arg)) := by
    intro f hf
    obtain ⟨vs, hvs, hf⟩ := bind_ok hf
    rw [← Except.ok.inj hf, values_eq hvs]
  rw [eval_agg_column, eval_agg_expr] at h
  unfold Aggregates
  split
  case h_5 => trivial
  all_goals
    rename_i hname
    rw [if_pos (by simp [is_aggregate, *])] at h
    simp only [eval_aggregate, *] at h
  · exact (Except.ok.inj h).symm
  · exact hvalues h
  · rw [hvalues h]
    exact extreme_agg_best (by decide)
  · rw [hvalues h]
    exact extreme_agg_best (by decide)

/-! ## The partition -/

section Partition

variable [DecidableEq F] (hfloat : ∀ r ∈ rows, ∀ v ∈ group_key rt group_by schema r, v.NoFloat)
include hfloat

theorem same_group_eq {a : Row F} (ha : a ∈ rows) (b : Row F) :
    same_group rt group_by (value_at rt schema) a b =
      decide (group_key rt group_by schema a = group_key rt group_by schema b) := by
  rw [Bool.eq_iff_iff, decide_eq_true_iff]
  simp only [same_group, same_group_key, length_map, beq_self_eq_true, Bool.true_and,
    zip_map', all_map, all_eq_true, Function.comp_apply, group_key,
    map_inj_left]
  refine forall₂_congr fun e he => ?_
  exact Value.eq_iff rt (hfloat a ha _ (mem_map_of_mem he))

theorem group_rows_eq_ok_iff (hne : group_by ≠ []) {groups : List (List (Row F))} :
    group_rows rt group_by schema rows = .ok groups ↔
      (∀ r ∈ rows, ∀ e ∈ group_by, eval_expr rt schema r e ≠ .error .panic) ∧
        groups = key_groups rt group_by schema rows := by
  have hok : (∀ r ∈ rows, ∀ e ∈ group_by, eval_expr rt schema r e ≠ .error .panic) →
      group_rows rt group_by schema rows = .ok (key_groups rt group_by schema rows) := by
    intro h
    rw [group_rows_of_ok hne fun r hr e he => eval_or_null_eq_ok_iff.2 ⟨h r hr e he, rfl⟩,
      group_of_key _ (group_key rt group_by schema) fun a => same_group_eq hfloat]
    rfl
  constructor
  · intro h
    have hsafe : ∀ r ∈ rows, ∀ e ∈ group_by, eval_expr rt schema r e ≠ .error .panic := by
      intro r hr e he
      rw [group_rows, if_neg (by simpa using hne)] at h
      obtain ⟨keyed, hkeyed, -⟩ := bind_ok h
      obtain ⟨_, hr⟩ := ok_of_mapM hkeyed hr
      obtain ⟨_, hkey, -⟩ := bind_ok hr
      obtain ⟨_, he⟩ := ok_of_mapM hkey he
      exact (eval_or_null_eq_ok_iff.1 he).1
    exact ⟨hsafe, Except.ok.inj (h.symm.trans (hok hsafe))⟩
  · rintro ⟨h, rfl⟩
    exact hok h

theorem sum_key_groups : ((key_groups rt group_by schema rows).map List.length).sum = rows.length := by
  have hsum := sum_length_group (same_group rt group_by (value_at rt schema)) rows
  rwa [key_groups, ← group_of_key _ (group_key rt group_by schema) fun a => same_group_eq hfloat,
    map_map]

/-- **Grouping is a partition** exactly where everything can be evaluated. -/
theorem apply_group_by_partitions_iff (hne : group_by ≠ []) :
    Partitions rt float_text group_by select_cols schema rows ↔
      Evaluates rt float_text group_by select_cols schema rows := by
  constructor
  · rintro ⟨out, h, -⟩
    obtain ⟨groups, hgroups, h⟩ := bind_ok h
    obtain ⟨hsafe, rfl⟩ := (group_rows_eq_ok_iff hfloat hne).1 hgroups
    refine ⟨hsafe, fun g hg sc hsc => ?_⟩
    obtain ⟨results, hresults, -⟩ := bind_ok h
    obtain ⟨row, hrow⟩ := ok_of_mapM hresults hg
    obtain ⟨vs, hvs, -⟩ := bind_ok hrow
    exact ok_of_mapM hvs hsc
  · rintro ⟨hsafe, hcols⟩
    let val g sc := (eval_agg_column rt float_text schema g sc).toOption.getD .Null
    have hval : ∀ g ∈ key_groups rt group_by schema rows, ∀ sc ∈ select_cols,
        eval_agg_column rt float_text schema g sc = .ok (val g sc) := by
      intro g hg sc hsc
      obtain ⟨v, hv⟩ := hcols g hg sc hsc
      simp only [val, hv, Except.toOption, Option.getD_some]
    have hrow : ∀ g ∈ key_groups rt group_by schema rows,
        group_result rt float_text select_cols none schema g = .ok (some (select_cols.map (val g))) := by
      intro g hg
      rw [group_result, mapM_of_ok (hval g hg)]
      rfl
    refine ⟨(key_groups rt group_by schema rows).map fun g => select_cols.map (val g), ?_, ?_,
      sum_key_groups hfloat⟩
    · rw [apply_group_by, (group_rows_eq_ok_iff hfloat hne).2 ⟨hsafe, rfl⟩]
      simp only [bind, Except.bind, mapM_of_ok hrow]
      simp [reduceOption, filterMap_map]
    · rw [forall₂_map_right_iff, forall₂_same]
      intro g hg
      rw [forall₂_map_right_iff, forall₂_same]
      refine fun sc hsc => ⟨hval g hg sc hsc, ?_⟩
      rintro name arg label rfl
      exact aggregates_of_ok (hval g hg _ hsc)

end Partition

/-- `SELECT COUNT(*), MAX(x) FROM t GROUP BY x` on three rows. -/
theorem apply_group_by_partitions_demo : Partitions demo_runtime toString [.ColumnRef none "x"]
    [.Expr (.FunctionCall "count" [.Star] false) none,
      .Expr (.FunctionCall "max" [.ColumnRef none "x"] false) none] [int_column "x"] demo_rows := by
  -- The key of each of these rows is the row itself.
  have hkey : ∀ r ∈ demo_rows,
      group_key demo_runtime [.ColumnRef none "x"] [int_column "x"] r = r := by decide +kernel
  have hgroups : key_groups demo_runtime [.ColumnRef none "x"] [int_column "x"] demo_rows =
      [[[.Int64 2], [.Int64 2]], [[.Int64 1]]] := by decide +kernel
  refine (apply_group_by_partitions_iff ?_ (by decide)).2 ⟨by decide +kernel, ?_⟩
  · intro r hr
    rw [hkey r hr]
    revert r
    simp [demo_rows, Value.NoFloat]
  · rw [hgroups]
    simp only [forall_mem_cons, not_mem_nil, false_implies, implies_true, and_true]
    exact ⟨⟨⟨.Int64 2, by decide +kernel⟩, .Int64 2, by decide +kernel⟩,
      ⟨.Int64 1, by decide +kernel⟩, .Int64 1, by decide +kernel⟩

/-- `SELECT COUNT(*) ... GROUP BY x % 0` aborts. -/
theorem group_by_zero_aborts :
    let group_by := [.BinaryOp .Mod (.ColumnRef none "x") (.IntLit 0)]
    let select_cols := [.Expr (.FunctionCall "count" [.Star] false) none]
    apply_group_by demo_runtime toString group_by select_cols none [int_column "x"] demo_rows =
        .error .panic ∧
      ¬Partitions demo_runtime toString group_by select_cols [int_column "x"] demo_rows := by
  intro group_by select_cols
  have hpanic : apply_group_by demo_runtime toString group_by select_cols none [int_column "x"]
      demo_rows = .error .panic := by decide +kernel
  exact ⟨hpanic, fun ⟨_, h, _⟩ => nomatch hpanic.symm.trans h⟩

end Oigrap.Sql

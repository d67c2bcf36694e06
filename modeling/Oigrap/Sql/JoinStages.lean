/-
Joins as stages of a pipeline.

A row of a join is taken apart into one row for each table, so that it no longer matters in
which order the tables were put side by side. In this reading INNER, LEFT and CROSS joins are
spreading stages and RIGHT and FULL joins are whole stages (`Fits.simulates`). A join finds the
columns of its condition by name among the tables joined so far; `SameScope` says that it finds
the same ones in two scopes, and `Fits` collects what a step needs in order to do where it runs
what it does where it is written.
-/
import Oigrap.Lib.Pipeline
import Oigrap.Sql.JoinOrder
import Oigrap.Sql.JoinSpec

namespace Oigrap.Sql

open Function List
open Multiset (bind_congr coe_add coe_bind map_add map_bind map_coe mem_add mem_bind)

variable {F : Type} {rt : Runtime F} (sch : ℕ → List ColumnSchema) {r : Row F} {e e' : ℕ → Row F}

/-! ## Rows taken apart

`sch t` is the schema of table `t`, and an environment gives each table a row. -/

section Scope

def nulls (t : ℕ) : Row F := (sch t).map fun _ => .Null

/-- A row of the wrong width stands for NULLs. -/
def fit (t : ℕ) (row : Row F) : Row F :=
  if row.length = (sch t).length then row else nulls sch t

/-- The tables of `o` side by side. -/
def flat (o : List ℕ) (e : ℕ → Row F) : Row F := o.flatMap fun t => fit sch t (e t)

def schemas (o : List ℕ) : List ColumnSchema := o.flatMap sch

variable (rt) in
/-- The first table of `o` that has the column, and where. -/
def locate (lk : Lookup) : List ℕ → Option (ℕ × ℕ)
  | [] => none
  | t :: o =>
    match position rt lk (sch t) with
    | some c => some (t, c)
    | none => locate lk o

variable {sch} {o : List ℕ} {t i : ℕ} {lk : Lookup}

@[simp] theorem length_fit : (fit sch t r).length = (sch t).length := by
  unfold fit
  split_ifs with h
  · exact h
  · simp [nulls]

theorem fit_of_length (h : r.length = (sch t).length) : fit sch t r = r := if_pos h

@[simp] theorem length_nulls : (nulls sch t : Row F).length = (sch t).length := by simp [nulls]

@[simp] theorem length_flat : (flat sch o e).length = (schemas sch o).length := by
  induction o with
  | nil => rfl
  | cons t o ih =>
    simp only [flat, schemas, flatMap_cons, length_append, length_fit] at ih ⊢
    rw [ih]

theorem flat_append {o' : List ℕ} : flat sch (o ++ o') e = flat sch o e ++ flat sch o' e := by
  simp [flat]

theorem schemas_append {o' : List ℕ} : schemas sch (o ++ o') = schemas sch o ++ schemas sch o' := by
  simp [schemas]

@[simp] theorem schemas_singleton : schemas sch [t] = sch t := by simp [schemas]

theorem flat_update (h : i ∉ o) : flat sch o (update e i r) = flat sch o e := by
  apply flatMap_congr
  intro t ht
  have hti : t ≠ i := fun hti => h (hti ▸ ht)
  rw [update_of_ne hti]

theorem flat_snoc (h : i ∉ o) (hr : r.length = (sch i).length) :
    flat sch (o ++ [i]) (update e i r) = flat sch o e ++ r := by
  rw [flat_append, flat_update h]
  simp [flat, fit_of_length hr]

theorem flat_nulls : flat sch o (nulls sch) = ((schemas sch o).map fun _ => .Null : Row F) := by
  simp only [flat, schemas, map_flatMap]
  exact flatMap_congr fun t _ => fit_of_length length_nulls

theorem mem_of_locate {x : ℕ × ℕ} (h : locate rt sch lk o = some x) : x.1 ∈ o := by
  induction o with
  | nil => simp [locate] at h
  | cons t o ih =>
    rw [locate] at h
    split at h
    · cases h
      simp
    · exact mem_cons_of_mem _ (ih h)

/-- Looking a column up in the joined schema is finding its table and then the column. -/
theorem read_flat : read rt (schemas sch o) (flat sch o e) lk =
    (locate rt sch lk o).map fun x => (fit sch x.1 (e x.1))[x.2]? := by
  induction o with
  | nil => rfl
  | cons t o ih =>
    have hlen : (fit sch t (e t)).length = (sch t).length := length_fit
    simp only [read, position, schemas, flat, flatMap_cons, findIdx?_append, locate] at ih ⊢
    cases hp : (sch t).findIdx? fun c => lk.hits rt c.name with
    | some c =>
      have hc : c < (sch t).length := (findIdx?_eq_some_iff_findIdx_eq.mp hp).1
      simp [getElem?_append_left (hlen ▸ hc : c < (fit sch t (e t)).length)]
    | none =>
      simp only [Option.none_or, ← ih, Option.map_map]
      congr 1
      funext k
      simp [getElem?_append_right, hlen]

theorem position_schemas_none (h : locate rt sch lk o = none) :
    position rt lk (schemas sch o) = none := by
  have hread : read rt (schemas sch o) (flat sch o fun _ => ([] : Row F)) lk = none := by
    rw [read_flat, h]
    rfl
  simpa [read] using hread

theorem position_schemas {x : ℕ × ℕ} (h : locate rt sch lk o = some x) :
    ∃ k, position rt lk (schemas sch o) = some k ∧ k < (schemas sch o).length ∧
      ∀ e : ℕ → Row F, (flat sch o e)[k]? = (fit sch x.1 (e x.1))[x.2]? := by
  have hread : ∀ e : ℕ → Row F, read rt (schemas sch o) (flat sch o e) lk =
      some (fit sch x.1 (e x.1))[x.2]? := by
    intro e
    rw [read_flat, h]
    rfl
  cases hp : position rt lk (schemas sch o) with
  | none => simpa [read, hp] using hread fun _ => []
  | some k =>
    refine ⟨k, rfl, (findIdx?_eq_some_iff_findIdx_eq.mp hp).1, fun e => ?_⟩
    simpa [read, hp] using hread e

end Scope

/-! ## Conditions in two scopes

Table `i` is joined to the tables of `o`. -/

section Tests

variable (rt) (kind : JoinKind) (c : JoinCondition F) (i : ℕ)

/-- The order in which an `ON` sees the tables: a RIGHT join has its sides swapped. -/
def scope (o : List ℕ) : List ℕ :=
  match kind with
  | .Right => i :: o
  | _ => o ++ [i]

/-- The condition as the nested loop evaluates it. -/
def test (o : List ℕ) (e : ℕ → Row F) (r : Row F) : Result Bool :=
  match kind with
  | .Right => passes rt (sch i) (schemas sch o) (sch i ++ schemas sch o) (swap_condition c) r
      (flat sch o e)
  | _ => passes rt (schemas sch o) (sch i) (schemas sch o ++ sch i) c (flat sch o e) r

/-- Every column the condition names is the same one in both scopes, or is missing in both. -/
def SameReads (o o' : List ℕ) : Prop :=
  match c with
  | .On expr => ∀ lk ∈ expr.lookups,
      locate rt sch lk (scope kind i o) = locate rt sch lk (scope kind i o')
  | .Using cols => ∀ col ∈ cols, locate rt sch (.key col) o = locate rt sch (.key col) o'

/-- The condition has a column of table `t`. -/
def Sees (o : List ℕ) (t : ℕ) : Prop :=
  match c with
  | .On expr => ∃ lk ∈ expr.lookups, ∃ col, locate rt sch lk (scope kind i o) = some (t, col)
  | .Using cols => ∃ name ∈ cols, ∃ col, locate rt sch (.key name) o = some (t, col)

variable {rt sch kind c i} {o o' : List ℕ}

theorem mem_scope {t : ℕ} (h : t ∈ scope kind i o) : t = i ∨ t ∈ o := by
  unfold scope at h
  split at h
  · simpa using h
  · simpa [or_comm] using h

theorem schemas_scope : schemas sch (scope kind i o) =
    match kind with
    | .Right => sch i ++ schemas sch o
    | _ => schemas sch o ++ sch i := by
  unfold scope
  split
  · rfl
  · simp [schemas]

theorem flat_scope (hi : i ∉ o) (hr : r.length = (sch i).length) :
    flat sch (scope kind i o) (update e i r) =
      match kind with
      | .Right => r ++ flat sch o e
      | _ => flat sch o e ++ r := by
  unfold scope
  split
  · rw [← singleton_append, flat_append, flat_update hi]
    simp [flat, fit_of_length hr]
  · exact flat_snoc hi hr

/-- Two environments that agree where a lookup leads read the same. -/
theorem read_flat_congr {p q : List ℕ} {lk : Lookup} (h : locate rt sch lk p = locate rt sch lk q)
    (he : ∀ t col, locate rt sch lk p = some (t, col) → e t = e' t) :
    read rt (schemas sch p) (flat sch p e) lk = read rt (schemas sch q) (flat sch q e') lk := by
  rw [read_flat, read_flat, ← h]
  cases hp : locate rt sch lk p with
  | none => rfl
  | some x => simp [he x.1 x.2 hp]

theorem swap_lookups (expr : Expr F) : ∃ expr', swap_condition (.On expr) = .On expr' ∧
      ∀ lk, lk ∈ expr'.lookups → lk ∈ expr.lookups := by
  unfold swap_condition
  split
  · rename_i left right heq
    cases heq
    exact ⟨_, rfl, fun lk hlk => by simpa [Expr.lookups, or_comm] using hlk⟩
  · exact ⟨expr, rfl, fun _ h => h⟩

theorem using_match_congr {ls ls' rs rs' : List ColumnSchema} {l l' q q' : Row F}
    {cols : List String} (hl : ∀ col ∈ cols, read rt ls l (.key col) = read rt ls' l' (.key col))
    (hr : ∀ col ∈ cols, read rt rs q (.key col) = read rt rs' q' (.key col)) :
    using_match rt ls l rs q cols = using_match rt ls' l' rs' q' cols := by
  induction cols with
  | nil => rfl
  | cons col cols ih =>
    have ih := ih (fun x hx => hl x (by simp [hx])) fun x hx => hr x (by simp [hx])
    unfold using_match
    obtain ⟨hp, hp'⟩ | ⟨a, a', hp, hp', ha⟩ := read_cases (hl col (by simp))
    · rw [hp, hp']
    · obtain ⟨hq, hq'⟩ | ⟨b, b', hq, hq', hb⟩ := read_cases (hr col (by simp))
      · rw [hp, hp', hq, hq']
      · simp only [hp, hp', hq, hq', index, ha, hb, ih]

/-- A condition gives the same answer in two scopes where it reads the same columns. -/
theorem test_congr (hreads : SameReads rt sch kind c i o o') (hi : i ∉ o) (hi' : i ∉ o')
    (hr : r.length = (sch i).length) (he : ∀ t, Sees rt sch kind c i o t → t ≠ i → e t = e' t) :
    test rt sch kind c i o e r = test rt sch kind c i o' e' r := by
  cases c with
  | On expr =>
    have hread : ∀ lk ∈ expr.lookups, read rt (schemas sch (scope kind i o))
            (flat sch (scope kind i o) (update e i r)) lk =
          read rt (schemas sch (scope kind i o'))
            (flat sch (scope kind i o') (update e' i r)) lk := by
      intro lk hlk
      refine read_flat_congr (hreads lk hlk) fun t col ht => ?_
      by_cases hti : t = i
      · simp [hti]
      · rw [update_of_ne hti, update_of_ne hti]
        exact he t ⟨lk, hlk, col, ht⟩ hti
    obtain ⟨expr', hswap, hsub⟩ := swap_lookups expr
    simp only [schemas_scope, flat_scope hi hr, flat_scope hi' hr] at hread
    cases kind with
    | Right =>
      simp only [test, hswap, passes]
      rw [eval_expr_congr expr' fun lk hlk => hread lk (hsub lk hlk)]
    | _ =>
      simp only [test, passes]
      rw [eval_expr_congr expr hread]
  | Using cols =>
    have hread : ∀ col ∈ cols, read rt (schemas sch o) (flat sch o e) (.key col) =
        read rt (schemas sch o') (flat sch o' e') (.key col) := by
      intro col hcol
      refine read_flat_congr (hreads col hcol) fun t k ht => he t ⟨col, hcol, k, ht⟩ ?_
      exact fun hti => hi (hti ▸ mem_of_locate ht)
    cases kind with
    | Right => exact using_match_congr (fun _ _ => rfl) hread
    | _ => exact using_match_congr hread fun _ _ => rfl

end Tests

/-! ## The stages -/

section Stages

variable (rt) (rows : ℕ → List (Row F)) (kind : JoinKind) (c : JoinCondition F) (i : ℕ) (o : List ℕ)

/-- The two columns of a hash join, when the code takes one: the left by its table and its
place there. -/
def hash_cols : Option ((ℕ × ℕ) × ℕ) :=
  match kind with
  | .Inner => do
    let cols ← extract_eq_cols c
    let l ← locate rt sch (.key cols.1) o
    let r ← position rt (.key cols.2) (sch i)
    some (l, r)
  | _ => none

variable (e : ℕ → Row F)

/-- Whether a row of table `i` is a partner for the tables of `o`. -/
def meets (r : Row F) : Bool :=
  match kind with
  | .Cross => true
  | _ =>
    match hash_cols rt sch kind c i o with
    | some (l, ri) => key_of rt ri r = key_of rt l.2 (fit sch l.1 (e l.1))
    | none =>
      match test rt sch kind c i o e r with
      | .ok b => b
      | .error _ => false

/-- The rows a LEFT join finds for one environment. -/
def outer_rows : List (Row F) :=
  partners (meets rt sch kind c i o e) true (nulls sch i) (rows i)

open Classical in
/-- The environments a RIGHT join makes for one row of its table. -/
noncomputable def right_rows (m : Multiset (ℕ → Row F)) (r : Row F) : Multiset (ℕ → Row F) :=
  if (m.filter fun e => meets rt sch kind c i o e r) = 0 then
    {update (nulls sch) i r}
  else (m.filter fun e => meets rt sch kind c i o e r).map fun e => update e i r

open Classical in
noncomputable def stage : Pipeline.Stage ℕ (Row F) :=
  match kind with
  | .Right => .whole fun m => (rows i : Multiset (Row F)).bind (right_rows rt sch kind c i o m)
  | .Full => .whole fun m =>
      m.bind (Pipeline.extend i fun e => outer_rows rt sch rows kind c i o e) +
        ((rows i : Multiset (Row F)).filter fun r =>
          ∀ e ∈ m, meets rt sch kind c i o e r = false).map fun r =>
            update (nulls sch) i r
  | .Left => .spread fun e => outer_rows rt sch rows kind c i o e
  | _ => .spread fun e => (rows i).filter (meets rt sch kind c i o e)

/-- The join finds its columns in the scope `o'` where it finds them in the scope `o`. -/
def SameScope (o' : List ℕ) : Prop :=
  match kind with
  | .Cross => True
  | .Inner =>
    (∀ cols ∈ extract_eq_cols c, locate rt sch (.key cols.1) o = locate rt sch (.key cols.1) o') ∧
    (hash_cols rt sch kind c i o = none → SameReads rt sch kind c i o o')
  | _ => SameReads rt sch kind c i o o'

/-- The condition panics on no pair of rows that meet in the join. -/
def Safe (m : Multiset (ℕ → Row F)) : Prop :=
  kind ≠ .Cross → hash_cols rt sch kind c i o = none →
    ∀ e ∈ m, ∀ r ∈ rows i, ∃ b, test rt sch kind c i o e r = .ok b

end Stages

/-! ## A join is its stage -/

section Simulation

variable {sch : ℕ → List ColumnSchema} {rows : ℕ → List (Row F)} {kind : JoinKind}
  {c : JoinCondition F} {i : ℕ} {o o' : List ℕ} {m : Multiset (ℕ → Row F)}
  {left_rows : List (Row F)}

variable (rt sch rows kind c i o o') in
/-- What the step for table `i` needs of the scope `o` in which it is written and of the scope
`o'` in which it runs. -/
structure Fits : Prop where
  fresh : i ∉ o
  fresh' : i ∉ o'
  width : ∀ t, ∀ r ∈ rows t, r.length = (sch t).length
  same : SameScope rt sch kind c i o o'

/-- The joined rows are those of the environments, in some order. -/
def Shows (sch : ℕ → List ColumnSchema) (o : List ℕ) (left_rows : List (Row F))
    (m : Multiset (ℕ → Row F)) : Prop :=
  (left_rows : Multiset (Row F)) = m.map (flat sch o)

variable {values : (ℕ → Row F) → List (Row F)} {p : Row F → Bool} {is_outer : Bool} {e : ℕ → Row F}

theorem map_extend (hi : i ∉ o') (hvalues : ∀ e ∈ m, ∀ r ∈ values e, r.length = (sch i).length) :
    (m.bind (Pipeline.extend i fun e => values e)).map (flat sch (o' ++ [i])) =
      m.bind fun e => ((values e).map (flat sch o' e ++ ·) : List (Row F)) := by
  rw [map_bind]
  refine bind_congr fun e he => ?_
  rw [Pipeline.extend, Multiset.map_map, map_coe]
  congr 1
  apply map_congr_left
  intro r hr
  exact flat_snoc hi (hvalues e he r hr)

/-- A loop over the joined rows is a spreading stage when it pushes, for each of them, the
values of its environment. -/
theorem Shows.spread {g : Row F → List (Row F)} {res : List (Row F)}
    (h : Shows sch o' left_rows m) (hi : i ∉ o')
    (hvalues : ∀ e ∈ m, ∀ r ∈ values e, r.length = (sch i).length)
    (hg : ∀ e ∈ m, g (flat sch o' e) = (values e).map (flat sch o' e ++ ·))
    (hres : res.Perm (left_rows.flatMap g)) :
    Shows sch (o' ++ [i]) res (m.bind (Pipeline.extend i fun e => values e)) := by
  rw [Shows, map_extend hi hvalues, Multiset.coe_eq_coe.mpr hres, ← coe_bind, h, Multiset.bind_map]
  exact bind_congr fun e he => congrArg _ (hg e he)

theorem Shows.mem {l : Row F} (h : Shows sch o' left_rows m) (hl : l ∈ left_rows) :
    ∃ e ∈ m, flat sch o' e = l := by
  rw [← Multiset.mem_coe, h] at hl
  exact Multiset.mem_map.mp hl

theorem length_partners (hwidth : ∀ r ∈ rows i, r.length = (sch i).length)
    (hr : r ∈ partners p is_outer (nulls sch i) (rows i)) : r.length = (sch i).length := by
  unfold partners at hr
  split_ifs at hr
  · rw [mem_singleton.mp hr, length_nulls]
  · exact hwidth r (mem_of_mem_filter hr)

theorem Shows.flat_mem (h : Shows sch o' left_rows m) (he : e ∈ m) : flat sch o' e ∈ left_rows := by
  rw [← Multiset.mem_coe, h]
  exact Multiset.mem_map_of_mem _ he

theorem partners_congr {q : Row F → Bool} {z : Row F} (h : ∀ r ∈ rows i, p r = q r) :
    partners p is_outer z (rows i) = partners q is_outer z (rows i) := by
  rw [partners, partners, filter_congr h]

variable (rt sch rows kind c i o o' left_rows m) in
/-- The join does to the rows what its stage does to the environments. -/
def Staged : Prop :=
  ∃ res, apply_join rt (schemas sch o') left_rows (sch i) (rows i) kind c =
      .ok (schemas sch (o' ++ [i]), res) ∧
    Shows sch (o' ++ [i]) res ((stage rt sch rows kind c i o).apply i m)

variable (rt) in
/-- Whether the nested loop pairs two rows. -/
def passing (left_schema right_schema : List ColumnSchema) (c : JoinCondition F) (l r : Row F) :
    Bool :=
  (passes rt left_schema right_schema (left_schema ++ right_schema) c l r).toOption.getD false

namespace Fits

section Looped

variable (h : Fits rt sch rows kind c i o o') (hk : kind ≠ .Cross)
  (hcols : hash_cols rt sch kind c i o = none)
include h hk hcols

theorem sameReads : SameReads rt sch kind c i o o' := by
  have hsame := h.same
  cases kind with
  | Cross => exact absurd rfl hk
  | Inner => exact hsame.2 hcols
  | _ => exact hsame

/-- The condition says the same where the step runs and where it is written. -/
theorem test_moved {e : ℕ → Row F} {r : Row F} (hr : r ∈ rows i) :
    test rt sch kind c i o e r = test rt sch kind c i o' e r :=
  test_congr (h.sameReads hk hcols) h.fresh h.fresh' (h.width i r hr) fun _ _ _ => rfl

variable (hsafe : Safe rt sch rows kind c i o m)
include hsafe

theorem test_eq {e : ℕ → Row F} (he : e ∈ m) {r : Row F} (hr : r ∈ rows i) :
    test rt sch kind c i o' e r = .ok (meets rt sch kind c i o e r) := by
  obtain ⟨b, hb⟩ := hsafe hk hcols e he r hr
  have hmeets : meets rt sch kind c i o e r = b := by
    cases kind with
    | Cross => exact absurd rfl hk
    | _ => simp only [meets, hcols, hb]
  rw [hmeets, ← hb]
  exact (h.test_moved hk hcols hr).symm

variable (hk' : kind ≠ .Right)
include hk'

theorem passes_eq : ∀ e ∈ m, ∀ r ∈ rows i,
      passes rt (schemas sch o') (sch i) (schemas sch o' ++ sch i) c (flat sch o' e) r =
        .ok (meets rt sch kind c i o e r) := by
  intro e he r hr
  rw [← h.test_eq hk hcols hsafe he hr]
  cases kind <;> first | rfl | exact absurd rfl hk'

/-- The nested loop of an INNER, LEFT or FULL join. -/
theorem nested (hshow : Shows sch o' left_rows m) (is_outer : Bool) :
    ∃ res, nested_loop_join rt (schemas sch o') left_rows (sch i) (rows i)
        (schemas sch o' ++ sch i) c is_outer ((sch i).map fun _ => .Null) = .ok res ∧
      Shows sch (o' ++ [i]) res (m.bind (Pipeline.extend i fun e =>
        partners (meets rt sch kind c i o e) is_outer (nulls sch i) (rows i))) := by
  have hpass := h.passes_eq hk hcols hsafe hk'
  have hp : ∀ e ∈ m, ∀ r ∈ rows i,
      passing rt (schemas sch o') (sch i) c (flat sch o' e) r = meets rt sch kind c i o e r := by
    intro e he r hr
    rw [passing, hpass e he r hr]
    rfl
  refine ⟨_, nested_loop_join_ok (p := passing rt (schemas sch o') (sch i) c) ?_,
    hshow.spread h.fresh' ?_ ?_ (.refl _)⟩
  · intro l hl r hr
    obtain ⟨e, he, rfl⟩ := hshow.mem hl
    rw [hpass e he r hr, hp e he r hr]
  · exact fun e _ r hr => length_partners (h.width i) hr
  · exact fun e he => congrArg _ (partners_congr (hp e he))

end Looped

theorem inner_hash (h : Fits rt sch rows .Inner c i o o') {x : ℕ × ℕ} {ri : ℕ}
    (hcols : hash_cols rt sch .Inner c i o = some (x, ri)) :
    ∃ left_col right_col li, extract_eq_cols c = some (left_col, right_col) ∧
      position rt (.key left_col) (schemas sch o') = some li ∧
      position rt (.key right_col) (sch i) = some ri ∧
      li < (schemas sch o').length ∧ ri < (sch i).length ∧
      ∀ e : ℕ → Row F, key_of rt li (flat sch o' e) = key_of rt x.2 (fit sch x.1 (e x.1)) := by
  simp only [hash_cols, Option.bind_eq_bind, Option.bind_eq_some_iff] at hcols
  obtain ⟨cols, hc, l, hl, r, hr, heq⟩ := hcols
  obtain ⟨rfl, rfl⟩ : l = x ∧ r = ri := by simpa using heq
  rw [h.same.1 cols hc] at hl
  obtain ⟨li, hli, hlt, hget⟩ := position_schemas (F := F) hl
  refine ⟨cols.1, cols.2, li, hc, hli, hr, hlt,
    (findIdx?_eq_some_iff_findIdx_eq.mp hr).1, fun e => ?_⟩
  simp only [key_of, getD_eq_getElem?_getD, hget e]

theorem inner_nested (h : Fits rt sch rows .Inner c i o o')
    (hcols : hash_cols rt sch .Inner c i o = none) {left_col right_col : String}
    (hc : extract_eq_cols c = some (left_col, right_col)) :
    position rt (.key left_col) (schemas sch o') = none ∨
      position rt (.key right_col) (sch i) = none := by
  have hl := h.same.1 _ hc
  cases hx : locate rt sch (.key left_col) o with
  | none => exact .inl (position_schemas_none (hl.symm.trans hx))
  | some x =>
    right
    rw [Option.eq_none_iff_forall_ne_some]
    simpa [hash_cols, hc, hx] using hcols

open Classical in
/-- The rows of the other side that pass, for one row of table `i`. -/
theorem filter_shows (hshow : Shows sch o' left_rows m) {r : Row F} {p : Row F → Bool}
    (hp : ∀ e ∈ m, p (flat sch o' e) = meets rt sch kind c i o e r) :
    (left_rows.filter p : Multiset (Row F)) =
      (m.filter fun e => meets rt sch kind c i o e r).map (flat sch o') := by
  have hdec : left_rows.filter p = left_rows.filter fun l => decide (p l = true) := by simp
  rw [hdec, ← Multiset.filter_coe, hshow, Multiset.filter_map]
  congr 1
  refine Multiset.filter_congr fun e he => ?_
  simp [hp e he]

/-- One row of table `i` in a RIGHT join, with the columns moved back. -/
theorem right_row_shows (hi : i ∉ o') (hshow : Shows sch o' left_rows m) {r : Row F}
    (hr : r.length = (sch i).length) {p : Row F → Bool}
    (hp : ∀ e ∈ m, p (flat sch o' e) = meets rt sch kind c i o e r) :
    (((partners p true ((schemas sch o').map fun _ => .Null) left_rows).map (r ++ ·)).map
        (fun row => row.drop (sch i).length ++ row.take (sch i).length) : Multiset (Row F)) =
      (right_rows rt sch kind c i o m r).map (flat sch (o' ++ [i])) := by
  classical
  have hback : (fun row : Row F => row.drop (sch i).length ++ row.take (sch i).length) ∘
      (r ++ ·) = (· ++ r) := by
    funext l
    simp [← hr]
  have hfilter := filter_shows hshow hp
  rw [map_map, hback, right_rows, partners]
  by_cases hnone : left_rows.filter p = []
  · have hzero : (m.filter fun e => meets rt sch kind c i o e r = true) = 0 := by
      rw [hnone] at hfilter
      exact Multiset.map_eq_zero.mp hfilter.symm
    rw [if_pos hzero, hnone]
    simp [flat_snoc hi hr, flat_nulls]
  · have hsome : (m.filter fun e => meets rt sch kind c i o e r = true) ≠ 0 := by
      intro hzero
      rw [hzero] at hfilter
      exact hnone (by simpa using hfilter)
    rw [if_neg hsome, if_neg (by simpa using hnone), ← map_coe, hfilter,
      Multiset.map_map, Multiset.map_map]
    simp [flat_snoc hi hr]

section

variable (hshow : Shows sch o' left_rows m)

include hshow in
theorem cross (h : Fits rt sch rows .Cross c i o o') :
    Staged rt sch rows .Cross c i o o' m left_rows := by
  have hall : ∀ e, (rows i).filter (meets rt sch .Cross c i o e) = rows i := by
    simp [meets]
  refine ⟨_, by rw [schemas_append, schemas_singleton]; rfl, hshow.spread h.fresh' ?_ ?_ (.refl _)⟩
  · exact fun e _ r hr => h.width i r (mem_of_mem_filter hr)
  · exact fun e _ => by rw [hall]

include hshow

theorem inner (h : Fits rt sch rows .Inner c i o o') (hsafe : Safe rt sch rows .Inner c i o m) :
    Staged rt sch rows .Inner c i o o' m left_rows := by
  rw [Staged, schemas_append, schemas_singleton]
  cases hcols : hash_cols rt sch .Inner c i o with
  | none =>
    obtain ⟨res, hjoin, hshow'⟩ := h.nested (by decide) hcols hsafe (by decide) hshow false
    refine ⟨res, ?_, hshow'⟩
    unfold apply_join
    cases hc : extract_eq_cols c with
    | none =>
      simp only [hjoin]
      rfl
    | some cols =>
      -- one of the two columns is not found, and the code falls back to the nested loop
      obtain hl | hr := h.inner_nested hcols hc
      · simp only [hl, hjoin]
        rfl
      · simp only [hr, hjoin]
        cases position rt (.key cols.1) (schemas sch o') <;> rfl
  | some xr =>
    obtain ⟨left_col, right_col, li, hc, hli, hri, hlt, hrt, hkey⟩ := h.inner_hash hcols
    have hl : ∀ l ∈ left_rows, li < l.length := by
      intro l hl
      obtain ⟨e, -, rfl⟩ := hshow.mem hl
      rwa [length_flat]
    have hr : ∀ r ∈ rows i, xr.2 < r.length := by
      intro r hr
      rwa [h.width i r hr]
    have hspread : ∀ res : List (Row F), res.Perm (left_rows.flatMap fun l =>
          (same_key rt li xr.2 (rows i) l).map (l ++ ·)) →
        Shows sch (o' ++ [i]) res ((stage rt sch rows .Inner c i o).apply i m) := by
      intro res hperm
      refine hshow.spread h.fresh' ?_ ?_ hperm
      · exact fun e _ r hr => h.width i r (mem_of_mem_filter hr)
      · intro e he
        congr 1
        apply filter_congr
        intro r _
        simp only [meets, hcols, hkey e]
    unfold apply_join
    simp only [hc, hli, hri]
    split_ifs
    · obtain ⟨res, hres, hperm⟩ := partition_hash_join_ok hl hr
      rw [hres]
      exact ⟨res, rfl, hspread res hperm⟩
    · rw [hash_join_ok hl hr]
      exact ⟨_, rfl, hspread _ (.refl _)⟩

theorem left (h : Fits rt sch rows .Left c i o o') (hsafe : Safe rt sch rows .Left c i o m) :
    Staged rt sch rows .Left c i o o' m left_rows := by
  obtain ⟨res, hjoin, hshow'⟩ := h.nested (by decide) rfl hsafe (by decide) hshow true
  refine ⟨res, ?_, hshow'⟩
  unfold apply_join
  simp only [hjoin, schemas_append, schemas_singleton]
  rfl

theorem right (h : Fits rt sch rows .Right c i o o') (hsafe : Safe rt sch rows .Right c i o m) :
    Staged rt sch rows .Right c i o o' m left_rows := by
  let p := passing rt (sch i) (schemas sch o') (swap_condition c)
  have hpass : ∀ e ∈ m, ∀ r ∈ rows i,
      passes rt (sch i) (schemas sch o') (sch i ++ schemas sch o') (swap_condition c) r
        (flat sch o' e) = .ok (meets rt sch .Right c i o e r) :=
    fun e he r hr => h.test_eq (by decide) rfl hsafe he hr
  have hp : ∀ r ∈ rows i, ∀ e ∈ m,
      p r (flat sch o' e) = meets rt sch .Right c i o e r := by
    intro r hr e he
    simp only [p, passing, hpass e he r hr]
    rfl
  have hnested : nested_loop_join rt (sch i) (rows i) (schemas sch o') left_rows
      (sch i ++ schemas sch o') (swap_condition c) true ((schemas sch o').map fun _ => .Null) =
      .ok _ := nested_loop_join_ok (p := p) (by
    intro r hr l hl
    obtain ⟨e, he, rfl⟩ := hshow.mem hl
    rw [hpass e he r hr, hp r hr e he])
  refine ⟨((rows i).flatMap fun r =>
      (partners (p r) true ((schemas sch o').map fun _ => .Null) left_rows).map (r ++ ·)).map
    fun row => row.drop (sch i).length ++ row.take (sch i).length, ?_, ?_⟩
  · unfold apply_join
    simp only [hnested, schemas_append, schemas_singleton]
    rfl
  · rw [Shows, map_flatMap, ← coe_bind]
    simp only [stage, Pipeline.Stage.apply]
    rw [map_bind]
    refine bind_congr fun r hr => ?_
    exact right_row_shows h.fresh' hshow (h.width i r hr) (hp r hr)

theorem full (h : Fits rt sch rows .Full c i o o') (hsafe : Safe rt sch rows .Full c i o m) :
    Staged rt sch rows .Full c i o o' m left_rows := by
  classical
  obtain ⟨matched, hjoin, hshow'⟩ := h.nested (by decide) rfl hsafe (by decide) hshow true
  have hpass := h.passes_eq (by decide) rfl hsafe (by decide)
  let p r l := passing rt (schemas sch o') (sch i) c l r
  have hp : ∀ r ∈ rows i, ∀ e ∈ m, p r (flat sch o' e) = meets rt sch .Full c i o e r := by
    intro r hr e he
    simp only [p, passing, hpass e he r hr]
    rfl
  -- the second loop tests each right row against all left rows once more
  have hany : ∀ r ∈ rows i, any_match (fun l => passes rt (schemas sch o') (sch i)
      (schemas sch o' ++ sch i) c l r) left_rows = .ok (left_rows.any (p r)) := by
    intro r hr
    refine any_match_ok fun l hl => ?_
    obtain ⟨e, he, rfl⟩ := hshow.mem hl
    rw [hpass e he r hr, hp r hr e he]
  have hkeep : keep (fun r => do
      let has_match ← any_match (fun l => passes rt (schemas sch o') (sch i)
        (schemas sch o' ++ sch i) c l r) left_rows
      .ok (!has_match)) (rows i) = .ok ((rows i).filter fun r => !left_rows.any (p r)) :=
    keep_ok fun r hr => by rw [hany r hr]; rfl
  have hunmatched : ∀ r ∈ rows i, (!left_rows.any (p r)) = true ↔
      ∀ e ∈ m, meets rt sch .Full c i o e r = false := by
    intro r hr
    simp only [Bool.not_eq_true', any_eq_false, Bool.not_eq_true]
    constructor
    · intro hall e he
      rw [← hp r hr e he]
      exact hall _ (hshow.flat_mem he)
    · intro hall l hl
      obtain ⟨e, he, rfl⟩ := hshow.mem hl
      rw [hp r hr e he, hall e he]
  refine ⟨matched ++ ((rows i).filter fun r => !left_rows.any (p r)).map
    (((schemas sch o').map fun _ => .Null) ++ ·), ?_, ?_⟩
  · unfold apply_join
    simp only [hjoin, hkeep, schemas_append, schemas_singleton]
    rfl
  · have hfilter : ((rows i).filter fun r => !left_rows.any (p r) : Multiset (Row F)) =
        (rows i : Multiset (Row F)).filter fun r =>
          ∀ e ∈ m, meets rt sch .Full c i o e r = false := by
      congr 1
      apply filter_congr
      intro r hr
      rw [Bool.eq_iff_iff, hunmatched r hr]
      simp
    rw [Shows, ← coe_add, hshow', ← map_coe, hfilter]
    simp only [stage, Pipeline.Stage.apply, map_add, Multiset.map_map]
    congr 1
    refine Multiset.map_congr rfl fun r hr => ?_
    have hrow := h.width i r (Multiset.mem_coe.mp (Multiset.mem_of_mem_filter hr))
    simp [flat_snoc h.fresh' hrow, flat_nulls]

/-- Each kind of join does to the rows what its stage does to the environments. -/
theorem simulates (h : Fits rt sch rows kind c i o o') (hsafe : Safe rt sch rows kind c i o m) :
    Staged rt sch rows kind c i o o' m left_rows := by
  cases kind with
  | Cross => exact h.cross hshow
  | Inner => exact h.inner hshow hsafe
  | Left => exact h.left hshow hsafe
  | Right => exact h.right hshow hsafe
  | Full => exact h.full hshow hsafe

/-- A join that returns has tested every pair of rows that meet. -/
theorem safe_of_ok (h : Fits rt sch rows kind c i o o') {out : List ColumnSchema × List (Row F)}
    (hjoin : apply_join rt (schemas sch o') left_rows (sch i) (rows i) kind c = .ok out) :
    Safe rt sch rows kind c i o m := by
  intro hk hcols e he r hr
  rw [h.test_moved hk hcols hr]
  have hl := hshow.flat_mem he
  unfold apply_join at hjoin
  cases kind with
  | Cross => exact absurd rfl hk
  | Inner =>
    cases hc : extract_eq_cols c with
    | none =>
      simp only [hc] at hjoin
      obtain ⟨res, hres, -⟩ := bind_ok hjoin
      exact ok_of_nested_loop hres _ hl r hr
    | some cols =>
      obtain hcol | hcol := h.inner_nested hcols hc
      · simp only [hc, hcol] at hjoin
        obtain ⟨res, hres, -⟩ := bind_ok hjoin
        exact ok_of_nested_loop hres _ hl r hr
      · simp only [hc, hcol] at hjoin
        cases hp : position rt (.key cols.1) (schemas sch o')
        all_goals
          rw [hp] at hjoin
          obtain ⟨res, hres, -⟩ := bind_ok hjoin
          exact ok_of_nested_loop hres _ hl r hr
  | Left =>
    obtain ⟨res, hres, -⟩ := bind_ok hjoin
    exact ok_of_nested_loop hres _ hl r hr
  | Right =>
    obtain ⟨swapped, hswapped, -⟩ := bind_ok hjoin
    exact ok_of_nested_loop hswapped r hr _ hl
  | Full =>
    obtain ⟨matched, hmatched, -⟩ := bind_ok hjoin
    exact ok_of_nested_loop hmatched _ hl r hr

end

end Fits

/-! ## What a stage reads -/

theorem sameReads_refl : SameReads rt sch kind c i o o := by
  cases c <;> exact fun _ _ => rfl

variable (rt sch kind c i o) in
/-- The tables a join looks at besides its own. -/
def ReadsTable (t : ℕ) : Prop :=
  match kind with
  | .Cross => False
  | _ =>
    match hash_cols rt sch kind c i o with
    | some (l, _) => t = l.1
    | none => Sees rt sch kind c i o t

theorem Sees.mem {t : ℕ} (h : Sees rt sch kind c i o t) (ht : t ≠ i) : t ∈ o := by
  cases c with
  | On expr =>
    obtain ⟨lk, -, col, hloc⟩ := h
    exact (mem_scope (mem_of_locate hloc)).resolve_left ht
  | Using cols =>
    obtain ⟨name, -, col, hloc⟩ := h
    exact mem_of_locate hloc

theorem Sees.of_sameReads {t : ℕ} (hreads : SameReads rt sch kind c i o o')
    (h : Sees rt sch kind c i o t) : Sees rt sch kind c i o' t := by
  cases c with
  | On expr =>
    obtain ⟨lk, hlk, col, hloc⟩ := h
    exact ⟨lk, hlk, col, (hreads lk hlk).symm.trans hloc⟩
  | Using cols =>
    obtain ⟨name, hname, col, hloc⟩ := h
    exact ⟨name, hname, col, (hreads name hname).symm.trans hloc⟩

/-- What a join reads comes before it, where it is written and where it runs. -/
theorem Fits.reads_mem {t : ℕ} (h : Fits rt sch rows kind c i o o')
    (hread : ReadsTable rt sch kind c i o t) (ht : t ≠ i) : t ∈ o ∧ t ∈ o' := by
  have hk : kind ≠ .Cross := by
    rintro rfl
    exact hread
  cases hcols : hash_cols rt sch kind c i o with
  | none =>
    have hsees : Sees rt sch kind c i o t := by
      cases kind <;> first | exact absurd rfl hk | simpa only [ReadsTable, hcols] using hread
    exact ⟨hsees.mem ht, (hsees.of_sameReads (h.sameReads hk hcols)).mem ht⟩
  | some xr =>
    cases kind with
    | Inner =>
      obtain rfl : t = xr.1.1 := by simpa only [ReadsTable, hcols] using hread
      simp only [hash_cols, Option.bind_eq_bind, Option.bind_eq_some_iff] at hcols
      obtain ⟨cols, hc, l, hl, r, hr, heq⟩ := hcols
      cases heq
      exact ⟨mem_of_locate hl, mem_of_locate ((h.same.1 cols hc).symm.trans hl)⟩
    | _ => simp [hash_cols] at hcols

/-- A table that is not read does not matter. -/
theorem meets_update {j : ℕ} {v : Row F} (hi : i ∉ o) (hr : r.length = (sch i).length)
    (hj : ¬ReadsTable rt sch kind c i o j) :
    meets rt sch kind c i o (update e j v) r = meets rt sch kind c i o e r := by
  have hother : ∀ t, ReadsTable rt sch kind c i o t → update e j v t = e t := by
    intro t ht
    have htj : t ≠ j := fun htj => hj (htj ▸ ht)
    rw [update_of_ne htj]
  cases kind with
  | Cross => rfl
  | _ =>
    simp only [ReadsTable, meets] at hother ⊢
    cases hcols : hash_cols rt sch _ c i o with
    | none =>
      simp only [hcols] at hother ⊢
      have htest := test_congr (sameReads_refl (o := o)) hi hi hr fun t ht _ => hother t ht
      rw [htest]
    | some xr =>
      simp only [hcols] at hother ⊢
      rw [hother _ rfl]

theorem Fits.ignores {values : (ℕ → Row F) → Multiset (Row F)} {j : ℕ}
    (h : Fits rt sch rows kind c i o o') (hvalues : stage rt sch rows kind c i o = .spread values)
    (hj : ¬ReadsTable rt sch kind c i o j) : Pipeline.Ignores values j := by
  intro e v
  have hmeets : ∀ r ∈ rows i, meets rt sch kind c i o (update e j v) r =
      meets rt sch kind c i o e r :=
    fun r hr => meets_update h.fresh (h.width i r hr) hj
  cases kind with
  | Inner | Cross =>
    cases hvalues
    exact congrArg _ (filter_congr hmeets)
  | Left =>
    cases hvalues
    exact congrArg _ (partners_congr hmeets)
  | Right | Full => cases hvalues

end Simulation

end Oigrap.Sql

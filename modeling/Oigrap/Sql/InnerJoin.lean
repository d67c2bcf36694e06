/-
The hash join of `apply_join` against the nested loop, for `a = b` between two columns.

The nested loop evaluates the condition, so two NULL keys do not match; the hash join compares
the printed keys, so they do. Both look up the columns by name, in their own ways: a reference
`t.c` goes to a column named `t.c` or `c`, a hash key to one whose name is `t.c` or ends in
`.t.c`.
-/
import Mathlib
import Oigrap.Sql.JoinSpec

namespace Oigrap.Sql

open List

variable {F : Type} (rt : Runtime F)

/-! ## Values -/

def Value.NoFloat (v : Value F) : Prop := ∀ f, v ≠ .Float64 f

/-- The derived `Debug` text tells values apart that are not floats. -/
def DebugFaithful : Prop :=
  ∀ v w : Value F, v.NoFloat → w.NoFloat → rt.fmt_debug v = rt.fmt_debug w → v = w

theorem Value.eq_iff {v w : Value F} (hv : v.NoFloat) : v.eq rt w = true ↔ v = w := by
  cases v with
  | Float64 f => exact absurd rfl (hv f)
  | _ => cases w <;> simp [Value.eq]

/-! ## The columns of an equality -/

/-- A column reference reads the column at `i`. -/
def Refers (schema : List ColumnSchema) (table : Option String) (column : String) (i : ℕ) :
    Prop :=
  (table = none → pseudo_column (F := F) (rt.to_lowercase column) = none) ∧
    position rt (.reference table column) schema = some i

variable {rt} {schema : List ColumnSchema}

theorem Refers.eval {table : Option String} {column : String} {i : ℕ}
    (h : Refers rt schema table column i) (row : Row F) (hi : i < row.length) :
    eval_expr rt schema row (.ColumnRef table column) = .ok (row.getD i .Null) := by
  have hpseudo : (if table.isNone then pseudo_column (F := F) (rt.to_lowercase column)
      else none) = none := by
    cases table with
    | none => exact h.1 rfl
    | some t => rfl
  simp only [eval_expr, hpseudo, h.2, index, getElem?_eq_getElem hi, getD_eq_getElem _ _ hi]

/-- The rows that two values of the key columns bring together in the nested loop. -/
def equal_keys (rt : Runtime F) (li ri : ℕ) (l r : Row F) : Bool :=
  let v := l.getD li .Null
  let w := r.getD ri .Null
  !v.is_null && !w.is_null && v.eq rt w

section

variable {left_schema right_schema : List ColumnSchema} {t₁ t₂ : Option String} {c₁ c₂ : String}
  {li ri : ℕ} {l r : Row F}

theorem passes_equality (hl : l.length = left_schema.length) (hr : r.length = right_schema.length)
    (hli : li < l.length) (hri : ri < r.length)
    (h₁ : Refers rt (left_schema ++ right_schema) t₁ c₁ li)
    (h₂ : Refers rt (left_schema ++ right_schema) t₂ c₂ (left_schema.length + ri)) :
    passes rt left_schema right_schema (left_schema ++ right_schema)
      (.On (.BinaryOp .Eq (.ColumnRef t₁ c₁) (.ColumnRef t₂ c₂))) l r =
      .ok (equal_keys rt li ri l r) := by
  have hv : (l ++ r).getD li .Null = l.getD li .Null := by
    simp [getD, getElem?_append_left hli]
  have hw : (l ++ r).getD (left_schema.length + ri) .Null = r.getD ri .Null := by
    simp [getD, ← hl, getElem?_append_right]
  have he₁ := h₁.eval (l ++ r) (by rw [length_append]; omega)
  have he₂ := h₂.eval (l ++ r) (by rw [length_append]; omega)
  rw [hv] at he₁
  rw [hw] at he₂
  have hev : eval_expr rt (left_schema ++ right_schema) (l ++ r)
      (.BinaryOp .Eq (.ColumnRef t₁ c₁) (.ColumnRef t₂ c₂)) =
      eval_binop rt .Eq (l.getD li .Null) (r.getD ri .Null) := by
    rw [eval_expr, he₁, he₂]
    rfl
  simp only [passes, hev, equal_keys, eval_binop]
  generalize l.getD li .Null = v
  generalize r.getD ri .Null = w
  cases v.is_null <;> cases w.is_null <;> rfl

/-- Keys that print alike are equal keys, or two NULLs. -/
theorem key_of_eq_iff (hdebug : DebugFaithful rt) (hl : (l.getD li .Null).NoFloat)
    (hr : (r.getD ri .Null).NoFloat) : key_of rt ri r = key_of rt li l ↔
      equal_keys rt li ri l r = true ∨ l.getD li .Null = .Null ∧ r.getD ri .Null = .Null := by
  have hkey : key_of rt ri r = key_of rt li l ↔ l.getD li .Null = r.getD ri .Null :=
    ⟨fun h => (hdebug _ _ hr hl h).symm, fun h => by rw [key_of, key_of, h]⟩
  simp only [hkey, equal_keys, Bool.and_eq_true, Bool.not_eq_true', Value.eq_iff rt hl]
  generalize l.getD li .Null = v
  generalize r.getD ri .Null = w
  constructor
  · rintro rfl
    cases v <;> simp [Value.is_null]
  · rintro (h | ⟨rfl, rfl⟩)
    · exact h.2
    · rfl

end

/-- A reference to a column of a full row gives its value or an `Err`. -/
theorem eval_column_total (rt : Runtime F) {row : Row F} (hrow : row.length = schema.length)
    (table : Option String) (column : String) :
    eval_expr rt schema row (.ColumnRef table column) ≠ .error .panic := by
  rw [eval_expr]
  split
  · simp
  · split
    · rename_i idx hidx
      have hlt : idx < row.length := hrow ▸ (findIdx?_eq_some_iff_getElem.mp hidx).1
      simp [index, getElem?_eq_getElem hlt]
    · simp [semantic]

theorem passes_equality_total {schema ls rs : List ColumnSchema} {t₁ t₂ : Option String}
    {c₁ c₂ : String} {l r : Row F} (hrow : (l ++ r).length = schema.length) :
    ∃ b, passes rt ls rs schema (.On (.BinaryOp .Eq (.ColumnRef t₁ c₁) (.ColumnRef t₂ c₂))) l r =
      .ok b := by
  have h₁ := eval_column_total rt hrow t₁ c₁
  have h₂ := eval_column_total rt hrow t₂ c₂
  rw [passes, eval_expr]
  match he₁ : eval_expr rt schema (l ++ r) (.ColumnRef t₁ c₁),
    he₂ : eval_expr rt schema (l ++ r) (.ColumnRef t₂ c₂) with
  | .error .panic, _ => exact absurd he₁ h₁
  | .error (.Err _), _ => exact ⟨false, rfl⟩
  | .ok v, .error .panic => exact absurd he₂ h₂
  | .ok v, .error (.Err _) => exact ⟨false, rfl⟩
  | .ok v, .ok w =>
    change ∃ b, unwrap_or ((eval_binop rt .Eq v w).map (is_truthy rt)) false = .ok b
    unfold eval_binop
    split
    · exact ⟨false, rfl⟩
    · exact ⟨_, rfl⟩

/-! ## The two algorithms -/

section Inner

variable (rt) (left_schema right_schema : List ColumnSchema) (left_rows right_rows : List (Row F))
  (t₁ : Option String) (c₁ : String) (t₂ : Option String) (c₂ : String)

/-- `apply_join` takes the hash join, on these key columns. -/
def HashOn (li ri : ℕ) : Prop :=
  position rt (.key (key_text t₁ c₁)) left_schema = some li ∧
    position rt (.key (key_text t₂ c₂)) right_schema = some ri

/-- The key columns of the hash join are the columns the condition names. -/
def KeysAgree : Prop :=
  ∀ li ri, HashOn rt left_schema right_schema t₁ c₁ t₂ c₂ li ri →
    Refers rt (left_schema ++ right_schema) t₁ c₁ li ∧
      Refers rt (left_schema ++ right_schema) t₂ c₂ (left_schema.length + ri)

/-- The key columns of the hash join are not NULL on both sides. -/
def NoNullPair : Prop :=
  ∀ li ri, HashOn rt left_schema right_schema t₁ c₁ t₂ c₂ li ri →
    (∀ l ∈ left_rows, l.getD li .Null ≠ .Null) ∨ ∀ r ∈ right_rows, r.getD ri .Null ≠ .Null

/-- The join and the nested loop return the same rows, up to their order. -/
def JoinsAlike : Prop :=
  let condition : JoinCondition F := .On (.BinaryOp .Eq (.ColumnRef t₁ c₁) (.ColumnRef t₂ c₂))
  ∃ rows nested, apply_join rt left_schema left_rows right_schema right_rows .Inner condition =
      .ok (left_schema ++ right_schema, rows) ∧
    nested_loop_join rt left_schema left_rows right_schema right_rows
      (left_schema ++ right_schema) condition false (right_schema.map fun _ => .Null) =
      .ok nested ∧
    rows.Perm nested

/-- Of two joins by filters, one finer than the other, the outcomes agree only where the
filters do. -/
theorem flatMap_filter_perm_iff {α β γ : Type} {left : List α} {right : List β}
    {p q : α → β → Bool} {f : α → β → γ} (hpq : ∀ l ∈ left, ∀ r ∈ right, p l r → q l r) :
    (left.flatMap fun l => (right.filter (q l)).map (f l)).Perm
        (left.flatMap fun l => (right.filter (p l)).map (f l)) ↔
      ∀ l ∈ left, ∀ r ∈ right, q l r → p l r := by
  constructor
  · intro hperm l hl r hr hq
    by_contra hp
    have hle : ∀ x ∈ left, (right.filter (p x)).length ≤ (right.filter (q x)).length := by
      intro x hx
      simp only [← countP_eq_length_filter]
      exact countP_mono_left fun y hy => hpq x hx y hy
    have hlt : (right.filter (p l)).length < (right.filter (q l)).length := by
      refine lt_of_le_of_ne (hle l hl) fun heq => hp ?_
      have hfilter : right.filter (p l) = (right.filter (q l)).filter (p l) := by
        rw [filter_filter]
        refine filter_congr fun y hy => ?_
        by_cases hy' : p l y
        · simp [hy', hpq l hl y hy hy']
        · simp [hy']
      rw [hfilter] at heq
      have hall := length_filter_eq_length_iff.mp heq
      exact hall r (mem_filter.mpr ⟨hr, hq⟩)
    have hlength := hperm.length_eq
    simp only [length_flatMap, length_map] at hlength
    exact absurd hlength (sum_lt_sum _ _ hle ⟨l, hl, hlt⟩).ne'
  · intro h
    rw [flatMap_congr fun l hl => congrArg _ (filter_congr fun r hr =>
      Bool.eq_iff_iff.mpr ⟨h l hl r hr, hpq l hl r hr⟩)]

variable {rt left_schema right_schema left_rows right_rows t₁ c₁ t₂ c₂} {li ri : ℕ}

section

variable (h : HashOn rt left_schema right_schema t₁ c₁ t₂ c₂ li ri)
include h

theorem HashOn.left_lt :
    li < left_schema.length := (findIdx?_eq_some_iff_getElem.mp h.1).1

theorem HashOn.right_lt :
    ri < right_schema.length := (findIdx?_eq_some_iff_getElem.mp h.2).1

/-- On the hash path, spilling or not, the join finds the pairs of rows whose keys print
alike. -/
theorem apply_join_hash (hl : ∀ l ∈ left_rows, l.length = left_schema.length)
    (hr : ∀ r ∈ right_rows, r.length = right_schema.length) :
    ∃ rows, apply_join rt left_schema left_rows right_schema right_rows .Inner
        (.On (.BinaryOp .Eq (.ColumnRef t₁ c₁) (.ColumnRef t₂ c₂))) =
        .ok (left_schema ++ right_schema, rows) ∧
      rows.Perm (left_rows.flatMap fun l => (same_key rt li ri right_rows l).map (l ++ ·)) := by
  have hli : ∀ l ∈ left_rows, li < l.length := fun l hlm => hl l hlm ▸ h.left_lt
  have hri : ∀ r ∈ right_rows, ri < r.length := fun r hrm => hr r hrm ▸ h.right_lt
  simp only [apply_join, extract_eq_cols, h.1, h.2]
  split
  · obtain ⟨rows, hrows, hperm⟩ := @partition_hash_join_ok F rt _ _ _ _ hli hri
    exact ⟨rows, by rw [hrows]; rfl, hperm⟩
  · exact ⟨_, by rw [hash_join_ok hli hri]; rfl, .rfl⟩

theorem nested_loop_equality (h₁ : Refers rt (left_schema ++ right_schema) t₁ c₁ li)
    (h₂ : Refers rt (left_schema ++ right_schema) t₂ c₂ (left_schema.length + ri))
    (hl : ∀ l ∈ left_rows, l.length = left_schema.length)
    (hr : ∀ r ∈ right_rows, r.length = right_schema.length) (null_right : Row F) :
    nested_loop_join rt left_schema left_rows right_schema right_rows
        (left_schema ++ right_schema) (.On (.BinaryOp .Eq (.ColumnRef t₁ c₁) (.ColumnRef t₂ c₂)))
        false null_right = .ok (left_rows.flatMap fun l =>
        (right_rows.filter (equal_keys rt li ri l)).map (l ++ ·)) := by
  rw [nested_loop_join_ok fun l hlm r hrm => passes_equality (hl l hlm) (hr r hrm)
    (hl l hlm ▸ h.left_lt) (hr r hrm ▸ h.right_lt) h₁ h₂]
  simp [partners]

end

/-- Without a hash key on both sides the join is the nested loop. -/
theorem apply_join_nested (h : ¬ ∃ li ri, HashOn rt left_schema right_schema t₁ c₁ t₂ c₂ li ri) :
    apply_join rt left_schema left_rows right_schema right_rows .Inner
        (.On (.BinaryOp .Eq (.ColumnRef t₁ c₁) (.ColumnRef t₂ c₂))) =
      (nested_loop_join rt left_schema left_rows right_schema right_rows
        (left_schema ++ right_schema) (.On (.BinaryOp .Eq (.ColumnRef t₁ c₁) (.ColumnRef t₂ c₂)))
        false (right_schema.map fun _ => .Null)).map (left_schema ++ right_schema, ·) := by
  simp only [apply_join, extract_eq_cols]
  split
  · rename_i li ri hli hri
    exact absurd ⟨li, ri, hli, hri⟩ h
  · rfl

theorem noFloat_getD {row : Row F} (h : ∀ v ∈ row, v.NoFloat) (i : ℕ) :
    (row.getD i .Null).NoFloat := by
  rw [getD]
  cases hv : row[i]? with
  | some v => exact h v (mem_of_getElem? hv)
  | none => exact nofun

/-- Where the hash join keys the columns that the condition names, it returns the rows of the
nested loop exactly when the keys are not NULL on both sides. -/
theorem apply_join_same_rows_iff (hdebug : DebugFaithful rt)
    (hl : ∀ l ∈ left_rows, l.length = left_schema.length)
    (hr : ∀ r ∈ right_rows, r.length = right_schema.length)
    (hlf : ∀ l ∈ left_rows, ∀ v ∈ l, v.NoFloat) (hrf : ∀ r ∈ right_rows, ∀ v ∈ r, v.NoFloat)
    (hagree : KeysAgree rt left_schema right_schema t₁ c₁ t₂ c₂) :
    JoinsAlike rt left_schema right_schema left_rows right_rows t₁ c₁ t₂ c₂ ↔
      NoNullPair rt left_schema right_schema left_rows right_rows t₁ c₁ t₂ c₂ := by
  by_cases hhash : ∃ li ri, HashOn rt left_schema right_schema t₁ c₁ t₂ c₂ li ri
  · obtain ⟨li, ri, h⟩ := hhash
    obtain ⟨h₁, h₂⟩ := hagree li ri h
    obtain ⟨rows, hrows, hperm⟩ := apply_join_hash h hl hr
    have hnested := nested_loop_equality h h₁ h₂ hl hr (right_schema.map fun _ => .Null)
    have hkey : ∀ l ∈ left_rows, ∀ r ∈ right_rows, (key_of rt ri r = key_of rt li l ↔
        equal_keys rt li ri l r = true ∨ l.getD li .Null = .Null ∧ r.getD ri .Null = .Null) :=
      fun l hlm r hrm => key_of_eq_iff hdebug (noFloat_getD (hlf l hlm) li)
        (noFloat_getD (hrf r hrm) ri)
    have hsame : JoinsAlike rt left_schema right_schema left_rows right_rows t₁ c₁ t₂ c₂ ↔
        (left_rows.flatMap fun l => (same_key rt li ri right_rows l).map (l ++ ·)).Perm
          (left_rows.flatMap fun l =>
            (right_rows.filter (equal_keys rt li ri l)).map (l ++ ·)) := by
      constructor
      · rintro ⟨rows', nested, hrows', hnested', hperm'⟩
        obtain rfl : rows = rows' := by simpa [hrows] using hrows'
        obtain rfl := Except.ok.inj (hnested.symm.trans hnested')
        exact hperm.symm.trans hperm'
      · intro hp
        exact ⟨rows, _, hrows, hnested, hperm.trans hp⟩
    -- the nested loop never has a pair that the hash join lacks
    rw [hsame, show same_key rt li ri right_rows = fun l => right_rows.filter fun r =>
      decide (key_of rt ri r = key_of rt li l) from rfl, flatMap_filter_perm_iff fun l hlm r hrm he =>
        decide_eq_true ((hkey l hlm r hrm).mpr (.inl he))]
    constructor
    · intro hall li' ri' h'
      obtain rfl : li = li' := Option.some.inj (h.1.symm.trans h'.1)
      obtain rfl : ri = ri' := Option.some.inj (h.2.symm.trans h'.2)
      by_contra hboth
      simp only [not_or, not_forall, not_not] at hboth
      obtain ⟨⟨l, hlm, hlnull⟩, r, hrm, hrnull⟩ := hboth
      have hequal := hall l hlm r hrm
        (decide_eq_true ((hkey l hlm r hrm).mpr (.inr ⟨hlnull, hrnull⟩)))
      rw [equal_keys, hlnull] at hequal
      cases hequal
    · intro hnull l hlm r hrm hk
      rcases (hkey l hlm r hrm).mp (of_decide_eq_true hk) with he | ⟨hlnull, hrnull⟩
      · exact he
      · rcases hnull li ri h with hno | hno
        · exact absurd hlnull (hno l hlm)
        · exact absurd hrnull (hno r hrm)
  · have hpasses : ∀ l ∈ left_rows, ∀ r ∈ right_rows, ∃ b,
        passes rt left_schema right_schema (left_schema ++ right_schema)
          (.On (.BinaryOp .Eq (.ColumnRef t₁ c₁) (.ColumnRef t₂ c₂))) l r = .ok b := by
      intro l hlm r hrm
      exact passes_equality_total (by simp [hl l hlm, hr r hrm])
    choose! p hp using hpasses
    have hnested := @nested_loop_join_ok _ _ _ _ _ _ _ _ false
      (right_schema.map fun _ => .Null) _ hp
    refine iff_of_true ⟨_, _, ?_, hnested, .rfl⟩ fun li ri h => absurd ⟨li, ri, h⟩ hhash
    rw [apply_join_nested hhash, hnested]
    rfl

end Inner

/-! ## Joins on one column -/

/-- Two printed values of the demonstration runtime with different first letters. -/
theorem demo_debug_faithful : DebugFaithful demo_runtime := by
  intro v w hv hw h
  -- the first letter of the text tells the constructor
  have hhead := congrArg (fun s : String => s.toList.head?) h
  cases v with
  | Float64 f => exact absurd rfl (hv f)
  | Null => cases w <;> first | rfl | exact absurd rfl (hw _) | simp [demo_runtime] at hhead
  | Bool a =>
    cases w with
    | Bool b => cases a <;> cases b <;> first | rfl | exact absurd h (by decide)
    | Float64 f => exact absurd rfl (hw f)
    | _ => simp [demo_runtime] at hhead
  | Int64 a =>
    cases w with
    | Int64 b =>
      have hint : toString a.toInt = toString b.toInt := by
        simpa [demo_runtime, String.append_assoc] using h
      rw [Int64.toInt_inj.mp (Int.repr_injective hint)]
    | Float64 f => exact absurd rfl (hw f)
    | _ => simp [demo_runtime] at hhead
  | Text a =>
    cases w with
    | Text b => simpa [demo_runtime, String.append_assoc] using h
    | Float64 f => exact absurd rfl (hw f)
    | _ => simp [demo_runtime] at hhead

/-- `a JOIN b ON a.x = b.x` with NULLs on one side only. -/
theorem apply_join_same_rows_demo :
    JoinsAlike demo_runtime [int_column "a.x"] [int_column "b.x"] [[.Int64 1], [.Null]]
      [[.Int64 1], [.Int64 2]] (some "a") "x" (some "b") "x" := by
  refine (apply_join_same_rows_iff demo_debug_faithful ?_ ?_ ?_ ?_ ?_).mpr ?_
  · decide
  · decide
  · simp [Value.NoFloat]
  · simp [Value.NoFloat]
  · rintro li ri ⟨hli, hri⟩
    obtain rfl : 0 = li := Option.some.inj (.trans (by decide +kernel) hli)
    obtain rfl : 0 = ri := Option.some.inj (.trans (by decide +kernel) hri)
    exact ⟨⟨nofun, by decide +kernel⟩, nofun, by decide +kernel⟩
  · rintro li ri ⟨hli, hri⟩
    obtain rfl : 0 = ri := Option.some.inj (.trans (by decide +kernel) hri)
    exact .inr (by simp)

/-- Two NULL keys are joined by the hash join and not by the nested loop; and where a name ends
in the text of a qualified reference, the hash join compares another column. -/
theorem hash_join_extra_rows :
    let same := BinOp.Eq
    let on_x : JoinCondition ℚ := .On (.BinaryOp same (.ColumnRef (some "a") "x")
      (.ColumnRef (some "b") "x"))
    let on_d : JoinCondition ℚ := .On (.BinaryOp same (.ColumnRef (some "t") "c")
      (.ColumnRef none "d"))
    (apply_join demo_runtime [int_column "a.x"] [[.Null]] [int_column "b.x"] [[.Null]] .Inner on_x =
      .ok ([int_column "a.x", int_column "b.x"], [[.Null, .Null]]) ∧
    nested_loop_join demo_runtime [int_column "a.x"] [[.Null]] [int_column "b.x"] [[.Null]]
      [int_column "a.x", int_column "b.x"] on_x false [.Null] = .ok []) ∧
    (apply_join demo_runtime [int_column "s.t.c"] [[.Int64 1]] [int_column "t.c", int_column "d"]
      [[.Int64 2, .Int64 1]] .Inner on_d =
      .ok ([int_column "s.t.c", int_column "t.c", int_column "d"],
        [[.Int64 1, .Int64 2, .Int64 1]]) ∧
    nested_loop_join demo_runtime [int_column "s.t.c"] [[.Int64 1]]
      [int_column "t.c", int_column "d"] [[.Int64 2, .Int64 1]]
      [int_column "s.t.c", int_column "t.c", int_column "d"] on_d false [.Null, .Null] =
      .ok []) := by
  decide +kernel

end Oigrap.Sql

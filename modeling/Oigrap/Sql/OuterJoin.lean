/-
Outer joins: the pairs that meet the condition, and each row without a partner once, with NULLs
for the other side.

A RIGHT join is a LEFT join of the swapped sides, so that the condition is evaluated on the
columns in another order, and an equality with its sides exchanged. Neither changes what is
true where every name leads to one column. But a condition that aborts for one pair of rows
(`a % b` with `b` zero) aborts the join.
-/
import Oigrap.Sql.JoinStages

namespace Oigrap.Sql

open List

variable {F : Type} {rt : Runtime F}

/-! ## What an outer join returns -/

/-- The condition is true on the row. -/
def holds (rt : Runtime F) (schema : List ColumnSchema) (e : Expr F) (row : Row F) : Bool :=
  (eval_expr rt schema row e).toOption.any (is_truthy rt)

/-- The pairs, the left rows without a partner (not RIGHT) and the right rows without one
(not LEFT). -/
def outer_join (kind : JoinKind) (p : Row F → Row F → Bool) (null_left null_right : Row F)
    (left_rows right_rows : List (Row F)) : List (Row F) :=
  (left_rows.flatMap fun l => (right_rows.filter (p l)).map (l ++ ·)) ++
    (if kind = .Right then []
      else (left_rows.filter fun l => !right_rows.any (p l)).map (· ++ null_right)) ++
    if kind = .Left then []
      else (right_rows.filter fun r => !left_rows.any (p · r)).map (null_left ++ ·)

/-- The condition as the join evaluates it: RIGHT exchanges the sides of an equality. -/
def tested : JoinKind → Expr F → Expr F
  | .Right, .BinaryOp .Eq left right => .BinaryOp .Eq right left
  | _, e => e

/-! ## Loops over pairs -/

section Pairs

variable (p : Row F → Row F → Bool) (f : Row F → Row F → Row F) (left right : List (Row F))

/-- The outer loop pushes the pairs, and the rows without a partner. -/
theorem flatMap_partners (z : Row F) :
    (left.flatMap fun l => (partners (p l) true z right).map (f l)).Perm
      ((left.flatMap fun l => (right.filter (p l)).map (f l)) ++
        (left.filter fun l => !right.any (p l)).map (f · z)) := by
  induction left with
  | nil => rfl
  | cons l left ih =>
    rw [flatMap_cons, flatMap_cons, filter_cons, partners]
    by_cases hany : right.any (p l) = true
    · have hne : (right.filter (p l)).isEmpty = false := by simpa using hany
      simpa [hany, hne] using ih.append_left ((right.filter (p l)).map (f l))
    · have hnil : right.filter (p l) = [] := by simpa [filter_eq_nil_iff] using hany
      simpa [hany, hnil] using (ih.cons (f l z)).trans perm_middle.symm

theorem flatMap_pairs_swap : (left.flatMap fun l => (right.filter (p l)).map (f l)).Perm
      (right.flatMap fun r => (left.filter (p · r)).map (f · r)) := by
  have hfilter : ∀ (q : Row F → Bool) (xs : List (Row F)),
      (xs.filter q : Multiset (Row F)) = (xs : Multiset (Row F)).filter fun x => q x = true := by
    simp
  apply Multiset.coe_eq_coe.mp
  simp only [← Multiset.coe_bind, ← Multiset.map_coe, hfilter, ← Multiset.bind_singleton,
    Multiset.bind_filter]
  exact Multiset.bind_bind _ _

end Pairs

/-! ## The condition of a pair -/

section Condition

variable {ls rs cs : List ColumnSchema} {e : Expr F} {l r : Row F}

theorem passes_eq_ok_iff {b : Bool} : passes rt ls rs cs (.On e) l r = .ok b ↔
    eval_expr rt cs (l ++ r) e ≠ .error .panic ∧ b = holds rt cs e (l ++ r) := by
  rw [passes, holds]
  cases eval_expr rt cs (l ++ r) e with
  | ok v => simp [unwrap_or, Except.map, Except.toOption, eq_comm]
  | error x =>
    cases x with
    | panic => simp [unwrap_or, Except.map]
    | Err _ => simp [unwrap_or, Except.map, Except.toOption, eq_comm]

theorem outer_loop_iff {left right rows : List (Row F)} {z : Row F} :
    nested_loop_join rt ls left rs right cs (.On e) true z = .ok rows ↔
      (∀ l ∈ left, ∀ r ∈ right, eval_expr rt cs (l ++ r) e ≠ .error .panic) ∧
        rows = left.flatMap fun l =>
          (partners (fun r => holds rt cs e (l ++ r)) true z right).map (l ++ ·) := by
  have hok : (∀ l ∈ left, ∀ r ∈ right, eval_expr rt cs (l ++ r) e ≠ .error .panic) →
      nested_loop_join rt ls left rs right cs (.On e) true z = .ok (left.flatMap fun l =>
        (partners (fun r => holds rt cs e (l ++ r)) true z right).map (l ++ ·)) := fun h =>
    nested_loop_join_ok fun l hl r hr => passes_eq_ok_iff.mpr ⟨h l hl r hr, rfl⟩
  constructor
  · intro h
    have hsafe : ∀ l ∈ left, ∀ r ∈ right, eval_expr rt cs (l ++ r) e ≠ .error .panic := by
      intro l hl r hr
      obtain ⟨b, hb⟩ := ok_of_nested_loop h l hl r hr
      exact (passes_eq_ok_iff.mp hb).1
    exact ⟨hsafe, Except.ok.inj (h.symm.trans (hok hsafe))⟩
  · rintro ⟨h, rfl⟩
    exact hok h

/-! ### Swapped sides -/

theorem swap_condition_on (e : Expr F) : swap_condition (.On e) = .On (tested .Right e) := by
  unfold swap_condition tested
  split
  · rename_i heq
    cases heq
    rfl
  · rename_i hne
    split
    · exact absurd rfl (hne _ _)
    · rfl

/-- A name that leads to columns of one side only leads to the same value on both orders. -/
theorem read_swap {lk : Lookup} (hl : l.length = ls.length) (hr : r.length = rs.length)
    (hone : (ls ++ rs).countP (fun c => lk.hits rt c.name) ≤ 1) :
    read rt (rs ++ ls) (r ++ l) lk = read rt (ls ++ rs) (l ++ r) lk := by
  rw [countP_append] at hone
  simp only [read, position, findIdx?_append]
  cases hi : ls.findIdx? fun c => lk.hits rt c.name with
  | none => cases hj : rs.findIdx? fun c => lk.hits rt c.name with
    | none => rfl
    | some j =>
      have hlt : j < r.length := hr ▸ (findIdx?_eq_some_iff_getElem.mp hj).1
      simp [← hl, getElem?_append_left hlt, getElem?_append_right]
  | some i =>
    obtain ⟨hlt, hit, -⟩ := findIdx?_eq_some_iff_getElem.mp hi
    have hpos : 0 < ls.countP fun c => lk.hits rt c.name :=
      countP_pos_iff.mpr ⟨_, getElem_mem hlt, hit⟩
    have hnone : rs.findIdx? (fun c => lk.hits rt c.name) = none := by
      rw [findIdx?_eq_none_iff]
      intro c hc
      by_contra hhit
      have : 0 < rs.countP fun c => lk.hits rt c.name :=
        countP_pos_iff.mpr ⟨c, hc, by simpa using hhit⟩
      omega
    simp [hnone, ← hr, getElem?_append_left (hl ▸ hlt : i < l.length), getElem?_append_right]

theorem tested_lookups {lk : Lookup} (h : lk ∈ (tested .Right e).lookups) : lk ∈ e.lookups := by
  unfold tested at h
  split at h
  · simpa [Expr.lookups, or_comm] using h
  · exact h

theorem eval_swap (hl : l.length = ls.length) (hr : r.length = rs.length)
    (hone : ∀ lk ∈ e.lookups, (ls ++ rs).countP (fun c => lk.hits rt c.name) ≤ 1) :
    eval_expr rt (rs ++ ls) (r ++ l) (tested .Right e) =
      eval_expr rt (ls ++ rs) (l ++ r) (tested .Right e) :=
  eval_expr_congr _ fun lk hlk => read_swap hl hr (hone lk (tested_lookups hlk))

/-- An equality is true in both orders of its sides. -/
theorem holds_tested (hsymm : ∀ a b, rt.eq a b = rt.eq b a) (row : Row F) :
    holds rt cs (tested .Right e) row = holds rt cs e row := by
  have heq : ∀ v w : Value F, eval_binop rt .Eq v w = eval_binop rt .Eq w v := by
    intro v w
    have hvw : v.eq rt w = w.eq rt v := by
      cases v <;> cases w <;> simp only [Value.eq, hsymm, Bool.beq_comm]
    simp only [eval_binop, Bool.or_comm, hvw]
  unfold tested
  split
  · rename_i left right _
    rw [holds, holds, eval_expr, eval_expr]
    cases eval_expr rt cs row left <;> cases eval_expr rt cs row right <;> try rfl
    rename_i v w
    exact congrArg (fun x : Result (Value F) => x.toOption.any (is_truthy rt)) (heq w v)
  · rfl

end Condition

/-! ## The three joins -/

section Outer

variable (rt) (left_schema right_schema : List ColumnSchema) (left_rows right_rows : List (Row F))
  (kind : JoinKind) (e : Expr F)

/-- The join returns the rows of the outer join, in some order. -/
def JoinsOuter : Prop :=
  ∃ rows, apply_join rt left_schema left_rows right_schema right_rows kind (.On e) =
      .ok (left_schema ++ right_schema, rows) ∧
    rows.Perm (outer_join kind (fun l r => holds rt (left_schema ++ right_schema) e (l ++ r))
      (left_schema.map fun _ => .Null) (right_schema.map fun _ => .Null) left_rows right_rows)

/-- The condition aborts for no pair of rows. -/
def NeverAborts : Prop :=
  ∀ l ∈ left_rows, ∀ r ∈ right_rows,
    eval_expr rt (left_schema ++ right_schema) (l ++ r) (tested kind e) ≠ .error .panic

variable {rt left_schema right_schema left_rows right_rows kind e}

theorem left_join_iff : JoinsOuter rt left_schema right_schema left_rows right_rows .Left e ↔
    NeverAborts rt left_schema right_schema left_rows right_rows .Left e := by
  constructor
  · rintro ⟨rows, h, -⟩
    obtain ⟨matched, h, -⟩ := bind_ok h
    exact (outer_loop_iff.mp h).1
  · intro h
    refine ⟨_, by rw [apply_join, (outer_loop_iff (e := e)).mpr ⟨h, rfl⟩]; rfl, ?_⟩
    simpa [outer_join] using flatMap_partners _ (· ++ ·) left_rows right_rows _

theorem full_join_iff : JoinsOuter rt left_schema right_schema left_rows right_rows .Full e ↔
    NeverAborts rt left_schema right_schema left_rows right_rows .Full e := by
  constructor
  · rintro ⟨rows, h, -⟩
    obtain ⟨matched, h, -⟩ := bind_ok h
    exact (outer_loop_iff.mp h).1
  · intro h
    refine ⟨_, ?_, (flatMap_partners _ (· ++ ·) left_rows right_rows _).append_right _⟩
    rw [apply_join, (outer_loop_iff (e := e)).mpr ⟨h, rfl⟩]
    -- the second pass evaluates the condition on the same pairs
    rw [keep_ok fun r hr => by
      rw [any_match_ok fun l hl => (passes_eq_ok_iff (e := e)).mpr ⟨h l hl r hr, rfl⟩]; rfl]
    rfl

theorem right_join_iff (hsymm : ∀ a b, rt.eq a b = rt.eq b a)
    (hl : ∀ l ∈ left_rows, l.length = left_schema.length)
    (hr : ∀ r ∈ right_rows, r.length = right_schema.length) (hone : ∀ lk ∈ e.lookups,
      (left_schema ++ right_schema).countP (fun c => lk.hits rt c.name) ≤ 1) :
    JoinsOuter rt left_schema right_schema left_rows right_rows .Right e ↔
      NeverAborts rt left_schema right_schema left_rows right_rows .Right e := by
  have heval : ∀ l ∈ left_rows, ∀ r ∈ right_rows,
      eval_expr rt (right_schema ++ left_schema) (r ++ l) (tested .Right e) =
        eval_expr rt (left_schema ++ right_schema) (l ++ r) (tested .Right e) :=
    fun l hlm r hrm => eval_swap (hl l hlm) (hr r hrm) hone
  have hholds : ∀ r ∈ right_rows, ∀ l ∈ left_rows,
      holds rt (right_schema ++ left_schema) (tested .Right e) (r ++ l) =
        holds rt (left_schema ++ right_schema) e (l ++ r) := by
    intro r hrm l hlm
    rw [← holds_tested hsymm (l ++ r), holds, heval l hlm r hrm, holds]
  constructor
  · rintro ⟨rows, h, -⟩ l hlm r hrm
    obtain ⟨swapped, h, -⟩ := bind_ok h
    rw [swap_condition_on] at h
    rw [← heval l hlm r hrm]
    exact (outer_loop_iff.mp h).1 r hrm l hlm
  · intro h
    have hsafe : ∀ r ∈ right_rows, ∀ l ∈ left_rows,
        eval_expr rt (right_schema ++ left_schema) (r ++ l) (tested .Right e) ≠ .error .panic :=
      fun r hrm l hlm => heval l hlm r hrm ▸ h l hlm r hrm
    refine ⟨_, by rw [apply_join, swap_condition_on, outer_loop_iff.mpr ⟨hsafe, rfl⟩]; rfl, ?_⟩
    rw [map_flatMap]
    have hback : ∀ r ∈ right_rows,
        ((partners (fun l => holds rt (right_schema ++ left_schema) (tested .Right e) (r ++ l)) true
            (left_schema.map fun _ => .Null) left_rows).map (r ++ ·)).map
          (fun row => row.drop right_schema.length ++ row.take right_schema.length) =
        (partners (fun l => holds rt (left_schema ++ right_schema) e (l ++ r)) true
          (left_schema.map fun _ => .Null) left_rows).map (· ++ r) := by
      intro r hrm
      rw [map_map, partners, partners, filter_congr (hholds r hrm)]
      refine map_congr_left fun x _ => ?_
      simp [← hr r hrm]
    rw [flatMap_congr hback]
    refine (flatMap_partners (fun r l => holds rt (left_schema ++ right_schema) e (l ++ r))
      (fun r l => l ++ r) right_rows left_rows _).trans ?_
    simpa [outer_join] using (flatMap_pairs_swap (fun l r =>
      holds rt (left_schema ++ right_schema) e (l ++ r)) (· ++ ·) left_rows right_rows).symm.append_right
      _

/-- **Outer joins.** Where every name of the condition leads to one column at most, LEFT, RIGHT
and FULL return the pairs and the lone rows exactly when the condition aborts for no pair. -/
theorem apply_join_outer_iff (hsymm : ∀ a b, rt.eq a b = rt.eq b a)
    (hkind : kind = .Left ∨ kind = .Right ∨ kind = .Full)
    (hl : ∀ l ∈ left_rows, l.length = left_schema.length)
    (hr : ∀ r ∈ right_rows, r.length = right_schema.length) (hone : ∀ lk ∈ e.lookups,
      (left_schema ++ right_schema).countP (fun c => lk.hits rt c.name) ≤ 1) :
    JoinsOuter rt left_schema right_schema left_rows right_rows kind e ↔
      NeverAborts rt left_schema right_schema left_rows right_rows kind e := by
  rcases hkind with rfl | rfl | rfl
  · exact left_join_iff
  · exact right_join_iff hsymm hl hr hone
  · exact full_join_iff

end Outer

/-- `a RIGHT JOIN b ON a.x = b.y` with a partner for one of two rows. -/
theorem apply_join_outer_demo :
    JoinsOuter demo_runtime [int_column "a.x"] [int_column "b.y"] [[.Int64 1]]
      [[.Int64 1], [.Int64 2]] .Right
      (.BinaryOp .Eq (.ColumnRef (some "a") "x") (.ColumnRef (some "b") "y")) :=
  (apply_join_outer_iff (fun a b => by simp [demo_runtime, eq_comm]) (.inr (.inl rfl)) (by decide)
    (by decide) (by decide +kernel)).mpr (by unfold NeverAborts; decide +kernel)

/-- `a.x % b.y = 0`. -/
def divides : Expr ℚ := .BinaryOp .Eq
  (.BinaryOp .Mod (.ColumnRef (some "a") "x") (.ColumnRef (some "b") "y")) (.IntLit 0)

/-- The condition aborts where `b.y` is 0, and no rows are returned. -/
theorem outer_join_aborts :
    apply_join demo_runtime [int_column "a.x"] [[.Int64 1]] [int_column "b.y"] [[.Int64 0]] .Left
        (.On divides) = .error .panic ∧
      ¬JoinsOuter demo_runtime [int_column "a.x"] [int_column "b.y"] [[.Int64 1]] [[.Int64 0]]
        .Left divides := by
  have hpanic : apply_join demo_runtime [int_column "a.x"] [[.Int64 1]] [int_column "b.y"]
      [[.Int64 0]] .Left (.On divides) = .error .panic := by decide +kernel
  exact ⟨hpanic, fun ⟨_, h, _⟩ => nomatch hpanic.symm.trans h⟩

end Oigrap.Sql

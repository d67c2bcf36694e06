/-
What the join algorithms compute where no condition panics.

The nested loop keeps the pairs that pass, and a lone row with NULLs where it is an outer join
and none does. The hash join pairs the rows whose keys print alike, and the partitioned one
gives the same pairs in another order.
-/
import Mathlib.Data.Multiset.Bind
import Mathlib.Data.Multiset.Range
import Oigrap.Sql.Join

namespace Oigrap.Sql

open Function List

variable {F : Type} {rt : Runtime F}

section Loops

variable {α β : Type} {l : List α}

/-- A test that never fails is a filter. -/
theorem keep_ok {f : α → Result Bool} {p : α → Bool} (h : ∀ x ∈ l, f x = .ok (p x)) :
    keep f l = .ok (l.filter p) := by
  induction l with
  | nil => rfl
  | cons x xs ih =>
    rw [keep, h x (by simp), ih fun y hy => h y (by simp [hy]), filter_cons]
    rfl

/-- `keep` tests every element, so when it returns, no test failed. -/
theorem ok_of_keep {f : α → Result Bool} {out : List α} (h : keep f l = .ok out) :
    ∀ x ∈ l, ∃ b, f x = .ok b := by
  induction l generalizing out with
  | nil => simp
  | cons x xs ih =>
    obtain ⟨b, hb, h⟩ := bind_ok h
    obtain ⟨rest, hrest, -⟩ := bind_ok h
    exact forall_mem_cons.mpr ⟨⟨b, hb⟩, ih hrest⟩

variable {f : α → Result (List β)}

theorem collect_ok {g : α → List β} (h : ∀ x ∈ l, f x = .ok (g x)) :
    collect f l = .ok (l.flatMap g) := by
  induction l with
  | nil => rfl
  | cons x xs ih =>
    rw [collect, h x (by simp), ih fun y hy => h y (by simp [hy]), flatMap_cons]
    rfl

theorem ok_of_collect {out : List β} (h : collect f l = .ok out) :
    ∀ x ∈ l, ∃ o, f x = .ok o := by
  induction l generalizing out with
  | nil => simp
  | cons x xs ih =>
    obtain ⟨o, ho, h⟩ := bind_ok h
    obtain ⟨rest, hrest, -⟩ := bind_ok h
    exact forall_mem_cons.mpr ⟨⟨o, ho⟩, ih hrest⟩

theorem any_match_ok {f : α → Result Bool} {p : α → Bool} (h : ∀ x ∈ l, f x = .ok (p x)) :
    any_match f l = .ok (l.any p) := by
  induction l with
  | nil => rfl
  | cons x xs ih =>
    rw [any_match, h x (by simp), any_cons]
    cases hp : p x with
    | true => rfl
    | false =>
      rw [Bool.false_or]
      exact ih fun y hy => h y (by simp [hy])

end Loops

/-! ## Nested loops -/

/-- The rows a nested loop pushes for one row of its outer side. -/
def partners (p : Row F → Bool) (is_outer : Bool) (nulls : Row F) (right_rows : List (Row F)) :
    List (Row F) :=
  if is_outer && (right_rows.filter p).isEmpty then [nulls] else right_rows.filter p

/-- Where no test panics, every row of the outer side is followed by its partners. -/
theorem nested_loop_join_ok {left_schema right_schema combined_schema : List ColumnSchema}
    {left_rows right_rows : List (Row F)} {condition : JoinCondition F} {is_outer : Bool}
    {null_right : Row F} {p : Row F → Row F → Bool} (h : ∀ l ∈ left_rows, ∀ r ∈ right_rows,
      passes rt left_schema right_schema combined_schema condition l r = .ok (p l r)) :
    nested_loop_join rt left_schema left_rows right_schema right_rows combined_schema condition
        is_outer null_right = .ok (left_rows.flatMap fun l =>
        (partners (p l) is_outer null_right right_rows).map (l ++ ·)) := by
  refine collect_ok fun l hl => ?_
  rw [keep_ok (h l hl)]
  simp only [partners, apply_ite (List.map (l ++ ·)), map_cons, map_nil]
  rfl

/-- A nested loop tests every pair, so when it returns, no test panicked. -/
theorem ok_of_nested_loop {ls rs cs : List ColumnSchema} {left_rows right_rows res : List (Row F)}
    {c : JoinCondition F} {is_outer : Bool} {z : Row F}
    (h : nested_loop_join rt ls left_rows rs right_rows cs c is_outer z = .ok res) :
    ∀ l ∈ left_rows, ∀ r ∈ right_rows, ∃ b, passes rt ls rs cs c l r = .ok b := by
  intro l hl r hr
  obtain ⟨out, hout⟩ := ok_of_collect h l hl
  obtain ⟨matched, hmatched, -⟩ := bind_ok hout
  exact ok_of_keep hmatched r hr

/-! ## Hash joins -/

section Hash

variable {li ri : ℕ} {left_rows right_rows : List (Row F)}

/-- The text of a column of a row that has it. -/
def key_of (rt : Runtime F) (col : ℕ) (row : Row F) : String :=
  rt.fmt_debug (row.getD col .Null)

theorem debug_key_ok {row : Row F} {col : ℕ} (h : col < row.length) :
    debug_key rt row col = .ok (key_of rt col row) := by
  have hget : row[col]? = some (row.getD col .Null) := by
    rw [getElem?_eq_getElem h, getD_eq_getElem _ _ h]
  simp only [debug_key, index, hget]
  rfl

variable {rows : List (Row F)} {k : ℕ}

/-- The table maps a key to the rows that have it, in their order. -/
theorem build_hash_ok (h : ∀ r ∈ rows, ri < r.length) (hash : String → List (Row F)) :
    build_hash rt ri rows hash =
      .ok fun k => hash k ++ rows.filter fun r => key_of rt ri r = k := by
  induction rows generalizing hash with
  | nil => simp [build_hash]
  | cons row rows ih =>
    rw [build_hash, debug_key_ok (h row (by simp))]
    change build_hash rt ri rows _ = _
    rw [ih (fun r hr => h r (by simp [hr]))]
    congr 1
    funext k
    by_cases hk : key_of rt ri row = k
    · subst hk
      simp
    · simp [hk, update_of_ne (Ne.symm hk)]

/-- The rows with the key of the left row. -/
def same_key (rt : Runtime F) (li ri : ℕ) (right_rows : List (Row F)) (l : Row F) :
    List (Row F) :=
  right_rows.filter fun r => key_of rt ri r = key_of rt li l

/-- A hash join pairs rows by the text of their keys. -/
theorem hash_join_ok (hl : ∀ l ∈ left_rows, li < l.length) (hr : ∀ r ∈ right_rows, ri < r.length) :
    hash_join rt left_rows li right_rows ri =
      .ok (left_rows.flatMap fun l => (same_key rt li ri right_rows l).map (l ++ ·)) := by
  rw [hash_join, build_hash_ok hr]
  refine collect_ok fun l hlm => ?_
  rw [debug_key_ok (hl l hlm)]
  rfl

/-- The bucket of a row. -/
def bucket (rt : Runtime F) (col k : ℕ) (row : Row F) : ℕ :=
  (hash_str (key_of rt col row)).toNat % k

/-- Every row goes behind the earlier rows of its bucket. -/
theorem partition_rows_ok (h : ∀ r ∈ rows, ri < r.length) (writers : List (List (Row F))) :
    partition_rows rt ri k rows writers =
      .ok (writers.mapIdx fun b w => w ++ rows.filter fun r => bucket rt ri k r = b) := by
  induction rows generalizing writers with
  | nil =>
    rw [partition_rows]
    congr 1
    apply ext_getElem <;> simp
  | cons row rows ih =>
    rw [partition_rows, debug_key_ok (h row (by simp))]
    change partition_rows rt ri k rows (writers.modify (bucket rt ri k row) (· ++ [row])) = _
    rw [ih (fun r hr => h r (by simp [hr]))]
    congr 1
    apply ext_getElem (by simp)
    intro b h₁ h₂
    simp only [getElem_mapIdx, getElem_modify]
    by_cases hb : bucket rt ri k row = b <;> simp [hb]

theorem partition_rows_new (h : ∀ r ∈ rows, ri < r.length) :
    partition_rows rt ri k rows (replicate k []) =
      .ok ((range k).map fun b => rows.filter fun r => bucket rt ri k r = b) := by
  rw [partition_rows_ok h]
  congr 1
  apply ext_getElem <;> simp

/-- A sum over the buckets is a sum over the rows, each of which is in one bucket. -/
theorem flatMap_buckets_perm {β : Type} (hk : 0 < k) (rows : List (Row F)) (g : Row F → List β) :
    ((range k).flatMap fun b =>
      (rows.filter fun r => bucket rt ri k r = b).flatMap g).Perm (rows.flatMap g) := by
  have hone : ∀ r, ((Multiset.range k).bind fun b =>
      if bucket rt ri k r = b then (g r : Multiset β) else 0) = g r := by
    intro r
    have hmem : bucket rt ri k r ∈ Multiset.range k := Multiset.mem_range.mpr (Nat.mod_lt _ hk)
    rw [← Multiset.bind_filter, Multiset.filter_eq,
      Multiset.count_eq_one_of_mem (Multiset.nodup_range k) hmem]
    simp
  apply Multiset.coe_eq_coe.mp
  simp only [← Multiset.coe_bind, ← Multiset.filter_coe, Multiset.bind_filter]
  rw [Multiset.bind_bind]
  exact Multiset.bind_congr fun r _ => hone r

/-- Rows of one key share a bucket, so that no partner is missed. -/
theorem same_key_bucket {b : ℕ} {l : Row F} (hb : bucket rt li k l = b) :
    same_key rt li ri (right_rows.filter fun r => bucket rt ri k r = b) l =
      same_key rt li ri right_rows l := by
  rw [same_key, filter_filter]
  apply filter_congr
  intro r _
  by_cases hkey : key_of rt ri r = key_of rt li l
  · have hbr : bucket rt ri k r = b := by rw [← hb, bucket, bucket, hkey]
    simp [hkey, hbr]
  · simp [hkey]

/-- Partitioning changes the order of the rows of a hash join and nothing else. -/
theorem partition_hash_join_ok (hl : ∀ l ∈ left_rows, li < l.length)
    (hr : ∀ r ∈ right_rows, ri < r.length) :
    ∃ rows, partition_hash_join rt left_rows li right_rows ri = .ok rows ∧
      rows.Perm (left_rows.flatMap fun l => (same_key rt li ri right_rows l).map (l ++ ·)) := by
  unfold partition_hash_join
  dsimp only
  generalize hk : min (max (right_rows.length / HASH_JOIN_SPILL_THRESHOLD + 1) 2) 256 = k
  have hpos : 0 < k := by omega
  rw [partition_rows_new hl, partition_rows_new hr]
  change ∃ rows, collect _ (zip _ _) = .ok rows ∧ _
  rw [zip_map']
  refine ⟨_, collect_ok (g := fun files => files.1.flatMap fun l =>
    (same_key rt li ri right_rows l).map (l ++ ·)) ?_, ?_⟩
  · intro files hfiles
    obtain ⟨b, -, rfl⟩ := mem_map.mp hfiles
    dsimp only
    have hkey : ∀ l ∈ left_rows.filter fun l => bucket rt li k l = b,
        same_key rt li ri (right_rows.filter fun r => bucket rt ri k r = b) l =
          same_key rt li ri right_rows l := by
      intro l hlb
      exact same_key_bucket (by simpa using (mem_filter.mp hlb).2)
    split_ifs with hempty
    · rw [List.isEmpty_iff] at hempty
      symm
      congr 1
      rw [flatMap_eq_nil_iff]
      intro l hlb
      rw [← hkey l hlb, hempty]
      rfl
    · rw [hash_join_ok (fun l h => hl l (mem_of_mem_filter h))
        fun r h => hr r (mem_of_mem_filter h)]
      congr 1
      exact flatMap_congr fun l hlb => by rw [hkey l hlb]
  · rw [flatMap_map]
    exact flatMap_buckets_perm hpos left_rows _

end Hash

/-! ## No join returns an `Err` -/

/-- A value or a panic. -/
def NoErr {α : Type} (x : Result α) : Prop := ∀ e, x ≠ .error (.Err e)

namespace NoErr

variable {α β : Type}

theorem ok (a : α) : NoErr (.ok a : Result α) := nofun

theorem panic : NoErr (.error .panic : Result α) := nofun

theorem bind {x : Result α} {f : α → Result β} (hx : NoErr x) (hf : ∀ a, NoErr (f a)) :
    NoErr (x >>= f) := by
  intro e he
  cases x with
  | error fault =>
    have hfault : (.error fault : Result β) = .error (.Err e) := he
    cases hfault
    exact hx e rfl
  | ok a => exact hf a e he

theorem index (row : Row F) (idx : ℕ) : NoErr (index row idx) := by
  unfold Sql.index
  split
  · exact ok _
  · exact panic

theorem unwrap_or (x : Result α) (default : α) : NoErr (unwrap_or x default) := by
  intro e he
  unfold Sql.unwrap_or at he
  split at he
  · cases he
  · rename_i hne
    exact hne e he

variable {f : α → Result Bool}

theorem keep (hf : ∀ x, NoErr (f x)) (l : List α) : NoErr (keep f l) := by
  induction l with
  | nil => exact ok _
  | cons x xs ih => exact (hf x).bind fun _ => ih.bind fun _ => ok _

theorem collect {f : α → Result (List β)} (hf : ∀ x, NoErr (f x)) (l : List α) :
    NoErr (collect f l) := by
  induction l with
  | nil => exact ok _
  | cons x xs ih => exact (hf x).bind fun _ => ih.bind fun _ => ok _

theorem any_match (hf : ∀ x, NoErr (f x)) (l : List α) :
    NoErr (any_match f l) := by
  induction l with
  | nil => exact ok _
  | cons x xs ih =>
    refine (hf x).bind fun pass => ?_
    split_ifs
    · exact ok _
    · exact ih

variable (ls : List ColumnSchema) (l : List (Row F))

theorem using_match (l : Row F) (rs : List ColumnSchema) (r : Row F) (cols : List String)
    : NoErr (using_match rt ls l rs r cols) := by
  induction cols with
  | nil => exact ok _
  | cons col cols ih =>
    unfold Sql.using_match
    split
    · refine (index _ _).bind fun a => (index _ _).bind fun b => ?_
      split_ifs
      · exact ih
      · exact ok _
    · exact ok _

theorem passes (rs cs : List ColumnSchema) (c : JoinCondition F) (l r : Row F) :
    NoErr (passes rt ls rs cs c l r) := by
  cases c with
  | On expr => exact unwrap_or _ _
  | Using cols => exact using_match _ _ _ _ _

theorem nested_loop_join (rs : List ColumnSchema) (r : List (Row F)) (cs : List ColumnSchema)
    (c : JoinCondition F) (is_outer : Bool) (z : Row F)
    : NoErr (nested_loop_join rt ls l rs r cs c is_outer z) :=
  collect (fun _ => (keep (passes _ _ _ _ _) _).bind fun _ => ok _) _

theorem debug_key (row : Row F) (col : ℕ) : NoErr (debug_key rt row col) :=
  (index _ _).bind fun _ => ok _

theorem build_hash (col : ℕ) (rows : List (Row F)) (hash : String → List (Row F)) :
    NoErr (build_hash rt col rows hash) := by
  induction rows generalizing hash with
  | nil => exact ok _
  | cons row rows ih => exact (debug_key _ _).bind fun _ => ih _

theorem hash_join (li : ℕ) (r : List (Row F)) (ri : ℕ) : NoErr (hash_join rt l li r ri) :=
  (build_hash _ _ _).bind fun _ => collect (fun _ => (debug_key _ _).bind fun _ => ok _) _

theorem partition_rows (col k : ℕ) (rows : List (Row F)) (writers : List (List (Row F))) :
    NoErr (partition_rows rt col k rows writers) := by
  induction rows generalizing writers with
  | nil => exact ok _
  | cons row rows ih => exact (debug_key _ _).bind fun _ => ih _

theorem partition_hash_join (li : ℕ) (r : List (Row F)) (ri : ℕ) :
    NoErr (partition_hash_join rt l li r ri) := by
  refine (partition_rows _ _ _ _).bind fun _ => (partition_rows _ _ _ _).bind fun _ =>
    collect (fun files => ?_) _
  split_ifs
  · exact ok _
  · exact hash_join _ _ _ _

/-- A join returns rows or panics: a test that ends in an error counts as false. -/
theorem apply_join (rs : List ColumnSchema) (r : List (Row F)) (kind : JoinKind)
    (c : JoinCondition F) : NoErr (apply_join rt ls l rs r kind c) := by
  unfold Sql.apply_join
  cases kind with
  | Cross => exact (ok _).bind fun _ => ok _
  | Left | Right => exact (nested_loop_join _ _ _ _ _ _ _ _).bind fun _ => ok _
  | Full =>
    exact (nested_loop_join _ _ _ _ _ _ _ _).bind fun _ =>
      (keep (fun _ => (any_match (fun _ => passes _ _ _ _ _ _) _).bind fun _ => ok _) _).bind
        fun _ => ok _
  | Inner =>
    dsimp only
    split
    · split
      · split_ifs
        · exact (partition_hash_join _ _ _ _).bind fun _ => ok _
        · exact (hash_join _ _ _ _).bind fun _ => ok _
      · exact (nested_loop_join _ _ _ _ _ _ _ _).bind fun _ => ok _
    · exact (nested_loop_join _ _ _ _ _ _ _ _).bind fun _ => ok _

end NoErr

end Oigrap.Sql

/-
Join reordering: when the rows of `exec_multi_join` are those of the clause as written.

The order of `dp_join_order` is compared with the written one by `Pipeline.run_perm`, over the
stages of the joins. The code asks for none of what makes the two agree: it needs a condition
on every table after the first, so that a comma panics (`comma_panics`), it looks the columns of
a condition up among whatever has been joined so far, and it moves outer joins like any other.
-/
import Mathlib.Tactic.IntervalCases
import Oigrap.Sql.JoinStages

namespace Oigrap.Sql

open Function List Pipeline

variable {F : Type} (rt : Runtime F) (db : Tables F) (steps : List (Step F))

/-! ## The tables of a clause -/

/-- What the scan of the `t`-th table gives; nothing where it fails. -/
def table (t : ℕ) : List ColumnSchema × List (Row F) :=
  match steps[t]? with
  | none => ([], [])
  | some s =>
    match scan_table_qualified rt db s.name (s.qualifier rt) with
    | .ok x => x
    | .error _ => ([], [])

def table_schema (t : ℕ) : List ColumnSchema := (table rt db steps t).1

def table_rows (t : ℕ) : List (Row F) := (table rt db steps t).2

def step_kind (t : ℕ) : JoinKind := (steps[t]?.bind Step.kind).getD .Inner

def step_condition (t : ℕ) : JoinCondition F :=
  (steps[t]?.bind Step.condition).getD (.On (.BoolLit true))

/-- The stage of the `t`-th table, read as it is written: after those before it. -/
noncomputable def step_stage (t : ℕ) : Pipeline.Stage ℕ (Row F) :=
  stage rt (table_schema rt db steps) (table_rows rt db steps) (step_kind steps t)
    (step_condition steps t) t (range t)

/-- Every table scans. -/
def Scanned (o : List ℕ) : Prop :=
  ∀ t ∈ o, ∀ s, steps[t]? = some s → ∃ x, scan_table_qualified rt db s.name (s.qualifier rt) = .ok x

/-- The step for table `t`, written after the tables below `t`, runs after those of `o`. -/
def StepFits (t : ℕ) (o : List ℕ) : Prop :=
  Fits rt (table_schema rt db steps) (table_rows rt db steps) (step_kind steps t)
    (step_condition steps t) t (range t) o

/-- Step `t` is there, with a kind and a condition. -/
abbrev Joins (t : ℕ) : Prop :=
  ∃ s k c, steps[t]? = some s ∧ s.kind = some k ∧ s.condition = some c

theorem scan_cases (s : Step F) :
    (∃ x, scan_table_qualified rt db s.name (s.qualifier rt) = .ok x) ∨
      ∃ e, scan_table_qualified rt db s.name (s.qualifier rt) = .error (.Err e) := by
  unfold scan_table_qualified
  split
  · exact .inl ⟨_, rfl⟩
  · exact .inr ⟨_, rfl⟩

variable {rt db steps} {x : List ColumnSchema × List (Row F)}

theorem table_of_scan {t : ℕ} {s : Step F} (hs : steps[t]? = some s)
    (hx : scan_table_qualified rt db s.name (s.qualifier rt) = .ok x) :
    table rt db steps t = x := by
  simp only [table, hs, hx]

theorem scanned_cons {t : ℕ} {o : List ℕ} {s : Step F} (hs : steps[t]? = some s)
    (hx : scan_table_qualified rt db s.name (s.qualifier rt) = .ok x) :
    Scanned rt db steps (t :: o) ↔ Scanned rt db steps o := by
  constructor
  · exact fun h u hu => h u (by simp [hu])
  · intro h u hu s' hs'
    obtain rfl | hu := mem_cons.mp hu
    · obtain rfl := Option.some.inj (hs.symm.trans hs')
      exact ⟨x, hx⟩
    · exact h u hu s' hs'

theorem table_width (t : ℕ) : ∀ r ∈ table_rows rt db steps t,
    r.length = (table_schema rt db steps t).length := by
  intro r hr
  cases hs : steps[t]? with
  | none => simp [table_rows, table, hs] at hr
  | some s =>
    cases hc : db.contents (rt.to_lowercase s.name) with
    | error e => simp [table_rows, table, hs, scan_table_qualified, hc] at hr
    | ok x =>
      simp only [table_rows, table_schema, table, hs, scan_table_qualified, hc] at hr ⊢
      simpa [qualify_schema] using db.width _ x hc r hr

/-! ## Running the steps -/

/-- A join has no error of its own. -/
theorem apply_join_ok {ls rs : List ColumnSchema} {l r : List (Row F)} {kind : JoinKind}
    {c : JoinCondition F} (h : apply_join rt ls l rs r kind c ≠ .error .panic) :
    ∃ out, apply_join rt ls l rs r kind c = .ok out := by
  match hx : apply_join rt ls l rs r kind c with
  | .ok out => exact ⟨out, rfl⟩
  | .error (.Err e) => exact absurd hx (NoErr.apply_join _ _ _ _ _ _ e)
  | .error .panic => exact absurd hx h

/-- One round of the loop, for a table that scans and has a condition. -/
theorem join_loop_cons {s : Step F} {l : List (Step F)} {acc : List ColumnSchema × List (Row F)}
    {c : JoinCondition F} (hx : scan_table_qualified rt db s.name (s.qualifier rt) = .ok x)
    (hc : s.condition = some c) : join_loop rt db (s :: l) acc =
      (apply_join rt acc.1 acc.2 x.1 x.2 (s.kind.getD .Inner) c >>= join_loop rt db l) := by
  simp only [join_loop, hx, hc]
  rfl

/-- The loop over a list of steps that all have a condition, from rows that show the
environments `m`: when it does not panic, it ends with rows that show what the stages make of
`m`, or with an `Err` when a table does not scan. -/
theorem join_loop_run {tail X : List ℕ} {acc : List ColumnSchema × List (Row F)}
    {m : Multiset (ℕ → Row F)}
    (hsome : ∀ t ∈ tail, Joins steps t)
    (hfits : ∀ p t q, tail = p ++ t :: q → StepFits rt db steps t (X ++ p))
    (hschema : acc.1 = schemas (table_schema rt db steps) X)
    (hshow : Shows (table_schema rt db steps) X acc.2 m)
    (hpanic : join_loop rt db (tail.filterMap (steps[·]?)) acc ≠ .error .panic) :
    (Scanned rt db steps tail → ∃ acc', join_loop rt db (tail.filterMap (steps[·]?)) acc = .ok acc' ∧
      acc'.1 = schemas (table_schema rt db steps) (X ++ tail) ∧
      Shows (table_schema rt db steps) (X ++ tail) acc'.2
        (run (step_stage rt db steps) m tail)) ∧ (¬Scanned rt db steps tail →
      ∃ e, join_loop rt db (tail.filterMap (steps[·]?)) acc = .error (.Err e)) := by
  induction tail generalizing X acc m with
  | nil =>
    refine ⟨fun _ => ⟨acc, rfl, by simpa using hschema, by simpa [run] using hshow⟩, ?_⟩
    intro h
    exact absurd (fun t ht => by simp at ht) h
  | cons t tail ih =>
    obtain ⟨s, k, c, hs, hk, hc⟩ := hsome t (by simp)
    have hfit : StepFits rt db steps t X := by simpa using hfits [] t tail rfl
    have hloop : (t :: tail).filterMap (steps[·]?) = s :: tail.filterMap (steps[·]?) := by
      simp [hs]
    rw [hloop] at hpanic ⊢
    obtain ⟨x, hx⟩ | ⟨e, he⟩ := scan_cases rt db s
    · -- the table scans: the join is its stage, and the rest follows by induction
      have hschema' : table_schema rt db steps t = x.1 := by rw [table_schema, table_of_scan hs hx]
      have hrows : table_rows rt db steps t = x.2 := by rw [table_rows, table_of_scan hs hx]
      have hkind : s.kind.getD .Inner = step_kind steps t := by simp [step_kind, hs]
      have hcond : c = step_condition steps t := by simp [step_condition, hs, hc]
      rw [join_loop_cons hx hc] at hpanic ⊢
      rw [scanned_cons hs hx]
      rw [hschema, ← hschema', ← hrows, hkind, hcond] at hpanic ⊢
      obtain ⟨out, hout⟩ := apply_join_ok fun h => hpanic (by rw [h]; rfl)
      obtain ⟨res, hres, hshow'⟩ := hfit.simulates hshow (hfit.safe_of_ok hshow hout)
      rw [hres] at hpanic ⊢
      have hrest := @ih (X ++ [t]) (schemas (table_schema rt db steps) (X ++ [t]), res)
        ((step_stage rt db steps t).apply t m) (fun u hu => hsome u (by simp [hu]))
        (fun p u q htail => by simpa using hfits (t :: p) u q (by simp [htail])) rfl hshow' hpanic
      simp only [append_assoc, singleton_append] at hrest
      exact hrest
    · refine ⟨fun h => ?_, fun _ => ⟨e, by rw [join_loop, he]; rfl⟩⟩
      obtain ⟨x, hx⟩ := h t (by simp) s hs
      simp [he] at hx

variable (rt db steps) in
/-- The rows of the first table, and NULLs for the others. -/
def first_rows : Multiset (ℕ → Row F) :=
  (table_rows rt db steps 0 : Multiset (Row F)).map fun r =>
    update (nulls (table_schema rt db steps)) 0 r

theorem shows_first : Shows (table_schema rt db steps) [0] (table_rows rt db steps 0)
    (first_rows rt db steps) := by
  rw [Shows, first_rows, Multiset.map_map]
  symm
  refine (Multiset.map_congr rfl fun r hr => ?_).trans (Multiset.map_id _)
  have hwidth := table_width 0 r (Multiset.mem_coe.mp hr)
  simp [flat, fit_of_length hwidth]

variable (rt db steps) in
/-- Joining in the order `0 :: tail` shows what the stages of the steps make, if all the tables
can be read. -/
def RunsAs (tail : List ℕ) : Prop :=
  (Scanned rt db steps (0 :: tail) →
    ∃ acc, join_in_order rt db ((0 :: tail).filterMap (steps[·]?)) = .ok acc ∧
      acc.1 = schemas (table_schema rt db steps) (0 :: tail) ∧
      Shows (table_schema rt db steps) (0 :: tail) acc.2
        (Pipeline.run (step_stage rt db steps) (first_rows rt db steps) tail)) ∧
  (¬Scanned rt db steps (0 :: tail) →
    ∃ e, join_in_order rt db ((0 :: tail).filterMap (steps[·]?)) = .error (.Err e))

theorem join_in_order_run {tail : List ℕ} (h0 : 0 < steps.length)
    (hsome : ∀ t ∈ tail, Joins steps t)
    (hfits : ∀ p t q, tail = p ++ t :: q → StepFits rt db steps t (0 :: p))
    (hpanic : join_in_order rt db ((0 :: tail).filterMap (steps[·]?)) ≠ .error .panic) :
    RunsAs rt db steps tail := by
  have hs : steps[0]? = some steps[0] := getElem?_eq_getElem h0
  have hlist : (0 :: tail).filterMap (steps[·]?) = steps[0] :: tail.filterMap (steps[·]?) := by
    simp [hs]
  rw [RunsAs, hlist, join_in_order]
  rw [hlist, join_in_order] at hpanic
  obtain ⟨x, hx⟩ | ⟨e, he⟩ := scan_cases rt db steps[0]
  · have htable := table_of_scan hs hx
    rw [scanned_cons hs hx, hx]
    rw [hx] at hpanic
    refine join_loop_run (X := [0]) hsome hfits ?_ ?_ hpanic
    · rw [schemas_singleton, table_schema, htable]
    · rw [← htable]
      exact shows_first
  · refine ⟨fun h => ?_, fun _ => ⟨e, by rw [he]; rfl⟩⟩
    obtain ⟨x, hx⟩ := h 0 (by simp) _ hs
    simp [he] at hx

/-! ## Rows up to the order of rows and columns -/

/-- The entries at the positions of `σ`. -/
def pick {α : Type} (σ : List ℕ) (l : List α) : List α := σ.filterMap (l[·]?)

/-- `a` is `b` with the columns rearranged by `σ`, and then the rows in some order. -/
def SameRows (a b : List ColumnSchema × List (Row F)) : Prop :=
  ∃ σ : List ℕ, σ.Perm (range b.1.length) ∧ a.1 = pick σ b.1 ∧ a.2.Perm (b.2.map (pick σ))

/-- Both queries give the same rows, or both fail with an `Err`. -/
def SameResult : Result (List ColumnSchema × List (Row F)) →
    Result (List ColumnSchema × List (Row F)) → Prop
  | .ok a, .ok b => SameRows a b
  | .error (.Err _), .error (.Err _) => True
  | _, _ => False

section Columns

variable {α : Type} {sch : ℕ → List ColumnSchema} {n t : ℕ}

theorem pick_flatMap (o : List ℕ) (f : ℕ → List ℕ) (l : List α) :
    pick (o.flatMap f) l = o.flatMap fun t => pick (f t) l := by
  simp [pick, filterMap_flatMap]

theorem pick_range' (k m : ℕ) (l : List α) : pick (range' k m) l = (l.drop k).take m := by
  induction m generalizing k with
  | zero => simp [pick]
  | succ m ih =>
    simp only [pick, range'_succ, filterMap_cons] at ih ⊢
    cases hk : l[k]? with
    | none =>
      have hlen : l.length ≤ k := getElem?_eq_none_iff.mp hk
      simp only [ih]
      rw [drop_eq_nil_of_le hlen, drop_eq_nil_of_le (by omega)]
      simp
    | some a =>
      obtain ⟨hlt, rfl⟩ := List.getElem?_eq_some_iff.mp hk
      rw [drop_eq_getElem_cons hlt, take_succ_cons, ← ih]

/-- Where the columns of table `t` stand when the tables are side by side as written. -/
def block (sch : ℕ → List ColumnSchema) (t : ℕ) : List ℕ :=
  range' (schemas sch (range t)).length (sch t).length

theorem length_flatMap_eq {f : ℕ → List α} (hf : ∀ t, (f t).length = (sch t).length)
    (o : List ℕ) : (o.flatMap f).length = (schemas sch o).length := by
  simp [schemas, length_flatMap, hf]

theorem range_split (t k : ℕ) : range (t + (k + 1)) = range t ++ t :: range' (t + 1) k := by
  rw [range_add, ← range'_eq_map_range, range'_succ]

theorem pick_block {f : ℕ → List α} (hf : ∀ t, (f t).length = (sch t).length) (ht : t < n) :
    pick (block sch t) ((range n).flatMap f) = f t := by
  obtain ⟨k, rfl⟩ : ∃ k, n = t + (k + 1) := ⟨n - t - 1, by omega⟩
  rw [block, pick_range', range_split, flatMap_append, flatMap_cons,
    ← length_flatMap_eq hf (range t), drop_left, ← hf t, take_left]

theorem flatMap_block : (range n).flatMap (block sch) = range (schemas sch (range n)).length := by
  induction n with
  | zero => rfl
  | succ n ih =>
    rw [range_succ, flatMap_append, ih, schemas_append, length_append,
      schemas_singleton, range_add, ← range'_eq_map_range]
    simp [block]

/-- Two lists of rows that show the same environments differ in the order of the tables. -/
theorem sameRows_of_shows {o : List ℕ} {M : Multiset (ℕ → Row F)}
    {a b : List ColumnSchema × List (Row F)} (ho : o.Perm (range n))
    (ha : a.1 = schemas sch o) (ha' : Shows sch o a.2 M)
    (hb : b.1 = schemas sch (range n)) (hb' : Shows sch (range n) b.2 M) : SameRows a b := by
  have hpick : ∀ {β : Type} (f : ℕ → List β), (∀ t, (f t).length = (sch t).length) →
      pick (o.flatMap (block sch)) ((range n).flatMap f) = o.flatMap f := by
    intro β f hf
    rw [pick_flatMap]
    exact flatMap_congr fun t ht =>
      pick_block hf (mem_range.mp (ho.subset ht))
  refine ⟨o.flatMap (block sch), ?_, ?_, ?_⟩
  · rw [hb, ← flatMap_block]
    exact ho.flatMap_right _
  · rw [ha, hb]
    exact (hpick sch fun _ => rfl).symm
  · apply Multiset.coe_eq_coe.mp
    rw [← Multiset.map_coe, ha', hb', Multiset.map_map]
    exact Multiset.map_congr rfl fun e _ =>
      (hpick (fun t => fit sch t (e t)) fun _ => length_fit).symm

end Columns

/-! ## The two orders -/

theorem flatten_join_node_some : ∀ (join : Option (JoinClause F)), ∀ s ∈ flatten_join_node join,
    ∃ k c, s.kind = some k ∧ s.condition = some c
  | none, s, hs => by simp [flatten_join_node] at hs
  | some (.mk kind (.mk name as_name join) condition), s, hs => by
    obtain rfl | hs := mem_cons.mp hs
    · exact ⟨kind, condition, rfl, rfl⟩
    · exact flatten_join_node_some join s hs

variable (rt db) in
/-- The order chosen for the clause keeps its meaning: there is no comma, each condition finds
the columns it finds as written, a RIGHT or FULL join comes after the same tables, and no
condition panics on rows that meet in either order. -/
structure Reorderable (sources : List (TableRef F)) : Prop where
  no_comma : sources.length ≤ 1
  scope : ∀ t, 0 < t → t < (flatten_join_tree sources).length →
    SameScope rt (table_schema rt db (flatten_join_tree sources))
      (step_kind (flatten_join_tree sources) t) (step_condition (flatten_join_tree sources) t) t
      (range t) (Pipeline.before (dp_join_order rt db (flatten_join_tree sources)) t)
  outer : ∀ t, 0 < t → t < (flatten_join_tree sources).length →
    step_kind (flatten_join_tree sources) t ∈ [JoinKind.Right, JoinKind.Full] →
    ∀ u, u < t ↔ u ∈ Pipeline.before (dp_join_order rt db (flatten_join_tree sources)) t
  returns : exec_multi_join rt db sources ≠ .error .panic ∧
    written_join rt db sources ≠ .error .panic

theorem before_range {n t : ℕ} (ht : t < n) : Pipeline.before (range n) t = range t := by
  obtain ⟨k, rfl⟩ : ∃ k, n = t + (k + 1) := ⟨n - t - 1, by omega⟩
  rw [range_split, before_append (by simp)]

theorem range_eq_cons {n : ℕ} (hn : 0 < n) : range n = 0 :: range' 1 (n - 1) := by
  obtain ⟨k, rfl⟩ : ∃ k, n = 0 + (k + 1) := ⟨n - 1, by omega⟩
  simpa using range_split 0 k

theorem sameScope_refl {sch : ℕ → List ColumnSchema} {kind : JoinKind} {c : JoinCondition F}
    {t : ℕ} {o : List ℕ} : SameScope rt sch kind c t o o := by
  cases kind with
  | Cross => trivial
  | Inner => exact ⟨fun _ _ => rfl, fun _ => sameReads_refl⟩
  | _ => exact sameReads_refl

/-- An order that is the written one only has to return. -/
theorem Reorderable.of_written {sources : List (TableRef F)} (hcomma : sources.length ≤ 1)
    (horder : dp_join_order rt db (flatten_join_tree sources) =
      range (flatten_join_tree sources).length)
    (hreturns : exec_multi_join rt db sources ≠ .error .panic ∧
      written_join rt db sources ≠ .error .panic) : Reorderable rt db sources where
  no_comma := hcomma
  scope t _ hlt := by
    rw [horder, before_range hlt]
    exact sameScope_refl
  outer t _ hlt _ u := by rw [horder, before_range hlt, mem_range]
  returns := hreturns

theorem filterMap_range : (range steps.length).filterMap (steps[·]?) = steps := by
  have h := pick_range' 0 steps.length steps
  rwa [← range_eq_range', drop_zero, take_length] at h

section Orders

variable {n : ℕ} {tail : List ℕ}

/-- Below the first table, what comes before `t` as written is what is smaller. -/
theorem mem_before_tail {t u : ℕ} (ht : t ∈ range' 1 (n - 1)) (hu : u ≠ 0) :
    u ∈ Pipeline.before (range' 1 (n - 1)) t ↔ u < t := by
  obtain ⟨k, hk⟩ : ∃ k, n = k + 1 := by
    have := mem_range'_1.mp ht
    exact ⟨n - 1, by omega⟩
  have htn : t ≠ 0 ∧ t < n := by
    have := mem_range'_1.mp ht
    omega
  have hcons : Pipeline.before (0 :: range' 1 (n - 1)) t = 0 :: Pipeline.before (range' 1 (n - 1)) t :=
    before_cons_of_ne htn.1.symm
  rw [← range_eq_cons (by omega), before_range htn.2] at hcons
  have hmem : u ∈ range t ↔ u ∈ 0 :: Pipeline.before (range' 1 (n - 1)) t := by rw [hcons]
  simpa [hu] using hmem.symm

theorem rearranges (hperm : tail.Perm (range' 1 (n - 1)))
    (hfit : ∀ t ∈ tail, StepFits rt db steps t (Pipeline.before (0 :: tail) t))
    (houter : ∀ t ∈ tail, step_kind steps t ∈ [JoinKind.Right, JoinKind.Full] →
      ∀ u, u < t ↔ u ∈ Pipeline.before (0 :: tail) t) :
    Pipeline.Rearranges (step_stage rt db steps) (range' 1 (n - 1)) tail := by
  have hpos : ∀ t ∈ range' 1 (n - 1), t ≠ 0 := by
    intro t ht
    have := mem_range'_1.mp ht
    omega
  have hcons : ∀ t ∈ range' 1 (n - 1), Pipeline.before (0 :: tail) t = 0 :: Pipeline.before tail t :=
    fun t ht => before_cons_of_ne (hpos t ht).symm
  refine ⟨hperm.symm, nodup_range', ?_, ?_⟩
  · intro t ht values hvalues u hu hut hout
    have hfit := hfit t (hperm.mem_iff.mpr ht)
    refine hfit.ignores hvalues fun hread => ?_
    obtain ⟨hlt, hbefore⟩ := hfit.reads_mem hread hut
    rw [hcons t ht] at hbefore
    have hwritten := (mem_before_tail ht (hpos u hu)).mpr (mem_range.mp hlt)
    have hrun := (mem_cons.mp hbefore).resolve_left (hpos u hu)
    exact hout.elim (fun h => h hwritten) fun h => h hrun
  · intro t ht f hf u
    have hkind : step_kind steps t ∈ [JoinKind.Right, JoinKind.Full] := by
      unfold step_stage at hf
      cases hk : step_kind steps t with
      | Right | Full => simp
      | Inner | Left | Cross =>
        rw [hk] at hf
        cases hf
    have hiff := houter t (hperm.mem_iff.mpr ht) hkind u
    by_cases hu : u = 0
    · -- the first table is in neither list
      subst hu
      constructor
      · exact fun h => absurd rfl (hpos 0 (mem_of_mem_before h))
      · exact fun h => absurd rfl (hpos 0 (hperm.subset (mem_of_mem_before h)))
    · rw [mem_before_tail ht hu, hiff, hcons t ht]
      simp [hu]

theorem mem_tail_iff {t : ℕ} : t ∈ range' 1 (n - 1) ↔ 0 < t ∧ t < n := by
  rw [mem_range'_1]
  omega

/-- `join_in_order_run` for an order of all tables, each step fitting where it runs. -/
theorem join_in_order_before (hlen : 0 < steps.length)
    (hperm : tail.Perm (range' 1 (steps.length - 1)))
    (hsome : ∀ t, 0 < t → t < steps.length → Joins steps t)
    (hfit : ∀ t ∈ tail, StepFits rt db steps t (Pipeline.before (0 :: tail) t))
    (hpanic : join_in_order rt db ((0 :: tail).filterMap (steps[·]?)) ≠ .error .panic) :
    RunsAs rt db steps tail := by
  have hall : (0 :: tail).Perm (range steps.length) := by
    rw [range_eq_cons hlen]
    exact hperm.cons 0
  have hnodup : (0 :: tail).Nodup := hall.symm.nodup nodup_range
  refine join_in_order_run hlen (fun t ht => ?_) (fun p t q heq => ?_) hpanic
  · obtain ⟨hpos, hlt⟩ := mem_tail_iff.mp (hperm.subset ht)
    exact hsome t hpos hlt
  · have hsplit : 0 :: tail = (0 :: p) ++ t :: q := by rw [heq]; rfl
    rw [hsplit] at hnodup
    have htp : t ∉ 0 :: p := fun htp =>
      (nodup_append.mp hnodup).2.2 t htp t (by simp) rfl
    have hfits := hfit t (by simp [heq])
    rwa [hsplit, before_append htp] at hfits

/-- The order of `dp_join_order` and the written order, for steps that all have a condition. -/
theorem join_in_order_same (hlen : 0 < steps.length)
    (hsome : ∀ t, 0 < t → t < steps.length → Joins steps t)
    (hscope : ∀ t, 0 < t → t < steps.length →
      SameScope rt (table_schema rt db steps) (step_kind steps t) (step_condition steps t) t
        (range t) (Pipeline.before (dp_join_order rt db steps) t))
    (houter : ∀ t, 0 < t → t < steps.length →
      step_kind steps t ∈ [JoinKind.Right, JoinKind.Full] →
      ∀ u, u < t ↔ u ∈ Pipeline.before (dp_join_order rt db steps) t)
    (hpanic : join_in_order rt db ((dp_join_order rt db steps).filterMap (steps[·]?)) ≠
      .error .panic) (hpanic' : join_in_order rt db steps ≠ .error .panic) :
    SameResult (join_in_order rt db ((dp_join_order rt db steps).filterMap (steps[·]?)))
      (join_in_order rt db steps) := by
  obtain ⟨tail, horder, hperm⟩ := dp_join_order_perm rt db hlen
  rw [horder] at hscope houter hpanic ⊢
  have hfit : ∀ t ∈ tail, StepFits rt db steps t (Pipeline.before (0 :: tail) t) := by
    intro t ht
    obtain ⟨hpos, hlt⟩ := mem_tail_iff.mp (hperm.subset ht)
    exact ⟨by simp, not_mem_before_self, table_width, hscope t hpos hlt⟩
  have hfit' : ∀ t ∈ range' 1 (steps.length - 1),
      StepFits rt db steps t (Pipeline.before (0 :: range' 1 (steps.length - 1)) t) := by
    intro t ht
    obtain ⟨hpos, hlt⟩ := mem_tail_iff.mp ht
    rw [← range_eq_cons hlen, before_range hlt]
    exact ⟨by simp, by simp, table_width, sameScope_refl⟩
  have hrun := join_in_order_before hlen hperm hsome hfit hpanic
  have hwritten := join_in_order_before hlen (.refl _) hsome hfit' (by
    rwa [← range_eq_cons hlen, filterMap_range])
  rw [RunsAs, ← range_eq_cons hlen, filterMap_range] at hwritten
  have hall : (0 :: tail).Perm (range steps.length) := by
    rw [range_eq_cons hlen]
    exact hperm.cons 0
  have hscanned : Scanned rt db steps (0 :: tail) ↔
      Scanned rt db steps (range steps.length) := by
    simp only [Scanned, hall.mem_iff]
  have hsame := run_perm (rearranges hperm hfit fun t ht hk => by
    obtain ⟨hpos, hlt⟩ := mem_tail_iff.mp (hperm.subset ht)
    exact houter t hpos hlt hk) (first_rows rt db steps)
  by_cases hscan : Scanned rt db steps (0 :: tail)
  · obtain ⟨a, ha, ha₁, ha₂⟩ := hrun.1 hscan
    obtain ⟨b, hb, hb₁, hb₂⟩ := hwritten.1 (hscanned.mp hscan)
    rw [ha, hb]
    rw [hsame] at hb₂
    exact sameRows_of_shows hall ha₁ ha₂ hb₁ hb₂
  · obtain ⟨e, he⟩ := hrun.2 hscan
    obtain ⟨e', he'⟩ := hwritten.2 (hscanned.not.mp hscan)
    rw [he, he']
    trivial

end Orders

variable {sources : List (TableRef F)}

theorem Reorderable.same_result (h : Reorderable rt db sources) :
    SameResult (exec_multi_join rt db sources) (written_join rt db sources) := by
  match sources, h with
  | [], _ => exact ⟨[], by simp, rfl, .refl _⟩
  | _ :: _ :: _, h => exact absurd h.no_comma (by simp)
  | [.mk name as_name join], h =>
    have hsteps : flatten_join_tree [.mk name as_name join] =
        ⟨name, as_name, none, none⟩ :: flatten_join_node join := by
      simp [flatten_join_tree]
    have hnode := flatten_join_node_some join
    -- no step after the first stands for a comma
    have hmap : (flatten_join_node join).map Step.comma_as_cross = flatten_join_node join := by
      refine (map_congr_left fun s hs => ?_).trans (map_id _)
      obtain ⟨k, c, hk, -⟩ := hnode s hs
      simp [Step.comma_as_cross, hk]
    have hwritten : written_join rt db [.mk name as_name join] =
        join_in_order rt db (flatten_join_tree [.mk name as_name join]) := by
      simp only [written_join, hsteps, hmap]
    have hreturns := h.returns
    rw [hwritten] at hreturns ⊢
    refine join_in_order_same (by simp [hsteps]) (fun t hpos hlt => ?_) h.scope h.outer
      hreturns.1 hreturns.2
    obtain ⟨u, rfl⟩ : ∃ u, t = u + 1 := ⟨t - 1, by omega⟩
    simp only [hsteps, length_cons, Nat.add_lt_add_iff_right] at hlt ⊢
    obtain ⟨k, c, hk, hc⟩ := hnode _ (getElem_mem hlt)
    exact ⟨_, k, c, getElem?_eq_getElem hlt, hk, hc⟩

/-! ## Commas -/

variable (rt db) in
/-- Every table of the clause can be scanned. -/
def AllScan (l : List (Step F)) : Prop :=
  ∀ s ∈ l, ∃ x, scan_table_qualified rt db s.name (s.qualifier rt) = .ok x

theorem join_loop_panics {l : List (Step F)} {acc : List ColumnSchema × List (Row F)}
    (hscan : AllScan rt db l) (hnone : ∃ s ∈ l, s.condition = none) :
    join_loop rt db l acc = .error .panic := by
  induction l generalizing acc with
  | nil => simp at hnone
  | cons s l ih =>
    obtain ⟨x, hx⟩ := hscan s (by simp)
    cases hc : s.condition with
    | none =>
      simp only [join_loop, hx, hc]
      rfl
    | some c =>
      have hrest : ∃ s ∈ l, s.condition = none := by
        obtain ⟨u, hu, hnone⟩ := hnone
        obtain rfl | hu := mem_cons.mp hu
        · simp [hc] at hnone
        · exact ⟨u, hu, hnone⟩
      rw [join_loop_cons hx hc]
      cases happ : apply_join rt acc.1 acc.2 x.1 x.2 (s.kind.getD .Inner) c with
      | ok acc' => exact ih (fun u hu => hscan u (by simp [hu])) hrest
      | error fault =>
        cases fault with
        | panic => rfl
        | Err e => exact absurd happ (NoErr.apply_join _ _ _ _ _ _ e)

/-- A comma leaves a table without a condition, and its `unwrap` panics wherever the table
ends up in the order. -/
theorem comma_panics (hcomma : 1 < sources.length)
    (hscan : AllScan rt db (flatten_join_tree sources)) :
    exec_multi_join rt db sources = .error .panic := by
  match sources with
  | [] | [_] => simp at hcomma
  | .mk name as_name join :: .mk name' as_name' join' :: rest =>
    generalize hsteps : flatten_join_tree (.mk name as_name join :: .mk name' as_name' join' :: rest)
      = steps at hscan
    have hlist : steps = (⟨name, as_name, none, none⟩ :: flatten_join_node join) ++
        (⟨name', as_name', none, none⟩ ::
          (flatten_join_node join' ++ flatten_join_tree rest)) := by
      simp [← hsteps, flatten_join_tree]
    have hlen : 0 < steps.length := by simp [hlist]
    obtain ⟨tail, horder, hperm⟩ := dp_join_order_perm rt db hlen
    have hcommaAt : steps[(flatten_join_node join).length + 1]? =
        some ⟨name', as_name', none, none⟩ := by
      rw [hlist, getElem?_append_right (by simp)]
      simp
    have hmem : (flatten_join_node join).length + 1 ∈ tail := by
      refine hperm.symm.subset (mem_tail_iff.mpr ⟨by omega, ?_⟩)
      exact (List.getElem?_eq_some_iff.mp hcommaAt).1
    have hfirst : steps[0]? = some steps[0] := getElem?_eq_getElem hlen
    obtain ⟨x, hx⟩ := hscan steps[0] (getElem_mem hlen)
    have hloop : join_loop rt db (tail.filterMap (steps[·]?)) x = .error .panic := join_loop_panics
      (fun s hs => by
        obtain ⟨t, -, ht⟩ := mem_filterMap.mp hs
        exact hscan s (mem_of_getElem? ht))
      ⟨_, mem_filterMap.mpr ⟨_, hmem, hcommaAt⟩, rfl⟩
    simp only [exec_multi_join, hsteps, horder, filterMap_cons, hfirst, join_in_order, hx]
    exact hloop

section Demo

/-- `a(x, y)`, `b(x, z)` and `c(y, z)`, without statistics. -/
def demo_tables : Tables ℚ where
  contents name :=
    if name = "a" then .ok ([int_column "x", int_column "y"], [[.Int64 1, .Int64 2]])
    else if name = "b" then .ok ([int_column "x", int_column "z"], [[.Int64 1, .Int64 3]])
    else if name = "c" then .ok ([int_column "y", int_column "z"], [[.Int64 2, .Int64 3]])
    else .error (.Semantic ("table '" ++ name ++ "' does not exist"))
  row_count _ := none
  width := by
    intro name t h row hrow
    split_ifs at h <;> cases h <;> simp at hrow <;> subst hrow <;> rfl

/-- `ON t.x = u.y`. -/
def on_columns (t x u y : String) : JoinCondition ℚ :=
  .On (.BinaryOp .Eq (.ColumnRef (some t) x) (.ColumnRef (some u) y))

/-- `FROM a JOIN b ON a.x = b.x JOIN c ON ...`. -/
def demo_clause (last : JoinCondition ℚ) : List (TableRef ℚ) :=
  [.mk "a" none (some (.mk .Inner (.mk "b" none
    (some (.mk .Inner (.mk "c" none none) last))) (on_columns "a" "x" "b" "x")))]

/-- `FROM a, b`. -/
def demo_comma : List (TableRef ℚ) := [.mk "a" none none, .mk "b" none none]

/-- Both conditions hang on `a`. -/
def demo_star : List (TableRef ℚ) := demo_clause (on_columns "a" "y" "c" "y")

/-- `c` hangs on `b`. -/
def demo_chain : List (TableRef ℚ) := demo_clause (on_columns "b" "z" "c" "z")

/-- `FROM a JOIN b ON b.z % COALESCE(a.x, 0) = 0`, which panics on a NULL of `a`. -/
def demo_modulo : List (TableRef ℚ) :=
  [.mk "a" none (some (.mk .Inner (.mk "b" none none) (.On (.BinaryOp .Eq
    (.BinaryOp .Mod (.ColumnRef (some "b") "z")
      (.FunctionCall "COALESCE" [.ColumnRef (some "a") "x", .IntLit 0] false)) (.IntLit 0)))))]

end Demo

end Oigrap.Sql

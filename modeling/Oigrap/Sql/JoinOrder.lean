/-
The order of the joins of a `FROM` clause: `dp_join_order`, `dp_join_order_selinger` and
`exec_multi_join` of `crates/sql/src/executor.rs`.

The dynamic program compares costs in `f64`, and which plan it keeps turns on rounding and on
ties, so nothing is said here about costs. What it returns is in any case the first table
followed by some arrangement of the others (`dp_join_order_perm`).
-/
import Mathlib.Data.List.Perm.Basic
import Mathlib.Data.Nat.Bitwise
import Oigrap.Sql.Join

namespace Oigrap.Sql

open Function List

/-- The tables a query can name, by lower-case name: what a scan gives (a CTE, a virtual
catalog table or the visible rows of a heap) and the row count that `ANALYZE` left. A row has
one value for each column. -/
structure Tables (F : Type) where
  contents : String → Except SqlError (List ColumnSchema × List (Row F))
  row_count : String → Option ℕ
  width : ∀ name t, contents name = .ok t → ∀ row ∈ t.2, row.length = t.1.length

variable {F : Type} (rt : Runtime F) (db : Tables F)

/-- `catalog.get(name).and_then(|e| e.stats..row_count).unwrap_or(1000)`. -/
def row_count (name : String) : ℕ := (db.row_count (rt.to_lowercase name)).getD 1000

/-! ## The dynamic program -/

/-- A plan with its estimated rows and its cost. -/
structure Plan (F : Type) where
  plan : List ℕ
  out_rows : F
  total_cost : F

section Selinger

variable (indices : List ℕ) (row_counts : List F) (best : ℕ → Option (Plan F))

/-- One candidate for the last table of the subset `mask`: the best cost so far, and the plan
and the row estimate that have it. -/
def try_last (mask : ℕ) (acc : F × Option (List ℕ × F)) (pos : ℕ) :
    F × Option (List ℕ × F) :=
  if mask.testBit pos = false then acc
  else if mask ^^^ (1 <<< pos) = 0 then acc
  else match best (mask ^^^ (1 <<< pos)) with
    | none => acc
    | some left =>
      let right_rows := row_counts.getD pos rt.zero
      let out_rows := rt.max (rt.mul (rt.mul left.out_rows right_rows) rt.tenth) rt.one
      let join_cost := rt.add (rt.mul left.out_rows right_rows) out_rows
      if rt.lt join_cost acc.1 then
        (join_cost, some (left.plan ++ [indices.getD pos 0], out_rows))
      else acc

def fill_mask (mask : ℕ) : ℕ → Option (Plan F) :=
  let r := (range indices.length).foldl (try_last rt indices row_counts best mask)
    (rt.max_value, none)
  match r.2 with
  | some (plan, out_rows) => update best mask (some ⟨plan, out_rows, r.1⟩)
  | none => best

/-- The members of a subset of the tables. -/
def bits (n mask : ℕ) : List ℕ := (range n).filter fun pos => mask.testBit pos

def fill_size (size : ℕ) : ℕ → Option (Plan F) :=
  (range (2 ^ indices.length)).foldl (fun best mask =>
    if (bits indices.length mask).length = size then fill_mask rt indices row_counts best mask
    else best) best

def single_plans (pos : ℕ) : ℕ → Option (Plan F) :=
  update best (1 <<< pos)
    (some ⟨[indices.getD pos 0], row_counts.getD pos rt.zero, row_counts.getD pos rt.zero⟩)

end Selinger

def dp_join_order_selinger (indices : List ℕ) (steps : List (Step F)) : List ℕ :=
  let n := indices.length
  if n ≤ 1 then indices
  else
    let row_counts := indices.map fun i =>
      rt.of_usize ((steps[i]?.map fun s => row_count rt db s.name).getD 1000)
    let base := (range n).foldl (single_plans rt indices row_counts) fun _ => none
    let best := (range' 2 (n - 1)).foldl (fill_size rt indices row_counts) base
    match best (2 ^ n - 1) with
    | some p => p.plan
    | none => indices

def is_cross (steps : List (Step F)) (i : ℕ) : Bool :=
  (steps[i]?.bind Step.kind) == some .Cross

def dp_join_order (steps : List (Step F)) : List ℕ :=
  if steps.length ≤ 1 then range steps.length
  else
    let regular := (range' 1 (steps.length - 1)).filter fun i => !is_cross steps i
    let cross := (range' 1 (steps.length - 1)).filter (is_cross steps)
    let count := fun i => (steps[i]?.map fun s => row_count rt db s.name).getD 1000
    let ordered_tail :=
      if regular.length = 0 then []
      else if regular.length > 7 then regular.mergeSort fun i j => count i ≤ count j
      else dp_join_order_selinger rt db regular steps
    0 :: (ordered_tail ++ cross)

/-! ## Running the joins -/

def Step.qualifier (s : Step F) : String := rt.to_lowercase (s.as_name.getD s.name)

def scan_table_qualified (name qualifier : String) :
    Result (List ColumnSchema × List (Row F)) :=
  match db.contents (rt.to_lowercase name) with
  | .ok t => .ok (qualify_schema t.1 qualifier, t.2)
  | .error e => .error (.Err e)

/-- The loop of `exec_multi_join`. `condition.as_ref().unwrap()` panics on a table that was
written after a comma. -/
def join_loop : List (Step F) → List ColumnSchema × List (Row F) →
    Result (List ColumnSchema × List (Row F))
  | [], acc => .ok acc
  | s :: rest, acc => do
    let right ← scan_table_qualified rt db s.name (s.qualifier rt)
    match s.condition with
    | none => .error .panic
    | some condition =>
      let acc ← apply_join rt acc.1 acc.2 right.1 right.2 (s.kind.getD .Inner) condition
      join_loop rest acc

/-- Scan the first table, join the others to it in the order given. -/
def join_in_order : List (Step F) → Result (List ColumnSchema × List (Row F))
  | [] => .ok ([], [])
  | first :: rest => do
    let left ← scan_table_qualified rt db first.name (first.qualifier rt)
    join_loop rt db rest left

def exec_multi_join (sources : List (TableRef F)) :
    Result (List ColumnSchema × List (Row F)) :=
  let steps := flatten_join_tree sources
  join_in_order rt db ((dp_join_order rt db steps).filterMap (steps[·]?))

/-- A comma read as a cross product. -/
def Step.comma_as_cross (s : Step F) : Step F :=
  match s.kind with
  | none => { s with kind := some .Cross, condition := some (.On (.BoolLit true)) }
  | some _ => s

/-- What the clause means: the tables joined as they are written. -/
def written_join (sources : List (TableRef F)) : Result (List ColumnSchema × List (Row F)) :=
  match flatten_join_tree sources with
  | [] => .ok ([], [])
  | first :: rest => join_in_order rt db (first :: rest.map Step.comma_as_cross)

/-! ## The order is an arrangement of the tables -/

section Arrangement

variable {rt} {indices : List ℕ} {row_counts : List F} {n mask pos : ℕ}

theorem mem_bits : pos ∈ bits n mask ↔ pos < n ∧ mask.testBit pos = true := by
  simp [bits]

theorem nodup_bits : (bits n mask).Nodup := nodup_range.filter _

/-- Taking the last table out of a subset and putting it behind the rest. -/
theorem bits_flip_perm (hpos : pos < n) (hbit : mask.testBit pos = true) :
    (bits n (mask ^^^ (1 <<< pos)) ++ [pos]).Perm (bits n mask) := by
  have hflip : ∀ q, (mask ^^^ (1 <<< pos)).testBit q =
      if q = pos then false else mask.testBit q := by
    intro q
    rw [Nat.testBit_xor, Nat.one_shiftLeft, Nat.testBit_two_pow]
    by_cases hq : q = pos
    · simp [hq, hbit]
    · simp [hq, Ne.symm hq]
  have hout : pos ∉ bits n (mask ^^^ (1 <<< pos)) := by simp [mem_bits, hflip]
  rw [perm_ext_iff_of_nodup _ nodup_bits]
  · intro q
    by_cases hq : q = pos
    · simp [hq, mem_bits, hpos, hbit]
    · simp [hq, mem_bits, hflip]
  · refine nodup_append.mpr ⟨nodup_bits, by simp, fun a ha b hb hab => hout ?_⟩
    rwa [hab, mem_singleton.mp hb] at ha

theorem bits_full : bits n (2 ^ n - 1) = range n := by
  rw [bits, filter_eq_self]
  intro q hq
  simpa [Nat.testBit_two_pow_sub_one] using hq

theorem bits_single (hpos : pos < n) : bits n (1 <<< pos) = [pos] := by
  have hperm : (bits n (1 <<< pos)).Perm [pos] := by
    rw [perm_ext_iff_of_nodup nodup_bits (by simp)]
    intro q
    rw [mem_bits, Nat.one_shiftLeft, Nat.testBit_two_pow]
    simp only [decide_eq_true_eq, mem_singleton]
    constructor
    · exact fun h => h.2.symm
    · rintro rfl
      exact ⟨hpos, rfl⟩
  exact perm_singleton.mp hperm

/-- The tables of a subset, in the order of the clause. -/
def members (indices : List ℕ) (mask : ℕ) : List ℕ :=
  (bits indices.length mask).map (indices.getD · 0)

theorem members_flip (hpos : pos < indices.length) (hbit : mask.testBit pos = true) :
    (members indices (mask ^^^ (1 <<< pos)) ++ [indices.getD pos 0]).Perm
      (members indices mask) := by
  simpa [members] using (bits_flip_perm hpos hbit).map (indices.getD · 0)

theorem members_full : members indices (2 ^ indices.length - 1) = indices := by
  rw [members, bits_full]
  apply ext_getElem (by simp)
  intro i h₁ h₂
  rw [getElem_map, getElem_range, getD_eq_getElem _ _ h₂]

/-- Every plan of the table arranges its subset. -/
def Arranged (indices : List ℕ) (best : ℕ → Option (Plan F)) : Prop :=
  ∀ mask p, best mask = some p → p.plan.Perm (members indices mask)

variable {best : ℕ → Option (Plan F)}

section

variable (h : Arranged indices best)
include h

theorem Arranged.update {p : Plan F} (hp : p.plan.Perm (members indices mask)) :
    Arranged indices (Function.update best mask (some p)) := by
  intro m q hq
  by_cases hm : m = mask
  · subst hm
    rw [update_self] at hq
    cases hq
    exact hp
  · rw [update_of_ne hm] at hq
    exact h m q hq

theorem try_last_perm {acc : F × Option (List ℕ × F)}
    (hpos : pos < indices.length) (hacc : ∀ p ∈ acc.2, p.1.Perm (members indices mask)) :
    ∀ p ∈ (try_last rt indices row_counts best mask acc pos).2,
      p.1.Perm (members indices mask) := by
  unfold try_last
  split_ifs with hbit hzero
  · exact hacc
  · exact hacc
  · split
    · exact hacc
    · rename_i left hleft
      dsimp only
      split_ifs
      · intro p hp
        cases hp
        exact ((h _ left hleft).append_right _).trans
          (members_flip hpos (by simpa using hbit))
      · exact hacc

theorem Arranged.fill_mask (mask : ℕ) :
    Arranged indices (fill_mask rt indices row_counts best mask) := by
  have hloop := foldlRecOn (motive := fun acc : F × Option (List ℕ × F) =>
      ∀ p ∈ acc.2, p.1.Perm (members indices mask)) (range indices.length)
    (try_last rt indices row_counts best mask) (b := (rt.max_value, none)) (by simp)
    fun acc hacc pos hpos => try_last_perm h (mem_range.mp hpos) hacc
  unfold Sql.fill_mask
  dsimp only
  split
  · rename_i plan out_rows hbest
    exact h.update (hloop _ hbest)
  · exact h

theorem Arranged.fill_size (size : ℕ) :
    Arranged indices (fill_size rt indices row_counts best size) := by
  refine foldlRecOn _ _ h fun best hbest mask _ => ?_
  split_ifs
  · exact hbest.fill_mask mask
  · exact hbest

theorem Arranged.single_plans (hpos : pos < indices.length) :
    Arranged indices (single_plans rt indices row_counts best pos) := by
  apply h.update
  simp [members, bits_single hpos]

end

end Arrangement

theorem dp_join_order_selinger_perm (indices : List ℕ) (steps : List (Step F)) :
    (dp_join_order_selinger rt db indices steps).Perm indices := by
  unfold dp_join_order_selinger
  dsimp only
  split_ifs
  · exact .refl _
  · generalize (indices.map fun i => rt.of_usize
      ((steps[i]?.map fun s => row_count rt db s.name).getD 1000)) = row_counts
    have hbase : Arranged indices ((range indices.length).foldl
        (single_plans rt indices row_counts) fun _ => none) :=
      foldlRecOn _ _ (fun mask p hp => by simp at hp)
        fun best hbest pos hpos => hbest.single_plans (mem_range.mp hpos)
    have hbest : Arranged indices ((range' 2 (indices.length - 1)).foldl
        (fill_size rt indices row_counts) _) :=
      foldlRecOn _ _ hbase fun best hbest size _ => hbest.fill_size size
    split
    · rename_i p hp
      have hperm := hbest _ p hp
      rwa [members_full] at hperm
    · exact .refl _

/-- The first table stays first; the cross joins come last, as they are written, and the others
between them in some order. -/
theorem dp_join_order_eq {steps : List (Step F)} (h : 0 < steps.length) :
    ∃ middle, dp_join_order rt db steps
        = 0 :: (middle ++ (range' 1 (steps.length - 1)).filter (is_cross steps))
      ∧ middle.Perm ((range' 1 (steps.length - 1)).filter fun i => !is_cross steps i) := by
  unfold dp_join_order
  split_ifs with hlen
  · obtain hone : steps.length = 1 := by omega
    exact ⟨[], by simp [hone], by simp [hone]⟩
  · refine ⟨_, rfl, ?_⟩
    split_ifs with h0 h7
    · rw [length_eq_zero_iff.mp h0]
    · exact mergeSort_perm _ _
    · exact dp_join_order_selinger_perm rt db _ steps

theorem dp_join_order_perm {steps : List (Step F)} (h : 0 < steps.length) :
    ∃ tail, dp_join_order rt db steps = 0 :: tail ∧ tail.Perm (range' 1 (steps.length - 1)) := by
  obtain ⟨middle, heq, hperm⟩ := dp_join_order_eq rt db h
  exact ⟨_, heq, (hperm.append_right _).trans
    (perm_append_comm.trans (filter_append_perm (is_cross steps) _))⟩

/-- Every step once and the first one first; the cross joins after it stand behind all others,
as they are written. -/
def CrossLast (steps : List (Step F)) (order : List ℕ) : Prop :=
  order.Perm (range steps.length) ∧ ∃ middle,
    order = 0 :: (middle ++ (range' 1 (steps.length - 1)).filter (is_cross steps))
      ∧ ∀ i ∈ middle, is_cross steps i = false

/-- **Cross joins last.** The chosen order is one of all steps, and leaves no cross join but one in
the first place before a step that is none. -/
theorem dp_join_order_cross_last {steps : List (Step F)} (h : 0 < steps.length) :
    CrossLast steps (dp_join_order rt db steps) := by
  obtain ⟨tail, htail, hperm⟩ := dp_join_order_perm rt db h
  obtain ⟨middle, heq, hmiddle⟩ := dp_join_order_eq rt db h
  constructor
  · obtain ⟨n, hn⟩ := Nat.exists_eq_succ_of_ne_zero h.ne'
    rw [hn] at hperm
    rw [htail, hn, range_eq_range', range'_succ]
    exact hperm.cons 0
  · refine ⟨middle, heq, fun i hi => ?_⟩
    simpa using (mem_filter.mp (hmiddle.mem_iff.mp hi)).2

def no_tables : Tables ℚ := ⟨fun _ => .error (.Semantic ""), fun _ => none, nofun⟩

def cross_first : List (Step ℚ) :=
  [⟨"a", none, some .Cross, none⟩, ⟨"b", none, some .Inner, none⟩]

theorem dp_join_order_cross_last_two : 0 < cross_first.length
    ∧ CrossLast cross_first (dp_join_order demo_runtime no_tables cross_first) :=
  ⟨by decide, dp_join_order_cross_last _ _ (by decide)⟩

/-- A cross join in the first place stays there, before a step that is none. -/
theorem first_cross_stays : dp_join_order demo_runtime no_tables cross_first = [0, 1]
    ∧ is_cross cross_first 0 = true ∧ is_cross cross_first 1 = false := by
  decide +kernel

end Oigrap.Sql

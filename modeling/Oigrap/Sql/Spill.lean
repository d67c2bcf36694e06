/-
The spill files of the partitioned hash join: `crates/sql/src/spill.rs`, and the join that
writes and reads them.

A file is the bytes appended to it. `Oigrap.Sql.partition_hash_join` takes a file for the list
of its rows; here the rows go through the row format, and `partition_hash_join_eq` says that
nothing changes as long as the format can hold them: it has 32 bits for the number of columns
and for the length of a text.
-/
import Oigrap.Lib.Cursor
import Oigrap.Lib.Utf8
import Oigrap.Sql.JoinSpec

namespace Oigrap.Sql.Spill

open ByteMem Cursor List

/-- `f64` by its bit pattern, and the decoding of texts. -/
structure Format (F : Type) where
  to_bits : F → UInt64
  of_bits : UInt64 → F
  from_utf8_lossy : List UInt8 → Text
  of_bits_to_bits : ∀ f, of_bits (to_bits f) = f
  lossy_into_bytes : ∀ s, from_utf8_lossy (into_bytes s) = s

variable {F : Type} (fmt : Format F) (rt : Runtime F)

/-! ## Rows as bytes -/

/-- A value behind its tag. `bytes.len() as u32` keeps the low 32 bits of the length. -/
def write_value : Value F → List UInt8
  | .Null => [0]
  | .Bool b => [1, if b then 1 else 0]
  | .Int64 n => 2 :: le_bytes 8 n.toUInt64.toNat
  | .Float64 f => 3 :: le_bytes 8 (fmt.to_bits f).toNat
  | .Text s =>
    let bytes := into_bytes s.toList
    4 :: (le_bytes 4 bytes.length ++ bytes)

def write_row (row : Row F) : List UInt8 :=
  le_bytes 4 row.length ++ row.flatMap (write_value fmt)

/-- What follows a tag. -/
def read_payload : ℕ → Cursor (Value F)
  | 0 => pure .Null
  | 1 => (fun b => .Bool (b != 0)) <$> le 1
  | 2 => (fun n => .Int64 (UInt64.ofNat n).toInt64) <$> le 8
  | 3 => (fun n => .Float64 (fmt.of_bits (UInt64.ofNat n))) <$> le 8
  | 4 => do
    let len ← le 4
    (fun s => .Text (String.ofList (fmt.from_utf8_lossy s))) <$> take len
  | _ => pure .Null

def read_value : Cursor (Value F) := do
  let tag ← le 1
  read_payload fmt tag

/-- The part of `read_row` behind the test for the end of the file. -/
def read_columns : Cursor (Row F) := do
  let col_count ← le 4
  many (read_value fmt) col_count

/-- `read_row`: `Ok(None)` where no four bytes are left. -/
def read_row : Cursor (Option (Row F)) := fun data pos =>
  if pos + 4 ≤ data.length then (some <$> read_columns fmt) data pos else some (none, pos)

variable {α : Type} {row : Row F} (body : Row F → Result (List (Row F))) {rows : List (Row F)}

/-- `read_exact` in the middle of a row, with the prefix that `apply_join` gives the error. -/
def spill_error : Result α :=
  execution "spill join error: failed to fill whole buffer"

/-- `while let Some(row) = reader.read_row()? { .. }`. Every row takes four bytes, so the
length of the file bounds the iterations. -/
def each_row (body : Row F → Result (List (Row F))) : ℕ → List UInt8 → ℕ → Result (List (Row F))
  | 0, _, _ => .ok []
  | fuel + 1, data, pos =>
    match read_row fmt data pos with
    | none => spill_error
    | some (none, _) => .ok []
    | some (some row, pos) => do
      let out ← body row
      let rest ← each_row body fuel data pos
      .ok (out ++ rest)

def into_rows (file : List UInt8) : Result (List (Row F)) :=
  each_row fmt (fun row => .ok [row]) (file.length + 1) file 0

/-! ## The join -/

def partition_rows (key_col k : ℕ) : List (Row F) → List (List UInt8) → Result (List (List UInt8))
  | [], writers => .ok writers
  | row :: rows, writers => do
    let key ← debug_key rt row key_col
    partition_rows key_col k rows
      (writers.modify ((hash_str key).toNat % k) (· ++ write_row fmt row))

/-- One pair of files. -/
def join_bucket (left_key_col right_key_col : ℕ) (files : List UInt8 × List UInt8) :
    Result (List (Row F)) := do
  let right_bucket ← into_rows fmt files.2
  if right_bucket.isEmpty then .ok []
  else
    let hash ← build_hash rt right_key_col right_bucket fun _ => []
    each_row fmt (fun left_row => do
      let key ← debug_key rt left_row left_key_col
      .ok ((hash key).map (left_row ++ ·))) (files.1.length + 1) files.1 0

def partition_hash_join (left_rows : List (Row F)) (left_key_col : ℕ)
    (right_rows : List (Row F)) (right_key_col : ℕ) : Result (List (Row F)) := do
  let k := min (max (right_rows.length / HASH_JOIN_SPILL_THRESHOLD + 1) 2) 256
  let left_files ← partition_rows fmt rt left_key_col k left_rows (replicate k [])
  let right_files ← partition_rows fmt rt right_key_col k right_rows (replicate k [])
  collect (join_bucket fmt rt left_key_col right_key_col) (left_files.zip right_files)

/-! ## What is written is read back -/

/-- The row fits the format. -/
def Fits (row : Row F) : Prop :=
  row.length < 2 ^ 32 ∧ ∀ s, .Text s ∈ row → (into_bytes s.toList).length < 2 ^ 32

variable {fmt rt}

theorem reads_tagged {tag : ℕ} {bs : List UInt8} {v : Value F} (htag : tag < 256)
    (h : Reads (read_payload fmt tag) bs v) : Reads (read_value fmt) (le_bytes 1 tag ++ bs) v :=
  (reads_le (by simpa using htag)).bind h

theorem reads_value {v : Value F} (h : ∀ s, v = .Text s → (into_bytes s.toList).length < 2 ^ 32) :
    Reads (read_value fmt) (write_value fmt v) v := by
  cases v with
  | Null =>
    have hpayload : Reads (read_payload fmt 0) [] .Null := reads_pure _
    exact reads_tagged (by decide) hpayload
  | Bool b =>
    have hb : Reads (le 1) (le_bytes 1 b.toNat) b.toNat := reads_le (by cases b <;> decide)
    have hpayload : Reads (read_payload fmt 1) (le_bytes 1 b.toNat) (.Bool (b.toNat != 0)) :=
      hb.map
    cases b <;> exact reads_tagged (by decide) hpayload
  | Int64 n =>
    have hn : Reads (le 8) (le_bytes 8 n.toUInt64.toNat) n.toUInt64.toNat :=
      reads_le n.toUInt64.toNat_lt
    have hpayload : Reads (read_payload fmt 2) (le_bytes 8 n.toUInt64.toNat)
        (.Int64 (UInt64.ofNat n.toUInt64.toNat).toInt64) := hn.map
    rw [UInt64.ofNat_toNat, Int64.toInt64_toUInt64] at hpayload
    exact reads_tagged (by decide) hpayload
  | Float64 f =>
    have hn : Reads (le 8) (le_bytes 8 (fmt.to_bits f).toNat) (fmt.to_bits f).toNat :=
      reads_le (fmt.to_bits f).toNat_lt
    have hpayload : Reads (read_payload fmt 3) (le_bytes 8 (fmt.to_bits f).toNat)
        (.Float64 (fmt.of_bits (UInt64.ofNat (fmt.to_bits f).toNat))) := hn.map
    rw [UInt64.ofNat_toNat, fmt.of_bits_to_bits] at hpayload
    exact reads_tagged (by decide) hpayload
  | Text s =>
    have hbytes : Reads (take (into_bytes s.toList).length) (into_bytes s.toList)
        (into_bytes s.toList) := reads_take _
    have hpayload : Reads (read_payload fmt 4)
        (le_bytes 4 (into_bytes s.toList).length ++ into_bytes s.toList)
        (.Text (String.ofList (fmt.from_utf8_lossy (into_bytes s.toList)))) :=
      (reads_le (h s rfl)).bind hbytes.map
    rw [fmt.lossy_into_bytes, String.ofList_toList] at hpayload
    exact reads_tagged (by decide) hpayload

theorem reads_columns (h : Fits row) : Reads (read_columns fmt) (write_row fmt row) row :=
  (reads_le h.1).bind (reads_many fun _ hv => reads_value fun s hs => h.2 s (hs ▸ hv))

/-- A file that holds a row at the position of the reader. -/
theorem read_row_written (h : Fits row) (front rest : List UInt8) :
    read_row fmt (front ++ (write_row fmt row ++ rest)) front.length =
      some (some row, front.length + (write_row fmt row).length) := by
  have hlen : 4 ≤ (write_row fmt row).length := by simp [write_row]
  rw [read_row, if_pos (by simp only [length_append]; omega)]
  exact (reads_columns h).map front rest

theorem each_row_written (h : ∀ row ∈ rows, Fits row) (front : List UInt8) {fuel : ℕ}
    (hfuel : rows.length < fuel) :
    each_row fmt body fuel (front ++ rows.flatMap (write_row fmt)) front.length =
      collect body rows := by
  induction rows generalizing front fuel with
  | nil =>
    obtain ⟨fuel, rfl⟩ := Nat.exists_eq_add_one_of_ne_zero (Nat.ne_zero_of_lt hfuel)
    simp [each_row, read_row, collect]
  | cons row rows ih =>
    obtain ⟨fuel, rfl⟩ := Nat.exists_eq_add_one_of_ne_zero (Nat.ne_zero_of_lt hfuel)
    obtain ⟨hrow, hrows⟩ := forall_mem_cons.mp h
    have hrest := @ih hrows (front ++ write_row fmt row) fuel (Nat.lt_of_succ_lt_succ hfuel)
    rw [append_assoc, length_append] at hrest
    rw [each_row, flatMap_cons, read_row_written hrow]
    simp only [hrest, collect]

theorem length_le_flatMap_write (rows : List (Row F)) :
    rows.length ≤ (rows.flatMap (write_row fmt)).length := by
  induction rows with
  | nil => simp
  | cons row rows ih =>
    have hrow : 4 ≤ (write_row fmt row).length := by simp [write_row]
    rw [flatMap_cons, length_append, length_cons]
    omega

theorem each_row_file (h : ∀ row ∈ rows, Fits row) :
    each_row fmt body ((rows.flatMap (write_row fmt)).length + 1) (rows.flatMap (write_row fmt)) 0 =
      collect body rows :=
  each_row_written body h [] (Nat.lt_succ_of_le (length_le_flatMap_write rows))

theorem into_rows_written (h : ∀ row ∈ rows, Fits row) :
    into_rows fmt (rows.flatMap (write_row fmt)) = .ok rows := by
  rw [into_rows, each_row_file _ h, collect_ok (g := fun row => [row]) fun _ _ => rfl,
    flatMap_singleton']

/-! ## The join through the files -/

theorem collect_map {β γ : Type} {f : β → Result (List γ)} {f' : α → Result (List γ)} {g : α → β}
    {l : List α} (h : ∀ x ∈ l, f (g x) = f' x) : collect f (l.map g) = collect f' l := by
  induction l with
  | nil => rfl
  | cons x l ih =>
    obtain ⟨hx, hl⟩ := forall_mem_cons.mp h
    rw [map_cons, collect, collect, hx, ih hl]

theorem map_modify {β : Type} {g : α → β} {f : α → α} {f' : β → β} (h : ∀ x, f' (g x) = g (f x))
    (l : List α) (i : ℕ) : (l.map g).modify i f' = (l.modify i f).map g := by
  apply ext_getElem (by simp)
  intro j _ _
  simp only [getElem_modify, getElem_map, h, apply_ite g]

theorem partition_rows_eq (key_col k : ℕ) (rows : List (Row F)) (writers : List (List (Row F))) :
    partition_rows fmt rt key_col k rows (writers.map (flatMap (write_row fmt))) =
      (Sql.partition_rows rt key_col k rows writers).map (List.map (flatMap (write_row fmt))) := by
  induction rows generalizing writers with
  | nil => rfl
  | cons row rows ih =>
    rw [partition_rows, Sql.partition_rows]
    cases debug_key rt row key_col with
    | error _ => rfl
    | ok key =>
      change partition_rows fmt rt key_col k rows _ = (Sql.partition_rows rt key_col k rows _).map _
      rw [← ih, map_modify (f := (· ++ [row])) fun file => by simp]

theorem mem_partition_rows {key_col k : ℕ} {writers files : List (List (Row F))}
    (h : Sql.partition_rows rt key_col k rows writers = .ok files) :
    ∀ file ∈ files, ∀ row ∈ file, row ∈ rows ∨ ∃ w ∈ writers, row ∈ w := by
  induction rows generalizing writers with
  | nil =>
    obtain rfl : writers = files := Except.ok.inj h
    intro file hfile row hrow
    exact .inr ⟨file, hfile, hrow⟩
  | cons r rows ih =>
    obtain ⟨key, -, h⟩ := bind_ok h
    intro file hfile row hrow
    rcases ih h file hfile row hrow with hmem | ⟨w, hw, hmem⟩
    · exact .inl (mem_cons_of_mem _ hmem)
    · obtain ⟨i, hi, rfl⟩ := getElem_of_mem hw
      rw [getElem_modify] at hmem
      have hi' : i < writers.length := by simpa using hi
      split at hmem
      · rcases mem_append.mp hmem with hold | hnew
        · exact .inr ⟨_, getElem_mem hi', hold⟩
        · exact .inl (by simpa using .inl (mem_singleton.mp hnew))
      · exact .inr ⟨_, getElem_mem hi', hmem⟩

theorem join_bucket_written {left_key_col right_key_col : ℕ} {left right : List (Row F)}
    (hl : ∀ row ∈ left, Fits row) (hr : ∀ row ∈ right, Fits row) :
    join_bucket fmt rt left_key_col right_key_col
        (left.flatMap (write_row fmt), right.flatMap (write_row fmt)) =
      if right.isEmpty then .ok [] else hash_join rt left left_key_col right right_key_col := by
  rw [join_bucket, into_rows_written hr]
  simp only [each_row_file _ hl]
  rfl

theorem partition_hash_join_eq {left_rows right_rows : List (Row F)} (left_key_col right_key_col : ℕ)
    (hl : ∀ row ∈ left_rows, Fits row) (hr : ∀ row ∈ right_rows, Fits row) :
    partition_hash_join fmt rt left_rows left_key_col right_rows right_key_col =
      Sql.partition_hash_join rt left_rows left_key_col right_rows right_key_col := by
  unfold partition_hash_join Sql.partition_hash_join
  dsimp only
  generalize min (max (right_rows.length / HASH_JOIN_SPILL_THRESHOLD + 1) 2) 256 = k
  have hnew : (replicate k [] : List (List UInt8)) =
      (replicate k ([] : List (Row F))).map (flatMap (write_row fmt)) := by simp
  rw [hnew, partition_rows_eq, partition_rows_eq]
  cases hleft : Sql.partition_rows rt left_key_col k left_rows (replicate k []) with
  | error _ => rfl
  | ok left_files =>
    cases hright : Sql.partition_rows rt right_key_col k right_rows (replicate k []) with
    | error _ => rfl
    | ok right_files =>
      have hfits : ∀ {col : ℕ} {rows : List (Row F)} {files : List (List (Row F))},
          (∀ row ∈ rows, Fits row) →
          Sql.partition_rows rt col k rows (replicate k []) = .ok files →
          ∀ file ∈ files, ∀ row ∈ file, Fits row := by
        intro col rows files hrows hfiles file hfile row hrow
        rcases mem_partition_rows hfiles file hfile row hrow with hmem | ⟨w, hw, hmem⟩
        · exact hrows row hmem
        · simp [eq_of_mem_replicate hw] at hmem
      change collect _ (zip (List.map _ _) (List.map _ _)) = collect _ (zip _ _)
      rw [zip_map]
      refine collect_map fun files hfiles => ?_
      obtain ⟨hfl, hfr⟩ := of_mem_zip hfiles
      exact join_bucket_written (hfits hl hleft _ hfl) (hfits hr hright _ hfr)

/-! ## Key columns that a row does not have -/

section Short

variable {rows : List (Row F)} {col : ℕ}

theorem lt_of_debug_key {row : Row F} {key : String} (h : debug_key rt row col = .ok key) :
    col < row.length := by
  by_contra hlt
  rw [debug_key, index, getElem?_eq_none (not_lt.mp hlt)] at h
  cases h

theorem lt_of_build_hash {hash hash' : String → List (Row F)}
    (h : build_hash rt col rows hash = .ok hash') : ∀ row ∈ rows, col < row.length := by
  induction rows generalizing hash with
  | nil => simp
  | cons row rows ih =>
    obtain ⟨key, hkey, h⟩ := bind_ok h
    exact forall_mem_cons.mpr ⟨lt_of_debug_key hkey, ih h⟩

theorem lt_of_partition_rows {k : ℕ} {writers files : List (List (Row F))}
    (h : Sql.partition_rows rt col k rows writers = .ok files) :
    ∀ row ∈ rows, col < row.length := by
  induction rows generalizing writers with
  | nil => simp
  | cons row rows ih =>
    obtain ⟨key, hkey, h⟩ := bind_ok h
    exact forall_mem_cons.mpr ⟨lt_of_debug_key hkey, ih h⟩

variable {left_rows right_rows out : List (Row F)}

theorem lt_of_hash_join {li ri : ℕ} (h : hash_join rt left_rows li right_rows ri = .ok out) :
    (∀ row ∈ left_rows, li < row.length) ∧ ∀ row ∈ right_rows, ri < row.length := by
  obtain ⟨hash, hhash, h⟩ := bind_ok h
  refine ⟨fun row hrow => ?_, lt_of_build_hash hhash⟩
  obtain ⟨o, ho⟩ := ok_of_collect h row hrow
  obtain ⟨key, hkey, -⟩ := bind_ok ho
  exact lt_of_debug_key hkey

theorem lt_of_partition_hash_join {li ri : ℕ}
    (h : Sql.partition_hash_join rt left_rows li right_rows ri = .ok out) :
    (∀ row ∈ left_rows, li < row.length) ∧ ∀ row ∈ right_rows, ri < row.length := by
  obtain ⟨left_files, hleft, h⟩ := bind_ok h
  obtain ⟨right_files, hright, -⟩ := bind_ok h
  exact ⟨lt_of_partition_rows hleft, lt_of_partition_rows hright⟩

end Short

theorem panic_of_noErr {x : Result α} (h : NoErr x) (hok : ∀ a, x ≠ .ok a) : x = .error .panic := by
  match x with
  | .ok a => exact absurd rfl (hok a)
  | .error (.Err e) => exact absurd rfl (h e)
  | .error .panic => rfl

/-- With rows that fit the format, the partitioned join returns the rows of the in-memory hash
join in some order; where a row lacks its key column, both panic. -/
theorem partition_hash_join_perm (fmt : Format F) (rt : Runtime F)
    {left_rows right_rows : List (Row F)} (li ri : ℕ) (hl : ∀ row ∈ left_rows, Fits row)
    (hr : ∀ row ∈ right_rows, Fits row) :
    (∃ rows joined, partition_hash_join fmt rt left_rows li right_rows ri = .ok rows ∧
      hash_join rt left_rows li right_rows ri = .ok joined ∧ rows.Perm joined) ∨
    (partition_hash_join fmt rt left_rows li right_rows ri = .error .panic ∧
      hash_join rt left_rows li right_rows ri = .error .panic) := by
  rw [partition_hash_join_eq li ri hl hr]
  by_cases hlong : (∀ row ∈ left_rows, li < row.length) ∧ ∀ row ∈ right_rows, ri < row.length
  · obtain ⟨rows, hrows, hperm⟩ := @partition_hash_join_ok F rt _ _ _ _ hlong.1 hlong.2
    exact .inl ⟨rows, _, hrows, hash_join_ok hlong.1 hlong.2, hperm⟩
  · refine .inr ⟨panic_of_noErr (NoErr.partition_hash_join _ _ _ _) fun out h => hlong ?_,
      panic_of_noErr (NoErr.hash_join _ _ _ _) fun out h => hlong ?_⟩
    · exact lt_of_partition_hash_join h
    · exact lt_of_hash_join h

/-! ## Floats as bit patterns -/

def bits_format : Format UInt64 where
  to_bits f := f
  of_bits n := n
  from_utf8_lossy bytes := (from_utf8 bytes).getD []
  of_bits_to_bits _ := rfl
  lossy_into_bytes s := by rw [from_utf8_into_bytes]; rfl

/-- A runtime over bit patterns; a join needs only the `Debug` text of it. -/
def bits_runtime : Runtime UInt64 where
  overflow_checks := true
  of_i64 n := n.toUInt64
  of_usize n := n.toUInt64
  zero := 0
  one := 1
  tenth := 0
  max_value := 0
  add _ _ := 0
  sub _ _ := 0
  mul _ _ := 0
  div _ _ := 0
  rem _ _ := 0
  neg f := f
  max f _ := f
  partial_cmp _ _ := none
  eq f g := f == g
  lt _ _ := false
  to_lowercase s := s
  to_uppercase s := s
  fmt_debug v := toString (repr v)
  json_binop _ _ _ := execution "not a JSON text"
  depth := 0
  edges _ := []
  pagerank _ _ := none

theorem partition_hash_join_perm_demo :
    let left : List (Row UInt64) := [[.Null], [.Text "a"]]
    let right : List (Row UInt64) := [[.Text "a", .Float64 7], [.Int64 1, .Bool true]]
    (∃ rows joined, partition_hash_join bits_format bits_runtime left 0 right 0 = .ok rows ∧
      hash_join bits_runtime left 0 right 0 = .ok joined ∧ rows.Perm joined) ∨
    (partition_hash_join bits_format bits_runtime left 0 right 0 = .error .panic ∧
      hash_join bits_runtime left 0 right 0 = .error .panic) := by
  have hfits : (into_bytes ['a']).length < 4294967296 := by decide +kernel
  refine partition_hash_join_perm bits_format bits_runtime 0 0 ?_ ?_ <;>
    simp [Fits, hfits]

/-- A count of 2^32 columns is written as 0, and a row without columns is read back. -/
theorem read_wide_row (h : row.length = 2 ^ 32) :
    read_row fmt (write_row fmt row) 0 = some (some [], 4) := by
  have hcount : le_bytes 4 (2 ^ 32) = le_bytes 4 0 := by decide
  have hcolumns : Reads (read_columns fmt) (le_bytes 4 0 ++ []) [] :=
    (reads_le (by decide)).bind (reads_pure [])
  rw [write_row, h, hcount, read_row, if_pos (by simp)]
  exact hcolumns.map.run _

theorem join_wide_row {left : List UInt8} (h : row.length = 2 ^ 32) (li ri : ℕ)
    (out : List (Row F)) : join_bucket fmt rt li ri (left, write_row fmt row) ≠ .ok out := by
  intro hok
  obtain ⟨bucket, hbucket, hok⟩ := bind_ok hok
  rw [into_rows, each_row, read_wide_row h] at hbucket
  obtain ⟨out', hout, hbucket⟩ := bind_ok hbucket
  obtain ⟨rest, -, hbucket⟩ := bind_ok hbucket
  obtain rfl : [[]] = out' := Except.ok.inj hout
  obtain rfl : [] :: rest = bucket := Except.ok.inj hbucket
  obtain ⟨hash, hhash, -⟩ := bind_ok hok
  exact absurd (lt_of_build_hash hhash [] mem_cons_self) (Nat.not_lt_zero _)

/-- A row of 2^32 columns is joined in memory and lost on the way through the files. -/
theorem wide_row_lost :
    let wide : Row UInt64 := replicate (2 ^ 32) .Null
    hash_join bits_runtime [wide] 0 [wide] 0 = .ok [wide ++ wide] ∧
      ∀ rows, partition_hash_join bits_format bits_runtime [wide] 0 [wide] 0 ≠ .ok rows := by
  intro wide
  have hlen : wide.length = 2 ^ 32 := length_replicate
  clear_value wide
  have hlt : ∀ row ∈ [wide], 0 < row.length := by simp [hlen]
  refine ⟨?_, fun rows hok => ?_⟩
  · rw [hash_join_ok hlt hlt]
    simp [same_key]
  · have hfiles : partition_rows bits_format bits_runtime 0 2 [wide] (replicate 2 []) =
        .ok ((range 2).map fun b => ([wide].filter fun r =>
          bucket bits_runtime 0 2 r = b).flatMap (write_row bits_format)) := by
      have heq := @partition_rows_eq _ bits_format bits_runtime 0 2 [wide] (replicate 2 [])
      rw [partition_rows_new hlt] at heq
      simpa [Except.map, Function.comp_def] using heq
    have hk : min (max ([wide].length / HASH_JOIN_SPILL_THRESHOLD + 1) 2) 256 = 2 := by
      simp [HASH_JOIN_SPILL_THRESHOLD]
    rw [partition_hash_join, hk] at hok
    obtain ⟨left_files, hleft, hok⟩ := bind_ok hok
    obtain ⟨right_files, hright, hok⟩ := bind_ok hok
    obtain rfl := Except.ok.inj (hfiles.symm.trans hleft)
    obtain rfl := Except.ok.inj (hfiles.symm.trans hright)
    rw [zip_map'] at hok
    obtain ⟨o, ho⟩ := ok_of_collect hok _ (mem_map.mpr
      ⟨bucket bits_runtime 0 2 wide, mem_range.mpr (Nat.mod_lt _ two_pos), rfl⟩)
    have hbucket : ([wide].filter fun r => bucket bits_runtime 0 2 r =
        bucket bits_runtime 0 2 wide) = [wide] := by simp
    rw [hbucket, flatMap_singleton] at ho
    exact join_wide_row hlen 0 0 o ho

end Oigrap.Sql.Spill

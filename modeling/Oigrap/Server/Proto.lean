/-
`crates/server/src/proto.rs`: reading the messages a client sends.

The readers take defaults where the payload is too short: a missing count is zero, a
missing parameter length is `-1` (NULL), a string without its NUL ends with the payload.
The one access without a check is the slice that takes the bytes of a `Bind` parameter.
A reader here is a `Cursor`, whose `none` is the panic of an access out of range.

`Overruns` describes the payloads on which that slice panics, in terms of the encoding and
not of the readers. The main results are that these are the only payloads that panic and
that `Parse` and `Bind` messages are read back as they were encoded.
-/
import Mathlib
import Oigrap.Lib.Cursor
import Oigrap.Lib.Utf8

namespace Oigrap.Server

open List hiding take
open Option (bind_some some some_ne_none)
open Cursor

inductive FrontendMsg where
  | Query (sql : Text)
  | Parse (name query : Text) (param_types : List ℕ)
  | Bind (portal statement : Text) (param_formats : List ℤ)
      (params : List (Option (List UInt8))) (result_formats : List ℤ)
  | Execute (portal : Text) (max_rows : ℕ)
  | Describe (kind : UInt8) (name : Text)
  | Sync
  | Flush
  | Close (kind : UInt8) (name : Text)
  | Terminate
  | CopyData (data : List UInt8)
  | CopyDone
  | CopyFail (reason : Text)
  | PasswordMessage (password : Text)
  deriving DecidableEq

/-! ## Helpers -/

/-- `str::from_utf8(bytes).unwrap_or("")`. -/
def text_or_empty (bytes : List UInt8) : Text := (from_utf8 bytes).getD []

/-- The slice is out of range exactly when the position already is. -/
def read_cstr : Cursor Text := fun data pos =>
  if pos ≤ data.length then
    let bytes := (data.drop pos).takeWhile (· ≠ 0)
    let stop := pos + bytes.length
    some (text_or_empty bytes, if stop < data.length then stop + 1 else stop)
  else none

variable (payload : List UInt8) (msg : UInt8 → Text → FrontendMsg) (msg_type : UInt8)

def cstr_from_payload : Text :=
  text_or_empty (payload.takeWhile (· ≠ 0))

/-- An integer of `w` bytes, or the given default without moving when too few are left. -/
def read_or (w : ℕ) (default : ℤ) (value : ℕ → ℤ) : Cursor ℤ := fun data pos =>
  if data.length < pos + w then some (default, pos)
  else some (value (be_nat ((data.drop pos).take w)), pos + w)

def read_u16 : Cursor ℕ := Int.toNat <$> read_or 2 0 (fun n => n)

def read_i16 : Cursor ℤ := read_or 2 0 (fun n => (n : ℤ).bmod (2 ^ 16))

def read_i32 : Cursor ℤ := read_or 4 (-1) (fun n => (n : ℤ).bmod (2 ^ 32))

/-! ## `parse_frontend_message` -/

/-- The count of `Parse`: the position moves even where it is missing. -/
def read_type_count : Cursor ℕ := fun data pos =>
  some (if pos + 2 ≤ data.length then be_nat ((data.drop pos).take 2) else 0, pos + 2)

/-- A parameter type, skipped where it is missing. -/
def read_type : Cursor (Option ℕ) := fun data pos =>
  if pos + 4 ≤ data.length then some (some (be_nat ((data.drop pos).take 4)), pos + 4)
  else some (none, pos)

def read_parse : Cursor FrontendMsg := do
  let name ← read_cstr
  let query ← read_cstr
  let nparams ← read_type_count
  let param_types ← many read_type nparams
  return .Parse name query param_types.reduceOption

/-- One parameter of `Bind`; `take` is the unchecked slice. -/
def read_param : Cursor (Option (List UInt8)) := do
  let plen ← read_i32
  if plen < 0 then return none
  else
    let bytes ← take plen.toNat
    return some bytes

/-- What `Bind` reads before its parameters, with their count last. -/
def read_bind_header : Cursor (Text × Text × List ℤ × ℕ) := do
  let portal ← read_cstr
  let statement ← read_cstr
  let nfmt ← read_u16
  let param_formats ← many read_i16 nfmt
  let nparams ← read_u16
  return (portal, statement, param_formats, nparams)

def read_result_formats : Cursor (List ℤ) := do
  let nresult ← read_u16
  many read_i16 nresult

def read_bind : Cursor FrontendMsg := do
  let (portal, statement, param_formats, nparams) ← read_bind_header
  let params ← many read_param nparams
  let result_formats ← read_result_formats
  return .Bind portal statement param_formats params result_formats

def read_execute : Cursor FrontendMsg := do
  let portal ← read_cstr
  let max_rows ← read_or 4 0 (fun n => n)
  return .Execute portal max_rows.toNat

/-- `Describe` and `Close`: a kind byte and a name. -/
def read_kind_and_name (payload : List UInt8) :
    Option FrontendMsg :=
  match payload with
  | [] => some (msg 0 [])
  | kind :: _ => (read_cstr payload 1).map fun r => msg kind r.1

/-- `none` is a panic; the error is the text of the `InvalidData` error. -/
def parse_frontend_message (payload : List UInt8) :
    Option (Except Text FrontendMsg) :=
  let whole (r : Cursor FrontendMsg) := (r payload 0).map fun p => .ok p.1
  match Char.ofUInt8 msg_type with
  | 'Q' => some (.ok (.Query (cstr_from_payload payload)))
  | 'P' => whole read_parse
  | 'B' => whole read_bind
  | 'E' => whole read_execute
  | 'D' => (read_kind_and_name .Describe payload).map .ok
  | 'S' => some (.ok .Sync)
  | 'H' => some (.ok .Flush)
  | 'C' => (read_kind_and_name .Close payload).map .ok
  | 'X' => some (.ok .Terminate)
  | 'p' => some (.ok (.PasswordMessage (cstr_from_payload payload)))
  | 'd' => some (.ok (.CopyData payload))
  | 'c' => some (.ok .CopyDone)
  | 'f' => some (.ok (.CopyFail (cstr_from_payload payload)))
  | other => some (.error ("unknown frontend message type: ".toList ++ [other]))

/-! ## Readers with defaults do not panic -/

/-- The position is inside the payload or at its end. -/
def Inside (data : List UInt8) (pos : ℕ) : Prop := pos ≤ data.length

def Anywhere (_ : List UInt8) (_ : ℕ) : Prop := True

variable {data : List UInt8} {pos v : ℕ}

theorem read_cstr_cases (h : pos ≤ data.length) :
    ∃ bytes pos', read_cstr data pos = some (text_or_empty bytes, pos') ∧ 0 ∉ bytes ∧
      (pos' = data.length ∨ pos' ≤ data.length ∧ data.drop pos = bytes ++ 0 :: data.drop pos') := by
  obtain ⟨bytes, hb⟩ : ∃ bytes, (data.drop pos).takeWhile (· ≠ 0) = bytes := ⟨_, rfl⟩
  have h0 : 0 ∉ bytes := fun hm => by
    rw [← hb] at hm
    simpa using mem_takeWhile_imp hm
  have hsplit : data.drop pos = bytes ++ (data.drop pos).dropWhile (· ≠ 0) := by
    rw [← hb, takeWhile_append_dropWhile]
  have hlen := congrArg List.length hsplit
  rw [length_append, length_drop] at hlen
  refine ⟨bytes, _, by rw [read_cstr, if_pos h, hb], h0, ?_⟩
  cases htail : (data.drop pos).dropWhile (· ≠ 0) with
  | nil =>
    rw [htail, length_nil] at hlen
    exact .inl (by rw [if_neg (by omega)]; omega)
  | cons b tail =>
    rw [htail, length_cons] at hlen
    have hzero : b = 0 := by
      have hhead := head?_dropWhile_not (· ≠ 0) (data.drop pos)
      rw [htail] at hhead
      simpa using hhead
    subst hzero
    rw [if_pos (by omega)]
    refine .inr ⟨by omega, ?_⟩
    have hdrop : data.drop (pos + bytes.length + 1) = tail := by
      rw [add_assoc, ← drop_drop, hsplit, htail]
      simp
    rwa [hdrop, ← htail]

theorem read_cstr_safe : Safe Inside Inside read_cstr := by
  intro data pos hpos
  obtain ⟨bytes, pos', hread, -, hend⟩ := read_cstr_cases hpos
  exact ⟨_, pos', hread, hend.elim (fun h => h.le) (·.1)⟩

theorem read_or_safe (w : ℕ) (d : ℤ) (value : ℕ → ℤ) : Safe Inside Inside (read_or w d value) := by
  intro data pos hpos
  unfold read_or
  split
  · exact ⟨_, _, rfl, hpos⟩
  · exact ⟨_, _, rfl, by unfold Inside; omega⟩

theorem read_bind_header_safe : Safe Inside Inside read_bind_header :=
  read_cstr_safe.bind fun _ => read_cstr_safe.bind fun _ => (read_or_safe 2 0 _).map.bind fun _ =>
    ((read_or_safe 2 0 _).many _).bind fun _ => (read_or_safe 2 0 _).map.bind fun _ => safe_pure _

theorem read_or_total (w : ℕ) (d : ℤ) (value : ℕ → ℤ) :
    Safe Anywhere Anywhere (read_or w d value) := by
  intro data pos _
  unfold read_or
  split <;> exact ⟨_, _, rfl, trivial⟩

theorem read_result_formats_total : Safe Anywhere Anywhere read_result_formats :=
  (read_or_total 2 0 _).map.bind fun _ => (read_or_total 2 0 _).many _

theorem read_execute_safe : Safe Inside Inside read_execute :=
  read_cstr_safe.bind fun _ => (read_or_safe 4 0 _).bind fun _ => safe_pure _

/-- The count of `Parse` may leave the position behind the end, where types are skipped. -/
theorem read_parse_safe : Safe Inside Anywhere read_parse := by
  have hcount : Safe Inside Anywhere read_type_count := fun _ _ _ => ⟨_, _, rfl, trivial⟩
  have htype : Safe Anywhere Anywhere read_type := by
    intro data pos _
    unfold read_type
    split <;> exact ⟨_, _, rfl, trivial⟩
  exact read_cstr_safe.bind fun _ => read_cstr_safe.bind fun _ => hcount.bind fun _ =>
    (htype.many _).bind fun _ => safe_pure _

theorem read_kind_and_name_safe (payload : List UInt8) : read_kind_and_name msg payload ≠ none := by
  cases payload with
  | nil => exact some_ne_none _
  | cons kind payload =>
    obtain ⟨x, pos, hx, -⟩ := read_cstr_safe (kind :: payload) 1 (by simp [Inside])
    rw [read_kind_and_name, hx]
    exact some_ne_none _

/-! ## What stands in the payload

Each reader with a default has two outcomes: the bytes of a value stand at the position, or
the payload is too short. -/

theorem read_or_short {w : ℕ} {d : ℤ} {value : ℕ → ℤ} (h : data.length < pos + w) :
    read_or w d value data pos = some (d, pos) := if_pos h

theorem reads_read_or {w : ℕ} (d : ℤ) (value : ℕ → ℤ) (h : v < 256 ^ w) :
    Reads (read_or w d value) (be_bytes w v) (value v) := by
  intro front rest
  have htake := @take_left _ (be_bytes w v) rest
  rw [length_be_bytes] at htake
  rw [read_or, if_neg (by simp only [length_append, length_be_bytes]; omega),
    drop_left, htake, be_nat_be_bytes h, length_be_bytes]

theorem drop_eq_be_bytes {w : ℕ} (h : pos + w ≤ data.length) :
    ∃ v < 256 ^ w, data.drop pos = be_bytes w v ++ data.drop (pos + w) := by
  have hlen : ((data.drop pos).take w).length = w := by
    rw [length_take, length_drop]
    omega
  refine ⟨be_nat ((data.drop pos).take w), ?_, ?_⟩
  · have hlt := be_nat_lt ((data.drop pos).take w)
    rwa [hlen] at hlt
  · have hbytes := be_bytes_be_nat ((data.drop pos).take w)
    rw [hlen] at hbytes
    rw [hbytes, ← drop_drop, take_append_drop]

/-- A reader that finds a value where the payload is cut in two. -/
theorem Reads.at {α : Type} {r : Cursor α} {bs rest : List UInt8} {x : α} (h : Reads r bs x)
    (hpos : pos ≤ data.length) (hdata : data.drop pos = bs ++ rest) :
    r data pos = some (x, pos + bs.length) := by
  have hlen : (data.take pos).length = pos := by rw [length_take]; omega
  have hrun := h (data.take pos) rest
  rwa [← hdata, take_append_drop, hlen] at hrun

theorem reads_read_cstr {bytes : List UInt8} (h : 0 ∉ bytes) :
    Reads read_cstr (bytes ++ [0]) (text_or_empty bytes) := by
  intro front rest
  have hbytes : ((bytes ++ [0]) ++ rest).takeWhile (· ≠ 0) = bytes := by
    rw [append_assoc, takeWhile_append_of_pos (by simpa using fun b hb => ne_of_mem_of_not_mem hb h)]
    simp
  rw [read_cstr, if_pos (by simp), drop_left]
  simp only [hbytes]
  rw [if_pos (by simp only [length_append, length_singleton]; omega)]
  simp [add_assoc]

/-! ## The parameters of `Bind` -/

/-- A parameter as it may stand in a payload: any negative length, or a length and that many
bytes. -/
def IsParam (block : List UInt8) : Prop :=
  (∃ v, 2 ^ 31 ≤ v ∧ v < 2 ^ 32 ∧ block = be_bytes 4 v) ∨
    ∃ bytes : List UInt8, bytes.length < 2 ^ 31 ∧ block = be_bytes 4 bytes.length ++ bytes

/-- A length with fewer bytes behind it. -/
def CutShort (tail : List UInt8) : Prop :=
  ∃ len rest, rest.length < len ∧ len < 2 ^ 31 ∧ tail = be_bytes 4 len ++ rest

theorem bmod_of_lt (h : v < 2 ^ 31) : (v : ℤ).bmod (2 ^ 32) = v := by
  rw [Int.bmod_eq_of_le] <;> omega

theorem bmod_of_ge (h : 2 ^ 31 ≤ v) (h' : v < 2 ^ 32) : (v : ℤ).bmod (2 ^ 32) < 0 := by
  rw [Int.bmod_def]
  omega

theorem reads_read_i32 (h : v < 2 ^ 32) : Reads read_i32 (be_bytes 4 v) ((v : ℤ).bmod (2 ^ 32)) :=
  reads_read_or (-1) _ (by omega)

theorem reads_null (h : 2 ^ 31 ≤ v) (h' : v < 2 ^ 32) : Reads read_param (be_bytes 4 v) none := by
  rw [← append_nil (be_bytes 4 v)]
  refine (reads_read_i32 h').bind ?_
  rw [if_pos (bmod_of_ge h h')]
  exact reads_pure none

theorem reads_value {bytes : List UInt8} (h : bytes.length < 2 ^ 31) :
    Reads read_param (be_bytes 4 bytes.length ++ bytes) (some bytes) := by
  refine (reads_read_i32 (by omega)).bind ?_
  rw [bmod_of_lt h, if_neg (by omega), Int.toNat_natCast, ← append_nil bytes]
  simpa using (reads_take bytes).bind (f := fun bs => pure (some bs)) (reads_pure (some bytes))

theorem IsParam.reads {block : List UInt8} (h : IsParam block) : ∃ x, Reads read_param block x := by
  obtain ⟨v, hv, hv', rfl⟩ | ⟨bytes, hb, rfl⟩ := h
  · exact ⟨none, reads_null hv hv'⟩
  · exact ⟨some bytes, reads_value hb⟩

theorem read_param_cutShort (hpos : pos ≤ data.length) (h : CutShort (data.drop pos)) :
    read_param data pos = none := by
  obtain ⟨len, rest, hrest, hlen, hdata⟩ := h
  have hsize := congrArg List.length hdata
  rw [length_drop, length_append, length_be_bytes] at hsize
  rw [read_param, bind_apply, Reads.at (reads_read_i32 (by omega)) hpos hdata, bmod_of_lt hlen,
    length_be_bytes]
  rw [bind_some, if_neg (by omega), Int.toNat_natCast, bind_apply, take, if_neg (by omega)]
  rfl

/-- What a parameter read does: it panics on a length cut short, it takes a whole parameter,
or less than a length is left and the parameter is NULL. -/
theorem read_param_cases (hpos : pos ≤ data.length) : CutShort (data.drop pos) ∨
      (∃ block x, IsParam block ∧ pos + block.length ≤ data.length ∧
        data.drop pos = block ++ data.drop (pos + block.length) ∧
        read_param data pos = some (x, pos + block.length)) ∨
      (data.length < pos + 4 ∧ read_param data pos = some (none, pos)) := by
  by_cases hshort : data.length < pos + 4
  · refine .inr (.inr ⟨hshort, ?_⟩)
    rw [read_param, bind_apply, read_i32, read_or_short hshort]
    rfl
  obtain ⟨v, hv, hdata⟩ := drop_eq_be_bytes (w := 4) (not_lt.1 hshort)
  by_cases hneg : 2 ^ 31 ≤ v
  · refine .inr (.inl ⟨be_bytes 4 v, none, .inl ⟨v, hneg, by omega, rfl⟩, ?_, ?_, ?_⟩)
    · rw [length_be_bytes]; omega
    · rw [length_be_bytes]; exact hdata
    · exact Reads.at (reads_null hneg (by omega)) hpos hdata
  by_cases hfit : pos + 4 + v ≤ data.length
  · obtain ⟨bytes, rfl, hrest⟩ : ∃ bytes : List UInt8, bytes.length = v ∧
        data.drop (pos + 4) = bytes ++ data.drop (pos + (4 + v)) := by
      refine ⟨(data.drop (pos + 4)).take v, ?_, ?_⟩
      · rw [length_take, length_drop]
        omega
      · rw [← add_assoc, ← drop_drop (i := v), take_append_drop]
    have hblock : data.drop pos = (be_bytes 4 bytes.length ++ bytes) ++
        data.drop (pos + (be_bytes 4 bytes.length ++ bytes).length) := by
      rwa [length_append, length_be_bytes, append_assoc, ← hrest]
    refine .inr (.inl ⟨_, _, .inr ⟨bytes, by omega, rfl⟩, ?_, hblock,
      Reads.at (reads_value (by omega)) hpos hblock⟩)
    rw [length_append, length_be_bytes]
    omega
  · exact .inl ⟨v, data.drop (pos + 4), by rw [length_drop]; omega, by omega, hdata⟩

/-- Some of the parameters, and then a length cut short. -/
def ParamsCutShort (count : ℕ) (tail : List UInt8) : Prop :=
  ∃ (params : List (List UInt8)) (rest : List UInt8), (∀ block ∈ params, IsParam block)
    ∧ params.length < count ∧ CutShort rest ∧
    tail = params.flatten ++ rest

theorem many_succ_eq_none {α : Type} {r : Cursor α} {count pos' : ℕ} {x : α}
    (h : r data pos = some (x, pos')) :
    many r (count + 1) data pos = none ↔ many r count data pos' = none := by
  rw [many, bind_apply, h, bind_some, bind_apply]
  cases many r count data pos' with
  | none => exact Iff.rfl
  | some p => exact ⟨nofun, nofun⟩

/-- **The parameter loop** panics exactly on a length cut short behind whole parameters. -/
theorem many_read_param_eq_none {count : ℕ} (hpos : pos ≤ data.length) :
    many read_param count data pos = none ↔ ParamsCutShort count (data.drop pos) := by
  induction count generalizing pos with
  | zero => exact ⟨nofun, fun ⟨_, _, _, hlt, _⟩ => absurd hlt (Nat.not_lt_zero _)⟩
  | succ count ih =>
    obtain hcut | ⟨block, x, hblock, hle, hdata, hread⟩ | ⟨hshort, hread⟩ := read_param_cases hpos
    · have hnone := read_param_cutShort hpos hcut
      refine iff_of_true ?_ ⟨[], data.drop pos, nofun, Nat.succ_pos _, hcut, rfl⟩
      rw [many, bind_apply, hnone]
      rfl
    · rw [many_succ_eq_none hread, ih hle]
      constructor
      · rintro ⟨params, rest, hp, hlt, hcut, hrest⟩
        refine ⟨block :: params, rest, forall_mem_cons.2 ⟨hblock, hp⟩,
          Nat.succ_lt_succ hlt, hcut, ?_⟩
        rwa [flatten_cons, append_assoc, ← hrest]
      · rintro ⟨params, rest, hp, hlt, hcut, hrest⟩
        cases params with
        | nil => exact absurd (read_param_cutShort hpos (hrest ▸ hcut)) (hread ▸ nofun)
        | cons p params =>
          -- the reader takes one block from a position, so the first one is `block`
          obtain ⟨hpb, hps⟩ := forall_mem_cons.1 hp
          obtain ⟨y, hy⟩ := hpb.reads
          rw [flatten_cons, append_assoc] at hrest
          have hsame := (Reads.at hy hpos hrest).symm.trans hread
          have hlen : p.length = block.length := by
            have := congrArg (·.2) (some.inj hsame)
            simpa using this
          have hcancel := append_inj (hrest.symm.trans hdata) hlen
          exact ⟨params, rest, hps, Nat.lt_of_succ_lt_succ hlt, hcut, hcancel.2.symm⟩
    · have hno : ∀ n, ¬ ParamsCutShort n (data.drop pos) := by
        rintro n ⟨params, rest, -, -, ⟨len, bytes, -, -, rfl⟩, hrest⟩
        have hlen := congrArg List.length hrest
        simp only [length_append, length_be_bytes, length_drop] at hlen
        omega
      rw [many_succ_eq_none hread, ih hpos]
      exact iff_of_false (hno _) (hno _)

/-! ## `Bind` -/

/-- A `Bind` payload in which a parameter's length runs past the end. -/
def Overruns : Prop :=
  ∃ (portal statement formats tail : List UInt8) (nfmt nparams : ℕ),
    0 ∉ portal ∧ 0 ∉ statement ∧ nfmt < 2 ^ 16 ∧ formats.length = 2 * nfmt ∧ nparams < 2 ^ 16 ∧
      ParamsCutShort nparams tail ∧
      payload = (portal ++ [0]) ++ ((statement ++ [0]) ++
        (be_bytes 2 nfmt ++ (formats ++ (be_bytes 2 nparams ++ tail))))

theorem reads_read_u16 (h : v < 2 ^ 16) : Reads read_u16 (be_bytes 2 v) v :=
  (reads_read_or 0 (fun n => n) (by omega)).map (g := Int.toNat)

/-- Any bytes are format codes. -/
theorem reads_formats (nfmt : ℕ) {formats : List UInt8} (h : formats.length = 2 * nfmt) :
    ∃ codes, Reads (many read_i16 nfmt) formats codes := by
  induction nfmt generalizing formats with
  | zero =>
    rw [length_eq_zero_iff.1 h]
    exact ⟨[], reads_pure []⟩
  | succ nfmt ih =>
    have hrest : (formats.drop 2).length = 2 * nfmt := by rw [length_drop]; omega
    obtain ⟨codes, hcodes⟩ := ih hrest
    have hcode : 0 + 2 ≤ formats.length := by omega
    obtain ⟨v, hv, hdata⟩ := drop_eq_be_bytes hcode
    rw [drop_zero, zero_add] at hdata
    have hcons := hcodes.bind (f := fun xs => pure ((v : ℤ).bmod (2 ^ 16) :: xs)) (reads_pure _)
    rw [append_nil] at hcons
    rw [hdata]
    exact ⟨_, (reads_read_or 0 _ hv).bind hcons⟩

theorem reads_header {portal statement formats : List UInt8} {nfmt nparams : ℕ} (hp : 0 ∉ portal)
    (hs : 0 ∉ statement) (hn : nfmt < 2 ^ 16) (hf : formats.length = 2 * nfmt)
    (hc : nparams < 2 ^ 16) :
    ∃ codes, Reads read_bind_header ((portal ++ [0]) ++ ((statement ++ [0]) ++
        (be_bytes 2 nfmt ++ (formats ++ (be_bytes 2 nparams ++ [])))))
      (text_or_empty portal, text_or_empty statement, codes, nparams) := by
  obtain ⟨codes, hcodes⟩ := reads_formats nfmt hf
  exact ⟨codes, (reads_read_cstr hp).bind ((reads_read_cstr hs).bind ((reads_read_u16 hn).bind
    (hcodes.bind ((reads_read_u16 hc).bind (reads_pure _)))))⟩

theorem many_read_i16_cases (count : ℕ) (hpos : pos ≤ data.length) :
    ∃ codes pos', many read_i16 count data pos = some (codes, pos') ∧ pos' ≤ data.length ∧
      (pos' = pos + 2 * count ∨ data.length < pos' + 2) := by
  induction count generalizing pos with
  | zero => exact ⟨[], pos, rfl, hpos, .inl rfl⟩
  | succ count ih =>
    have hread : ∃ code pos', read_i16 data pos = some (code, pos') ∧ pos' ≤ data.length ∧
        (pos' = pos + 2 ∨ pos' = pos ∧ data.length < pos + 2) := by
      unfold read_i16 read_or
      split
      · exact ⟨_, _, rfl, hpos, .inr ⟨rfl, ‹_›⟩⟩
      · exact ⟨_, _, rfl, by omega, .inl rfl⟩
    obtain ⟨code, pos', hcode, hle, hmove⟩ := hread
    obtain ⟨codes, pos'', hcodes, hle', hend⟩ := ih hle
    refine ⟨code :: codes, pos'', ?_, hle', by omega⟩
    rw [many, bind_apply, hcode, bind_some, bind_apply, hcodes]
    rfl

variable {portal statement : Text}

/-- A header with a count of parameters is whole: nothing in it was missing. -/
theorem read_bind_header_split {payload : List UInt8} {codes : List ℤ} {nparams : ℕ}
    (h : read_bind_header payload 0 = some ((portal, statement, codes, nparams), pos))
    (hn : nparams ≠ 0) : ∃ (p s formats : List UInt8) (nfmt : ℕ), 0 ∉ p ∧ 0 ∉ s ∧ nfmt < 2 ^ 16 ∧
      formats.length = 2 * nfmt ∧ nparams < 2 ^ 16 ∧ payload = (p ++ [0]) ++ ((s ++ [0]) ++
        (be_bytes 2 nfmt ++ (formats ++ (be_bytes 2 nparams ++ payload.drop pos)))) := by
  obtain ⟨p, pos1, hp, hp0, hend1⟩ := read_cstr_cases (Nat.zero_le payload.length)
  obtain ⟨s, pos2, hs, hs0, hend2⟩ :=
    read_cstr_cases (hend1.elim (fun h => h.le) (·.1) : pos1 ≤ payload.length)
  have hle2 : pos2 ≤ payload.length := hend2.elim (fun h => h.le) (·.1)
  have hu16 : ∀ {pos : ℕ}, payload.length < pos + 2 → read_u16 payload pos = some (0, pos) := by
    intro pos hshort
    show (read_or 2 0 _ payload pos).bind (fun p => some (Int.toNat p.1, p.2)) = _
    rw [read_or_short hshort]
    rfl
  rw [read_bind_header, bind_apply, hp, bind_some, bind_apply, hs, bind_some, bind_apply] at h
  -- a missing format count leaves no room for the parameter count either
  have hroom : pos2 + 2 ≤ payload.length := by
    by_contra hshort
    rw [hu16 (not_le.1 hshort), bind_some, bind_apply, many] at h
    rw [show (pure [] : Cursor (List ℤ)) payload pos2 = some ([], pos2) from rfl, bind_some,
      bind_apply, hu16 (not_le.1 hshort)] at h
    exact hn (congrArg (·.1.2.2.2) (some.inj h)).symm
  obtain ⟨nfmt, hnfmt, hdata2⟩ := drop_eq_be_bytes hroom
  obtain ⟨xs, pos3, hxs, hle3, hend3⟩ := many_read_i16_cases nfmt hroom
  rw [Reads.at (reads_read_u16 (by omega)) hle2 hdata2, bind_some, length_be_bytes,
    bind_apply, hxs, bind_some, bind_apply] at h
  have hroom3 : pos3 + 2 ≤ payload.length := by
    by_contra hshort
    rw [hu16 (not_le.1 hshort)] at h
    exact hn (congrArg (·.1.2.2.2) (some.inj h)).symm
  obtain rfl : pos3 = pos2 + 2 + 2 * nfmt := by omega
  obtain ⟨n, hnlt, hdata3⟩ := drop_eq_be_bytes hroom3
  rw [Reads.at (reads_read_u16 (by omega)) hle3 hdata3, length_be_bytes] at h
  obtain ⟨rfl, rfl⟩ : n = nparams ∧ pos2 + 2 + 2 * nfmt + 2 = pos := by
    have := some.inj h
    exact ⟨congrArg (·.1.2.2.2) this, congrArg (·.2) this⟩
  have hs' : payload.drop pos1 = s ++ 0 :: payload.drop pos2 := hend2.resolve_left (by omega) |>.2
  have hp' : payload.drop 0 = p ++ 0 :: payload.drop pos1 := by
    refine (hend1.resolve_left fun hend => ?_).2
    rw [hend, drop_length] at hs'
    exact absurd hs' (by simp)
  refine ⟨p, s, (payload.drop (pos2 + 2)).take (2 * nfmt), nfmt, hp0, hs0, by omega, ?_, by omega, ?_⟩
  · rw [length_take, length_drop]
    omega
  · rw [← hdata3, ← drop_drop (i := 2 * nfmt), take_append_drop, ← hdata2]
    rw [append_assoc s, singleton_append, ← hs', append_assoc, singleton_append, ← hp', drop_zero]

theorem read_bind_eq_none_iff : read_bind payload 0 = none ↔ Overruns payload := by
  obtain ⟨⟨portal, statement, codes, nparams⟩, pos, hhead, hpos⟩ :=
    read_bind_header_safe payload 0 (Nat.zero_le _)
  -- behind the parameters every read has a default
  have hloop : read_bind payload 0 = none ↔ many read_param nparams payload pos = none := by
    rw [read_bind, bind_apply, hhead, bind_some]
    show (many read_param nparams >>= _) payload pos = none ↔ _
    rw [bind_apply]
    cases hmany : many read_param nparams payload pos with
    | none => exact iff_of_true rfl rfl
    | some p =>
      obtain ⟨codes, pos', hres, -⟩ := read_result_formats_total payload p.2 trivial
      rw [bind_some, bind_apply, hres]
      exact iff_of_false nofun nofun
  rw [hloop, many_read_param_eq_none hpos]
  constructor
  · intro hcut
    have hn : nparams ≠ 0 := by
      rintro rfl
      obtain ⟨params, rest, -, hlt, -⟩ := hcut
      exact absurd hlt (Nat.not_lt_zero _)
    obtain ⟨p, s, formats, nfmt, hp, hs, hnf, hf, hc, hpay⟩ := read_bind_header_split hhead hn
    exact ⟨p, s, formats, payload.drop pos, nfmt, nparams, hp, hs, hnf, hf, hc, hcut, hpay⟩
  · rintro ⟨p, s, formats, tail, nfmt, n, hp, hs, hnf, hf, hc, hcut, hpay⟩
    obtain ⟨codes', hreads⟩ := reads_header hp hs hnf hf hc
    have hrun := hreads.run tail
    rw [append_nil] at hrun
    obtain ⟨header, hheader⟩ : ∃ header, header = (p ++ [0]) ++ ((s ++ [0]) ++
      (be_bytes 2 nfmt ++ (formats ++ be_bytes 2 n))) := ⟨_, rfl⟩
    have hcat : payload = header ++ tail := by
      rw [hpay, hheader]
      simp only [append_assoc]
    rw [← hheader, ← hcat, hhead] at hrun
    obtain ⟨rfl, rfl⟩ : nparams = n ∧ pos = header.length := by
      have := some.inj hrun
      exact ⟨congrArg (·.1.2.2.2) this, congrArg (·.2) this⟩
    rwa [hcat, drop_left]

/-! ## Encoded messages -/

/-- A string of the protocol: its bytes and a NUL. -/
def encode_cstr (s : Text) : List UInt8 := into_bytes s ++ [0]

def encode_i16 (code : ℤ) : List UInt8 := be_bytes 2 (code % 2 ^ 16).toNat

/-- A list with its length in two bytes before it. -/
def encode_counted {α : Type} (enc : α → List UInt8) (xs : List α) : List UInt8 :=
  be_bytes 2 xs.length ++ xs.flatMap enc

/-- NULL is the length `-1`. -/
def encode_param : Option (List UInt8) → List UInt8
  | none => be_bytes 4 (2 ^ 32 - 1)
  | some bytes => be_bytes 4 bytes.length ++ bytes

def encode_parse (name query : Text) (param_types : List ℕ) : List UInt8 :=
  encode_cstr name ++ (encode_cstr query ++ encode_counted (be_bytes 4) param_types)

def encode_bind (portal statement : Text) (param_formats : List ℤ)
    (params : List (Option (List UInt8))) (result_formats : List ℤ) : List UInt8 :=
  encode_cstr portal ++ (encode_cstr statement ++ (encode_counted encode_i16 param_formats ++
    (encode_counted encode_param params ++ encode_counted encode_i16 result_formats)))

/-- A name without a NUL byte. -/
def NoNul (s : Text) : Prop := 0 ∉ into_bytes s

/-- The values of a sixteen-bit integer, in a list whose count fits two bytes. -/
def CodesFit (codes : List ℤ) : Prop :=
  codes.length < 2 ^ 16 ∧ ∀ code ∈ codes, -2 ^ 15 ≤ code ∧ code < 2 ^ 15

def TypesFit (param_types : List ℕ) : Prop :=
  param_types.length < 2 ^ 16 ∧ ∀ t ∈ param_types, t < 2 ^ 32

def ParamsFit (params : List (Option (List UInt8))) : Prop :=
  params.length < 2 ^ 16 ∧ ∀ bytes, some bytes ∈ params → bytes.length < 2 ^ 31

theorem reads_cstr {s : Text} (h : NoNul s) : Reads read_cstr (encode_cstr s) s := by
  have hreads := reads_read_cstr h
  rwa [text_or_empty, from_utf8_into_bytes] at hreads

theorem reads_i16 {code : ℤ} (h : -2 ^ 15 ≤ code ∧ code < 2 ^ 15) :
    Reads read_i16 (encode_i16 code) code := by
  have hreads := reads_read_or (w := 2) 0 (fun n => (n : ℤ).bmod (2 ^ 16))
    (v := (code % 2 ^ 16).toNat) (by omega)
  have hvalue : ((code % 2 ^ 16).toNat : ℤ).bmod (2 ^ 16) = code := by
    rw [Int.toNat_of_nonneg (by omega), Int.bmod_def]
    omega
  rwa [hvalue] at hreads

theorem reads_param {param : Option (List UInt8)}
    (h : ∀ bytes, param = some bytes → bytes.length < 2 ^ 31) :
    Reads read_param (encode_param param) param := by
  cases param with
  | none => exact reads_null (by decide) (by decide)
  | some bytes => exact reads_value (h bytes rfl)

theorem reads_codes {codes : List ℤ} (h : CodesFit codes) :
    Reads (read_u16 >>= many read_i16) (encode_counted encode_i16 codes) codes :=
  (reads_read_u16 h.1).bind (reads_many fun code hc => reads_i16 (h.2 code hc))

theorem reads_type {t : ℕ} (h : t < 2 ^ 32) : Reads read_type (be_bytes 4 t) (some t) := by
  intro front rest
  have htake := @take_left _ (be_bytes 4 t) rest
  rw [length_be_bytes] at htake
  rw [read_type, if_pos (by simp only [length_append, length_be_bytes]; omega),
    drop_left, htake, be_nat_be_bytes (by omega), length_be_bytes]

theorem reads_type_count {n : ℕ} (h : n < 2 ^ 16) : Reads read_type_count (be_bytes 2 n) n := by
  intro front rest
  have htake := @take_left _ (be_bytes 2 n) rest
  rw [length_be_bytes] at htake
  rw [read_type_count, if_pos (by simp), drop_left, htake, be_nat_be_bytes (by omega),
    length_be_bytes]

theorem reduceOption_map_some (ts : List ℕ) : (ts.map some).reduceOption = ts := by
  rw [reduceOption, filterMap_map]
  exact filterMap_some

theorem read_parse_encode {name query : Text} {param_types : List ℕ} (hn : NoNul name)
    (hq : NoNul query) (ht : TypesFit param_types) :
    Reads read_parse (encode_parse name query param_types) (.Parse name query param_types) := by
  have htypes : Reads (many read_type param_types.length) (param_types.flatMap (be_bytes 4))
      (param_types.map some) := by
    have hone : ∀ t ∈ param_types.map some, Reads read_type (be_bytes 4 (t.getD 0)) t := by
      simp only [forall_mem_map]
      exact fun t hmem => reads_type (ht.2 t hmem)
    have hmany := reads_many hone
    rwa [length_map, flatMap_map] at hmany
  have hlast := htypes.bind (f := fun ts => pure (FrontendMsg.Parse name query ts.reduceOption))
    (reads_pure _)
  rw [append_nil, reduceOption_map_some] at hlast
  exact (reads_cstr hn).bind ((reads_cstr hq).bind ((reads_type_count ht.1).bind hlast))

theorem read_bind_encode {param_formats result_formats : List ℤ}
    {params : List (Option (List UInt8))} (hp : NoNul portal) (hs : NoNul statement)
    (hf : CodesFit param_formats) (hv : ParamsFit params) (hr : CodesFit result_formats) :
    Reads read_bind (encode_bind portal statement param_formats params result_formats)
      (.Bind portal statement param_formats params result_formats) := by
  have hhead : Reads read_bind_header (encode_cstr portal ++ (encode_cstr statement ++
      (be_bytes 2 param_formats.length ++ (param_formats.flatMap encode_i16 ++
        (be_bytes 2 params.length ++ []))))) (portal, statement, param_formats, params.length) :=
    (reads_cstr hp).bind ((reads_cstr hs).bind ((reads_read_u16 hf.1).bind
      ((reads_many fun code hc => reads_i16 (hf.2 code hc)).bind
        ((reads_read_u16 hv.1).bind (reads_pure _)))))
  have hparams : Reads (many read_param params.length) (params.flatMap encode_param) params :=
    reads_many fun param hmem => reads_param fun bytes hb => hv.2 bytes (hb ▸ hmem)
  have hres : Reads read_result_formats (encode_counted encode_i16 result_formats) result_formats :=
    reads_codes hr
  have hall : Reads read_bind _ (.Bind portal statement param_formats params result_formats) :=
    hhead.bind (Reads.bind hparams (Reads.bind hres (reads_pure _)))
  simpa only [encode_bind, encode_counted, append_assoc, append_nil, nil_append]
    using hall

/-! ## The whole function -/

theorem ofUInt8_eq_B : Char.ofUInt8 msg_type = 'B' ↔ msg_type = 66 := by
  refine ⟨fun h => ?_, fun h => h ▸ rfl⟩
  have hval : msg_type.toUInt32 = 66 := congrArg Char.val h
  have hnat := congrArg UInt32.toNat hval
  rw [UInt8.toNat_toUInt32] at hnat
  exact UInt8.toNat_inj.1 hnat

theorem parse_frontend_message_eq_none_iff (payload : List UInt8) :
    parse_frontend_message msg_type payload = none ↔ msg_type = 66 ∧ Overruns payload := by
  have hsafe : ∀ {r : Cursor FrontendMsg} {Q}, Safe Inside Q r → r payload 0 ≠ none := by
    intro r Q hr
    obtain ⟨x, pos, hx, -⟩ := hr payload 0 (Nat.zero_le _)
    exact hx ▸ some_ne_none _
  rw [← ofUInt8_eq_B, parse_frontend_message]
  split
  -- only the reader of `Bind` can fail
  case h_3 heq => simp [heq, read_bind_eq_none_iff]
  all_goals refine iff_of_false ?_ (fun h => ?_)
  case h_2.refine_1 => simpa using hsafe read_parse_safe
  case h_4.refine_1 => simpa using hsafe read_execute_safe
  case h_5.refine_1 => simpa using read_kind_and_name_safe .Describe payload
  case h_8.refine_1 => simpa using read_kind_and_name_safe .Close payload
  all_goals simp_all

/-- **Reading client messages.** A message is read without an access out of range unless it
is a `Bind` with a parameter that runs past the payload, and every encoded `Parse` and
`Bind` is read back as it was. -/
theorem parse_frontend_message_correct (msg_type : UInt8) (payload : List UInt8) :
    (parse_frontend_message msg_type payload ≠ none ↔ ¬ (msg_type = 66 ∧ Overruns payload)) ∧
    (∀ name query param_types, NoNul name → NoNul query → TypesFit param_types →
      parse_frontend_message 80 (encode_parse name query param_types) =
        some (.ok (.Parse name query param_types))) ∧
    (∀ portal statement param_formats params result_formats, NoNul portal → NoNul statement →
      CodesFit param_formats → ParamsFit params → CodesFit result_formats →
      parse_frontend_message 66 (encode_bind portal statement param_formats params result_formats) =
        some (.ok (.Bind portal statement param_formats params result_formats))) := by
  refine ⟨(parse_frontend_message_eq_none_iff msg_type payload).not, ?_, ?_⟩
  · intro name query param_types hn hq ht
    have hrun := (read_parse_encode hn hq ht).run []
    rw [append_nil] at hrun
    show (read_parse _ 0).map _ = _
    rw [hrun]
    rfl
  · intro portal statement param_formats params result_formats hp hs hf hv hr
    have hrun := (read_bind_encode hp hs hf hv hr).run []
    rw [append_nil] at hrun
    show (read_bind _ 0).map _ = _
    rw [hrun]
    rfl

/-- A `Bind` with no names, no formats and one parameter of five bytes that are not there. -/
theorem bind_overrun_panics : parse_frontend_message 66 [0, 0, 0, 0, 0, 1, 0, 0, 0, 5] = none := by
  decide +kernel

end Oigrap.Server

/-
How a simple query is cut into statements.

The server cuts the text at every semicolon. The lexer, which reads the pieces afterwards,
knows semicolons that do not end a statement: those inside a string literal or a comment.
`cut_statements` cuts the text at the others, by running the lexer over the whole text, and
the result says when the server finds the same statements.
-/
import Oigrap.Server.Connection

namespace Oigrap.Server

open Oigrap.Sql List

/-! ## Semicolons as the lexer reads them -/

/-- For each byte, whether the lexer skips it (a comment, or white space) or reads it as part
of a string literal. Behind an error the lexer is taken up again where it stopped. -/
def inert_bytes : ℕ → Lexer → List Bool
  | 0, _ => []
  | fuel + 1, l =>
    let start := l.skip_whitespace_and_comments
    let stop := (start.scan_token (fun _ => ())).2
    replicate (l.input.length - start.input.length) true ++
      if start.input = [] then []
      else replicate (start.input.length - stop.input.length) (decide (start.peek = some '\'')) ++
        inert_bytes fuel stop

/-- Each character with the mark of its first byte. -/
def mark_chars : List Bool → Text → List (Char × Bool)
  | _, [] => []
  | marks, c :: s =>
    (c, marks.headD false) :: mark_chars (marks.drop (String.utf8EncodeChar c).length) s

def marked (sql : Text) : List (Char × Bool) :=
  mark_chars (inert_bytes ((into_bytes sql).length + 1) (Lexer.new (into_bytes sql))) sql

/-- A semicolon outside string literals and comments. -/
def ends_statement (p : Char × Bool) : Bool := p.1 = ';' && !p.2

/-- The statements of a text: cut at the semicolons that end one. -/
def cut_statements (sql : Text) : List Text :=
  Connection.pieces (((marked sql).splitOnP ends_statement).map (List.map Prod.fst))

/-- No semicolon stands inside a string literal or a comment. -/
def NoInnerSemicolon (sql : Text) : Prop := (';', true) ∉ marked sql

theorem map_fst_mark_chars (marks : List Bool) (s : Text) : (mark_chars marks s).map Prod.fst = s := by
  induction s generalizing marks with
  | nil => rfl
  | cons c s ih => rw [mark_chars, map_cons, ih]

theorem map_fst_marked (sql : Text) : (marked sql).map Prod.fst = sql := map_fst_mark_chars _ _

namespace Connection

theorem mem_pieces {parts : List Text} {s : Text} :
    s ∈ pieces parts ↔ s ≠ [] ∧ ∃ part ∈ parts, trim part = s := by
  simp only [pieces, mem_filter, mem_map, decide_eq_true_eq]
  exact and_comm

theorem split_statements_eq (sql : Text) : split_statements sql =
      pieces (((marked sql).splitOnP (fun p => p.1 = ';')).map (List.map Prod.fst)) := by
  conv_lhs => rw [split_statements, ← map_fst_marked sql, splitOnP_map]
  rfl

theorem semicolon_notMem_split {sql s : Text} (h : s ∈ split_statements sql) : ';' ∉ s := by
  obtain ⟨-, part, hpart, rfl⟩ := mem_pieces.1 h
  rw [mem_trim (by decide)]
  intro hmem
  simpa using not_sep_of_mem_splitOnP hpart hmem

/-- A semicolon that ends no statement stays in a statement. -/
theorem exists_semicolon_of_inner {sql : Text} (h : (';', true) ∈ marked sql) :
    ∃ s ∈ cut_statements sql, ';' ∈ s := by
  obtain ⟨piece, hpiece, hmem⟩ := exists_piece_of_mem (p := ends_statement) h rfl
  have hsemi : ';' ∈ trim (piece.map Prod.fst) :=
    (mem_trim (by decide)).2 (mem_map.2 ⟨_, hmem, rfl⟩)
  exact ⟨_, mem_pieces.2 ⟨ne_nil_of_mem hsemi, _, mem_map_of_mem hpiece, rfl⟩, hsemi⟩

theorem noInnerSemicolon_of_subset {sql : Text} (h : cut_statements sql ⊆ split_statements sql) :
    NoInnerSemicolon sql := by
  intro hinner
  obtain ⟨s, hs, hsemi⟩ := exists_semicolon_of_inner hinner
  exact semicolon_notMem_split (h hs) hsemi

theorem split_eq_cut_iff (sql : Text) : split_statements sql = cut_statements sql
    ↔ NoInnerSemicolon sql := by
  constructor
  · intro heq
    exact noInnerSemicolon_of_subset (heq ▸ List.Subset.refl _)
  · intro hnone
    rw [split_statements_eq, cut_statements]
    refine congrArg (fun parts => pieces (List.map _ parts)) (splitOnP_congr ?_)
    rintro ⟨c, inert⟩ hmem
    cases inert with
    | false => simp [ends_statement]
    | true =>
      have hne : c ≠ ';' := fun h => hnone (h ▸ hmem)
      simp [ends_statement, hne]

theorem pieces_append (a b : List Text) : pieces (a ++ b) = pieces a ++ pieces b := by
  simp [pieces]

theorem pieces_congr {s t : Text} (h : trim s = trim t) : pieces [s] = pieces [t] := by
  simp [pieces, h]

theorem split_statements_trim (sql : Text) : split_statements (trim sql) = split_statements sql := by
  obtain ⟨a, b, ha, hb, hsql⟩ := trim_split sql
  have hsep : ∀ {w : Text}, (∀ c ∈ w, is_whitespace c) → ∀ c ∈ w, decide (c = ';') = false := by
    intro w hw c hc
    refine decide_eq_false fun h => ?_
    have := hw c hc
    rw [h] at this
    exact absurd this (by decide)
  obtain ⟨init, last, hxs, hxb⟩ := splitOnP_append_right (hsep hb) (trim sql)
  have hright : pieces ((trim sql ++ b).splitOnP (· = ';')) = split_statements (trim sql) := by
    rw [split_statements, hxs, hxb, pieces_append, pieces_append,
      pieces_congr (trim_append_right hb last)]
  obtain ⟨first, others, hs⟩ :=
    exists_cons_of_ne_nil (splitOnP_ne_nil (fun c => decide (c = ';')) (trim sql ++ b))
  have hleft : split_statements sql = pieces ((trim sql ++ b).splitOnP (· = ';')) := by
    conv_lhs => rw [hsql]
    rw [split_statements, splitOnP_append_left (hsep ha), hs, modifyHead_cons,
      ← singleton_append, pieces_append, pieces_congr (trim_append_left ha first),
      ← pieces_append, singleton_append]
  rw [hleft, hright]

/-! ## The statements a simple query takes up -/

def taken_up (events : List Event) : List Text :=
  events.filterMap fun
    | .statement sql => some sql
    | _ => none

theorem taken_up_append (a b : List Event) : taken_up (a ++ b) = taken_up a ++ taken_up b :=
  filterMap_append

variable {Db F : Type} (env : Env Db F)

theorem taken_up_send_query_result (result : QueryResult F) :
    taken_up (send_query_result env result) = [] := by
  unfold send_query_result taken_up
  split <;> simp [command_complete, data_row, filterMap_append, filterMap_map]

variable (c : Connection Db F)

theorem taken_up_run_statement (sql : Text) : taken_up (run_statement env c sql).2 = [] := by
  unfold run_statement
  split
  · rfl
  · exact taken_up_send_query_result env _
  · rfl

theorem taken_up_handle_statement (sql : Text) : taken_up (handle_statement env c sql).2 = [] := by
  unfold handle_statement
  dsimp only
  split_ifs
  · rfl
  · rfl
  · rfl
  · rfl
  · split <;> rfl
  · split
    · exact taken_up_run_statement env c _
    · rfl
  · exact taken_up_run_statement env c sql

/-- No statement but the last panics, so that each one is reached. -/
def AllReached (stmts : List Text) : Prop :=
  ∀ done rest, rest ≠ [] → stmts = done ++ rest → (handle_statements env c done).1.isSome

/-- The loop takes up the statements in order, all of them when each is reached. -/
theorem taken_up_handle_statements (stmts : List Text) :
    taken_up (handle_statements env c stmts).2 <+: stmts ∧
      (taken_up (handle_statements env c stmts).2 = stmts ↔ AllReached env c stmts) := by
  induction stmts generalizing c with
  | nil =>
    refine ⟨prefix_refl _, iff_of_true rfl ?_⟩
    intro done rest hne heq
    exact absurd (append_eq_nil_iff.1 heq.symm).2 hne
  | cons sql stmts ih =>
    have hone := taken_up_handle_statement env c sql
    cases hstep : handle_statement env c sql with
    | mk after events =>
    rw [hstep] at hone
    have hcons : ∀ l, taken_up (Event.statement sql :: (events ++ l)) = sql :: taken_up l := by
      intro l
      show taken_up ([.statement sql] ++ (events ++ l)) = _
      rw [taken_up_append, taken_up_append, hone]
      rfl
    cases after with
    | none =>
      have hrun : handle_statements env c (sql :: stmts) = (none, .statement sql :: events) := by
        rw [handle_statements, hstep]
      have htaken := hcons []
      rw [append_nil] at htaken
      rw [hrun, htaken]
      refine ⟨⟨stmts, rfl⟩, ?_⟩
      -- only a last statement may panic
      cases stmts with
      | nil =>
        refine iff_of_true rfl fun done rest hne heq => ?_
        cases done with
        | nil => rfl
        | cons d done =>
          rw [cons_append, cons.injEq] at heq
          exact absurd (append_eq_nil_iff.1 heq.2.symm).2 hne
      | cons next stmts =>
        refine iff_of_false (by simp [taken_up]) fun hall => ?_
        have hpanic := hall [sql] (next :: stmts) (by simp) rfl
        rw [handle_statements, hstep] at hpanic
        exact absurd hpanic (by simp)
    | some c' =>
      have hrun : ∀ l, handle_statements env c (sql :: l) =
          ((handle_statements env c' l).1, .statement sql ::
            (events ++ (handle_statements env c' l).2)) := by
        intro l
        rw [handle_statements, hstep]
      obtain ⟨hpre, hiff⟩ := ih c'
      rw [hrun, hcons]
      refine ⟨(prefix_cons_inj sql).2 hpre, ?_⟩
      rw [cons.injEq, hiff]
      constructor
      · rintro ⟨-, hall⟩ done rest hne heq
        cases done with
        | nil => rfl
        | cons d done =>
          rw [cons_append, cons.injEq] at heq
          rw [← heq.1, hrun]
          exact hall done rest hne heq.2
      · intro hall
        refine ⟨rfl, fun done rest hne heq => ?_⟩
        have := hall (sql :: done) rest hne (by rw [heq]; rfl)
        rwa [hrun] at this

theorem taken_up_handle_simple_query (sql : Text) : taken_up (handle_simple_query env c sql).2 =
      taken_up (handle_statements env c (split_statements sql)).2 := by
  rw [← split_statements_trim]
  unfold handle_simple_query
  dsimp only
  split_ifs with hempty
  · rw [hempty]
    rfl
  · split
    · next events hrun => rw [hrun]
    · next c' events hrun =>
      rw [hrun, taken_up_append]
      exact append_nil _

/-- **Cutting a simple query.** The statements taken up are those of the text exactly when
it has no semicolon inside a string literal or a comment, and no statement before the last
panics. -/
theorem simple_query_statements_iff (c : Connection Db F) (sql : Text) :
    taken_up (handle_simple_query env c sql).2 = cut_statements sql ↔
      NoInnerSemicolon sql ∧ AllReached env c (split_statements sql) := by
  obtain ⟨hpre, hall⟩ := taken_up_handle_statements env c (split_statements sql)
  rw [taken_up_handle_simple_query, ← hall, ← split_eq_cut_iff]
  constructor
  · intro htaken
    rw [htaken] at hpre ⊢
    have hsplit := (split_eq_cut_iff sql).2 (noInnerSemicolon_of_subset hpre.subset)
    exact ⟨hsplit, hsplit.symm⟩
  · rintro ⟨hsplit, htaken⟩
    rw [htaken, hsplit]

/-- The text inside a string literal is run as a statement of its own. -/
theorem string_literal_is_cut :
    cut_statements "SELECT 'a; DROP TABLE t; '".toList = ["SELECT 'a; DROP TABLE t; '".toList] ∧
      Event.executed "DROP TABLE t".toList ∈
        (handle_simple_query idle fresh "SELECT 'a; DROP TABLE t; '".toList).2 := by
  decide +kernel

end Connection

end Oigrap.Server

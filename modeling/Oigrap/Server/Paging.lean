/-
`handle_execute` over a sequence of messages: the rows of a portal in pages.

The first `Execute` on a portal runs its statement and keeps the result; this one and the
later ones send rows from a cursor on. `pages` says what should come of it in terms of the
rows that remain, without a cursor.
-/
import Oigrap.Server.Connection

namespace Oigrap.Server.Connection

open Function List

variable {Db F : Type} (env : Env Db F) {c : Connection Db F} {portal : Text} {p : Portal F}
variable {result : QueryResult F}

/-- How many of `n` remaining rows a message sends. -/
def page_size (max_rows n : ℕ) : ℕ := if max_rows = 0 then n else min max_rows n

/-- The rows each message sends, and whether rows remain after it. -/
def pages {α : Type} : List α → List ℕ → List (List α × Bool)
  | _, [] => []
  | rows, max_rows :: limits =>
    let n := page_size max_rows rows.length
    (rows.take n, n < rows.length) :: pages (rows.drop n) limits

theorem pages_initial {α : Type} (limits : List ℕ) (rows : List α) :
    (pages rows limits).flatMap Prod.fst <+: rows := by
  induction limits generalizing rows with
  | nil => exact nil_prefix
  | cons max_rows limits ih =>
    rw [pages, flatMap_cons]
    conv_rhs => rw [← take_append_drop (page_size max_rows rows.length) rows]
    exact (prefix_append_right_inj _).mpr (ih _)

/-- The data rows among the events. -/
def rows_sent (events : List Event) : List Event :=
  events.filter fun | .sent (.DataRow _) => true | _ => false

/-- How often the engine is called. -/
def executions (events : List Event) : ℕ := events.countP fun | .executed _ => true | _ => false

/-- The rows of a page and what the message ends with. -/
def page_events (result : QueryResult F) (page : List (List (Sql.Value F)) × Bool) :
    List Event × Option Event :=
  (page.1.map (data_row env),
    some (if page.2 then .sent .PortalSuspended else command_complete result.tag))

/-- The statement of the portal succeeds, with this result. `SET` is not given to the engine. -/
def Succeeds (c : Connection Db F) (p : Portal F) (result : QueryResult F) : Prop :=
  let sql := substitute_params env p.stmt.query p.params p.param_formats
  if query_starts env sql "SET " then result = ⟨[], [], 0, "SET".toList⟩
  else (env.execute c.db sql).1 = some (.ok result)

/-- A message sends the next page of the rows from `start` on, after `k` calls of the engine. -/
def Sends (portal : Text) (result : QueryResult F) (start k max_rows : ℕ) (h : Handled Db F) : Prop :=
  ∃ c' p', h.1 = some c' ∧ c'.portals portal = some p' ∧ p'.result = some result
    ∧ p'.cursor = start + page_size max_rows (result.rows.drop start).length
    ∧ p'.cursor ≤ result.rows.length ∧ executions h.2 = k
    ∧ [(rows_sent h.2, h.2.getLast?)]
      = (pages (result.rows.drop start) [max_rows]).map (page_events env result)

theorem sends_send_rows (hcur : p.cursor ≤ result.rows.length) (max_rows : ℕ) :
    Sends env portal result p.cursor 0 max_rows (send_rows env c portal p result max_rows) := by
  have hstop : min (p.cursor + if max_rows = 0 then result.rows.length else max_rows)
      result.rows.length = p.cursor + page_size max_rows (result.rows.length - p.cursor) := by
    rw [page_size]
    split <;> lia
  have hrows : ∀ rows : List (List (Sql.Value F)),
      rows_sent (rows.map (data_row env)) = rows.map (data_row env)
        ∧ executions (rows.map (data_row env)) = 0 :=
    fun rows => ⟨filter_eq_self.mpr (by simp [data_row]), countP_eq_zero.mpr (by simp [data_row])⟩
  refine ⟨_, { p with result := some result, cursor := _ }, rfl, update_self _ _ _, rfl, ?_,
    min_le_right _ _, ?_, ?_⟩
  · rw [hstop, length_drop]
  · simp only [send_rows, executions, countP_append] at hrows ⊢
    rw [(hrows _).2]
    split_ifs <;> rfl
  · simp only [send_rows, hstop, pages, map_cons, map_nil, page_events, length_drop,
      Nat.add_sub_cancel_left, getLast?_concat]
    simp only [rows_sent, filter_append] at hrows ⊢
    rw [(hrows _).1]
    split_ifs <;> simp [command_complete] <;> lia

theorem Sends.executed {start max_rows : ℕ} {h : Handled Db F}
    (hs : Sends env portal result start 0 max_rows h) (sql : Text) :
    Sends env portal result start 1 max_rows (h.1, .executed sql :: h.2) := by
  obtain ⟨c', p', hc', hp', hresult, hcur, hle, hk, hpage⟩ := hs
  refine ⟨c', p', hc', hp', hresult, hcur, hle, by simpa [executions] using hk, ?_⟩
  rw [← hpage]
  simp only [pages, map_cons, map_nil, page_events, cons.injEq, Prod.mk.injEq] at hpage
  rw [getLast?_cons, hpage.1.2]
  rfl

/-- Once the result is kept, every message sends the next page. -/
theorem sends_cached (hp : c.portals portal = some p) (hresult : p.result = some result)
    (hcur : p.cursor ≤ result.rows.length) (max_rows : ℕ) :
    Sends env portal result p.cursor 0 max_rows (handle_execute env c portal max_rows) := by
  simp only [handle_execute, hp, hresult]
  exact sends_send_rows env hcur max_rows

theorem sends_first (hp : c.portals portal = some p) (hnew : p.result = none)
    (hs : Succeeds env c p result) : ∃ k ≤ 1, ∀ max_rows,
      Sends env portal result 0 k max_rows (handle_execute env c portal max_rows) := by
  simp only [handle_execute, hp, hnew]
  unfold Succeeds at hs
  dsimp only at hs ⊢
  split at hs
  · refine ⟨0, zero_le_one, fun max_rows => ?_⟩
    subst hs
    rw [if_pos (by assumption)]
    exact sends_send_rows env (Nat.zero_le _) max_rows
  · refine ⟨1, le_rfl, fun max_rows => ?_⟩
    rw [if_neg (by assumption)]
    cases hrun : env.execute c.db (substitute_params env p.stmt.query p.params p.param_formats) with
    | mk answer db =>
      rw [hrun] at hs
      subst hs
      exact (sends_send_rows env (p := { p with cursor := 0 }) (Nat.zero_le _) max_rows).executed env _

/-- The induction is on the messages; only the first can call the engine. -/
theorem run_pages (limits : List ℕ) : ∀ {c : Connection Db F} {start k : ℕ},
    (∀ max_rows, Sends env portal result start k max_rows (handle_execute env c portal max_rows)) →
    (run env c (limits.map (.Execute portal))).map (fun e => (rows_sent e.2, e.2.getLast?))
        = (pages (result.rows.drop start) limits).map (page_events env result)
      ∧ executions ((run env c (limits.map (.Execute portal))).flatMap Prod.snd) ≤ k := by
  induction limits with
  | nil => exact fun _ => ⟨rfl, Nat.zero_le _⟩
  | cons max_rows limits ih =>
    intro c start k hnext
    obtain ⟨c', p', hc', hp', hresult, hcur, hle, hk, hpage⟩ := hnext max_rows
    obtain ⟨hrest, hquiet⟩ := ih (sends_cached env hp' hresult hle)
    have hrun : run env c ((max_rows :: limits).map (.Execute portal))
        = (.Execute portal max_rows, (handle_execute env c portal max_rows).2)
          :: run env c' (limits.map (.Execute portal)) := by
      have hsplit : handle_execute env c portal max_rows
          = (some c', (handle_execute env c portal max_rows).2) := Prod.ext hc' rfl
      rw [map_cons, run, handle, hsplit]
      exact nofun
    rw [hcur, ← drop_drop] at hrest
    rw [hrun]
    refine ⟨?_, ?_⟩
    · rw [map_cons, hrest]
      exact congrArg (· ++ _) hpage
    · rw [flatMap_cons, executions, countP_append]
      exact Nat.add_le_add hk.le hquiet

/-- **Paging.** Each message sends the next page of the result and says whether rows remain;
the engine is called at most once, and the rows of all messages are the result's first ones. -/
theorem execute_pages (hp : c.portals portal = some p) (hnew : p.result = none)
    (hs : Succeeds env c p result) (limits : List ℕ) :
    (run env c (limits.map (.Execute portal))).map (fun e => (rows_sent e.2, e.2.getLast?))
        = (pages result.rows limits).map (page_events env result)
      ∧ executions ((run env c (limits.map (.Execute portal))).flatMap Prod.snd) ≤ 1
      ∧ (run env c (limits.map (.Execute portal))).flatMap (fun e => rows_sent e.2)
        <+: result.rows.map (data_row env) := by
  obtain ⟨k, hk, hfirst⟩ := sends_first env hp hnew hs
  obtain ⟨hpages, hrun⟩ := run_pages env limits hfirst
  refine ⟨hpages, hrun.trans hk, ?_⟩
  have hsent : (run env c (limits.map (.Execute portal))).flatMap (fun e => rows_sent e.2)
      = ((pages result.rows limits).flatMap Prod.fst).map (data_row env) := by
    have hfst := congrArg (flatMap Prod.fst) hpages
    rw [flatMap_map, flatMap_map] at hfst
    rw [map_flatMap]
    exact hfst
  rw [hsent]
  exact (pages_initial limits result.rows).map _

/-- An engine that answers every text with three rows. -/
def three_rows : Env Unit Unit :=
  { idle with execute := fun db _ => (some (.ok ⟨[], [[.Int64 1], [.Int64 2], [.Int64 3]], 3, []⟩), db) }

def bound : Connection Unit Unit :=
  { fresh with portals := fun _ => some ⟨⟨[], [], []⟩, [], [], [], none, 0⟩ }

/-- Limits of two rows, all rows and one row. -/
theorem execute_pages_three :
    (run three_rows bound ([2, 0, 1].map (.Execute []))).map (fun e => (rows_sent e.2, e.2.getLast?)) =
      [([data_row three_rows [.Int64 1], data_row three_rows [.Int64 2]],
          some (.sent .PortalSuspended)),
        ([data_row three_rows [.Int64 3]], some (command_complete [])),
        ([], some (command_complete []))] := by
  have hs : Succeeds three_rows bound ⟨⟨[], [], []⟩, [], [], [], none, 0⟩
      ⟨[], [[.Int64 1], [.Int64 2], [.Int64 3]], 3, []⟩ := by
    unfold Succeeds
    rw [if_neg (by decide +kernel)]
    rfl
  exact (execute_pages three_rows rfl rfl hs [2, 0, 1]).1

end Oigrap.Server.Connection

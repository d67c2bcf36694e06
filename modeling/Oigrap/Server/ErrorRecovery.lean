/-
What a connection does between an error and the next `Sync`.

The protocol lets a client send messages ahead of the answers, and asks the server to drop
what follows a failed message until the client says `Sync`. The message loop has no such
mode: a handler that reports an error returns, and the next message is handled as usual.
`Recovers` is what the protocol asks of a whole run, and `Waits` says which runs give it:
those in which the client itself sends nothing, while an error is open, that runs a
statement or creates a portal.
-/
import Oigrap.Server.Connection

namespace Oigrap.Server

open List

def Event.is_error : Event → Bool
  | .sent (.ErrorResponse _ _ _) => true
  | _ => false

/-- The engine runs something, or a portal comes into being. -/
def Event.acts : Event → Bool
  | .executed _ | .portal_created _ => true
  | _ => false

/-- The messages of the extended protocol whose errors are meant. -/
def FrontendMsg.is_extended : FrontendMsg → Bool
  | .Bind _ _ _ _ _ | .Describe _ _ | .Execute _ _ => true
  | _ => false

def Silent (events : List Event) : Prop := ∀ e ∈ events, e.acts = false

def Fails (msg : FrontendMsg) (events : List Event) : Prop :=
  msg.is_extended ∧ ∃ e ∈ events, e.is_error

/-- Nothing acts behind an error answered to a message of the extended protocol, neither in
its own handler nor in those of later messages, before the next `Sync`. -/
def Recovers (trace : List (FrontendMsg × List Event)) : Prop :=
  (∀ front msg events mid msg' events' back,
    trace = front ++ (msg, events) :: (mid ++ (msg', events') :: back) → Fails msg events →
    (∀ p ∈ mid, p.1 ≠ .Sync) → msg' ≠ .Sync → Silent events') ∧
  ∀ p ∈ trace, p.1.is_extended → ∀ first e rest, p.2 = first ++ e :: rest → e.is_error → Silent rest

/-! ## Errors as a flag -/

/-- Later messages of a trace are silent while the flag is up. -/
def Quiet : Prop → List (FrontendMsg × List Event) → Prop
  | _, [] => True
  | failed, (msg, events) :: trace =>
    (failed → msg ≠ .Sync → Silent events) ∧ Quiet (msg ≠ .Sync ∧ (failed ∨ Fails msg events)) trace

/-- The part of `Recovers` about later messages, behind an open error. -/
def SilentUntilSync (trace : List (FrontendMsg × List Event)) : Prop :=
  ∀ mid msg events back, trace = mid ++ (msg, events) :: back → (∀ p ∈ mid, p.1 ≠ .Sync) →
    msg ≠ .Sync → Silent events

variable {trace : List (FrontendMsg × List Event)} {p : FrontendMsg × List Event}

theorem silentUntilSync_cons : SilentUntilSync (p :: trace) ↔
      (p.1 ≠ .Sync → Silent p.2) ∧ (p.1 ≠ .Sync → SilentUntilSync trace) := by
  constructor
  · intro h
    refine ⟨fun hne => h [] p.1 p.2 trace rfl nofun hne, fun hne mid msg events back heq hmid => ?_⟩
    exact h (p :: mid) msg events back (by rw [heq]; rfl) (forall_mem_cons.2 ⟨hne, hmid⟩)
  · rintro ⟨hhead, htail⟩ mid msg events back heq hmid hne
    cases mid with
    | nil =>
      obtain ⟨rfl, -⟩ := cons.inj heq
      exact hhead hne
    | cons q mid =>
      obtain ⟨rfl, hrest⟩ := cons.inj heq
      obtain ⟨hq, hmid⟩ := forall_mem_cons.1 hmid
      exact htail hq mid msg events back hrest hmid hne

/-- The first part of `Recovers`, message by message. -/
def Later (trace : List (FrontendMsg × List Event)) : Prop :=
  ∀ front msg events rest, trace = front ++ (msg, events) :: rest → Fails msg events →
    SilentUntilSync rest

theorem later_cons :
    Later (p :: trace) ↔ (Fails p.1 p.2 → SilentUntilSync trace) ∧ Later trace := by
  constructor
  · intro h
    exact ⟨h [] p.1 p.2 trace rfl, fun front msg events rest heq => h (p :: front) msg events rest
      (by rw [heq]; rfl)⟩
  · rintro ⟨hhead, htail⟩ front msg events rest heq hfails
    cases front with
    | nil =>
      cases heq
      exact hhead hfails
    | cons q front =>
      obtain ⟨rfl, hrest⟩ := cons.inj heq
      exact htail front msg events rest hrest hfails

theorem quiet_iff {failed : Prop} :
    Quiet failed trace ↔ (failed → SilentUntilSync trace) ∧ Later trace := by
  induction trace generalizing failed with
  | nil => exact iff_of_true trivial ⟨fun _ _ _ _ _ h => by simp at h, fun _ _ _ _ h => by simp at h⟩
  | cons p trace ih =>
    obtain ⟨msg, events⟩ := p
    -- `Sync` is not a message of the extended protocol, so it never fails
    have hsync : Fails msg events → msg ≠ .Sync := by
      rintro ⟨hext, -⟩ rfl
      exact absurd hext (by decide)
    rw [Quiet, ih, silentUntilSync_cons, later_cons]
    tauto

namespace Connection

variable {Db F : Type} (env : Env Db F) (c : Connection Db F)

/-! ## What a message sets off -/

/-- The session commands, which a simple query answers without the engine. -/
def is_session_command (sql : Text) : Bool :=
  let upper := env.to_uppercase (trim sql)
  starts_with upper "SET " || starts_with upper "SHOW " || starts_with upper "DEALLOCATE" ||
    starts_with upper "DISCARD" || starts_with upper "PREPARE "

/-- A statement of a simple query that reaches the engine. -/
def RunsText (sql : Text) : Prop :=
  is_session_command env sql = false ∧
    (starts_with (env.to_uppercase (trim sql)) "EXECUTE " → (execute_query env c sql).isOk)

/-- None of the statements reaches the engine. -/
def RunsNothing : Connection Db F → List Text → Prop
  | _, [] => True
  | c, sql :: stmts =>
    ¬ RunsText env c sql ∧ ∀ c', (handle_statement env c sql).1 = some c' → RunsNothing c' stmts

/-- A message that neither runs a statement nor creates a portal. -/
def Harmless : FrontendMsg → Prop
  | .Query sql => RunsNothing env c (split_statements (trim sql))
  | .Bind _ statement _ _ _ => c.prepared statement = none
  | .Describe kind name =>
    if Char.ofUInt8 kind = 'S' then
      ∀ stmt, c.prepared name = some stmt → query_starts env stmt.query "SELECT" = false
    else ∀ p, c.portals name = some p → query_starts env p.stmt.query "SELECT" = false
  | .Execute portal _ =>
    ∀ p, c.portals portal = some p → p.result.isSome ∨
      query_starts env (substitute_params env p.stmt.query p.params p.param_formats) "SET " = true
  | _ => True

/-- A message of the extended protocol that is answered with an error: it names something
that does not exist, or the engine refuses the text it runs. -/
def Refused : FrontendMsg → Prop
  | .Bind _ statement _ _ _ => c.prepared statement = none
  | .Describe kind name =>
    if Char.ofUInt8 kind = 'S' then c.prepared name = none else c.portals name = none
  | .Execute portal _ =>
    c.portals portal = none ∨ ∃ p, c.portals portal = some p ∧ p.result = none ∧
      query_starts env (substitute_params env p.stmt.query p.params p.param_formats) "SET " = false ∧
      ∃ msg, (env.execute c.db (substitute_params env p.stmt.query p.params p.param_formats)).1 =
        some (.error msg)
  | _ => False

/-- While an error is open the client sends harmless messages only, up to its `Sync`. -/
def Waits : Prop → Connection Db F → List FrontendMsg → Prop
  | _, _, [] => True
  | _, _, .Terminate :: _ => True
  | failed, c, msg :: msgs =>
    (failed → msg ≠ .Sync → Harmless env c msg) ∧ ∀ c', (handle env c msg).1 = some c' →
        Waits (msg ≠ .Sync ∧ (failed ∨ Refused env c msg)) c' msgs

@[simp] theorem silent_nil : Silent [] := nofun

@[simp] theorem silent_cons {e : Event} {events : List Event} :
    Silent (e :: events) ↔ e.acts = false ∧ Silent events := forall_mem_cons

@[simp] theorem silent_append {a b : List Event} : Silent (a ++ b) ↔ Silent a ∧ Silent b :=
  forall_mem_append

@[simp] theorem acts_sent (m : BackendMsg) : (Event.sent m).acts = false := rfl

variable (sql portal : Text)

@[simp] theorem acts_executed : (Event.executed sql).acts = true := rfl

@[simp] theorem acts_portal_created (name : Text) : (Event.portal_created name).acts = true := rfl

@[simp] theorem acts_statement : (Event.statement sql).acts = false := rfl

@[simp] theorem acts_command_complete (tag : Text) : (command_complete tag).acts = false := rfl

@[simp] theorem acts_error_response (code : String) (msg : Text) :
    (error_response code msg).acts = false := rfl

@[simp] theorem acts_engine_error (msg : Text) : (engine_error env msg).acts = false := rfl

theorem not_silent_run_statement : ¬ Silent (run_statement env c sql).2 := by
  unfold run_statement
  split <;> simp

theorem silent_handle_statement : Silent (handle_statement env c sql).2 ↔ ¬ RunsText env c sql := by
  unfold handle_statement RunsText is_session_command
  dsimp only
  split_ifs with hset hshow hdeallocate hdiscard hprepare hexecute
  · simp [hset]
  · simp [hshow]
  · simp [hdeallocate]
  · simp [hdiscard]
  · rcases parse_prepare env sql with _ | _ | ⟨name, query⟩ <;> simp [hprepare]
  · cases hquery : execute_query env c sql with
    | ok query => simp [hset, hshow, hdeallocate, hdiscard, hprepare, Except.isOk, Except.toBool,
        not_silent_run_statement]
    | error msg => simp [hexecute, Except.isOk, Except.toBool]
  · simp [hset, hshow, hdeallocate, hdiscard, hprepare, hexecute, not_silent_run_statement]

theorem silent_handle_statements (stmts : List Text) :
    Silent (handle_statements env c stmts).2 ↔ RunsNothing env c stmts := by
  induction stmts generalizing c with
  | nil => exact iff_of_true silent_nil trivial
  | cons sql stmts ih =>
    have hone := silent_handle_statement env c sql
    rw [handle_statements, RunsNothing, ← hone]
    cases hstep : handle_statement env c sql with
    | mk after events =>
      cases after with
      | none => simp
      | some c' => simp [ih]

theorem silent_handle_simple_query :
    Silent (handle_simple_query env c sql).2 ↔ RunsNothing env c (split_statements (trim sql)) := by
  rw [← silent_handle_statements]
  unfold handle_simple_query
  dsimp only
  split_ifs with hempty
  · rw [hempty]
    exact iff_of_true (by simp) (by simp [split_statements, pieces, trim, trim_start, trim_end,
      handle_statements])
  · split
    · next events hrun => rw [hrun]
    · next c' events hrun => simp [hrun]

theorem silent_send_rows (p : Portal F) (result : QueryResult F) (max_rows : ℕ) :
    Silent (send_rows env c portal p result max_rows).2 := by
  have hrows : ∀ rows : List (List (Sql.Value F)), Silent (rows.map (data_row env)) := by
    intro rows e he
    obtain ⟨row, -, rfl⟩ := mem_map.1 he
    rfl
  refine silent_append.2 ⟨silent_append.2 ⟨?_, hrows _⟩, ?_⟩ <;> split_ifs <;> simp

theorem silent_describe_query (query sql : Text) :
    Silent (describe_query env c query sql).2 ↔ query_starts env query "SELECT" = false := by
  unfold describe_query
  split_ifs with hselect
  · split <;> simp [hselect]
  · simp [hselect]

/-- **One message** is silent exactly when it is harmless. -/
theorem silent_handle (msg : FrontendMsg) : Silent (handle env c msg).2 ↔ Harmless env c msg := by
  cases msg with
  | Query sql => exact silent_handle_simple_query env c sql
  | Bind portal statement param_formats params result_formats =>
    show Silent (handle_bind c portal statement param_formats params result_formats).2 ↔ _ = _
    unfold handle_bind
    cases c.prepared statement <;> simp
  | Describe kind name =>
    show Silent (handle_describe env c kind name).2 ↔ ite _ _ _
    unfold handle_describe
    split_ifs
    · cases c.prepared name <;> simp [silent_describe_query]
    · cases c.portals name <;> simp [silent_describe_query]
  | Execute portal max_rows =>
    show Silent (handle_execute env c portal max_rows).2 ↔ ∀ p, _
    unfold handle_execute
    cases hportal : c.portals portal with
    | none => simp
    | some p =>
      cases hresult : p.result with
      | some result => simp [hresult, silent_send_rows]
      | none =>
        simp only [hresult]
        split_ifs with hset
        · simp [hset, silent_send_rows]
        · split <;> simp [hresult, hset]
  | Sync | Flush => exact iff_of_true (by simp [handle]) trivial
  | Parse name query param_types => exact iff_of_true (by simp [handle, handle_parse]) trivial
  | Close kind name => exact iff_of_true (by simp [handle, handle_close]) trivial
  | Terminate | CopyData data | CopyDone | CopyFail reason | PasswordMessage password =>
    exact iff_of_true (by simp [handle]) trivial

/-! ## Errors -/

/-- No event is an error. -/
def Clean (events : List Event) : Prop := ∀ e ∈ events, e.is_error = false

@[simp] theorem clean_cons {e : Event} {events : List Event} :
    Clean (e :: events) ↔ e.is_error = false ∧ Clean events := forall_mem_cons

theorem clean_send_rows (p : Portal F) (result : QueryResult F) (max_rows : ℕ) :
    Clean (send_rows env c portal p result max_rows).2 := by
  intro e he
  obtain he | he := mem_append.1 he
  · obtain he | he := mem_append.1 he
    · split_ifs at he
      · rw [mem_singleton.1 he]; rfl
      · simp at he
    · obtain ⟨row, -, rfl⟩ := mem_map.1 he
      rfl
  · rw [mem_singleton.1 he]
    split_ifs <;> rfl

theorem clean_describe_query (query sql : Text) : Clean (describe_query env c query sql).2 := by
  unfold describe_query
  split_ifs
  · split
    · exact clean_cons.2 ⟨rfl, nofun⟩
    · refine clean_cons.2 ⟨rfl, clean_cons.2 ⟨?_, nofun⟩⟩
      split_ifs <;> rfl
    · exact clean_cons.2 ⟨rfl, clean_cons.2 ⟨rfl, nofun⟩⟩
  · exact clean_cons.2 ⟨rfl, nofun⟩

/-- An error is there exactly when the message is refused, and then it comes last. -/
def ErrorIf (refused : Prop) (events : List Event) : Prop :=
  (¬ refused ∧ Clean events) ∨
    (refused ∧ ∃ first err, events = first ++ [err] ∧ err.is_error ∧ Clean first)

theorem errorIf_only {refused : Prop} (h : refused) (code : String) (msg : Text) :
    ErrorIf refused [error_response code msg] :=
  .inr ⟨h, [], _, rfl, rfl, nofun⟩

theorem errorIf_bind (statement : Text) (param_formats : List ℤ)
    (params : List (Option (List UInt8))) (result_formats : List ℤ) :
    ErrorIf (c.prepared statement = none)
      (handle_bind c portal statement param_formats params result_formats).2 := by
  unfold handle_bind
  cases c.prepared statement with
  | none => exact errorIf_only rfl _ _
  | some stmt => exact .inl ⟨nofun, by simp [Clean, Event.is_error]⟩

theorem errorIf_describe (kind : UInt8) (name : Text) :
    ErrorIf (Refused env c (.Describe kind name)) (handle_describe env c kind name).2 := by
  unfold handle_describe
  show ErrorIf (if _ then _ else _) _
  split_ifs
  · cases c.prepared name with
    | none => exact errorIf_only rfl _ _
    | some stmt => exact .inl ⟨nofun, clean_cons.2 ⟨rfl, clean_describe_query env c _ _⟩⟩
  · cases c.portals name with
    | none => exact errorIf_only rfl _ _
    | some p => exact .inl ⟨nofun, clean_describe_query env c _ _⟩

theorem errorIf_execute (max_rows : ℕ) :
    ErrorIf (Refused env c (.Execute portal max_rows)) (handle_execute env c portal max_rows).2 := by
  unfold handle_execute
  show ErrorIf (_ ∨ ∃ p, _) _
  cases hportal : c.portals portal with
  | none => exact errorIf_only (.inl rfl) _ _
  | some p =>
    cases hresult : p.result with
    | some result =>
      refine .inl ⟨?_, by simpa [hresult] using clean_send_rows env c portal p result max_rows⟩
      rintro (h | ⟨q, hq, hnone, -⟩)
      · exact absurd h nofun
      · rw [← Option.some.inj hq, hresult] at hnone
        exact absurd hnone nofun
    | none =>
      simp only [hresult]
      split_ifs with hset
      · refine .inl ⟨?_, clean_send_rows env c portal _ _ max_rows⟩
        rintro (h | ⟨q, hq, -, hnot, -⟩)
        · exact absurd h nofun
        · rw [← Option.some.inj hq, hset] at hnot
          exact absurd hnot nofun
      · -- the engine decides
        have hiff : (False ∨ ∃ q, some p = some q ∧ q.result = none ∧
            query_starts env (substitute_params env q.stmt.query q.params q.param_formats) "SET " = false ∧
            ∃ msg, (env.execute c.db (substitute_params env q.stmt.query q.params q.param_formats)).1 =
              some (.error msg)) ↔
            ∃ msg, (env.execute c.db (substitute_params env p.stmt.query p.params p.param_formats)).1 =
              some (.error msg) := by
          simp [hresult, hset]
        rw [ErrorIf, hiff]
        split
        · next heq => exact .inl ⟨by simp [heq], clean_cons.2 ⟨rfl, nofun⟩⟩
        · next msg db heq =>
          exact .inr ⟨⟨msg, by rw [heq]⟩, [_], _, rfl, rfl, clean_cons.2 ⟨rfl, nofun⟩⟩
        · next result db heq =>
          exact .inl ⟨by simp [heq], clean_cons.2 ⟨rfl, clean_send_rows env _ portal _ result max_rows⟩⟩

/-- The handlers of the extended protocol answer with an error when the message is refused. -/
theorem errorIf_handle (msg : FrontendMsg) (h : msg.is_extended) :
    ErrorIf (Refused env c msg) (handle env c msg).2 := by
  cases msg with
  | Bind portal statement param_formats params result_formats =>
    exact errorIf_bind c portal statement param_formats params result_formats
  | Describe kind name => exact errorIf_describe env c kind name
  | Execute portal max_rows => exact errorIf_execute env c portal max_rows
  | _ => exact absurd h (by simp [FrontendMsg.is_extended])

theorem fails_iff (msg : FrontendMsg) : Fails msg (handle env c msg).2 ↔ Refused env c msg := by
  by_cases hext : msg.is_extended
  · rw [Fails, and_iff_right hext]
    obtain ⟨hnot, hclean⟩ | ⟨href, first, err, heq, herr, -⟩ := errorIf_handle env c msg hext
    · refine iff_of_false (fun ⟨e, he, herr⟩ => ?_) hnot
      rw [hclean e he] at herr
      exact absurd herr nofun
    · exact iff_of_true ⟨err, by simp [heq], herr⟩ href
  · refine iff_of_false (fun h => hext h.1) ?_
    cases msg <;> first | exact id | exact absurd rfl hext

/-! ## Whole runs -/

theorem run_cons {msg : FrontendMsg} (h : msg ≠ .Terminate) (msgs : List FrontendMsg) :
    run env c (msg :: msgs) = (msg, (handle env c msg).2) ::
      (match (handle env c msg).1 with
        | none => []
        | some c' => run env c' msgs) := by
  rw [run]
  · rcases handle env c msg with ⟨_ | c', events⟩ <;> rfl
  · exact h

theorem quiet_run_iff {failed : Prop} (msgs : List FrontendMsg) :
    Quiet failed (run env c msgs) ↔ Waits env failed c msgs := by
  induction msgs generalizing c failed with
  | nil => exact Iff.rfl
  | cons msg msgs ih =>
    by_cases hterm : msg = .Terminate
    · subst hterm
      exact Iff.rfl
    have hrun := run_cons env c hterm msgs
    have hwaits : Waits env failed c (msg :: msgs) ↔
        (failed → msg ≠ .Sync → Harmless env c msg) ∧ ∀ c', (handle env c msg).1 = some c' →
          Waits env (msg ≠ .Sync ∧ (failed ∨ Refused env c msg)) c' msgs := by
      rwa [Waits]
    rw [hrun, hwaits, Quiet, silent_handle, fails_iff]
    refine and_congr Iff.rfl ?_
    cases (handle env c msg).1 with
    | none => exact iff_of_true trivial nofun
    | some c' =>
      rw [ih]
      exact ⟨fun h d hd => Option.some.inj hd ▸ h, fun h => h c' rfl⟩

theorem mem_run {msgs : List FrontendMsg} {p : FrontendMsg × List Event}
    (h : p ∈ run env c msgs) : ∃ c', p.2 = (handle env c' p.1).2 := by
  induction msgs generalizing c with
  | nil => exact absurd h not_mem_nil
  | cons msg msgs ih =>
    by_cases hterm : msg = .Terminate
    · subst hterm
      exact absurd h not_mem_nil
    rw [run_cons env c hterm] at h
    obtain rfl | h := mem_cons.1 h
    · exact ⟨c, rfl⟩
    · cases hafter : (handle env c msg).1 with
      | none => simp [hafter] at h
      | some c' =>
        rw [hafter] at h
        exact ih c' h

/-- In its own handler nothing comes behind an error. -/
theorem run_error_last (msgs : List FrontendMsg) :
    ∀ p ∈ run env c msgs, p.1.is_extended → ∀ first e rest, p.2 = first ++ e :: rest →
      e.is_error → Silent rest := by
  intro p hp hext first e rest hevents herr
  obtain ⟨c', hc'⟩ := mem_run env c hp
  obtain ⟨-, hclean⟩ | ⟨-, front, err, heq, -, hclean⟩ := errorIf_handle env c' p.1 hext
  · have := hclean e (by rw [← hc', hevents]; simp)
    rw [herr] at this
    exact absurd this nofun
  · rw [← hc', hevents] at heq
    induction rest using reverseRecOn with
    | nil => exact silent_nil
    | append_singleton rest x _ =>
      -- the error would be among the events before the last
      rw [← cons_append, ← append_assoc] at heq
      have hfront := append_inj_left' heq rfl
      have := hclean e (by rw [← hfront]; simp)
      rw [herr] at this
      exact absurd this nofun

end Connection

theorem recovers_iff (h : ∀ p ∈ trace, p.1.is_extended →
      ∀ first e rest, p.2 = first ++ e :: rest → e.is_error → Silent rest) :
    Recovers trace ↔ Quiet False trace := by
  rw [quiet_iff, Recovers, and_iff_left h]
  constructor
  · intro hrec
    exact ⟨False.elim, fun front msg events rest heq hfails mid msg' events' back hrest =>
      hrec front msg events mid msg' events' back (hrest ▸ heq) hfails⟩
  · rintro ⟨-, hlater⟩ front msg events mid msg' events' back heq hfails
    exact hlater front msg events _ heq hfails mid msg' events' back rfl

namespace Connection

variable {Db F : Type} (env : Env Db F)

/-- **Recovery from errors.** A run keeps quiet between an error and the next `Sync`
exactly when the client waits. -/
theorem run_recovers_iff (c : Connection Db F) (msgs : List FrontendMsg) :
    Recovers (run env c msgs) ↔ Waits env False c msgs := by
  rw [recovers_iff (run_error_last env c msgs), quiet_run_iff]

/-- A `Bind` of an unknown statement fails, and the `Execute` behind it runs the portal of an
earlier `Bind`, with no `Sync` between. -/
theorem execute_after_failed_bind :
    let msgs := [.Parse "s".toList "DELETE FROM t".toList [], .Bind "p".toList "s".toList [] [] [],
      .Bind "p".toList "missing".toList [] [] [], .Execute "p".toList 0, .Sync]
    ¬ Recovers (run idle fresh msgs) := by
  intro msgs h
  have htrace : run idle fresh msgs =
      [(.Parse "s".toList "DELETE FROM t".toList [], [.sent .ParseComplete]),
        (.Bind "p".toList "s".toList [] [] [], [.portal_created "p".toList, .sent .BindComplete])] ++
      (.Bind "p".toList "missing".toList [] [] [],
        [error_response "26000" "prepared statement \"missing\" does not exist".toList]) ::
      ([] ++ (.Execute "p".toList 0, [.executed "DELETE FROM t".toList, command_complete []]) ::
        [(.Sync, [.sent (.ReadyForQuery 'I')])]) := by
    decide +kernel
  have hsilent := h.1 _ _ _ _ _ _ _ htrace ⟨rfl, _, mem_cons_self, rfl⟩ nofun nofun
  exact absurd (hsilent _ mem_cons_self) (by decide)

end Connection

end Oigrap.Server

/-
The parser reads a `SELECT`.

The clauses stand in a fixed order, each behind its own keyword. `From k` says that the next
token begins a clause of stage `k` or a later one, or ends the `SELECT`; each clause is read in
front of the next stage.
-/
import Oigrap.Sql.ParserExpr

namespace Oigrap.Sql.Parser

open Parsing Parsing.Phrase Grammar List

variable {F : Type} {texts : Texts F} {depth : ℕ}

theorem reads_expr [DecidableEq F] : Reads (parse_expr texts depth 0) (Expression texts) AfterExpr :=
  (readsExpr texts depth).reads

/-! ## The clauses in their order -/

/-- The place of the keyword of a clause; what can follow a `SELECT` comes last. -/
def stage : Token F → ℕ
  | .From => 1
  | .Where => 2
  | .Group => 3
  | .Having => 4
  | .Order => 5
  | .Limit => 6
  | .Offset => 7
  | .RightParen | .Union | .Semicolon | .EOF => 8
  | _ => 0

/-- A clause of stage `k` or a later one follows. -/
def From (k : ℕ) (rest : List (Token F)) : Prop := 0 < k ∧ k ≤ stage (rest.headD .EOF)

variable {rest ts : List (Token F)} {After : List (Token F) → Prop} {α : Type} {G : Production F α}
  {p : Parser F α} (kw : Token F)
  {k : ℕ} {tok : Token F} {a : Option String} {join : Option (JoinClause F)} {name : String}

theorem From.mono {l : ℕ} (hk : 0 < k) (hkl : k ≤ l) (h : From l rest) :
    From k rest := ⟨hk, hkl.trans h.2⟩

theorem From.other {kw : Token F} (h : From k rest) (hkw : stage kw < k) : Other .EOF kw rest := by
  intro heq
  have hle := h.2
  rw [heq] at hle
  omega

/-- Tokens behind which a table of a `FROM` is over. -/
def ends_table : Token F → Bool
  | .As | .On | .Join | .Inner | .Left | .Right | .Full | .Cross | .QuotedIdent _ => false
  | tok => ends_expr tok

theorem From.ends_table (h : From k rest) : ends_table (rest.headD .EOF) = true := by
  obtain ⟨hk, hle⟩ := h
  generalize rest.headD .EOF = tok at hle
  cases tok <;> first | rfl | (exact absurd hle (by simp [stage]; omega))

theorem ends_expr_of_ends_table (h : ends_table tok = true) : ends_expr tok = true := by
  cases tok <;> first | exact h | rfl

theorem From.afterExpr (h : From k rest) : AfterExpr rest :=
  .inl (ends_expr_of_ends_table h.ends_table)

theorem other_of_ends_table {kw : Token F} (h : ends_table (rest.headD .EOF) = true)
    (hkw : ends_table kw = false) : Other .EOF kw rest := by
  intro heq
  rw [heq, hkw] at h
  cases h

variable [DecidableEq F]

/-! ## Columns -/

/-- An alias is read as it stands; without one no alias may follow. -/
theorem parse_alias_eq {bare : Token F → Bool} (ha : Alias bare a ts) (has : bare .As = false)
    (hrest : a = none → Other .EOF .As rest ∧ bare (rest.headD .EOF) = false) :
    parse_alias texts bare (ts ++ rest) = .ok (a, rest) := by
  cases ha with
  | none =>
    obtain ⟨hother, hbare⟩ := hrest rfl
    refine bind_of_ok (skip_other hother) (bind_eq_ok.2 ⟨rest.headD .EOF, rest, rfl, ?_⟩)
    rw [hbare]
    rfl
  | as_name hident =>
    refine bind_of_ok (skip_kw _) ?_
    rw [if_pos rfl, map_eq_pure_bind]
    exact bind_of_ok (expect_ident_cons rest hident) rfl
  | @bare tok s hb hident =>
    have hne : tok ≠ .As := by
      rintro rfl
      simp [has] at hb
    refine bind_of_ok (skip_ne hne _) (bind_eq_ok.2 ⟨tok, _, rfl, ?_⟩)
    rw [if_pos hb, map_eq_pure_bind]
    exact bind_of_ok (expect_ident_cons rest hident) rfl

/-- Tokens that an expression can begin with. -/
def starts_expr : Token F → Bool
  | .IntLiteral _ | .FloatLiteral _ | .StringLiteral _ | .True | .False | .Null | .Star | .Minus
  | .Not | .LeftParen | .Ident _ | .QuotedIdent _ | .Cast => true
  | _ => false

omit [DecidableEq F] in
theorem Expression.head {e : Expr F} (h : Expression texts e ts) :
    ∃ tok us, ts = tok :: us ∧ starts_expr tok = true := by
  obtain ⟨p, tl, hp, -, rfl⟩ := expression_split h
  cases hp with
  | neg | not => exact ⟨_, _, rfl, rfl⟩
  | atom h =>
    cases h with
    | @column tok _ hname | @qualified tok _ _ _ hname | @call tok _ _ _ hname
    | @qualified_call tok _ _ _ _ _ hname | @window tok _ _ _ _ _ _ _ _ hname =>
      refine ⟨_, _, rfl, ?_⟩
      cases tok <;> first | rfl | cases hname
    | _ => exact ⟨_, _, rfl, rfl⟩

/-- A select column is over. -/
def AfterColumn (rest : List (Token F)) : Prop :=
  ends_expr (rest.headD .EOF) = true ∧ Other .EOF .As rest

theorem reads_select_column :
    Reads (parse_select_column texts depth) (Column texts) AfterColumn := by
  rintro c ts rest hc ⟨hends, has⟩ c' rest' h
  cases hc with
  | star =>
    cases ok_of_bind (skip_kw _) h
    exact ⟨rfl, .star⟩
  | @expr e a ts us he hstar ha =>
    obtain ⟨tok, ts, rfl, -⟩ := Expression.head he
    have hne : tok ≠ .Star := fun heq => hstar (by rw [heq]; rfl)
    rw [append_assoc] at h
    have h1 := ok_of_bind (skip_ne hne _) h
    have hident : is_ident (rest.headD .EOF) = false := by
      generalize rest.headD .EOF = tok at hends
      cases tok <;> first | rfl | cases hends
    have hafter : AfterExpr (us ++ rest) := by
      cases ha with
      | none => exact .inl hends
      | as_name => exact .inl rfl
      | @bare tok s hb _ =>
        cases tok <;> cases hb
        exact .inr ⟨_, rest, rfl, fun heq => by rw [heq] at hends; cases hends⟩
    obtain ⟨e', hG, h2⟩ := reads_expr.peel he hafter h1
    cases ok_of_bind (parse_alias_eq ha rfl fun _ => ⟨has, hident⟩) h2
    exact ⟨rfl, .expr hG hstar ha⟩

/-! ## Tables -/

theorem parse_join_kind_words {kind : JoinKind} (h : JoinWords kind ts) (rest : List (Token F)) :
    parse_join_kind texts (ts ++ rest) = .ok (some kind, rest) := by
  have houter : (.Join : Token F) ≠ .Outer := nofun
  have hjoin : ∀ (kind : JoinKind), (do
      let _ ← skip .EOF .Outer
      expect texts .Join
      return some kind : Parser F (Option JoinKind)) (.Join :: rest) = .ok (some kind, rest) := fun _ =>
    bind_of_ok (skip_ne houter _) (bind_of_ok (expect_cons _ _) rfl)
  have houter_join : ∀ (kind : JoinKind), (do
      let _ ← skip .EOF .Outer
      expect texts .Join
      return some kind : Parser F (Option JoinKind)) (.Outer :: .Join :: rest) =
        .ok (some kind, rest) := fun _ =>
    bind_of_ok (skip_kw _) (bind_of_ok (expect_cons _ _) rfl)
  cases h with
  | join => rfl
  | inner | cross =>
    exact bind_of_ok rfl (bind_of_ok rfl (bind_of_ok (expect_cons _ _) rfl))
  | left | right | full => exact hjoin _
  | left_outer | right_outer | full_outer => exact houter_join _

theorem parse_join_kind_none (h : ends_table (rest.headD .EOF) = true) :
    parse_join_kind texts rest = .ok (none, rest) := by
  refine bind_eq_ok.2 ⟨_, rest, rfl, ?_⟩
  generalize rest.headD .EOF = tok at h
  cases tok <;> first | rfl | cases h

theorem reads_ident_list (h : ∀ ⦃rest⦄, After rest → Other .EOF .Comma rest) :
    Reads (parse_ident_list texts depth) (sep .Comma ident) After :=
  Reads.separated (reads_ident fun _ => True) (fun _ => trivial) (fun _ hrest => ⟨trivial, h hrest⟩) depth

omit [DecidableEq F] in
theorem parens_iff {a : α} :
    parens G a ts ↔ ∃ t, G a t ∧ ts = .LeftParen :: (t ++ [.RightParen]) := by
  constructor
  · rintro ⟨_, t, u, rfl, ⟨b, v, w, hb, ⟨_, x, y, rfl, ⟨rfl, rfl⟩, rfl⟩, rfl⟩, rfl⟩
    exact ⟨v, hb, rfl⟩
  · rintro ⟨t, ht, rfl⟩
    exact ⟨(), _, _, rfl, ⟨a, t, _, ht, ⟨(), _, [], rfl, ⟨rfl, rfl⟩, rfl⟩, rfl⟩, rfl⟩

theorem reads_parenthesized (hp : Reads p G fun rest => rest.headD .EOF = .RightParen)
    (After : List (Token F) → Prop) : Reads (parenthesized texts p) (parens G) After := by
  intro a ts rest ha _ a' rest' h
  obtain ⟨t, ht, rfl⟩ := parens_iff.1 ha
  simp only [cons_append, append_assoc, nil_append] at h
  have h1 := ok_of_bind (expect_cons _ _) h
  obtain ⟨b, hb, h2⟩ := hp.peel ht rfl h1
  have h3 := ok_of_bind (expect_cons _ _) h2
  cases h3
  exact ⟨rfl, parens_iff.2 ⟨t, hb, rfl⟩⟩

/-- Names between parentheses. -/
theorem reads_idents (After : List (Token F) → Prop) :
    Reads (parenthesized texts (parse_ident_list texts depth)) (parens (sep .Comma ident)) After :=
  reads_parenthesized (reads_ident_list fun rest hhead heq => by rw [hhead] at heq; cases heq) After

theorem reads_join_condition {kind : JoinKind} :
    Reads (parse_join_condition texts depth kind) (JoinOn texts kind a) fun rest =>
      ends_expr (rest.headD .EOF) = true ∧ Other .EOF .On rest := by
  rintro c ts rest hc ⟨hends, hon⟩ c' rest' h
  cases hc with
  | on he =>
    have h1 := ok_of_bind (skip_kw _) h
    obtain ⟨e', hG, h2⟩ := reads_expr.peel he (.inl hends) h1
    cases h2
    exact ⟨rfl, .on hG⟩
  | @using_cols tok cols ts hnone hword hcols =>
    have hne : tok ≠ .On := by
      rintro rfl
      cases hword
    have h1 := ok_of_bind (skip_ne hne _) h
    have h2 := ok_of_bind rfl h1
    rw [headD_cons, if_pos hword] at h2
    have h3 := ok_of_bind rfl h2
    obtain ⟨cols', hcols', h4⟩ := (reads_idents (fun _ => True)).peel hcols trivial h3
    cases h4
    exact ⟨rfl, .using_cols hnone hword hcols'⟩
  | none hkind =>
    have h1 := ok_of_bind (skip_other hon) h
    have h2 := ok_of_bind rfl h1
    have hword : is_word "USING" (rest.headD .EOF) = false := by
      generalize rest.headD .EOF = tok at hends
      cases tok <;> first | rfl | cases hends
    rw [hword] at h2
    simp only [Bool.false_eq_true, if_false, hkind] at h2
    cases h2
    exact ⟨rfl, .none hkind⟩

omit [DecidableEq F] in
theorem joins_follow (h : Joins texts join ts) (hrest : ends_table (rest.headD .EOF) = true) :
    ends_expr ((ts ++ rest).headD .EOF) = true ∧ Other .EOF .On (ts ++ rest) ∧
      Other .EOF .As (ts ++ rest) ∧ is_name ((ts ++ rest).headD .EOF) = false := by
  cases h with
  | none =>
    refine ⟨ends_expr_of_ends_table hrest, other_of_ends_table hrest rfl, other_of_ends_table hrest rfl, ?_⟩
    rw [nil_append]
    generalize rest.headD .EOF = tok at hrest
    cases tok <;> first | rfl | cases hrest
  | join hwords => cases hwords <;> exact ⟨rfl, nofun, nofun, rfl⟩

theorem reads_joins (n : ℕ) : Reads (parse_optional_join texts depth n) (Joins texts)
    fun rest => ends_table (rest.headD .EOF) = true := by
  induction n with
  | zero =>
    intro join ts rest hj hrest join' rest' h
    cases h
  | succ n ih =>
    intro join ts rest hj hrest join' rest' h
    cases hj with
    | none =>
      cases ok_of_bind (parse_join_kind_none hrest) h
      exact ⟨rfl, .none⟩
    | @join kind tok name a condition nested ts us vs ws hwords hname ha hon hnested =>
      simp only [append_assoc, cons_append] at h
      have h1 := ok_of_bind (parse_join_kind_words hwords _) h
      have h2 := ok_of_bind (expect_ident_cons _ hname) h1
      obtain ⟨hends, hother, has, hident⟩ := joins_follow hnested hrest
      have hfollow : a = none → Other .EOF .As (vs ++ (ws ++ rest)) ∧
          is_ident ((vs ++ (ws ++ rest)).headD .EOF) = false := by
        rintro rfl
        cases hon with
        | on => exact ⟨nofun, rfl⟩
        | using_cols hne => exact absurd rfl hne
        | none => exact ⟨has, (Bool.or_eq_false_iff.1 hident).1⟩
      have h3 := ok_of_bind (parse_alias_eq ha rfl hfollow) h2
      obtain ⟨condition', hon', h4⟩ := reads_join_condition.peel hon ⟨hends, hother⟩ h3
      obtain ⟨nested', hnested', h5⟩ := ih.peel hnested hrest h4
      cases h5
      exact ⟨rfl, .join hwords hname ha hon' hnested'⟩

theorem parse_table_name_bare (hname : ident_of tok = some name) (hrest : Other .EOF .Dot rest) :
    parse_table_name texts (tok :: rest) = .ok (name, rest) :=
  bind_of_ok (expect_ident_cons rest hname) (bind_of_ok (skip_other hrest) rfl)

theorem parse_table_name_qualified {tok' : Token F} {space : String} (rest : List (Token F))
    (hspace : ident_of tok = some space) (hname : ident_of tok' = some name) :
    parse_table_name texts (tok :: .Dot :: tok' :: rest) = .ok (space ++ "." ++ name, rest) :=
  bind_of_ok (expect_ident_cons _ hspace) (bind_of_ok (skip_kw _)
    (bind_of_ok (expect_ident_cons rest hname) rfl))

theorem parse_table_rest {t us rest' : List (Token F)} {r : TableRef F} (ha : Alias is_name a ts)
    (hjoin : Joins texts join us) (hrest : ends_table (rest.headD .EOF) = true)
    (hname : parse_table_name texts t = .ok (name, ts ++ (us ++ rest)))
    (h : parse_table_ref texts depth t = .ok (r, rest')) :
    rest' = rest ∧ ∃ join', r = .mk name a join' ∧ Joins texts join' us := by
  have h1 := ok_of_bind hname h
  obtain ⟨-, -, has, hident⟩ := joins_follow hjoin hrest
  have h2 := ok_of_bind (parse_alias_eq ha rfl fun _ => ⟨has, hident⟩) h1
  obtain ⟨join', hjoin', h3⟩ := (reads_joins depth).peel hjoin hrest h2
  cases h3
  exact ⟨rfl, join', rfl, hjoin'⟩

theorem reads_table_ref : Reads (parse_table_ref texts depth) (Table texts)
    fun rest => ends_table (rest.headD .EOF) = true := by
  intro r ts rest hr hrest r' rest' h
  cases hr with
  | @bare tok name a join ts us hname ha hjoin =>
    have hdot : Other .EOF .Dot (ts ++ (us ++ rest)) := by
      cases ha with
      | none =>
        obtain ⟨hends, -⟩ := joins_follow hjoin hrest
        intro heq
        rw [nil_append] at heq
        rw [heq] at hends
        cases hends
      | as_name => exact nofun
      | @bare tok s hb _ =>
        rintro rfl
        cases hb
    simp only [cons_append, append_assoc] at h
    obtain ⟨rfl, join', rfl, hjoin'⟩ :=
      parse_table_rest ha hjoin hrest (parse_table_name_bare hname hdot) h
    exact ⟨rfl, .bare hname ha hjoin'⟩
  | qualified hspace hname ha hjoin =>
    simp only [cons_append, append_assoc] at h
    obtain ⟨rfl, join', rfl, hjoin'⟩ :=
      parse_table_rest ha hjoin hrest (parse_table_name_qualified _ hspace hname) h
    exact ⟨rfl, .qualified hspace hname ha hjoin'⟩

/-! ## `SELECT` -/

theorem stage_optional (hkw : 0 < stage kw) (hp : Reads p G (From (stage kw + 1))) :
    Stage (optional .EOF kw p) (opt kw G) (From (stage kw + 1)) (From (stage kw)) :=
  .optional hp (fun _ h => h.other (Nat.lt_succ_self _)) (fun _ => ⟨hkw, le_rfl⟩)
    fun _ h => h.mono hkw (Nat.le_succ _)

theorem stage_clause {p : Parser F (List α)} {G : Production F (List α)} (hkw : 0 < stage kw)
    (hp : Reads p G (From (stage kw + 1))) :
    Stage (clause kw p) (list_clause kw G) (From (stage kw + 1)) (From (stage kw)) :=
  (stage_optional kw hkw hp).bind fun _ => .pure _

theorem reads_clause {p : Parser F (List α)} {G : Production F (List α)} (hp : Reads p G After)
    (h : ∀ ⦃rest⦄, After rest → Other .EOF kw rest) :
    Reads (clause kw p) (list_clause kw G) After :=
  (hp.optional h).bind (fun _ => .pure fun _ h => h) (Uniform.pure _) fun _ => .pure _

theorem stage_expr (hkw : 0 < stage kw) :
    Stage (optional .EOF kw (parse_expr texts depth 0)) (opt kw (Expression texts))
      (From (stage kw + 1)) (From (stage kw)) :=
  stage_optional kw hkw (reads_expr.weaken fun _ h => h.afterExpr)

omit [DecidableEq F] in
theorem From.other_of {kw : Token F} (h : From k rest) (hkw : stage kw = 0) : Other .EOF kw rest :=
  h.other (hkw ▸ h.1)

/-- A keyword in front of what a clause holds. -/
theorem reads_by (hp : Reads p G After) : Reads (do expect texts .By; p) (do token .By; G) After :=
  (reads_expect .By fun _ => True).bind (fun _ _ _ _ _ _ => trivial) (.const _) fun _ => hp

theorem reads_distinct : Reads parse_distinct Distinct
    fun rest : List (Token F) => Other .EOF .Distinct rest ∧ Other .EOF .All rest := by
  rintro b ts rest hb ⟨hdistinct, hall⟩ b' rest' h
  cases hb with
  | none =>
    have h1 := ok_of_bind (skip_other hdistinct) h
    cases ok_of_bind (skip_other hall) h1
    exact ⟨rfl, .none⟩
  | all =>
    have hne : (.All : Token F) ≠ .Distinct := nofun
    have h1 := ok_of_bind (skip_ne hne _) h
    cases ok_of_bind (skip_kw _) h1
    exact ⟨rfl, .all⟩
  | distinct =>
    cases ok_of_bind (skip_kw _) h
    exact ⟨rfl, .distinct⟩

theorem reads_comma {After₁ : List (Token F) → Prop} (hp : Reads p G After₁)
    (hcomma : ∀ rest, After₁ (.Comma :: rest))
    (hafter : ∀ ⦃rest⦄, After rest → After₁ rest ∧ Other .EOF .Comma rest) :
    Reads (comma_separated depth p) (sep .Comma G) After :=
  hp.separated hcomma hafter depth

theorem reads_select_columns :
    Reads (parse_select_columns texts depth) (sep .Comma (Column texts)) (From 1) :=
  reads_comma reads_select_column (fun _ => ⟨rfl, nofun⟩) fun _ h =>
    ⟨⟨ends_expr_of_ends_table h.ends_table, h.other_of rfl⟩, h.other_of rfl⟩

theorem reads_table_refs :
    Reads (parse_table_refs texts depth) (sep .Comma (Table texts)) (From 2) :=
  reads_comma reads_table_ref (fun _ => rfl) fun _ h => ⟨h.ends_table, h.other_of rfl⟩

omit [DecidableEq F] in
theorem begins_columns : Begins (sep .Comma (Column texts)) (From 1)
    fun rest : List (Token F) => Other .EOF .Distinct rest ∧ Other .EOF .All rest := by
  intro cs ts hcs rest _
  obtain ⟨c, t, hc, us, rfl⟩ : ∃ c t, Column texts c t ∧ ∃ us, ts = t ++ us := by
    cases hcs with
    | one hc => exact ⟨_, _, hc, [], (append_nil _).symm⟩
    | more hc _ => exact ⟨_, _, hc, _, rfl⟩
  cases hc with
  | star => exact ⟨nofun, nofun⟩
  | expr he =>
    obtain ⟨tok, vs, rfl, htok⟩ := Expression.head he
    constructor
    · rintro rfl
      cases htok
    · rintro rfl
      cases htok

/-- **A `SELECT` behind its `WITH` clause.** -/
theorem reads_select_body : Reads (parse_select_body texts depth) (select_body texts) (From 8) := by
  have hselect : Stage (expect texts .Select) (token .Select) (fun _ => True) fun _ => True :=
    ⟨reads_expect _ _, .token fun _ => trivial⟩
  have hdistinct : Stage parse_distinct Distinct
      (fun rest : List (Token F) => Other .EOF .Distinct rest ∧ Other .EOF .All rest) fun _ => True :=
    ⟨reads_distinct, fun _ _ _ _ _ => trivial⟩
  have hgroup : Reads (do expect texts .By; parse_expr_list depth (parse_expr texts depth))
      (do token .By; expressions texts) (From 4) :=
    reads_by ((readsExpr texts depth).reads_list.weaken fun _ h => ⟨h.afterExpr, h.other_of rfl⟩)
  have horder : Reads (do expect texts .By; parse_order_by depth (parse_expr texts depth))
      (do token .By; sep .Comma (OrderItem (Expression texts))) (From 6) :=
    reads_by ((readsExpr texts depth).reads_order_by.weaken fun _ h =>
      ⟨h.afterExpr, h.other_of rfl, h.other_of rfl, h.other_of rfl⟩)
  exact (hselect.bind fun _ => hdistinct.bind fun _ => Stage.bind ⟨reads_select_columns, begins_columns⟩
    fun _ => (stage_clause .From Nat.one_pos reads_table_refs).bind
    fun _ => (stage_expr .Where (Nat.succ_pos 1)).bind
    fun _ => (stage_clause .Group (Nat.succ_pos 2) hgroup).bind
    fun _ => (stage_expr .Having (Nat.succ_pos 3)).bind
    fun _ => (stage_clause .Order (Nat.succ_pos 4) horder).bind
    fun _ => (stage_expr .Limit (Nat.succ_pos 5)).bind
    fun _ => (stage_expr .Offset (Nat.succ_pos 6)).bind fun _ => .pure _).reads

/-! ## `WITH` -/

section

variable {p : Parser F (SelectStmt F)} {S : Production F (SelectStmt F)} (hp : Reads p S (From 8))
  (hall : ∀ ⦃s ts⦄, S s ts → ∀ rest, Other .EOF .All (ts ++ rest))

include hp hall

theorem reads_union : Reads
    (optional .EOF .Union do
      let all ← skip .EOF .All
      let right ← p
      return (all, right))
    (Union S) fun rest => rest.headD .EOF = .RightParen := by
  intro u ts rest hu hrest u' rest' h
  cases hu with
  | none =>
    have hother : Other .EOF .Union rest := fun heq => by
      rw [hrest] at heq
      cases heq
    cases ok_of_bind (skip_other hother) h
    exact ⟨rfl, .none⟩
  | some hw hright =>
    simp only [cons_append, append_assoc] at h
    have h1 := ok_of_bind (skip_kw _) h
    rw [if_pos rfl, map_eq_pure_bind] at h1
    obtain ⟨x, y, h2, h3⟩ := bind_eq_ok.1 h1
    cases h3
    obtain ⟨all, hw', h4⟩ := (Reads.skip (fun _ h => h)).peel hw (hall hright rest) h2
    have hfollow : From 8 rest := ⟨Nat.succ_pos 7, by rw [hrest]; rfl⟩
    obtain ⟨right', hG, h5⟩ := hp.peel hright hfollow h4
    cases h5
    exact ⟨rfl, .some hw' hG⟩

theorem reads_cte : Reads (parse_cte texts p) (Cte S) fun _ => True := by
  intro c ts rest hc _ c' rest' h
  cases hc with
  | @mk recursive tok name query union_body ts us vs hrec hname hquery hunion =>
    have hne : tok ≠ .Recursive := by
      rintro rfl
      cases hname
    simp only [append_assoc, cons_append, nil_append] at h
    have hother : Other .EOF .Recursive
        (tok :: .As :: .LeftParen :: (us ++ (vs ++ .RightParen :: rest))) := hne
    obtain ⟨r, hrec', h1⟩ := (Reads.skip (fun _ h => h)).peel hrec hother h
    have h2 := ok_of_bind (expect_ident_cons _ hname) h1
    have h3 := ok_of_bind (expect_cons _ _) h2
    have h4 := ok_of_bind (expect_cons _ _) h3
    have hfollow : From 8 (vs ++ .RightParen :: rest) := by
      cases hunion with
      | none | some => exact ⟨Nat.succ_pos 7, le_rfl⟩
    obtain ⟨query', hquery', h5⟩ := hp.peel hquery hfollow h4
    obtain ⟨union', hunion', h6⟩ := (reads_union hp hall).peel hunion rfl h5
    cases ok_of_bind (expect_cons _ _) h6
    exact ⟨rfl, .mk hrec' hname hquery' hunion'⟩

end

omit [DecidableEq F] in
theorem with_iff {S : Production F (SelectStmt F)} {ctes : List (CteClause F)} :
    With S ctes ts ↔ list_clause .With (sep .Comma (Cte S)) ctes ts := by
  constructor
  · intro h
    cases h with
    | none => exact ⟨none, [], [], .inl ⟨rfl, rfl⟩, ⟨rfl, rfl⟩, rfl⟩
    | some hctes => exact ⟨some ctes, _, [], .inr ⟨_, _, rfl, hctes, rfl⟩, ⟨rfl, rfl⟩, (append_nil _).symm⟩
  · rintro ⟨o, t, u, ⟨rfl, rfl⟩ | ⟨cs, t, rfl, hcs, rfl⟩, ⟨rfl, rfl⟩, rfl⟩
    · exact .none
    · rw [append_nil]
      exact .some hcs

omit [DecidableEq F] in
theorem select_body_head {body : SelectBody F} (h : select_body texts body ts) :
    ∃ us, ts = .Select :: us := by
  obtain ⟨_, t, u, rfl, -, rfl⟩ := h
  exact ⟨u, rfl⟩

omit [DecidableEq F] in
theorem select_head {s : SelectStmt F} (h : Select texts s ts) :
    ∃ tok us, ts = tok :: us ∧ (tok = .Select ∨ tok = .With) := by
  cases h with
  | mk hwith hbody =>
    obtain ⟨us, rfl⟩ := select_body_head hbody
    cases hwith with
    | none => exact ⟨_, us, rfl, .inl rfl⟩
    | some => exact ⟨_, _, rfl, .inr rfl⟩

theorem reads_select (n : ℕ) : Reads (parse_select texts n) (Select texts) (From 8) := by
  induction n with
  | zero =>
    intro s ts rest hs hrest s' rest' h
    cases h
  | succ n ih =>
    intro s ts rest hs hrest s' rest' h
    have hall : ∀ ⦃s ts⦄, Select texts s ts → ∀ rest, Other .EOF .All (ts ++ rest) := by
      intro s ts hs rest
      obtain ⟨tok, us, rfl, rfl | rfl⟩ := select_head hs <;> exact nofun
    have hctes : Reads (comma_separated n (parse_cte texts (parse_select texts n)))
        (sep .Comma (Cte (Select texts))) (fun rest => Other .EOF .Comma rest ∧ Other .EOF .With rest) :=
      reads_comma (reads_cte ih hall) (fun _ => trivial) fun _ h => ⟨trivial, h.1⟩
    have hclause := reads_clause .With hctes fun _ h => h.2
    cases hs with
    | @mk ctes₀ body ts us hwith hbody =>
      obtain ⟨vs, rfl⟩ := select_body_head hbody
      rw [append_assoc] at h
      have hfollow : Other .EOF .Comma (.Select :: vs ++ rest) ∧ Other .EOF .With (.Select :: vs ++ rest) :=
        ⟨nofun, nofun⟩
      obtain ⟨ctes, hwith', h1⟩ := hclause.peel (with_iff.1 hwith) hfollow h
      obtain ⟨body', hbody', h2⟩ := reads_select_body.peel hbody hrest h1
      cases h2
      exact ⟨rfl, .mk (with_iff.2 hwith') hbody'⟩

end Oigrap.Sql.Parser

/-
The parser reads the grammar.

On the tokens of a statement, with nothing but a semicolon and the end behind them, a parser
that returns has used every token for the statement it returns. On any other input on which it
returns, some tokens are not part of the statement (`parse_tokens_accounts_iff`).
-/
import Oigrap.Sql.ParserSelect

namespace Oigrap.Sql.Parser

open Parsing Parsing.Phrase Grammar List Stage

variable {F : Type} [DecidableEq F] {texts : Texts F} {depth : ℕ}

/-! ## `INSERT`, `UPDATE` and `DELETE` -/

variable {After : List (Token F) → Prop} {tok : Token F} {rest ts : List (Token F)}

theorem stage_expect (tok : Token F) :
    Stage (expect texts tok) (token tok) After fun rest => rest.headD .EOF = tok :=
  ⟨reads_expect tok _, .token fun _ => rfl⟩

omit [DecidableEq F] in
theorem stage_ident : Stage (expect_ident texts) ident After Any :=
  ⟨reads_ident _, .one fun _ _ _ _ _ => trivial⟩

omit [DecidableEq F] in
theorem other_of_head {kw : Token F} (h : rest.headD .EOF = tok) (hne : tok ≠ kw) :
    Other .EOF kw rest := by
  rwa [Other, h]

omit [DecidableEq F] in
theorem afterExpr_of_head (h : rest.headD .EOF = tok) (htok : ends_expr tok = true) :
    AfterExpr rest := .inl (by rwa [h])

theorem reads_value_row : Reads (parse_value_row texts depth) (parens (expressions texts)) Any :=
  reads_parenthesized ((readsExpr texts depth).reads_list.weaken fun _ h =>
    ⟨afterExpr_of_head h rfl, other_of_head h nofun⟩) Any

theorem reads_insert : Reads (parse_insert texts depth) (insert_stmt texts) (From 8) := by
  have hidents : Reads (parse_ident_list texts depth) (sep .Comma ident)
      fun rest => rest.headD .EOF = .RightParen :=
    reads_ident_list fun _ h => other_of_head h nofun
  have hcols : Reads
      (do
        let cols ← parse_ident_list texts depth
        expect texts .RightParen
        return cols)
      (do
        let cols ← sep .Comma ident
        token .RightParen
        return cols) (fun rest : List (Token F) => rest.headD .EOF = .Values) :=
    ((of_reads hidents).bind fun _ => (stage_expect .RightParen).bind fun _ => .pure _).reads
  have hclause := reads_clause .LeftParen hcols fun _ h => other_of_head h nofun
  have hrows : Reads (comma_separated depth (parse_value_row texts depth))
      (sep .Comma (parens (expressions texts))) (From 8) :=
    reads_comma reads_value_row (fun _ => trivial) fun _ h => ⟨trivial, h.other_of rfl⟩
  exact ((stage_expect .Insert).bind fun _ => (stage_expect .Into).any.bind
    fun _ => stage_ident.bind fun _ => (of_reads hclause).bind
    fun _ => (stage_expect .Values).bind fun _ => (of_reads hrows).bind fun _ => .pure _).reads

theorem reads_assignment : Reads (parse_assignment texts depth) (assignment texts) AfterExpr :=
  (stage_ident.bind fun _ => (stage_expect .Eq).any.bind
    fun _ => (of_reads reads_expr).bind fun _ => .pure _).reads

/-- The alias of `UPDATE` and `DELETE`. -/
theorem stage_as (h : ∀ ⦃rest⦄, After rest → Other .EOF .As rest) :
    Stage (optional .EOF .As (expect_ident texts)) (opt .As ident) After Any :=
  .optional (reads_ident _) h (fun _ => trivial) fun _ _ => trivial

theorem stage_where : Stage (optional .EOF .Where (parse_expr texts depth 0))
    (opt .Where (Expression texts))
    (From 8) (From 2) :=
  have h : Stage (optional .EOF .Where (parse_expr texts depth 0)) (opt .Where (Expression texts))
      (From 3) (From 2) := stage_expr .Where (Nat.succ_pos 1)
  have hfrom : ∀ ⦃rest : List (Token F)⦄, From 8 rest → From 3 rest := fun _ hrest =>
    hrest.mono (Nat.succ_pos 2) (by omega)
  ⟨h.reads.weaken hfrom, fun _ _ hts _ hrest => h.begins hts (hfrom hrest)⟩

theorem reads_update : Reads (parse_update texts depth) (update_stmt texts) (From 8) := by
  have hassignments : Reads (comma_separated depth (parse_assignment texts depth))
      (sep .Comma (assignment texts)) (From 2) :=
    reads_comma reads_assignment (fun _ => .inl rfl) fun _ h => ⟨h.afterExpr, h.other_of rfl⟩
  have has : Stage (optional .EOF .As (expect_ident texts)) (opt .As ident)
      (fun rest => rest.headD .EOF = .Set) Any := stage_as fun _ h => other_of_head h nofun
  exact ((stage_expect .Update).bind fun _ => stage_ident.bind fun _ => has.bind
    fun _ => (stage_expect .Set).bind fun _ => (of_reads hassignments).bind
    fun _ => stage_where.bind fun _ => .pure _).reads

theorem reads_delete : Reads (parse_delete texts depth) (delete_stmt texts) (From 8) :=
  ((stage_expect .Delete).bind fun _ => (stage_expect .From).any.bind
    fun _ => stage_ident.bind fun _ => (stage_as fun _ h => From.other_of h rfl).bind
    fun _ => stage_where.bind fun _ => .pure _).reads

/-! ## `CREATE` and `DROP` -/

omit [DecidableEq F] in
theorem column_options_uniform {c d : ColumnDef F} (h : ColumnOptions texts c d ts)
    (c' : ColumnDef F) : ∃ d', ColumnOptions texts c' d' ts := by
  induction h generalizing c' with
  | none => exact ⟨c', .none⟩
  | not_null _ ih => exact (ih _).imp fun _ => .not_null
  | null _ ih => exact (ih _).imp fun _ => .null
  | primary_key _ ih => exact (ih _).imp fun _ => .primary_key
  | unique _ ih => exact (ih _).imp fun _ => .unique
  | default he hnot _ ih => exact (ih _).imp fun _ => .default he hnot

/-- A column is over. -/
def AfterEntry (rest : List (Token F)) : Prop :=
  rest.headD .EOF = .Comma ∨ rest.headD .EOF = .RightParen

/-- Tokens behind a type or a `DEFAULT`. -/
def goes_on : Token F → Bool
  | .Not | .Null | .Primary | .Unique | .Default | .Comma | .RightParen => true
  | _ => false

omit [DecidableEq F] in
theorem column_options_head {c d : ColumnDef F} (h : ColumnOptions texts c d ts)
    (hrest : AfterEntry rest) : goes_on ((ts ++ rest).headD .EOF) = true := by
  cases h with
  | none =>
    rw [nil_append]
    obtain hhead | hhead := hrest <;> rw [hhead] <;> rfl
  | _ => rfl

theorem reads_column_options (n : ℕ) (c : ColumnDef F) :
    Reads (parse_column_options texts depth n c) (ColumnOptions texts c) AfterEntry := by
  induction n generalizing c with
  | zero =>
    intro d ts rest hd hrest d' rest' h
    cases h
  | succ n ih =>
    intro d ts rest hd hrest d' rest' h
    have h1 := ok_of_bind rfl h
    cases hd with
    | none =>
      have hstop : (c, rest) = (d', rest') := by
        rw [nil_append] at h1
        obtain hhead | hhead := hrest
        · rw [hhead] at h1
          exact Except.ok.inj h1
        · rw [hhead] at h1
          exact Except.ok.inj h1
      cases hstop
      exact ⟨rfl, .none⟩
    | not_null hopts | primary_key hopts =>
      have h2 := ok_of_bind rfl h1
      have h3 := ok_of_bind (expect_cons _ _) h2
      obtain ⟨rfl, hopts'⟩ := ih _ hopts hrest h3
      exact ⟨rfl, by constructor; exact hopts'⟩
    | null hopts | unique hopts =>
      have h2 := ok_of_bind rfl h1
      obtain ⟨rfl, hopts'⟩ := ih _ hopts hrest h2
      exact ⟨rfl, by constructor; exact hopts'⟩
    | @default _ _ e ts us he hnot hopts =>
      have h2 := ok_of_bind rfl h1
      obtain ⟨e', w, he', h3⟩ := bind_eq_ok.1 h2
      have hafter : AfterExpr (us ++ rest) := by
        have hhead := column_options_head hopts hrest
        have hne : (us ++ rest).headD .EOF ≠ .Not := by
          cases us with
          | nil => obtain hr | hr := hrest <;> rw [nil_append, hr] <;> nofun
          | cons tok us => exact fun heq => hnot (congrArg some heq)
        refine .inl ?_
        generalize (us ++ rest).headD .EOF = tok at hhead hne
        cases tok <;> first | rfl | exact absurd rfl hne | cases hhead
      simp only [cons_append, append_assoc, tail_cons] at he'
      obtain ⟨rfl, hG⟩ := reads_expr he hafter he'
      obtain ⟨d₁, hopts₁⟩ := column_options_uniform hopts { c with default := some e' }
      obtain ⟨rfl, hopts'⟩ := ih _ hopts₁ hrest h3
      exact ⟨rfl, .default hG hnot hopts'⟩

theorem reads_table_entry : Reads (parse_table_entry texts depth) (TableEntry texts) AfterEntry := by
  intro entry ts rest hentry hrest entry' rest' h
  have hunique : (.Unique : Token F) ≠ .Primary := nofun
  cases hentry with
  | primary_key hcols =>
    have h1 := ok_of_bind (skip_kw _) h
    have h2 := ok_of_bind (expect_cons _ _) h1
    obtain ⟨cols, hcols', h3⟩ := (reads_idents AfterEntry).peel hcols hrest h2
    cases h3
    exact ⟨rfl, .primary_key hcols'⟩
  | unique hcols =>
    have h1 := ok_of_bind (skip_ne hunique _) h
    have h2 := ok_of_bind (skip_kw _) h1
    obtain ⟨cols, hcols', h3⟩ := (reads_idents AfterEntry).peel hcols hrest h2
    cases h3
    exact ⟨rfl, .unique hcols'⟩
  | @column tok name ty c ts us hname hty hopts =>
    have hne : tok ≠ .Primary ∧ tok ≠ .Unique := by
      constructor
      · rintro rfl
        cases hname
      · rintro rfl
        cases hname
    simp only [cons_append, append_assoc] at h
    have h1 := ok_of_bind (skip_ne hne.1 _) h
    have h2 := ok_of_bind (skip_ne hne.2 _) h1
    obtain ⟨c', w, hcol, h3⟩ := bind_eq_ok.1 h2
    cases h3
    have h4 := ok_of_bind (expect_ident_cons _ hname) hcol
    have hafter : AfterType (us ++ rest) := by
      have hhead := column_options_head hopts hrest
      constructor
      · intro heq
        rw [heq] at hhead
        cases hhead
      · intro heq
        rw [heq] at hhead
        cases hhead
    obtain ⟨ty', hty'', h5⟩ := reads_data_type.peel hty hafter h4
    obtain ⟨d, hopts'⟩ := column_options_uniform hopts ⟨name, ty', true, none, false, false⟩
    obtain ⟨rfl, hopts''⟩ := reads_column_options _ _ hopts' hrest h5
    exact ⟨rfl, .column hname hty'' hopts''⟩

theorem reads_storage : Reads parse_storage Storage fun rest : List (Token F) =>
    Other .EOF .Storage rest ∧ Other .EOF .Columnar rest ∧ Other .EOF .Row rest := by
  rintro s ts rest hs ⟨hstorage, hcolumnar, hrow⟩ s' rest' h
  have hne : (.Row : Token F) ≠ .Columnar := nofun
  cases hs with
  | none =>
    cases ok_of_bind (skip_other hstorage) h
    exact ⟨rfl, .none⟩
  | bare =>
    have h1 := ok_of_bind (skip_kw _) h
    have h2 := ok_of_bind (skip_other hcolumnar) h1
    cases ok_of_bind (skip_other hrow) h2
    exact ⟨rfl, .bare⟩
  | row =>
    have h1 := ok_of_bind (skip_kw _) h
    have h2 := ok_of_bind (skip_ne hne _) h1
    cases ok_of_bind (skip_kw _) h2
    exact ⟨rfl, .row⟩
  | columnar =>
    have h1 := ok_of_bind (skip_kw _) h
    cases ok_of_bind (skip_kw _) h1
    exact ⟨rfl, .columnar⟩

/-- `IF NOT EXISTS` in front of a name. -/
theorem reads_if_not_exists : Reads (parse_if_not_exists texts) (words [.If, .Not, .Exists])
    (Other .EOF .If) := by
  rintro b ts rest (⟨rfl, rfl⟩ | ⟨rfl, rfl⟩) hrest b' rest' h
  · cases ok_of_bind (skip_other hrest) h
    exact ⟨rfl, .inl ⟨rfl, rfl⟩⟩
  · have h1 := ok_of_bind (skip_kw _) h
    have h2 := ok_of_bind (expect_cons _ _) h1
    cases ok_of_bind (expect_cons _ _) h2
    exact ⟨rfl, .inr ⟨rfl, rfl⟩⟩

theorem reads_if_exists : Reads (parse_if_exists texts) (words [.If, .Exists]) (Other .EOF .If) := by
  rintro b ts rest (⟨rfl, rfl⟩ | ⟨rfl, rfl⟩) hrest b' rest' h
  · cases ok_of_bind (skip_other hrest) h
    exact ⟨rfl, .inl ⟨rfl, rfl⟩⟩
  · have h1 := ok_of_bind (skip_kw _) h
    cases ok_of_bind (expect_cons _ _) h1
    exact ⟨rfl, .inr ⟨rfl, rfl⟩⟩

omit [DecidableEq F] in
theorem stage_name (kw : Token F) (hkw : ident_of kw = none) :
    Stage (expect_ident texts) ident After (Other .EOF kw) :=
  ⟨reads_ident _, .one fun tok s h _ _ heq => by
    obtain rfl : tok = kw := heq
    rw [hkw] at h
    cases h⟩

theorem reads_create_table : Reads (do expect texts .Create; parse_create_table texts depth)
    (create_table_stmt texts) (From 8) := by
  have hentries : Reads (comma_separated depth (parse_table_entry texts depth))
      (sep .Comma (TableEntry texts)) fun rest => rest.headD .EOF = .RightParen :=
    reads_comma reads_table_entry (fun _ => .inl rfl) fun _ h => ⟨.inr h, other_of_head h nofun⟩
  have hstorage : Reads parse_storage Storage (From 8 : List (Token F) → Prop) :=
    reads_storage.weaken fun _ h => ⟨h.other_of rfl, h.other_of rfl, h.other_of rfl⟩
  exact ((stage_expect .Create).bind fun _ => (stage_expect .Table).any.bind
    fun _ => (of_reads reads_if_not_exists).bind fun _ => (stage_name .If rfl).bind
    fun _ => (of_reads (reads_parenthesized hentries Any)).bind
    fun _ => (of_reads hstorage).bind fun _ => .pure _).reads

theorem reads_drop : Reads (parse_drop texts) drop_stmt (From 8 : List (Token F) → Prop) :=
  ((stage_expect .Drop).bind fun _ => (stage_expect .Table).any.bind
    fun _ => (of_reads reads_if_exists).bind fun _ => (stage_name .If rfl).bind
    fun _ => .pure _).reads

theorem reads_index (name : String) : Reads (parse_index texts name) index_on Any := by
  intro r ts rest hr _ r' rest' h
  obtain ⟨_, t, u, rfl, hrest, rfl⟩ := hr
  have h1 := ok_of_bind rfl h
  have hhead : ([Token.Index] ++ u ++ rest).headD .EOF = .Index := rfl
  rw [if_pos hhead] at h1
  have h2 := ok_of_bind rfl h1
  have hon : Reads (do
        expect texts .On
        let table ← expect_ident texts
        let column ← parenthesized texts (expect_ident texts)
        return (table, column))
      (do
        token .On
        let table ← ident
        let column ← parens ident
        return (table, column)) (Any : List (Token F) → Prop) :=
    ((stage_expect .On).bind fun _ => stage_ident.bind
      fun _ => (of_reads (reads_parenthesized (reads_ident _) Any)).bind fun _ => .pure _).reads
  obtain ⟨rfl, hr'⟩ := hon hrest trivial h2
  exact ⟨rfl, (), _, u, rfl, hr', rfl⟩

omit [DecidableEq F] in
theorem head_of_token {α : Type} {H : Unit → Production F α} {a : α} (h : (token tok >>= H) a ts) :
    ∃ us, ts = tok :: us := by
  obtain ⟨_, t, u, rfl, -, rfl⟩ := h
  exact ⟨u, rfl⟩

/-! ## Session variables -/

/-- The statement is over. -/
def EndsStmt (rest : List (Token F)) : Prop := rest.headD .EOF = .EOF ∨ rest.headD .EOF = .Semicolon

omit [DecidableEq F] in
theorem EndsStmt.from_end (h : EndsStmt rest) : From 8 rest := by
  obtain h | h := h <;> exact ⟨Nat.succ_pos 7, by rw [h]; rfl⟩

omit [DecidableEq F] in
theorem skip_if_true {c : Token F → Bool} (rest : List (Token F)) (h : c tok = true) :
    skip_if c (tok :: rest) = .ok ((), rest) := by
  refine bind_eq_ok.2 ⟨tok, _, rfl, ?_⟩
  rw [if_pos h]
  rfl

omit [DecidableEq F] in
theorem skip_if_false {c : Token F → Bool} (h : c (rest.headD .EOF) = false) :
    skip_if c rest = .ok ((), rest) := by
  refine bind_eq_ok.2 ⟨_, _, rfl, ?_⟩
  rw [h]
  rfl

/-- `[= | TO] value` behind the name of a variable. -/
theorem set_tail_eq (name : String) {value : String} (h : SetTail value ts)
    (hrest : EndsStmt rest) : ∃ rest', (do
      skip_if fun tok => tok = .Eq || is_word "TO" tok
      let value ← advance
      return .SetVar name (set_value value) : Parser F (Statement F)) (ts ++ rest) =
        .ok (.SetVar name value, rest') := by
  have hlink : ∀ {tok : Token F}, tok = .Eq ∨ is_word "TO" tok → (decide (tok = .Eq) || is_word "TO" tok) = true := by
    rintro tok (h | h) <;> simp [h]
  have hend : (decide (rest.headD .EOF = .Eq) || is_word "TO" (rest.headD .EOF)) = false ∧
      set_value (rest.headD .EOF) = "" := by
    obtain h | h := hrest <;> rw [h] <;> exact ⟨rfl, rfl⟩
  cases h with
  | none =>
    refine ⟨rest.tail, bind_of_ok (skip_if_false hend.1) ?_⟩
    rw [← hend.2]
    rfl
  | link_only htok =>
    refine ⟨rest.tail, bind_of_ok (skip_if_true rest (hlink htok)) ?_⟩
    rw [← hend.2]
    rfl
  | @value tok htok _ =>
    have hno : (decide (tok = .Eq) || is_word "TO" tok) = false := by
      rw [not_or] at htok
      simp [htok.1, htok.2]
    exact ⟨rest, bind_of_ok (skip_if_false hno) (bind_of_ok rfl rfl)⟩
  | @link_value tok tok' htok _ =>
    exact ⟨rest, bind_of_ok (skip_if_true _ (hlink htok)) (bind_of_ok rfl rfl)⟩

omit [DecidableEq F] in
theorem expect_ident_or_cons {s default : String} (rest : List (Token F))
    (h : ident_of tok = some s) : expect_ident_or default (tok :: rest) = .ok (s, rest) := by
  refine bind_eq_ok.2 ⟨tok, rest, rfl, ?_⟩
  rw [h]
  rfl

/-! ## Statements -/

omit [DecidableEq F] in
/-- The words that stand for a statement are different. -/
theorem not_show (h : is_word "DISCARD" tok ∨ is_word "DEALLOCATE" tok) :
    is_word "SHOW" tok = false := by
  cases tok with
  | Ident s =>
    simp only [is_word, eq_ignore_ascii_case, beq_iff_eq] at h ⊢
    obtain h | h := h
    · rw [h]
      decide
    · rw [h]
      decide
  | _ => rfl

theorem parse_statement_stmt {n : ℕ} {s s' : Statement F} {rest' : List (Token F)}
    (hs : Stmt texts s ts) (hrest : EndsStmt rest)
    (h : parse_statement texts n (ts ++ rest) = .ok (s', rest')) : Stmt texts s' ts := by
  induction n generalizing s s' ts rest' with
  | zero => cases h
  | succ n ih =>
    have h1 := ok_of_bind rfl h
    have hend := hrest.from_end
    cases hs with
    | select hsel =>
      have hrun : ∃ sel, s' = .Select sel ∧ parse_select texts n (ts ++ rest) = .ok (sel, rest') := by
        obtain ⟨tok, us, rfl, rfl | rfl⟩ := select_head hsel
        all_goals
          obtain ⟨sel, v, hsel, h2⟩ := bind_eq_ok.1 h1
          cases h2
          exact ⟨sel, rfl, hsel⟩
      obtain ⟨sel, rfl, hparse⟩ := hrun
      exact .select (reads_select n hsel hend hparse).2
    | insert hi =>
      obtain ⟨us, rfl⟩ := head_of_token hi
      exact .insert (reads_insert hi hend h1).2
    | update hu =>
      obtain ⟨us, rfl⟩ := head_of_token hu
      exact .update (reads_update hu hend h1).2
    | delete hd =>
      obtain ⟨us, rfl⟩ := head_of_token hd
      exact .delete (reads_delete hd hend h1).2
    | drop hd =>
      obtain ⟨us, rfl⟩ := head_of_token hd
      exact .drop (reads_drop hd hend h1).2
    | create_table hc =>
      obtain ⟨_, _, _, rfl, ⟨_, _, us, rfl, -, rfl⟩, rfl⟩ := id hc
      have h2 := ok_of_bind (expect_cons _ _) h1
      have hne : (.Table : Token F) ≠ .Vector := nofun
      have h3 := ok_of_bind (skip_ne hne _) h2
      have h4 := ok_of_bind rfl h3
      exact .create_table (reads_create_table hc hend (bind_of_ok (expect_cons _ _) h4)).2
    | create_vector_index hi =>
      have h2 := ok_of_bind (expect_cons _ _) h1
      have h3 := ok_of_bind (skip_kw _) h2
      obtain ⟨r, x, hindex, h4⟩ := bind_eq_ok.1 h3
      cases h4
      exact .create_vector_index (reads_index _ hi trivial hindex).2
    | @create_gin_index tok _ _ ts hword hi =>
      have h2 := ok_of_bind (expect_cons _ _) h1
      -- GIN is no keyword: a word that reads so is tested for, after VECTOR
      have hne : tok ≠ .Vector := by
        rintro rfl
        cases hword
      have h3 := ok_of_bind (skip_ne hne _) h2
      have h4 := ok_of_bind rfl h3
      have hhead : (tok :: (ts ++ rest)).headD .EOF = tok := rfl
      simp only [append_eq, hhead, hword, if_true] at h4
      have h5 := ok_of_bind rfl h4
      obtain ⟨r, z, hindex, h6⟩ := bind_eq_ok.1 h5
      cases h6
      exact .create_gin_index hword (reads_index _ hi trivial hindex).2
    | begin => cases h1; exact .begin
    | transaction => cases h1; exact .transaction
    | commit => cases h1; exact .commit
    | rollback => cases h1; exact .rollback
    | explain hs =>
      have h2 := ok_of_bind rfl h1
      obtain ⟨inner, w, hinner, h3⟩ := bind_eq_ok.1 h2
      cases h3
      exact .explain (ih hs hinner)
    | analyze hname =>
      have h2 := ok_of_bind rfl h1
      have h3 := ok_of_bind (expect_ident_cons _ hname) h2
      cases h3
      exact .analyze hname
    | vacuum hname =>
      have h2 := ok_of_bind rfl h1
      have h3 := ok_of_bind (expect_ident_cons _ hname) h2
      cases h3
      exact .vacuum hname
    | @set tok name value ts hscope hname htail =>
      have h2 := ok_of_bind rfl h1
      have hno : (is_word "LOCAL" tok || is_word "SESSION" tok) = false := by
        rw [is_scope, not_or] at hscope
        simp [hscope.1, hscope.2]
      obtain ⟨r, htail_eq⟩ := set_tail_eq name htail hrest
      have hrun : parse_set (tok :: (ts ++ rest)) = .ok (.SetVar name value, r) :=
        bind_of_ok (skip_if_false hno) (bind_of_ok (expect_ident_or_cons _ hname) htail_eq)
      cases hrun.symm.trans h2
      exact .set hscope hname htail
    | @set_scope tok tok' name value ts hscope hname htail =>
      have h2 := ok_of_bind rfl h1
      have hyes : (is_word "LOCAL" tok || is_word "SESSION" tok) = true := by
        obtain h | h := hscope <;> simp [h]
      obtain ⟨r, htail_eq⟩ := set_tail_eq name htail hrest
      have hrun : parse_set (tok :: tok' :: (ts ++ rest)) = .ok (.SetVar name value, r) :=
        bind_of_ok (skip_if_true _ hyes) (bind_of_ok (expect_ident_or_cons _ hname) htail_eq)
      cases hrun.symm.trans h2
      exact .set_scope hscope hname htail
    | @show_default tok hword =>
      cases tok with
      | Ident w =>
        have hw : eq_ignore_ascii_case w "SHOW" = true := hword
        have hname : ident_of (rest.headD .EOF) = none := by
          obtain hr | hr := hrest <;> rw [hr] <;> rfl
        simp only [cons_append, nil_append, headD_cons, hw, if_true] at h1
        have h2 := ok_of_bind rfl h1
        obtain ⟨name, x, hident, h3⟩ := bind_eq_ok.1 h2
        have h4 := ok_of_bind rfl hident
        simp only [tail_cons, hname, Option.getD_none] at h4
        cases h4
        cases h3
        exact .show_default hword
      | _ => cases hword
    | @show_name tok tok' name hword hname =>
      cases tok with
      | Ident w =>
        have hw : eq_ignore_ascii_case w "SHOW" = true := hword
        simp only [cons_append, nil_append, headD_cons, hw, if_true] at h1
        have h2 := ok_of_bind rfl h1
        have h3 := ok_of_bind (expect_ident_or_cons _ hname) h2
        cases h3
        exact .show_name hword hname
      | _ => cases hword
    | @discard tok ts hword hinner =>
      have hshow := not_show hword
      cases tok with
      | Ident w =>
        have hw : eq_ignore_ascii_case w "SHOW" = false := hshow
        have hd : (eq_ignore_ascii_case w "DISCARD" || eq_ignore_ascii_case w "DEALLOCATE") = true := by
          rwa [Bool.or_eq_true]
        simp only [cons_append, headD_cons, hw, Bool.false_eq_true, if_false, hd, if_true] at h1
        obtain ⟨_, v, hskip, h2⟩ := bind_eq_ok.1 h1
        cases h2
        exact .discard hword hinner
      | _ => simp [is_word] at hword

/-! ## `WHERE` -/

section

omit [DecidableEq F]

theorem ident_avoids_where : Avoids (.Where : Token F) ident := by
  rintro s ts ⟨tok, htok, rfl⟩ hmem
  obtain rfl := mem_singleton.1 hmem
  cases htok

theorem type_avoids_where : Avoids (.Where : Token F) TypeName := by
  intro ty ts h
  cases h with
  | @simple tok _ h =>
    intro hmem
    obtain rfl := mem_singleton.1 hmem
    cases h
  | double_precision => simp
  | @sized tok _ _ h =>
    have hne : .Where ≠ tok := by
      rintro rfl
      cases h
    simp [hne]

/-- The token in front of a call or in a qualified name. -/
theorem name_ne_where {tok : Token F} {name : String} (h : name_of tok = some name) : .Where ≠ tok := by
  rintro rfl
  cases h

theorem ident_ne_where {tok : Token F} {name : String} (h : ident_of tok = some name) : .Where ≠ tok := by
  rintro rfl
  cases h

theorem word_ne_where {word : String} {tok : Token F} (h : is_word word tok) : .Where ≠ tok := by
  rintro rfl
  cases h

theorem binop_ne_where {tok : Token F} {op : BinOp} (h : tok_to_binop tok = some op) : .Where ≠ tok := by
  rintro rfl
  cases h

mutual

theorem expression_avoids_where {e : Expr F} {ts : List (Token F)} :
    Expression texts e ts → .Where ∉ ts
  | .atom h => atom_avoids_where h
  | .neg h | .not h | .is_null h | .is_not_null h => by simp [expression_avoids_where h]
  | .binary hop hl hr => by
    simp [expression_avoids_where hl, expression_avoids_where hr, binop_ne_where hop]
  | .between h hl hh => by
    simp [expression_avoids_where h, expression_avoids_where hl, expression_avoids_where hh]
  | .in_list h hl | .not_in h hl => by simp [expression_avoids_where h, list_avoids_where hl]

theorem list_avoids_where {es : List (Expr F)} {ts : List (Token F)} :
    sep .Comma (Expression texts) es ts → .Where ∉ ts
  | .one h => expression_avoids_where h
  | .more h hs => by simp [expression_avoids_where h, list_avoids_where hs]

theorem args_avoid_where {es : List (Expr F)} {ts : List (Token F)} :
    Args (Expression texts) es ts → .Where ∉ ts
  | .none | .star => by simp
  | .list h _ => list_avoids_where h

theorem order_item_avoids_where {i : OrderByItem F} {ts : List (Token F)} :
    OrderItem (Expression texts) i ts → .Where ∉ ts
  | .bare h => expression_avoids_where h
  | .asc h | .desc h => by simp [expression_avoids_where h]

theorem order_avoids_where {is : List (OrderByItem F)} {ts : List (Token F)} :
    sep .Comma (OrderItem (Expression texts)) is ts → .Where ∉ ts
  | .one h => order_item_avoids_where h
  | .more h hs => by simp [order_item_avoids_where h, order_avoids_where hs]

theorem window_order_avoids_where {is : List (Expr F × Bool)} {ts : List (Token F)} :
    WindowOrder (Expression texts) is ts → .Where ∉ ts
  | .none => by simp
  | .some h => by simp [order_avoids_where h]

theorem partition_avoids_where {es : List (Expr F)} {ts : List (Token F)} :
    PartitionBy (Expression texts) es ts → .Where ∉ ts
  | .none => by simp
  | .some hw h => by simp [list_avoids_where h, word_ne_where hw]

theorem atom_avoids_where {e : Expr F} {ts : List (Token F)} :
    Atom texts (Expression texts) e ts → .Where ∉ ts
  | .int _ | .float _ | .str _ | .true_ | .false_ | .null | .star => by simp
  | .paren h => by simp [expression_avoids_where h]
  | .column hn => by simp [name_ne_where hn]
  | .qualified hn hc => by simp [name_ne_where hn, ident_ne_where hc]
  | .call hn ha => by simp [name_ne_where hn, args_avoid_where ha]
  | .qualified_call hn hc ha => by simp [name_ne_where hn, ident_ne_where hc, args_avoid_where ha]
  | .window hn _ ha ho hp hw => by
    simp [name_ne_where hn, args_avoid_where ha, word_ne_where ho, partition_avoids_where hp,
      window_order_avoids_where hw]
  | .cast h ht => by simp [expression_avoids_where h, type_avoids_where ht]

end

end

/-- A `DELETE` or an `UPDATE` of all rows. -/
def unrestricted : Statement F → Bool
  | .Delete d => d.where_clause.isNone
  | .Update u => u.where_clause.isNone
  | _ => false

section

omit [DecidableEq F]

theorem insert_restricted : Yields (fun s => unrestricted s = false) (insert_stmt texts) := by
  repeat' first | exact Yields.pure rfl | refine Yields.bind fun _ => ?_

theorem create_table_restricted : Yields (fun s => unrestricted s = false) (create_table_stmt texts) := by
  repeat' first | exact Yields.pure rfl | refine Yields.bind fun _ => ?_

theorem drop_restricted : Yields (fun s : Statement F => unrestricted s = false) drop_stmt := by
  repeat' first | exact Yields.pure rfl | refine Yields.bind fun _ => ?_

theorem opt_as_avoids_where : Avoids (.Where : Token F) (opt .As ident) := by
  rintro o ts (⟨-, rfl⟩ | ⟨s, t, -, ht, rfl⟩)
  · simp
  · simp [ident_avoids_where ht]

theorem assignment_avoids_where : Avoids .Where (assignment texts) := by
  rintro p ts ⟨col, t, u, ht, ⟨_, v, w, rfl, ⟨e, x, y, hx, ⟨-, rfl⟩, rfl⟩, rfl⟩, rfl⟩
  simp [ident_avoids_where ht, expression_avoids_where hx]

/-- A statement for all rows has no `WHERE` among its tokens. -/
theorem stmt_avoids_where {s : Statement F} {ts : List (Token F)} (h : Stmt texts s ts)
    (hs : unrestricted s = true) : .Where ∉ ts := by
  cases h with
  | insert hi => rw [insert_restricted hi] at hs; cases hs
  | create_table hc => rw [create_table_restricted hc] at hs; cases hs
  | drop hd => rw [drop_restricted hd] at hs; cases hs
  | delete hd =>
    obtain ⟨_, _, _, rfl, ⟨_, _, _, rfl, ⟨table, t, _, ht,
      ⟨a, u, _, hu, ⟨w, v, _, hw, ⟨rfl, rfl⟩, rfl⟩, rfl⟩,
      rfl⟩, rfl⟩, rfl⟩ := hd
    obtain ⟨rfl, rfl⟩ | ⟨e, v, rfl, -, rfl⟩ := hw
    · simp [ident_avoids_where ht, opt_as_avoids_where hu]
    · cases hs
  | update hu =>
    obtain ⟨_, _, _, rfl, ⟨table, t, _, ht, ⟨a, u, _, hu, ⟨_, _, _, rfl, ⟨as, v, _, hv,
      ⟨w, x, _, hw, ⟨rfl, rfl⟩, rfl⟩, rfl⟩, rfl⟩, rfl⟩, rfl⟩, rfl⟩ := hu
    obtain ⟨rfl, rfl⟩ | ⟨e, x, rfl, -, rfl⟩ := hw
    · have hcomma : (.Where : Token F) ≠ .Comma := nofun
      simp [ident_avoids_where ht, opt_as_avoids_where hu, assignment_avoids_where.sep hcomma hv]
    · cases hs
  | _ => cases hs

theorem accounts_avoids_where {s : Statement F} {tokens : List (Token F)} (h : Accounts texts s tokens)
    (hs : unrestricted s = true) : .Where ∉ tokens := by
  obtain ⟨body, ending, rfl, hbody, hending⟩ := h
  have hend : .Where ∉ ending := by cases hending <;> simp
  simp [stmt_avoids_where hbody hs, hend]

end

/-! ## The whole input -/

theorem parse_tokens_ok {tokens : List (Token F)} {stmt : Statement F}
    (h : parse_tokens texts depth tokens = .ok stmt) :
    ∃ rest, parse_statement texts depth tokens = .ok (stmt, rest) := by
  rw [parse_tokens] at h
  obtain ⟨r, hparse, h⟩ := bind_ok h
  obtain ⟨_, -, h⟩ := bind_ok h
  cases h
  exact ⟨r.2, hparse⟩

/-- **All tokens are accounted for.** Where the parser returns a statement, it has used all
tokens up to a semicolon and the end if and only if they are those of a statement; a `DELETE` or
`UPDATE` without a `WHERE` then has none in the text. -/
theorem parse_tokens_accounts_iff (texts : Texts F) (depth : ℕ) (tokens : List (Token F))
    (stmt : Statement F) (h : parse_tokens texts depth tokens = .ok stmt) :
    (Accounts texts stmt tokens ↔ Sentence texts tokens) ∧
    (Sentence texts tokens → unrestricted stmt = true → .Where ∉ tokens) := by
  have hiff : Accounts texts stmt tokens ↔ Sentence texts tokens := by
    refine ⟨fun haccounts => ⟨stmt, haccounts⟩, ?_⟩
    rintro ⟨s, body, ending, rfl, hbody, hending⟩
    have hends : EndsStmt ending := by
      cases hending with
      | none | eof => exact .inl rfl
      | semicolon | semicolon_eof => exact .inr rfl
    obtain ⟨rest, hparse⟩ := parse_tokens_ok h
    exact ⟨body, ending, rfl, parse_statement_stmt hbody hends hparse, hending⟩
  exact ⟨hiff, fun hsentence => accounts_avoids_where (hiff.2 hsentence)⟩

section Demo

def demo_texts : Texts ℚ := ⟨fun _ => "", String.toUpper⟩

/-- `DELETE FROM t WHERE id = 1`. -/
def delete_tokens : List (Token ℚ) :=
  [.Delete, .From, .Ident "t", .Where, .Ident "id", .Eq, .IntLiteral 1, .EOF]

/-- `DELETE FROM t x WHERE id = 1`: the alias is not understood. -/
def delete_alias_tokens : List (Token ℚ) :=
  [.Delete, .From, .Ident "t", .Ident "x", .Where, .Ident "id", .Eq, .IntLiteral 1, .EOF]

def id_is_one : Expr ℚ := .BinaryOp .Eq (.ColumnRef none "id") (.IntLit 1)

/-- The whole statement is read. -/
theorem delete_accounts : ∃ stmt, parse_tokens demo_texts 8 delete_tokens = .ok stmt ∧
    Accounts demo_texts stmt delete_tokens := by
  have hexpr : Expression demo_texts id_is_one ([.Ident "id"] ++ [.Eq, .IntLiteral 1]) := .binary rfl (.atom (.column rfl)) (.atom (.int 1))
  have hsentence : Sentence demo_texts delete_tokens := by
    refine ⟨.Delete ⟨"t", none, some id_is_one⟩, delete_tokens.dropLast, [.EOF], rfl, .delete ?_, .eof⟩
    exact ⟨(), [.Delete], _, rfl, ⟨(), [.From], _, rfl, ⟨"t", [.Ident "t"], _, ⟨_, rfl, rfl⟩,
      ⟨none, [], _, .inl ⟨rfl, rfl⟩, ⟨some _, _, [], .inr ⟨_, _, rfl, hexpr, rfl⟩, ⟨rfl, rfl⟩,
        rfl⟩, rfl⟩, rfl⟩, rfl⟩, rfl⟩
  have hparse : parse_tokens demo_texts 8 delete_tokens =
      .ok (.Delete ⟨"t", none, some id_is_one⟩) := by rfl
  exact ⟨_, hparse, (parse_tokens_accounts_iff demo_texts 8 delete_tokens _ hparse).1.2 hsentence⟩

/-- The lexer gives these tokens, and the parser a `DELETE` of all rows. -/
theorem delete_alias_ignores_where :
    (Lexer.tokenize (fun _ => (0 : ℚ)) (into_bytes "DELETE FROM t x WHERE id = 1".toList)).toOption =
      some delete_alias_tokens ∧
    parse_tokens demo_texts 8 delete_alias_tokens = .ok (.Delete ⟨"t", none, none⟩) ∧
    ¬ Accounts demo_texts (.Delete ⟨"t", none, none⟩) delete_alias_tokens := by
  refine ⟨?_, by rfl, fun h => ?_⟩
  · decide +kernel
  · exact accounts_avoids_where h rfl (by simp [delete_alias_tokens])

end Demo

end Oigrap.Sql.Parser

/-
Reading expressions.

An expression is a prefix part and the operators behind it (`Expression.split`), and what the
parser has not read of it is again such a list of operators. The binding power only decides
where it stops: with 0 it reads all of them.
-/
import Oigrap.Sql.Grammar

namespace Oigrap.Sql.Parser

open Parsing Parsing.Phrase Grammar List

variable {F : Type} {texts : Texts F} {α : Type}

/-! ## Tokens -/

section

variable [DecidableEq F]

theorem expect_cons (tok : Token F) (rest : List (Token F)) :
    expect texts tok (tok :: rest) = .ok ((), rest) :=
  bind_of_ok (skip_kw rest) rfl

theorem expect_eq_ok {tok : Token F} {ts rest : List (Token F)} {u : Unit} (htok : tok ≠ .EOF)
    (h : expect texts tok ts = .ok (u, rest)) : ts = tok :: rest := by
  obtain ⟨b, ts', hskip, hret⟩ := bind_eq_ok.1 h
  by_cases hhead : ts.headD .EOF = tok
  · cases ts with
    | nil => exact absurd hhead.symm htok
    | cons t ts =>
      obtain rfl : t = tok := hhead
      rw [skip_kw] at hskip
      cases hskip
      cases hret
      rfl
  · rw [skip_other hhead] at hskip
    cases hskip
    cases hret

theorem reads_expect (tok : Token F) (After : List (Token F) → Prop) :
    Reads (expect texts tok) (token tok) After :=
  Reads.token (expect_cons tok)

end

variable {tok : Token F}

theorem expect_ident_cons {s : String} (rest : List (Token F)) (h : ident_of tok = some s) :
    expect_ident texts (tok :: rest) = .ok (s, rest) := by
  refine bind_eq_ok.2 ⟨tok, rest, rfl, ?_⟩
  rw [h]
  rfl

theorem reads_ident (After : List (Token F) → Prop) : Reads (expect_ident texts) ident After :=
  Reads.one fun _ _ rest h => expect_ident_cons rest h

/-! ## Prefix parts and operators -/

variable (texts) in
/-- What an operator can stand behind. -/
inductive Prim : List (Token F) → Prop
  | atom {e : Expr F} {ts : List (Token F)} : Atom texts (Expression texts) e ts → Prim ts
  | neg {ts : List (Token F)} : Prim ts → Prim (.Minus :: ts)
  | not {ts : List (Token F)} : Prim ts → Prim (.Not :: ts)

variable (texts) in
/-- An operator with its right side. The `AND` of a `BETWEEN` is one of its own. -/
inductive Tail : List (Token F) → Prop
  | binary {tok : Token F} {op : BinOp} {ts : List (Token F)} : tok_to_binop tok = some op →
    Prim texts ts → Tail (tok :: ts)
  | is_null : Tail [.Is, .Null]
  | is_not_null : Tail [.Is, .Not, .Null]
  | between {ts : List (Token F)} : Prim texts ts → Tail (.Between :: ts)
  | in_list {es : List (Expr F)} {ts : List (Token F)} : sep .Comma (Expression texts) es ts →
    Tail (.In :: .LeftParen :: ts ++ [.RightParen])
  | not_in {es : List (Expr F)} {ts : List (Token F)} : sep .Comma (Expression texts) es ts →
    Tail (.Not :: .In :: .LeftParen :: ts ++ [.RightParen])

variable (texts) in
inductive Tails : List (Token F) → Prop
  | nil : Tails []
  | cons {t ts : List (Token F)} : Tail texts t → Tails ts → Tails (t ++ ts)

theorem Tails.append {ts us : List (Token F)} (ht : Tails texts ts) (hu : Tails texts us) :
    Tails texts (ts ++ us) := by
  induction ht with
  | nil => exact hu
  | cons h _ ih => rw [append_assoc]; exact .cons h ih

theorem Tails.snoc {ts t : List (Token F)} (ht : Tails texts ts) (h : Tail texts t) :
    Tails texts (ts ++ t) := by
  have := ht.append (.cons h .nil)
  rwa [append_nil] at this

theorem Tail.and {ts : List (Token F)} (h : Prim texts ts) : Tail texts (.And :: ts) :=
  have hop : tok_to_binop (.And : Token F) = some .And := rfl
  .binary hop h

/-- An expression is a prefix part and operators. -/
theorem expression_split {e : Expr F} {ts : List (Token F)} (h : Expression texts e ts) :
    ∃ p tl, Prim texts p ∧ Tails texts tl ∧ ts = p ++ tl :=
  match h with
  | .atom ha => ⟨ts, [], .atom ha, .nil, (append_nil ts).symm⟩
  | .neg he => by
    obtain ⟨p, tl, hp, htl, rfl⟩ := expression_split he
    exact ⟨_, tl, .neg hp, htl, rfl⟩
  | .not he => by
    obtain ⟨p, tl, hp, htl, rfl⟩ := expression_split he
    exact ⟨_, tl, .not hp, htl, rfl⟩
  | .binary hop hl hr => by
    obtain ⟨p, tl, hp, htl, rfl⟩ := expression_split hl
    obtain ⟨p', tl', hp', htl', rfl⟩ := expression_split hr
    refine ⟨p, _, hp, htl.append (.cons (.binary hop hp') htl'), ?_⟩
    simp
  | .is_null he => by
    obtain ⟨p, tl, hp, htl, rfl⟩ := expression_split he
    exact ⟨p, _, hp, htl.snoc .is_null, by simp⟩
  | .is_not_null he => by
    obtain ⟨p, tl, hp, htl, rfl⟩ := expression_split he
    exact ⟨p, _, hp, htl.snoc .is_not_null, by simp⟩
  | .between he hlow hhigh => by
    obtain ⟨p, tl, hp, htl, rfl⟩ := expression_split he
    obtain ⟨p', tl', hp', htl', rfl⟩ := expression_split hlow
    obtain ⟨q, tq, hq, htq, rfl⟩ := expression_split hhigh
    refine ⟨p, _, hp, htl.append ((Tails.cons (.between hp') htl').append
      (.cons (.and hq) htq)), ?_⟩
    simp
  | .in_list he hes => by
    obtain ⟨p, tl, hp, htl, rfl⟩ := expression_split he
    exact ⟨p, _, hp, htl.snoc (.in_list hes), by simp⟩
  | .not_in he hes => by
    obtain ⟨p, tl, hp, htl, rfl⟩ := expression_split he
    exact ⟨p, _, hp, htl.snoc (.not_in hes), by simp⟩

/-! ## What may follow -/

/-- Tokens behind which an expression is over. -/
def ends_expr : Token F → Bool
  | .Dot | .LeftParen | .Ident _ => false
  | tok => (infix_bp tok).1 == 0

/-- An expression is over; a name behind it is an alias. -/
def AfterExpr (rest : List (Token F)) : Prop :=
  ends_expr (rest.headD .EOF) ∨ ∃ s r, rest = .Ident s :: r ∧ r.headD .EOF ≠ .LeftParen

/-- No call and no part of a name follows. -/
structure AfterAtom (rest : List (Token F)) : Prop where
  no_dot : rest.headD .EOF ≠ .Dot
  no_paren : rest.headD .EOF ≠ .LeftParen
  no_over : ∀ tok r, rest = tok :: r → is_word "OVER" tok → r.headD .EOF ≠ .LeftParen

theorem infix_of_binop {op : BinOp} (h : tok_to_binop tok = some op) :
    (infix_bp tok).1 ≠ 0 := by
  cases tok <;> simp_all [tok_to_binop, infix_bp]

theorem Tail.head {ts : List (Token F)} (h : Tail texts ts) :
    ∃ tok us, ts = tok :: us ∧ (infix_bp tok).1 ≠ 0 := by
  cases h with
  | binary hop => exact ⟨_, _, rfl, infix_of_binop hop⟩
  | is_null | is_not_null | between | in_list | not_in => exact ⟨_, _, rfl, by simp [infix_bp]⟩

theorem AfterExpr.not_infix {rest : List (Token F)} (h : AfterExpr rest) :
    (infix_bp (rest.headD .EOF)).1 = 0 := by
  obtain h | ⟨s, r, rfl, -⟩ := h
  · generalize rest.headD .EOF = tok at h
    cases tok <;> simp_all [ends_expr, infix_bp]
  · rfl

theorem AfterAtom.of_operator (h : (infix_bp tok).1 ≠ 0) (rest : List (Token F)) :
    AfterAtom (tok :: rest) := by
  refine ⟨?_, ?_, ?_⟩
  · rintro rfl
    exact h rfl
  · rintro rfl
    exact h rfl
  · rintro tok' r heq hover
    cases heq
    cases tok <;> simp_all [is_word, infix_bp]

theorem AfterExpr.afterAtom {rest : List (Token F)} (h : AfterExpr rest) : AfterAtom rest := by
  obtain h | ⟨s, r, rfl, hr⟩ := h
  · refine ⟨?_, ?_, ?_⟩
    · intro heq
      rw [heq] at h
      cases h
    · intro heq
      rw [heq] at h
      cases h
    · rintro tok r rfl hover
      cases tok <;> simp_all [is_word, ends_expr]
  · exact ⟨nofun, nofun, fun tok r' heq _ => by cases heq; exact hr⟩

/-- Behind a prefix part there are operators or the end. -/
theorem Tails.afterAtom {tl rest : List (Token F)} (htl : Tails texts tl) (hrest : AfterExpr rest) :
    AfterAtom (tl ++ rest) := by
  cases htl with
  | nil => exact hrest.afterAtom
  | cons h _ =>
    obtain ⟨tok, us, rfl, htok⟩ := h.head
    exact .of_operator htok _

theorem Prim.head {ts : List (Token F)} (h : Prim texts ts) :
    ∃ tok us, ts = tok :: us ∧ tok ≠ .RightParen := by
  cases h with
  | neg | not => exact ⟨_, _, rfl, nofun⟩
  | atom h =>
    cases h with
    | column hname | qualified hname | call hname | qualified_call hname | window hname =>
      refine ⟨_, _, rfl, ?_⟩
      rintro rfl
      cases hname
    | _ => exact ⟨_, _, rfl, nofun⟩

/-! ## Types -/

section

/-- A type is over. -/
def AfterType (rest : List (Token F)) : Prop :=
  Other .EOF .Precision rest ∧ Other .EOF .LeftParen rest

theorem parse_usize_cons {n : Int64} (hn : 0 ≤ n.toInt) (rest : List (Token F)) :
    parse_usize texts (.IntLiteral n :: rest) = .ok (n.toInt.toNat, rest) := by
  refine bind_eq_ok.2 ⟨.IntLiteral n, rest, rfl, ?_⟩
  simp only [hn, if_true]
  rfl

variable [DecidableEq F]

theorem parse_data_type_simple {tok : Token F} {ty : DataType} {rest : List (Token F)}
    (h : simple_type tok = some ty) (hrest : AfterType rest) :
    parse_data_type texts (tok :: rest) = .ok (ty, rest) := by
  have hlength : ∀ n, optional_length texts n rest = .ok (n, rest) := fun n =>
    bind_of_ok (skip_other hrest.2) rfl
  refine bind_eq_ok.2 ⟨tok, rest, rfl, ?_⟩
  cases tok <;> cases h <;> try rfl
  · exact bind_of_ok (skip_other hrest.1) rfl
  · exact bind_of_ok (hlength 65535) rfl
  · exact bind_of_ok (hlength 1) rfl

theorem parse_data_type_sized {tok : Token F} {ty : ℕ → DataType} {n : Int64} (rest : List (Token F))
    (h : sized_type tok = some ty) (hn : 0 ≤ n.toInt) :
    parse_data_type texts (tok :: .LeftParen :: .IntLiteral n :: .RightParen :: rest) =
      .ok (ty n.toInt.toNat, rest) := by
  have hlength : ∀ m, optional_length texts m (.LeftParen :: .IntLiteral n :: .RightParen :: rest) =
      .ok (n.toInt.toNat, rest) := fun m =>
    bind_of_ok (skip_kw _) (bind_of_ok (parse_usize_cons hn _) (bind_of_ok (expect_cons _ _) rfl))
  refine bind_eq_ok.2 ⟨tok, _, rfl, ?_⟩
  cases tok <;> cases h
  · exact bind_of_ok (hlength 65535) rfl
  · exact bind_of_ok (hlength 1) rfl
  · refine bind_of_ok (bind_of_ok (expect_cons _ _)
      (bind_of_ok (parse_usize_cons hn _) (bind_of_ok (expect_cons _ _) rfl))) rfl

theorem reads_data_type : Reads (parse_data_type texts) TypeName AfterType := by
  rintro ty ts rest hty hrest ty' rest' h
  cases hty with
  | simple hs =>
    rw [singleton_append, parse_data_type_simple hs hrest] at h
    cases h
    exact ⟨rfl, .simple hs⟩
  | double_precision =>
    have hparse : parse_data_type texts (.Double :: .Precision :: rest) = .ok (.Float64, rest) :=
      bind_of_ok rfl (bind_of_ok (skip_kw rest) rfl)
    cases hparse.symm.trans h
    exact ⟨rfl, .double_precision⟩
  | sized hs hn =>
    cases (parse_data_type_sized rest hs hn).symm.trans h
    exact ⟨rfl, .sized hs hn⟩

end

/-! ## Expressions -/

section

/-- An operator that is left binds less than `min_bp`. -/
def Low (min_bp : ℕ) (tl : List (Token F)) : Prop := tl = [] ∨ (infix_bp (tl.headD .EOF)).1 < min_bp

/-- What `parse` returns on a prefix part with operators behind it. -/
def ReadsExpr (texts : Texts F) (parse : ℕ → Parser F (Expr F)) : Prop :=
  ∀ ⦃min_bp : ℕ⦄ ⦃p tl rest : List (Token F)⦄, Prim texts p → Tails texts tl → AfterExpr rest →
    ∀ ⦃e : Expr F⦄ ⦃r : List (Token F)⦄, parse min_bp (p ++ tl ++ rest) = .ok (e, r) →
      ∃ t₁ t₂, tl = t₁ ++ t₂ ∧ r = t₂ ++ rest ∧ Expression texts e (p ++ t₁) ∧ Tails texts t₂ ∧
        Low min_bp t₂

/-- A list is over. -/
def AfterList (rest : List (Token F)) : Prop := AfterExpr rest ∧ Other .EOF .Comma rest

theorem afterList_rightParen (rest : List (Token F)) : AfterList (.RightParen :: rest) :=
  ⟨.inl rfl, nofun⟩

variable {parse : ℕ → Parser F (Expr F)} (hparse : ReadsExpr texts parse) {depth : ℕ}

include hparse

theorem ReadsExpr.reads : Reads (parse 0) (Expression texts) AfterExpr := by
  intro e ts rest he hrest e' rest' h
  obtain ⟨p, tl, hp, htl, rfl⟩ := expression_split he
  obtain ⟨t₁, t₂, rfl, rfl, he', -, rfl | hlow⟩ := hparse hp htl hrest h
  · rw [append_nil]
    exact ⟨rfl, he'⟩
  · exact absurd hlow (Nat.not_lt_zero _)

variable [DecidableEq F]

theorem ReadsExpr.reads_list :
    Reads (parse_expr_list depth parse) (sep .Comma (Expression texts)) AfterList :=
  hparse.reads.separated (fun _ => .inl rfl) (fun _ h => h) depth

theorem ReadsExpr.reads_order_item : Reads (parse_order_item parse) (OrderItem (Expression texts))
    fun rest => AfterExpr rest ∧ Other .EOF .Asc rest ∧ Other .EOF .Desc rest := by
  rintro item ts rest hitem ⟨hafter, hasc, hdesc⟩ item' rest' h
  obtain ⟨e', u, he, h1⟩ := bind_eq_ok.1 h
  cases hitem with
  | bare hG =>
    obtain ⟨rfl, hG'⟩ := hparse.reads hG hafter he
    have h2 := ok_of_bind (skip_other hdesc) h1
    have h3 := ok_of_bind (skip_other hasc) h2
    cases h3
    exact ⟨rfl, .bare hG'⟩
  | asc hG =>
    rw [append_assoc, singleton_append] at he
    obtain ⟨rfl, hG'⟩ := hparse.reads hG (.inl rfl) he
    obtain ⟨b, v, hskip, h2⟩ := bind_eq_ok.1 h1
    have hdesc : (.Asc : Token F) ≠ .Desc := nofun
    rw [skip_ne hdesc] at hskip
    cases hskip
    have h3 := ok_of_bind (skip_kw _) h2
    cases h3
    exact ⟨rfl, .asc hG'⟩
  | desc hG =>
    rw [append_assoc, singleton_append] at he
    obtain ⟨rfl, hG'⟩ := hparse.reads hG (.inl rfl) he
    have h2 := ok_of_bind (skip_kw _) h1
    cases h2
    exact ⟨rfl, .desc hG'⟩

omit hparse in
/-- A list of order items is over. -/
def AfterOrder (rest : List (Token F)) : Prop :=
  AfterExpr rest ∧ Other .EOF .Asc rest ∧ Other .EOF .Desc rest ∧ Other .EOF .Comma rest

theorem ReadsExpr.reads_order_by :
    Reads (parse_order_by depth parse) (sep .Comma (OrderItem (Expression texts))) AfterOrder :=
  Reads.separated hparse.reads_order_item (s := .Comma) (fun _ => ⟨.inl rfl, nofun, nofun⟩)
    (fun _ h => ⟨⟨h.1, h.2.1, h.2.2.1⟩, h.2.2.2⟩) depth

/-! ### Calls -/

variable {ts rest rest' : List (Token F)}

/-- The arguments of a call with the parenthesis that closes them. -/
theorem ReadsExpr.parse_args {args args' : List (Expr F)} (hargs : Args (Expression texts) args ts)
    (h : parse_args texts depth parse (ts ++ .RightParen :: rest) = .ok (args', rest')) :
    rest' = rest ∧ Args (Expression texts) args' ts := by
  obtain ⟨es, v, hlist, h1⟩ := bind_eq_ok.1 h
  obtain ⟨_, w, hexpect, h2⟩ := bind_eq_ok.1 h1
  cases h2
  have hlist := ok_of_bind rfl hlist
  have hparen : (.RightParen : Token F) ≠ .EOF := nofun
  cases hargs with
  | none =>
    cases hlist
    exact ⟨(cons.inj (expect_eq_ok hparen hexpect)).2.symm, .none⟩
  | star =>
    cases hlist
    exact ⟨(cons.inj (expect_eq_ok hparen hexpect)).2.symm, .star⟩
  | list hes hstar =>
    have hhead : ∃ tok us, ts = tok :: us ∧ tok ≠ .RightParen := by
      obtain ⟨e, t, he, us, rfl⟩ : ∃ e t, Expression texts e t ∧ ∃ us, ts = t ++ us := by
        cases hes with
        | one he => exact ⟨_, _, he, [], (append_nil _).symm⟩
        | more he _ => exact ⟨_, _, he, _, rfl⟩
      obtain ⟨p, tl, hp, -, rfl⟩ := expression_split he
      obtain ⟨tok, us', rfl, htok⟩ := hp.head
      exact ⟨tok, _, rfl, htok⟩
    obtain ⟨tok, us, rfl, htok⟩ := hhead
    have hnostar : tok ≠ .Star := fun heq => hstar (by rw [heq]; rfl)
    rw [cons_append, headD_cons, if_neg htok, if_neg hnostar] at hlist
    obtain ⟨rfl, hes'⟩ := hparse.reads_list hes (afterList_rightParen rest) hlist
    exact ⟨(cons.inj (expect_eq_ok hparen hexpect)).2.symm, .list hes' hstar⟩

/-! ### Windows -/

theorem ReadsExpr.reads_partition_by :
    Reads (parse_partition_by texts depth parse) (PartitionBy (Expression texts))
      fun rest => rest.headD .EOF = .Order ∨ rest.headD .EOF = .RightParen := by
  rintro es ts rest hes hrest es' rest' h
  have h1 := ok_of_bind rfl h
  cases hes with
  | none =>
    have hword : is_word "PARTITION" (rest.headD .EOF) = false := by
      obtain hhead | hhead := hrest <;> rw [hhead] <;> rfl
    rw [nil_append, hword] at h1
    cases h1
    exact ⟨rfl, .none⟩
  | some hword hes =>
    rw [cons_append, headD_cons, if_pos hword] at h1
    have h2 := ok_of_bind rfl h1
    have h3 := ok_of_bind (expect_cons _ _) h2
    have hafter : AfterList rest := by
      obtain hhead | hhead := hrest <;>
        exact ⟨.inl (by rw [hhead]; rfl), by rw [Other, hhead]; nofun⟩
    obtain ⟨rfl, hes'⟩ := hparse.reads_list hes hafter h3
    exact ⟨rfl, .some hword hes'⟩

theorem ReadsExpr.reads_window_order :
    Reads (parse_window_order texts depth parse) (WindowOrder (Expression texts))
      fun rest => rest.headD .EOF = .RightParen := by
  rintro items ts rest hitems hrest items' rest' h
  obtain ⟨b, u, hskip, h1⟩ := bind_eq_ok.1 h
  cases hitems with
  | none =>
    have hother : Other .EOF .Order rest := by
      rw [Other, hrest]
      nofun
    rw [nil_append, skip_other hother] at hskip
    cases hskip
    cases h1
    exact ⟨rfl, .none⟩
  | some hitems =>
    rw [cons_append, skip_kw] at hskip
    cases hskip
    have h2 := ok_of_bind (expect_cons _ _) h1
    obtain ⟨items', w, hlist, h3⟩ := bind_eq_ok.1 h2
    have hafter : AfterOrder rest :=
      ⟨.inl (by rw [hrest]; rfl), by rw [Other, hrest]; nofun, by rw [Other, hrest]; nofun,
        by rw [Other, hrest]; nofun⟩
    obtain ⟨rfl, hitems'⟩ := hparse.reads_order_by hitems hafter hlist
    cases h3
    exact ⟨rfl, .some hitems'⟩

theorem ReadsExpr.parse_window {uname : String} {args partition_by : List (Expr F)}
    {order_by : List (Expr F × Bool)} {us vs rest rest' : List (Token F)} {e : Expr F}
    (hpartition : PartitionBy (Expression texts) partition_by us)
    (horder : WindowOrder (Expression texts) order_by vs)
    (h : parse_window texts depth parse uname args
      (.LeftParen :: (us ++ (vs ++ .RightParen :: rest))) = .ok (e, rest')) :
    rest' = rest ∧ ∃ partition_by order_by, e = .WindowFunc uname args partition_by order_by ∧
      PartitionBy (Expression texts) partition_by us ∧ WindowOrder (Expression texts) order_by vs := by
  have h1 := ok_of_bind (expect_cons _ _) h
  obtain ⟨partition', v, hpart, h2⟩ := bind_eq_ok.1 h1
  have hvs : (vs ++ .RightParen :: rest).headD .EOF = .Order ∨
      (vs ++ .RightParen :: rest).headD .EOF = .RightParen := by
    cases horder with
    | none => exact .inr rfl
    | some => exact .inl rfl
  obtain ⟨rfl, hpartition'⟩ := hparse.reads_partition_by hpartition hvs hpart
  obtain ⟨order', horder', h3⟩ := hparse.reads_window_order.peel horder rfl h2
  have h4 := ok_of_bind (expect_cons _ _) h3
  cases h4
  exact ⟨rfl, partition', order', rfl, hpartition', horder'⟩

/-! ### Atoms -/

omit hparse in
theorem parse_head_cons (tok : Token F) (ts : List (Token F)) :
    parse_head texts depth parse (tok :: ts) = parse_prefix_from texts depth parse tok ts := rfl

omit hparse in
theorem parse_head_name {tok : Token F} {name : String} (h : name_of tok = some name)
    (ts : List (Token F)) :
    parse_head texts depth parse (tok :: ts) = parse_name texts depth parse name ts := by
  cases tok <;> cases h <;> rfl

theorem ReadsExpr.parse_atom {e₀ e : Expr F} (hatom : Atom texts (Expression texts) e₀ ts)
    (hrest : AfterAtom rest) (h : parse_head texts depth parse (ts ++ rest) = .ok (e, rest')) :
    rest' = rest ∧ Atom texts (Expression texts) e ts := by
  have hdot : (.LeftParen : Token F) ≠ .Dot := nofun
  cases hatom with
  | int n => cases h; exact ⟨rfl, .int n⟩
  | float f => cases h; exact ⟨rfl, .float f⟩
  | str s => cases h; exact ⟨rfl, .str s⟩
  | true_ => cases h; exact ⟨rfl, .true_⟩
  | false_ => cases h; exact ⟨rfl, .false_⟩
  | null => cases h; exact ⟨rfl, .null⟩
  | star => cases h; exact ⟨rfl, .star⟩
  | paren he =>
    simp only [cons_append, append_assoc, nil_append, parse_head_cons] at h
    obtain ⟨e', hG, h1⟩ := hparse.reads.peel he (.inl rfl) h
    have h2 := ok_of_bind (expect_cons _ _) h1
    cases h2
    exact ⟨rfl, .paren hG⟩
  | column hn =>
    rw [singleton_append, parse_head_name hn] at h
    have h1 := ok_of_bind (skip_other hrest.no_dot) h
    have h2 := ok_of_bind (skip_other hrest.no_paren) h1
    cases h2
    exact ⟨rfl, .column hn⟩
  | qualified hn hcol =>
    simp only [cons_append, nil_append, parse_head_name hn] at h
    have h1 := ok_of_bind (skip_kw _) h
    have h2 := ok_of_bind (expect_ident_cons _ hcol) h1
    have h3 := ok_of_bind (skip_other hrest.no_paren) h2
    cases h3
    exact ⟨rfl, .qualified hn hcol⟩
  | qualified_call hn hcol hargs =>
    simp only [cons_append, append_assoc, nil_append, parse_head_name hn] at h
    have h1 := ok_of_bind (skip_kw _) h
    have h2 := ok_of_bind (expect_ident_cons _ hcol) h1
    have h3 := ok_of_bind (skip_kw _) h2
    obtain ⟨args, x, hparse_args, h4⟩ := bind_eq_ok.1 h3
    obtain ⟨rfl, hargs'⟩ := hparse.parse_args hargs hparse_args
    cases h4
    exact ⟨rfl, .qualified_call hn hcol hargs'⟩
  | call hn hargs =>
    simp only [cons_append, append_assoc, nil_append, parse_head_name hn] at h
    have h1 := ok_of_bind (skip_ne hdot _) h
    have h2 := ok_of_bind (skip_kw _) h1
    obtain ⟨args, w, hparse_args, h3⟩ := bind_eq_ok.1 h2
    obtain ⟨rfl, hargs'⟩ := hparse.parse_args hargs hparse_args
    have h4 := ok_of_bind rfl h3
    split at h4
    · next hover =>
      -- an `OVER` with no parenthesis behind it is an error
      rw [Bool.and_eq_true] at hover
      cases w with
      | nil => cases hover.2
      | cons tok r =>
        have h5 := ok_of_bind rfl h4
        obtain ⟨_, z, hexpect, -⟩ := bind_eq_ok.1 h5
        have heof : (.LeftParen : Token F) ≠ .EOF := nofun
        have hparen : r = .LeftParen :: z := expect_eq_ok heof hexpect
        exact absurd (by rw [hparen]; rfl) (hrest.no_over tok r rfl hover.2)
    · cases h4
      exact ⟨rfl, .call hn hargs'⟩
  | window hn hfun hargs hover hpartition horder =>
    simp only [cons_append, append_assoc, nil_append, parse_head_name hn] at h
    have h1 := ok_of_bind (skip_ne hdot _) h
    have h2 := ok_of_bind (skip_kw _) h1
    obtain ⟨args, w, hparse_args, h3⟩ := bind_eq_ok.1 h2
    obtain ⟨rfl, hargs'⟩ := hparse.parse_args hargs hparse_args
    have h4 := ok_of_bind rfl h3
    rw [headD_cons, hfun, hover, Bool.and_true, if_pos rfl] at h4
    have h5 := ok_of_bind rfl h4
    obtain ⟨rfl, partition', order', rfl, hpartition', horder'⟩ := hparse.parse_window hpartition horder h5
    exact ⟨rfl, .window hn hfun hargs' hover hpartition' horder'⟩
  | cast he hty =>
    simp only [cons_append, append_assoc, nil_append, parse_head_cons] at h
    have h1 := ok_of_bind (expect_cons _ _) h
    obtain ⟨e', hG, h2⟩ := hparse.reads.peel he (.inl rfl) h1
    have h3 := ok_of_bind (expect_cons _ _) h2
    obtain ⟨ty', x, hty', h4⟩ := bind_eq_ok.1 h3
    have hafter : AfterType (.RightParen :: rest) := ⟨nofun, nofun⟩
    obtain ⟨rfl, hty''⟩ := reads_data_type hty hafter hty'
    have h5 := ok_of_bind (expect_cons _ _) h4
    cases h5
    exact ⟨rfl, .cast hG hty''⟩

/-! ### Operators -/

theorem ReadsExpr.parse_head {p tl rest r : List (Token F)} {e : Expr F} (hp : Prim texts p)
    (htl : Tails texts tl) (hrest : AfterExpr rest)
    (h : parse_head texts depth parse (p ++ tl ++ rest) = .ok (e, r)) :
    ∃ t₁ t₂, tl = t₁ ++ t₂ ∧ r = t₂ ++ rest ∧ Expression texts e (p ++ t₁) ∧ Tails texts t₂ := by
  cases hp with
  | atom hatom =>
    rw [append_assoc] at h
    obtain ⟨rfl, hatom'⟩ := hparse.parse_atom hatom (htl.afterAtom hrest) h
    refine ⟨[], tl, rfl, rfl, ?_, htl⟩
    rw [append_nil]
    exact .atom hatom'
  | neg hp | not hp =>
    rw [cons_append, cons_append, parse_head_cons] at h
    obtain ⟨e', u, he, h1⟩ := bind_eq_ok.1 h
    obtain ⟨t₁, t₂, htl', rfl, hexpr, ht₂, -⟩ := hparse hp htl hrest he
    cases h1
    refine ⟨t₁, t₂, htl', rfl, ?_, ht₂⟩
    first | exact .neg hexpr | exact .not hexpr

omit hparse in
theorem parse_operator_binary {tok : Token F} {op : BinOp} (hop : tok_to_binop tok = some op)
    (right_bp : ℕ) (left : Expr F) :
    parse_operator texts depth parse right_bp left tok = (do
      let right ← parse right_bp
      return some (.BinaryOp op left right)) := by
  cases tok <;> cases hop <;> rfl

theorem ReadsExpr.parenthesized_list {es es' : List (Expr F)}
    (hes : sep .Comma (Expression texts) es ts)
    (h : parenthesized texts (parse_expr_list depth parse)
      (.LeftParen :: (ts ++ .RightParen :: rest)) = .ok (es', rest')) :
    rest' = rest ∧ sep .Comma (Expression texts) es' ts := by
  have h1 := ok_of_bind (expect_cons _ _) h
  obtain ⟨es'', hes', h2⟩ := hparse.reads_list.peel hes (afterList_rightParen rest) h1
  have h3 := ok_of_bind (expect_cons _ _) h2
  cases h3
  exact ⟨rfl, hes'⟩

/-- An operator takes its right side, and of the operators behind it what binds stronger. -/
theorem ReadsExpr.parse_operator {tok : Token F} {right_bp : ℕ} {left : Expr F}
    {c us tl rest r : List (Token F)} {o : Option (Expr F)} (hleft : Expression texts left c)
    (ht : Tail texts (tok :: us)) (htl : Tails texts tl) (hrest : AfterExpr rest)
    (h : parse_operator texts depth parse right_bp left tok (us ++ tl ++ rest) = .ok (o, r)) :
    ∃ e t₁ t₂, o = some e ∧ tl = t₁ ++ t₂ ∧ r = t₂ ++ rest ∧
      Expression texts e (c ++ (tok :: us ++ t₁)) ∧ Tails texts t₂ := by
  cases ht with
  | binary hop hp =>
    rw [parse_operator_binary hop] at h
    obtain ⟨right, u, hright, h1⟩ := bind_eq_ok.1 h
    obtain ⟨t₁, t₂, rfl, rfl, hexpr, ht₂, -⟩ := hparse hp htl hrest hright
    cases h1
    exact ⟨_, t₁, t₂, rfl, rfl, rfl, .binary hop hleft hexpr, ht₂⟩
  | is_null =>
    obtain ⟨b, u, hskip, h1⟩ := bind_eq_ok.1 h
    have hnot : (.Null : Token F) ≠ .Not := nofun
    cases (skip_ne hnot _).symm.trans hskip
    have h2 := ok_of_bind (expect_cons _ _) h1
    cases h2
    exact ⟨_, [], tl, rfl, rfl, rfl, .is_null hleft, htl⟩
  | is_not_null =>
    have h1 := ok_of_bind (skip_kw _) h
    have h2 := ok_of_bind (expect_cons _ _) h1
    cases h2
    exact ⟨_, [], tl, rfl, rfl, rfl, .is_not_null hleft, htl⟩
  | between hp =>
    obtain ⟨low, u, hlow, h1⟩ := bind_eq_ok.1 h
    obtain ⟨t₁, t₂, rfl, rfl, hexpr, ht₂, -⟩ := hparse hp htl hrest hlow
    obtain ⟨_, v, hexpect, h2⟩ := bind_eq_ok.1 h1
    have heof : (.And : Token F) ≠ .EOF := nofun
    have hand := expect_eq_ok heof hexpect
    -- the `AND` is the next operator, since none stands behind the expression
    cases ht₂ with
    | nil =>
      have hstop := hrest.not_infix
      rw [nil_append] at hand
      rw [hand] at hstop
      cases hstop
    | cons ht ht₂ =>
      cases ht with
      | @binary _ _ vs hop hp' =>
        cases hand
        obtain ⟨high, w, hhigh, h3⟩ := bind_eq_ok.1 h2
        obtain ⟨t₃, t₄, rfl, rfl, hexpr', ht₄, -⟩ := hparse hp' ht₂ hrest hhigh
        cases h3
        refine ⟨_, t₁ ++ .And :: (vs ++ t₃), t₄, rfl, by simp, rfl, ?_, ht₄⟩
        have := Expression.between hleft hexpr hexpr'
        simpa using this
      | _ => cases hand
  | in_list hes =>
    obtain ⟨list, u, hlist, h1⟩ := bind_eq_ok.1 h
    simp only [append_eq, cons_append, append_assoc, nil_append] at hlist
    obtain ⟨rfl, hes'⟩ := hparse.parenthesized_list hes hlist
    cases h1
    refine ⟨_, [], tl, rfl, rfl, rfl, ?_, htl⟩
    have := Expression.in_list hleft hes'
    simpa using this
  | not_in hes =>
    have h1 := ok_of_bind (skip_kw _) h
    obtain ⟨list, v, hlist, h2⟩ := bind_eq_ok.1 h1
    simp only [append_eq, cons_append, append_assoc, nil_append] at hlist
    obtain ⟨rfl, hes'⟩ := hparse.parenthesized_list hes hlist
    cases h2
    refine ⟨_, [], tl, rfl, rfl, rfl, ?_, htl⟩
    have := Expression.not_in hleft hes'
    simpa using this

theorem ReadsExpr.infix_loop {min_bp n : ℕ} {left e : Expr F} {c tl rest r : List (Token F)}
    (hleft : Expression texts left c) (htl : Tails texts tl) (hrest : AfterExpr rest)
    (h : infix_loop texts depth parse min_bp n left (tl ++ rest) = .ok (e, r)) :
    ∃ t₁ t₂, tl = t₁ ++ t₂ ∧ r = t₂ ++ rest ∧ Expression texts e (c ++ t₁) ∧ Tails texts t₂ ∧
      Low min_bp t₂ := by
  induction n generalizing left c tl with
  | zero => cases h
  | succ n ih =>
    have h1 := ok_of_bind rfl h
    simp only at h1
    cases htl with
    | nil =>
      rw [nil_append, if_pos (.inl hrest.not_infix)] at h1
      cases h1
      exact ⟨[], [], rfl, rfl, by rwa [append_nil], .nil, .inl rfl⟩
    | @cons t ts ht hts =>
      obtain ⟨tok, us, rfl, htok⟩ := ht.head
      have hhead : (tok :: us ++ ts ++ rest).headD .EOF = tok := rfl
      by_cases hstop : (infix_bp ((tok :: us ++ ts ++ rest).headD .EOF)).1 = 0 ∨
          (infix_bp ((tok :: us ++ ts ++ rest).headD .EOF)).1 < min_bp
      · rw [if_pos hstop] at h1
        cases h1
        refine ⟨[], _, rfl, rfl, by rwa [append_nil], .cons ht hts, .inr ?_⟩
        rw [hhead] at hstop
        exact hstop.resolve_left htok
      · rw [if_neg hstop] at h1
        have h2 := ok_of_bind rfl h1
        obtain ⟨o, w, hop, h3⟩ := bind_eq_ok.1 h2
        obtain ⟨left', t₁, t₂, rfl, rfl, rfl, hleft', ht₂⟩ := hparse.parse_operator hleft ht hts hrest hop
        obtain ⟨t₃, t₄, rfl, rfl, he, ht₄, hlow⟩ := ih hleft' ht₂ h3
        refine ⟨tok :: us ++ t₁ ++ t₃, t₄, by simp, rfl, ?_, ht₄, hlow⟩
        simpa using he

end

theorem readsExpr [DecidableEq F] (texts : Texts F) (depth : ℕ) :
    ReadsExpr texts (parse_expr texts depth) := by
  induction depth with
  | zero =>
    intro min_bp p tl rest hp htl hrest e r h
    cases h
  | succ depth ih =>
    intro min_bp p tl rest hp htl hrest e r h
    obtain ⟨left, u, hhead, h1⟩ := bind_eq_ok.1 h
    obtain ⟨t₁, t₂, rfl, rfl, hleft, ht₂⟩ := ih.parse_head hp htl hrest hhead
    obtain ⟨t₃, t₄, rfl, rfl, he, ht₄, hlow⟩ := ih.infix_loop hleft ht₂ hrest h1
    refine ⟨t₁ ++ t₃, t₄, (append_assoc _ _ _).symm, rfl, ?_, ht₄, hlow⟩
    rwa [← append_assoc]

end Oigrap.Sql.Parser

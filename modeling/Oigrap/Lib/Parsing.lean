/-
Recursive descent over a list of tokens, and the grammars it reads.

A parser takes what is left of the input to a value and the new rest, or fails. A grammar is a
set of phrases: which value a list of tokens may stand for. It may be ambiguous, and it says
nothing about lookahead. `Reads p G F` connects the two: on a phrase of `G` followed by
something in `F`, a parser that returns has read exactly the phrase and returns one of its
values. The rules go along the code: a bind, a token, an optional part, a separated list.
-/
import Mathlib.Data.Nat.Notation
import Mathlib.Logic.Basic

namespace Oigrap.Parsing

open List

variable {T ε α β γ : Type}

/-! ## Parsers -/

abbrev Parser (T ε : Type) := StateT (List T) (Except ε)

variable {q : α → Parser T ε β} {p : Parser T ε α} {r : β × List T}

theorem bind_eq_ok {ts : List T} :
    (p >>= q) ts = .ok r ↔ ∃ a ts', p ts = .ok (a, ts') ∧ q a ts' = .ok r := by
  change (p ts).bind (fun x => q x.1 x.2) = .ok r ↔ _
  cases p ts with
  | error e => simp [Except.bind]
  | ok x =>
    exact ⟨fun h => ⟨x.1, x.2, rfl, h⟩, fun ⟨a, ts', hx, h⟩ => Except.ok.inj hx ▸ h⟩

theorem bind_of_ok {ts ts' : List T} {a : α} (hp : p ts = .ok (a, ts')) (hq : q a ts' = .ok r) :
    (p >>= q) ts = .ok r :=
  bind_eq_ok.2 ⟨a, ts', hp, hq⟩

/-- What a parser does behind a first part that returns. -/
theorem ok_of_bind {ts ts' : List T} {a : α} (hp : p ts = .ok (a, ts')) (h : (p >>= q) ts = .ok r) :
    q a ts' = .ok r := by
  obtain ⟨b, us, hb, hq⟩ := bind_eq_ok.1 h
  cases hp.symm.trans hb
  exact hq

section

variable (eof : T)

/-- The next token; behind the end there is only `eof`. -/
def peek : Parser T ε T := fun ts => .ok (ts.headD eof, ts)

def advance : Parser T ε T := fun ts => .ok (ts.headD eof, ts.tail)

variable [DecidableEq T]

/-- `if self.peek() == kw { self.advance(); true } else { false }`. -/
def skip (kw : T) : Parser T ε Bool := do
  if (← peek eof) = kw then
    let _ ← advance eof
    return true
  else return false

/-- `if self.peek() == kw { self.advance(); Some(p) } else { None }`. -/
def optional (kw : T) (p : Parser T ε α) : Parser T ε (Option α) := do
  if ← skip eof kw then some <$> p else return none

/-- The loop `p (sep p)*`. The failure `stop` stands for a depth that is used up. -/
def separated (sep : T) (stop : ε) (p : Parser T ε α) : ℕ → Parser T ε (List α)
  | 0 => throw stop
  | n + 1 => do
    let x ← p
    if ← skip eof sep then
      let xs ← separated sep stop p n
      return x :: xs
    else return [x]

end

/-! ## Phrases -/

/-- The values that a list of tokens may stand for. -/
def Phrase (T α : Type) := α → List T → Prop

namespace Phrase

instance : Monad (Phrase T) where
  pure a := fun b ts => b = a ∧ ts = []
  bind G H := fun b ts => ∃ a t u, G a t ∧ H a b u ∧ ts = t ++ u

/-- One token. -/
def token (t : T) : Phrase T Unit := fun _ ts => ts = [t]

/-- A token with a value. -/
def one (f : T → Option α) : Phrase T α := fun a ts => ∃ t, f t = some a ∧ ts = [t]

/-- A token that may be missing. -/
def word (kw : T) : Phrase T Bool := fun b ts => b = false ∧ ts = [] ∨ b = true ∧ ts = [kw]

/-- A keyword and what it introduces, or nothing. -/
def opt (kw : T) (G : Phrase T α) : Phrase T (Option α) := fun o ts =>
  o = none ∧ ts = [] ∨ ∃ a t, o = some a ∧ G a t ∧ ts = kw :: t

/-- Phrases with a separator between them, at least one. -/
inductive sep (s : T) (G : Phrase T α) : List α → List T → Prop
  | one {a : α} {t : List T} : G a t → sep s G [a] t
  | more {a : α} {as : List α} {t ts : List T} : G a t → sep s G as ts → sep s G (a :: as) (t ++ s :: ts)

/-- The tokens that may follow do not depend on the value before. -/
def Uniform (H : α → Phrase T β) : Prop :=
  ∀ ⦃a : α⦄ (a' : α) ⦃b : β⦄ ⦃ts : List T⦄, H a b ts → ∃ b', H a' b' ts

theorem Uniform.pure (f : α → β) : Uniform (T := T) fun a => (Pure.pure (f a) : Phrase T β) := by
  rintro a a' b ts ⟨-, rfl⟩
  exact ⟨f a', rfl, rfl⟩

theorem Uniform.const (G : Phrase T β) : Uniform fun _ : α => G := fun _ _ _ _ h => ⟨_, h⟩

theorem Uniform.bind {G : Phrase T β} {H : α → β → Phrase T γ} (h : ∀ b, Uniform fun a => H a b) :
    Uniform fun a => G >>= H a := by
  rintro a a' c ts ⟨b, t, u, ht, hu, rfl⟩
  obtain ⟨c', hc⟩ := h b a' hu
  exact ⟨c', b, t, u, ht, hc, rfl⟩

end Phrase

/-! ## Reading phrases -/

/-- Every phrase of `G` with something of `F` behind it begins like `F'`. -/
def Begins (G : Phrase T α) (F F' : List T → Prop) : Prop :=
  ∀ ⦃a : α⦄ ⦃ts : List T⦄, G a ts → ∀ ⦃rest : List T⦄, F rest → F' (ts ++ rest)

/-- On a phrase of `G` with something of `F` behind it, a parser that returns has read the
phrase. -/
def Reads (p : Parser T ε α) (G : Phrase T α) (F : List T → Prop) : Prop :=
  ∀ ⦃a : α⦄ ⦃ts rest : List T⦄, G a ts → F rest →
    ∀ ⦃a' : α⦄ ⦃rest' : List T⦄, p (ts ++ rest) = .ok (a', rest') → rest' = rest ∧ G a' ts

variable {G : Phrase T α} {H : α → Phrase T β} {F F' F₁ : List T → Prop}

section

theorem Begins.pure {a : α} (h : ∀ ⦃rest⦄, F rest → F' rest) : Begins (pure a) F F' := by
  rintro b ts ⟨-, rfl⟩ rest hrest
  exact h hrest

theorem Begins.bind (hG : Begins G F₁ F') (hH : ∀ a, Begins (H a) F F₁) : Begins (G >>= H) F F' := by
  rintro b ts ⟨a, t, u, ht, hu, rfl⟩ rest hrest
  rw [append_assoc]
  exact hG ht (hH a hu hrest)

theorem Begins.token {t : T} (h : ∀ rest, F' (t :: rest)) : Begins (Phrase.token t) F F' := by
  rintro a ts rfl rest -
  exact h rest

theorem Begins.one {f : T → Option α} (h : ∀ t a, f t = some a → ∀ ⦃rest⦄, F rest → F' (t :: rest)) :
    Begins (Phrase.one f) F F' := by
  rintro a ts ⟨t, ht, rfl⟩ rest hrest
  exact h t a ht hrest

theorem Begins.opt {kw : T} (hkw : ∀ rest, F' (kw :: rest)) (hnone : ∀ ⦃rest⦄, F rest → F' rest) :
    Begins (Phrase.opt kw G) F F' := by
  rintro o ts (⟨-, rfl⟩ | ⟨a, t, -, -, rfl⟩) rest hrest
  · exact hnone hrest
  · exact hkw _

end

variable {F F₁ : List T → Prop}

section

theorem Reads.pure (a : α) : Reads (pure a : Parser T ε α) (pure a) F := by
  rintro b ts rest ⟨rfl, rfl⟩ - a' rest' h
  cases h
  exact ⟨rfl, rfl, rfl⟩

/-- What follows is read too, if its tokens are possible after the value that was read. -/
theorem Reads.bind (hp : Reads p G F₁) (hfirst : ∀ a, Begins (H a) F F₁) (huniform : Phrase.Uniform H)
    (hq : ∀ a, Reads (q a) (H a) F) : Reads (p >>= q) (G >>= H) F := by
  rintro b ts rest ⟨a, t, u, ht, hu, rfl⟩ hrest b' rest' h
  obtain ⟨a', ts', hpa, hqb⟩ := bind_eq_ok.1 h
  rw [append_assoc] at hpa
  obtain ⟨rfl, ht'⟩ := hp ht (hfirst a hu hrest) hpa
  obtain ⟨b'', hu'⟩ := huniform a' hu
  obtain ⟨rfl, hb'⟩ := hq a' hu' hrest hqb
  exact ⟨rfl, a', t, u, ht', hb', rfl⟩

/-- Behind a phrase that was read the parser goes on. -/
theorem Reads.peel (hp : Reads p G F) {a : α} {ts rest : List T} (ha : G a ts) (hrest : F rest)
    {r : β × List T} (h : (p >>= q) (ts ++ rest) = .ok r) : ∃ a', G a' ts ∧ q a' rest = .ok r := by
  obtain ⟨a', ts', hpa, hq⟩ := bind_eq_ok.1 h
  obtain ⟨rfl, ha'⟩ := hp ha hrest hpa
  exact ⟨a', ha', hq⟩

theorem Reads.weaken {F' : List T → Prop} (hp : Reads p G F₁) (h : ∀ ⦃rest⦄, F' rest → F₁ rest) :
    Reads p G F' := fun _ _ _ ht hrest => hp ht (h hrest)

/-- A parser that reads a token takes it from the input. -/
theorem Reads.token {p : Parser T ε Unit} {t : T} (h : ∀ rest, p (t :: rest) = .ok ((), rest)) :
    Reads p (Phrase.token t) F := by
  rintro a ts rest rfl - a' rest' hp
  rw [singleton_append, h] at hp
  cases hp
  exact ⟨rfl, rfl⟩

theorem Reads.one {f : T → Option α} (h : ∀ t a rest, f t = some a → p (t :: rest) = .ok (a, rest)) :
    Reads p (Phrase.one f) F := by
  rintro a ts rest ⟨t, ht, rfl⟩ - a' rest' hp
  rw [singleton_append, h t a rest ht] at hp
  cases hp
  exact ⟨rfl, t, ht, rfl⟩

end

/-! ### Optional parts and lists -/

section

variable [DecidableEq T] {eof : T} {kw s : T} {stop : ε}

/-- The next token is another one. -/
def Other (eof kw : T) (rest : List T) : Prop := rest.headD eof ≠ kw

theorem skip_other {rest : List T} (h : Other eof kw rest) :
    skip eof kw rest = (.ok (false, rest) : Except ε (Bool × List T)) := by
  refine bind_eq_ok.2 ⟨rest.headD eof, rest, rfl, ?_⟩
  rw [if_neg h]
  rfl

theorem skip_ne {t : T} (h : t ≠ kw) (rest : List T) :
    skip eof kw (t :: rest) = (.ok (false, t :: rest) : Except ε (Bool × List T)) :=
  skip_other h

theorem skip_kw (rest : List T) :
    skip eof kw (kw :: rest) = (.ok (true, rest) : Except ε (Bool × List T)) := by
  refine bind_eq_ok.2 ⟨kw, kw :: rest, rfl, ?_⟩
  rw [if_pos rfl]
  rfl

theorem Reads.skip (hF : ∀ ⦃rest⦄, F rest → Other eof kw rest) :
    Reads (skip eof kw : Parser T ε Bool) (Phrase.word kw) F := by
  rintro b ts rest (⟨-, rfl⟩ | ⟨-, rfl⟩) hrest b' rest' h
  · rw [nil_append, skip_other (hF hrest)] at h
    cases h
    exact ⟨rfl, .inl ⟨rfl, rfl⟩⟩
  · rw [singleton_append, skip_kw] at h
    cases h
    exact ⟨rfl, .inr ⟨rfl, rfl⟩⟩

theorem Reads.optional (hp : Reads p G F) (hF : ∀ ⦃rest⦄, F rest → Other eof kw rest) :
    Reads (optional eof kw p) (Phrase.opt kw G) F := by
  rintro o ts rest (⟨-, rfl⟩ | ⟨a, t, -, ht, rfl⟩) hrest o' rest' h
  · obtain ⟨b, ts', hskip, h⟩ := bind_eq_ok.1 h
    rw [nil_append, skip_other (hF hrest)] at hskip
    cases hskip
    cases h
    exact ⟨rfl, .inl ⟨rfl, rfl⟩⟩
  · obtain ⟨b, ts', hskip, h⟩ := bind_eq_ok.1 h
    rw [cons_append, skip_kw] at hskip
    cases hskip
    rw [if_pos rfl, map_eq_pure_bind] at h
    obtain ⟨a', u, hpa, h⟩ := bind_eq_ok.1 h
    cases h
    obtain ⟨rfl, ht'⟩ := hp ht hrest hpa
    exact ⟨rfl, .inr ⟨a', t, rfl, ht', rfl⟩⟩

theorem Reads.separated (hp : Reads p G F₁) (hs : ∀ rest, F₁ (s :: rest))
    (hF : ∀ ⦃rest⦄, F rest → F₁ rest ∧ Other eof s rest) (n : ℕ) :
    Reads (separated eof s stop p n) (Phrase.sep s G) F := by
  intro as ts rest has
  induction has generalizing n with
  | @one a t ha =>
    intro hrest as' rest' h
    cases n with
    | zero => cases h
    | succ n =>
      obtain ⟨a', u, hpa, hq⟩ := bind_eq_ok.1 h
      obtain ⟨rfl, ha'⟩ := hp ha (hF hrest).1 hpa
      obtain ⟨b, v, hskip, hr⟩ := bind_eq_ok.1 hq
      rw [skip_other (hF hrest).2] at hskip
      cases hskip
      cases hr
      exact ⟨rfl, .one ha'⟩
  | @more a as t ts ha has ih =>
    intro hrest as' rest' h
    cases n with
    | zero => cases h
    | succ n =>
      obtain ⟨a', u, hpa, hq⟩ := bind_eq_ok.1 h
      rw [append_assoc, cons_append] at hpa
      obtain ⟨rfl, ha'⟩ := hp ha (hs _) hpa
      obtain ⟨b, v, hskip, hr⟩ := bind_eq_ok.1 hq
      rw [skip_kw] at hskip
      cases hskip
      obtain ⟨bs, w, hsep, hpure⟩ := bind_eq_ok.1 hr
      obtain ⟨rfl, has'⟩ := ih n hrest hsep
      cases hpure
      exact ⟨rfl, .more ha' has'⟩

end

/-! ### Stages of a phrase -/

/-- A parser that reads `G` in front of `F`, where what is read with what follows begins like
`F'`. -/
structure Stage (p : Parser T ε α) (G : Phrase T α) (F F' : List T → Prop) : Prop where
  reads : Reads p G F
  begins : Begins G F F'

section

theorem Stage.pure (a : α) : Stage (pure a : Parser T ε α) (pure a) F F :=
  ⟨.pure a, .pure fun _ h => h⟩

theorem Stage.bind (hp : Stage p G F₁ F') (hq : ∀ a, Stage (q a) (H a) F F₁)
    (huniform : Phrase.Uniform H := by
      repeat' first | exact Phrase.Uniform.pure _ | refine Phrase.Uniform.bind fun _ => ?_) :
    Stage (p >>= q) (G >>= H) F F' :=
  ⟨hp.reads.bind (fun a => (hq a).begins) huniform fun a => (hq a).reads,
    hp.begins.bind fun a => (hq a).begins⟩

/-- Nothing is asked of what follows. -/
def Any : List T → Prop := fun _ => True

theorem Stage.of_reads (h : Reads p G F) : Stage p G F Any := ⟨h, fun _ _ _ _ _ => trivial⟩

theorem Stage.any (h : Stage p G F F') : Stage p G F Any := .of_reads h.reads

theorem Stage.optional [DecidableEq T] {eof kw : T} (hp : Reads p G F)
    (hF : ∀ ⦃rest⦄, F rest → Other eof kw rest) (hkw : ∀ rest, F' (kw :: rest))
    (hnone : ∀ ⦃rest⦄, F rest → F' rest) : Stage (optional eof kw p) (Phrase.opt kw G) F F' :=
  ⟨hp.optional hF, .opt hkw hnone⟩

end

/-! ### What holds of every phrase -/

namespace Phrase

/-- The token does not occur in the phrases. -/
def Avoids (t : T) (G : Phrase T α) : Prop := ∀ ⦃a : α⦄ ⦃ts : List T⦄, G a ts → t ∉ ts

/-- The values of the phrases. -/
def Yields (P : α → Prop) (G : Phrase T α) : Prop := ∀ ⦃a : α⦄ ⦃ts : List T⦄, G a ts → P a

theorem Yields.pure {P : α → Prop} {a : α} (h : P a) : Yields (T := T) P (Pure.pure a) := by
  rintro b ts ⟨rfl, -⟩
  exact h

theorem Yields.bind {P : β → Prop} {G : Phrase T α} {H : α → Phrase T β} (h : ∀ a, Yields P (H a)) :
    Yields P (G >>= H) := by
  rintro b ts ⟨a, t, u, -, hu, rfl⟩
  exact h a hu

theorem Avoids.sep {t s : T} {G : Phrase T α} (hs : t ≠ s) (hG : Avoids t G) : Avoids t (sep s G) := by
  intro as ts h
  induction h with
  | one ha => exact hG ha
  | more ha _ ih => simp [hG ha, hs, ih]

end Phrase

end Oigrap.Parsing

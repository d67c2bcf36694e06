/-
Weakest preconditions for programs that carry a state and can fail.

`EStateM ε σ α` is how stateful code that returns `Result` is modelled: a run from `s`
either returns a value and a state, or fails with an error and leaves a state behind. A
failure keeps the mutations made before it, exactly as an early `return Err(..)` does.

`wp x Q E s` says what a run of `x` from `s` establishes: `Q` of the value and the final
state when it returns, `E` of the error and the state it leaves when it fails. Total
success is `E := fun _ _ => False`, so "it returns and the result is right" and "it
fails only in such a way" are the same kind of statement, composed by the same rules.
-/
import Mathlib.Tactic.Common

namespace Wp

variable {ε σ τ α β : Type}

/-- Running `x` from `s` returns with `Q` or fails with `E`. -/
def wp (x : EStateM ε σ α) (Q : α → σ → Prop) (E : ε → σ → Prop) (s : σ) : Prop :=
  match x s with
  | .ok a s' => Q a s'
  | .error e s' => E e s'

/-- The exceptional postcondition of a program that must not fail. -/
abbrev never (_ : ε) (_ : σ) : Prop := False

variable {Q Q' : α → σ → Prop} {E E' : ε → σ → Prop} {s s' : σ}

@[simp]
theorem wp_pure (a : α) : wp (pure a : EStateM ε σ α) Q E s ↔ Q a s := Iff.rfl

@[simp]
theorem wp_get {Q : σ → σ → Prop} : wp (get : EStateM ε σ σ) Q E s ↔ Q s s := Iff.rfl

@[simp]
theorem wp_set {Q : PUnit → σ → Prop} (t : σ) :
    wp (set t : EStateM ε σ PUnit) Q E s ↔ Q ⟨⟩ t := Iff.rfl

@[simp]
theorem wp_modify {Q : PUnit → σ → Prop} (f : σ → σ) :
    wp (modify f : EStateM ε σ PUnit) Q E s ↔ Q ⟨⟩ (f s) := Iff.rfl

/-- **The sequencing rule.** What the first program returns is what the second must
start from; a failure of either is a failure of the whole. -/
theorem wp_bind {Q : β → σ → Prop} (x : EStateM ε σ α) (f : α → EStateM ε σ β) :
    wp (x >>= f) Q E s ↔ wp x (fun a s' => wp (f a) Q E s') E s := by
  simp only [wp, bind, EStateM.bind]
  cases x s with
  | ok a s' => exact Iff.rfl
  | error e s' => exact Iff.rfl

variable {x : EStateM ε σ α}

theorem wp_mono (h : wp x Q E s) (hQ : ∀ a s', Q a s' → Q' a s') (hE : ∀ e s', E e s' → E' e s') :
    wp x Q' E' s := by
  unfold wp at h ⊢
  cases hx : x s with
  | ok a s' =>
    rw [hx] at h
    exact hQ a s' h
  | error e s' =>
    rw [hx] at h
    exact hE e s' h

theorem wp_and (h : wp x Q E s) (h' : wp x Q' E' s) :
    wp x (fun a s' => Q a s' ∧ Q' a s') (fun e s' => E e s' ∧ E' e s') s := by
  unfold wp at h h' ⊢
  cases hx : x s with
  | ok a s' =>
    rw [hx] at h h'
    exact ⟨h, h'⟩
  | error e s' =>
    rw [hx] at h h'
    exact ⟨h, h'⟩

theorem wp_imp (h : wp x Q E s) (hQ : ∀ a s', Q a s' → Q' a s') : wp x Q' E s :=
  wp_mono h hQ fun _ _ he => he

theorem wp_never (h : wp x Q never s) (hQ : ∀ a s', Q a s' → Q' a s') : wp x Q' E s :=
  wp_mono h hQ fun _ _ he => he.elim

variable {f : α → EStateM ε σ β} {R : α → σ → Prop}

/-- Sequencing forwards: establish an intermediate assertion, then go on from it. -/
theorem wp_seq {Q : β → σ → Prop} (hx : wp x R E' s) (hE : ∀ e s', E' e s' → E e s')
    (hf : ∀ a s', R a s' → wp (f a) Q E s') :
    wp (x >>= f) Q E s := by
  rw [wp_bind]
  exact wp_mono hx hf hE

/-- Sequencing after a program that does not fail. -/
theorem wp_then {Q : β → σ → Prop} (hx : wp x R never s) (hf : ∀ a s', R a s' → wp (f a) Q E s') :
    wp (x >>= f) Q E s :=
  wp_seq hx (fun _ _ h => h.elim) hf

theorem wp_of_ok {a : α} (h : x s = .ok a s') (hQ : Q a s') : wp x Q E s := by
  unfold wp
  rwa [h]

/-- A program that never fails has a run that returns. -/
theorem exists_ok_of_wp (h : wp x Q never s) : ∃ a s', x s = .ok a s' ∧ Q a s' := by
  unfold wp at h
  cases hx : x s with
  | ok a s' =>
    rw [hx] at h
    exact ⟨a, s', rfl, h⟩
  | error e s' =>
    rw [hx] at h
    exact h.elim

theorem wp_true (x : EStateM ε σ α) : wp x (fun _ _ => True) (fun _ _ => True) s := by
  unfold wp
  cases x s with
  | ok a s' => trivial
  | error e s' => trivial

theorem wp_ok (h : wp x Q E s) {a : α} (hx : x s = .ok a s') : Q a s' := by
  unfold wp at h
  rwa [hx] at h

theorem wp_error (h : wp x Q E s) {e : ε} (hx : x s = .error e s') : E e s' := by
  unfold wp at h
  rwa [hx] at h

/-! ## Pure fallible computations and components of a larger state -/

/-- A computation without state, run in a stateful program. -/
def lift (x : Except ε α) : EStateM ε σ α := fun s =>
  match x with
  | .ok a => .ok a s
  | .error e => .error e s

@[simp]
theorem wp_lift_ok (a : α) : wp (lift (.ok a) : EStateM ε σ α) Q E s ↔ Q a s := Iff.rfl

/-- Run `x` on a component of the state. The component is written back on failure too. -/
def zoom (view : τ → σ) (put : σ → τ → τ) (x : EStateM ε σ α) : EStateM ε τ α := fun t =>
  match x (view t) with
  | .ok a s => .ok a (put s t)
  | .error e s => .error e (put s t)

theorem wp_zoom {view : τ → σ} {put : σ → τ → τ} {Q : α → τ → Prop} {E : ε → τ → Prop} {t : τ} :
    wp (zoom view put x) Q E t
      ↔ wp x (fun a s => Q a (put s t)) (fun e s => E e (put s t)) (view t) := by
  simp only [wp, zoom]
  cases x (view t) with
  | ok a s' => exact Iff.rfl
  | error e s' => exact Iff.rfl

/-- The state a run leaves behind, whether it returned or failed. -/
def after (x : EStateM ε σ α) (s : σ) : σ :=
  match x s with
  | .ok _ s' => s'
  | .error _ s' => s'

theorem after_of_wp {P : σ → Prop} (h : wp x (fun _ s' => P s') (fun _ s' => P s') s) :
    P (after x s) := by
  unfold wp at h
  unfold after
  cases hx : x s with
  | ok a s' =>
    rwa [hx] at h
  | error e s' =>
    rwa [hx] at h

end Wp

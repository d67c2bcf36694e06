/-
Runs of a deterministic system: a step function folded over the actions.

`Along` says that every action of a run, taken in the state the run has reached by then,
meets a condition; `Along.invariant` is the induction that goes with it. A condition that
can be decided for one action can be decided for a run.
-/
import Mathlib.Data.List.Infix

namespace Oigrap

variable {σ α : Type*} {step : σ → α → σ} {ok : σ → α → Prop} {s : σ} {a : α} {as : List α}

def Along (step : σ → α → σ) (ok : σ → α → Prop) (s : σ) (as : List α) : Prop :=
  ∀ pre a, pre ++ [a] <+: as → ok (pre.foldl step s) a

namespace Along

theorem nil : Along step ok s [] := by
  intro pre a h
  simp at h

theorem cons_iff : Along step ok s (a :: as) ↔ ok s a ∧ Along step ok (step s a) as := by
  constructor
  · intro h
    refine ⟨h [] a (by simp), fun pre b hb => ?_⟩
    exact h (a :: pre) b (by simpa using hb)
  · rintro ⟨ha, h⟩ pre b hb
    cases pre with
    | nil =>
      obtain rfl : b = a := by simpa using hb
      exact ha
    | cons c pre =>
      obtain ⟨rfl, htail⟩ := List.cons_prefix_cons.mp hb
      exact h pre b htail

instance decidable [∀ s a, Decidable (ok s a)] (s : σ) : ∀ as, Decidable (Along step ok s as)
  | [] => isTrue nil
  | a :: as =>
    haveI := decidable (step s a) as
    decidable_of_iff _ cons_iff.symm

theorem initial {pre : List α} (h : Along step ok s as) (hpre : pre <+: as) : Along step ok s pre :=
  fun pre' a ha => h pre' a (ha.trans hpre)

theorem append_iff {bs : List α} : Along step ok s (as ++ bs) ↔
    Along step ok s as ∧ Along step ok (as.foldl step s) bs := by
  induction as generalizing s with
  | nil => simp [nil]
  | cons a as ih => simp only [List.cons_append, cons_iff, ih, List.foldl_cons, and_assoc]

theorem and {ok' : σ → α → Prop} (h : Along step ok s as) (h' : Along step ok' s as) :
    Along step (fun s a => ok s a ∧ ok' s a) s as :=
  fun pre a ha => ⟨h pre a ha, h' pre a ha⟩

/-- What holds at first and is kept by every step that meets the condition holds in the end. -/
theorem invariant {P : σ → Prop} (h : Along step ok s as) (hinit : P s)
    (hstep : ∀ s a, P s → ok s a → P (step s a)) : P (as.foldl step s) := by
  induction as generalizing s with
  | nil => exact hinit
  | cons a as ih =>
    obtain ⟨ha, h⟩ := cons_iff.mp h
    exact ih h (hstep s a hinit ha)

end Along

end Oigrap

/-
Kleene's three-valued logic over `Option Bool`, with `none` for the unknown truth value.

A Boolean completes a truth value when it agrees with it wherever that is known. The
connectives keep this: computed on completions, a Boolean connective gives a completion of
what the three-valued one gives. So a two-valued computation is right exactly where the
three-valued result is known (`Completes.some_eq_iff`).
-/
import Mathlib.Data.Fintype.Option
import Mathlib.Data.Option.NAry

namespace Oigrap.Kleene

/-! ## Connectives -/

def not (a : Option Bool) : Option Bool := a.map (!·)

def and : Option Bool → Option Bool → Option Bool
  | some false, _ | _, some false => some false
  | some true, some true => some true
  | _, _ => none

def or : Option Bool → Option Bool → Option Bool
  | some true, _ | _, some true => some true
  | some false, some false => some false
  | _, _ => none

/-- The disjunction of a list. -/
def any (l : List (Option Bool)) : Option Bool := l.foldr or (some false)

theorem and_some_some (p q : Bool) : and (some p) (some q) = some (p && q) := by
  revert p q
  decide

theorem or_eq (a b : Option Bool) : or a b = not (and (not a) (not b)) := by
  revert a b
  decide

/-- Where an operand is unknown, the strict conjunction is unknown and the three-valued one
may be false. -/
theorem map₂_and_eq_iff (a b : Option Bool) :
    Option.map₂ (· && ·) a b = and a b ↔ (a = none ∨ b = none → and a b = none) := by
  revert a b
  decide

theorem map₂_or_eq_iff (a b : Option Bool) :
    Option.map₂ (· || ·) a b = or a b ↔ (a = none ∨ b = none → or a b = none) := by
  revert a b
  decide

/-! ## Completions -/

/-- `x` agrees with the truth value `a` where that is known. -/
def Completes (a : Option Bool) (x : Bool) : Prop := ∀ b, a = some b → x = b

theorem Completes.some_eq_iff {a : Option Bool} {x : Bool} (h : Completes a x) :
    some x = a ↔ a ≠ none := by
  cases a with
  | none => simp
  | some b => simp [h b rfl]

theorem Completes.not {a : Option Bool} {x : Bool} (h : Completes a x) :
    Completes (Kleene.not a) (!x) := by
  intro b hb
  obtain ⟨c, hc, rfl⟩ := Option.map_eq_some_iff.mp hb
  rw [h c hc]

theorem Completes.and {a b : Option Bool} {x y : Bool} (ha : Completes a x)
    (hb : Completes b y) : Completes (Kleene.and a b) (x && y) := by
  intro c hc
  match a, b with
  | some p, some q =>
    rw [ha p rfl, hb q rfl]
    exact Option.some.inj ((and_some_some p q).symm.trans hc)
  | some false, none => rw [ha false rfl]; simpa [Kleene.and] using hc
  | none, some false => rw [hb false rfl]; simpa [Kleene.and] using hc
  | some true, none | none, some true | none, none => simp [Kleene.and] at hc

theorem Completes.or {a b : Option Bool} {x y : Bool} (ha : Completes a x)
    (hb : Completes b y) : Completes (Kleene.or a b) (x || y) := by
  have h := (ha.not.and hb.not).not
  rwa [← or_eq, Bool.not_and, Bool.not_not, Bool.not_not] at h

theorem Completes.any {α : Type} {a : α → Option Bool} {x : α → Bool}
    (h : ∀ y, Completes (a y) (x y)) (l : List α) : Completes (Kleene.any (l.map a)) (l.any x) := by
  induction l with
  | nil => intro b hb; simpa [Kleene.any] using hb
  | cons y l ih => exact (h y).or ih

end Oigrap.Kleene

/-
Disjoint intervals in a list, and the search for the one that covers a key.

The intervals are half-open and may be unbounded above. Laid out one after the other, at
most one of them covers a key, and it is the last one that does not start above the key: a
search for that one needs to look at no other.
-/
import Mathlib.Data.List.Basic
import Mathlib.Data.List.TakeWhile
import Mathlib.Order.WithBot

namespace Oigrap.Intervals

open List

variable {ι K : Type*} [LinearOrder K] {lo : ι → K} {hi : ι → WithTop K}

/-- `i` is the interval from `lo i` up to, not including, `hi i`. -/
def Covers (lo : ι → K) (hi : ι → WithTop K) (i : ι) (k : K) : Prop := lo i ≤ k ∧ (k : WithTop K) < hi i

/-- No interval is empty, and each ends before the next one starts. -/
structure Laid (lo : ι → K) (hi : ι → WithTop K) (l : List ι) : Prop where
  proper : ∀ i ∈ l, (lo i : WithTop K) < hi i
  pairwise : l.Pairwise fun a b => hi a ≤ lo b

variable {l front rest : List ι} {i j a b : ι} {k : K}

theorem laid_nil : Laid lo hi [] := ⟨fun _ h => absurd h not_mem_nil, List.Pairwise.nil⟩

theorem covers_lo (h : (lo i : WithTop K) < hi i) : Covers lo hi i (lo i) := ⟨le_refl _, h⟩

section

variable (h : Laid lo hi l)
include h

theorem Laid.sorted : l.Pairwise fun a b => lo a < lo b := by
  refine h.pairwise.imp_of_mem ?_
  intro a b ha _ hab
  exact WithTop.coe_lt_coe.mp ((h.proper a ha).trans_le hab)

/-- After the first interval that starts too high, all do. -/
theorem Laid.dropWhile {low : K → Bool} (hlow : ∀ x y, x < y → low y = true → low x = true) :
    ∀ b ∈ l.dropWhile fun i => low (lo i), low (lo b) = false := by
  have hs := h.sorted
  clear h
  induction l with
  | nil => exact fun b hb => absurd hb not_mem_nil
  | cons c l ih =>
    obtain ⟨hc, hl⟩ := pairwise_cons.mp hs
    intro b hb
    by_cases hle : low (lo c) = true
    · rw [dropWhile_cons_of_pos (p := fun i => low (lo i)) hle] at hb
      exact ih hl b hb
    · rw [dropWhile_cons_of_neg (p := fun i => low (lo i)) hle] at hb
      rcases mem_cons.mp hb with rfl | hb
      · exact Bool.eq_false_of_not_eq_true hle
      · exact Bool.eq_false_of_not_eq_true fun hlb => hle (hlow _ _ (hc b hb) hlb)

theorem Laid.dropWhile_le (k : K) : ∀ b ∈ l.dropWhile fun i => decide (lo i ≤ k), k < lo b := by
  intro b hb
  have hlow : ∀ x y : K, x < y → decide (y ≤ k) = true → decide (x ≤ k) = true :=
    fun x y hxy hy => decide_eq_true (hxy.le.trans (of_decide_eq_true hy))
  exact not_le.mp (of_decide_eq_false (h.dropWhile hlow b hb))

theorem Laid.dropWhile_lt (k : K) : ∀ b ∈ l.dropWhile fun i => decide (lo i < k), k ≤ lo b := by
  intro b hb
  have hlow : ∀ x y : K, x < y → decide (y < k) = true → decide (x < k) = true :=
    fun x y hxy hy => decide_eq_true (hxy.trans (of_decide_eq_true hy))
  exact not_lt.mp (of_decide_eq_false (h.dropWhile hlow b hb))

/-- **The search.** The last interval that does not start above the key is the only one that
can cover it. -/
theorem Laid.covers_iff (k : K) : (i ∈ l ∧ Covers lo hi i k) ↔
      (l.takeWhile fun i => decide (lo i ≤ k)).getLast? = some i ∧ (k : WithTop K) < hi i := by
  have hsplit := takeWhile_append_dropWhile (p := fun i => decide (lo i ≤ k)) (l := l)
  constructor
  · rintro ⟨hin, hlo, hhi⟩
    refine ⟨?_, hhi⟩
    rw [← hsplit] at hin
    rcases mem_append.mp hin with hin | hin
    · -- an interval before another one that starts at or below the key has ended
      obtain ⟨init, c, hc⟩ := eq_nil_or_concat' _ |>.resolve_left (ne_nil_of_mem hin)
      rw [hc, getLast?_append, getLast?_singleton, Option.some_or]
      rw [hc] at hin
      rcases mem_append.mp hin with hin | hin
      · have hck : lo c ≤ k := by
          have hmem : c ∈ l.takeWhile fun i => decide (lo i ≤ k) := by
            rw [hc]
            exact mem_append_right _ (mem_singleton_self c)
          simpa using mem_takeWhile_imp hmem
        have hpair := h.pairwise
        rw [← hsplit, hc, append_assoc] at hpair
        have hend := (pairwise_append.mp hpair).2.2 i hin c
          (mem_append_left _ (mem_singleton_self c))
        exact absurd (hhi.trans_le hend) (not_lt.mpr (WithTop.coe_le_coe.mpr hck))
      · rw [mem_singleton.mp hin]
    · exact absurd hlo (not_le.mpr (h.dropWhile_le k i hin))
  · rintro ⟨hlast, hhi⟩
    have hmem := mem_of_getLast? hlast
    refine ⟨?_, by simpa using mem_takeWhile_imp hmem, hhi⟩
    rw [← hsplit]
    exact mem_append_left _ hmem

end

/-- An interval that is disjoint from the others goes where its start belongs. -/
theorem Laid.insert (h : Laid lo hi (front ++ rest)) (hi' : (lo i : WithTop K) < hi i)
    (hfront : ∀ a ∈ front, lo a < lo i) (hrest : ∀ b ∈ rest, lo i ≤ lo b)
    (hdis : ∀ j ∈ front ++ rest, ∀ k, Covers lo hi i k → ¬ Covers lo hi j k) :
    Laid lo hi (front ++ i :: rest) := by
  obtain ⟨h1, h2, h3⟩ := pairwise_append.mp h.pairwise
  have hbefore : ∀ a ∈ front, hi a ≤ lo i := by
    intro a ha
    by_contra hlt
    exact hdis a (mem_append_left _ ha) (lo i) (covers_lo hi')
      ⟨(hfront a ha).le, not_le.mp hlt⟩
  have hafter : ∀ b ∈ rest, hi i ≤ lo b := by
    intro b hb
    by_contra hlt
    have hin := mem_append_right front hb
    exact hdis b hin (lo b) ⟨hrest b hb, not_le.mp hlt⟩ (covers_lo (h.proper b hin))
  refine ⟨?_, pairwise_append.mpr ⟨h1, pairwise_cons.mpr ⟨hafter, h2⟩, ?_⟩⟩
  · intro j hj
    rcases mem_append.mp hj with hj | hj
    · exact h.proper j (mem_append_left _ hj)
    · rcases mem_cons.mp hj with rfl | hj
      · exact hi'
      · exact h.proper j (mem_append_right _ hj)
  · intro a ha j hj
    rcases mem_cons.mp hj with rfl | hj
    · exact hbefore a ha
    · exact h3 a ha j hj

/-- An interval is cut in two at an inner point. -/
theorem Laid.split (h : Laid lo hi (front ++ i :: rest)) (hlo : lo a = lo i) (hcut : hi a = lo b)
    (hhi : hi b = hi i) (h1 : lo i < lo b) (h2 : (lo b : WithTop K) < hi i) :
    Laid lo hi (front ++ a :: b :: rest) := by
  obtain ⟨p1, p2, p3⟩ := pairwise_append.mp h.pairwise
  obtain ⟨p4, p5⟩ := pairwise_cons.mp p2
  have hb : ∀ c ∈ rest, hi b ≤ lo c := fun c hc => by rw [hhi]; exact p4 c hc
  have ha : ∀ c ∈ b :: rest, hi a ≤ lo c := by
    intro c hc
    rw [hcut]
    rcases mem_cons.mp hc with rfl | hc
    · exact le_refl _
    · exact h2.le.trans (p4 c hc)
  refine ⟨?_, pairwise_append.mpr ⟨p1, pairwise_cons.mpr ⟨ha, pairwise_cons.mpr ⟨hb, p5⟩⟩, ?_⟩⟩
  · intro j hj
    rcases mem_append.mp hj with hj | hj
    · exact h.proper j (mem_append_left _ hj)
    rcases mem_cons.mp hj with rfl | hj
    · rw [hlo, hcut]
      exact WithTop.coe_lt_coe.mpr h1
    rcases mem_cons.mp hj with rfl | hj
    · rwa [hhi]
    · exact h.proper j (mem_append_right _ (mem_cons_of_mem _ hj))
  · intro c hc j hj
    have hci := p3 c hc i mem_cons_self
    rcases mem_cons.mp hj with rfl | hj
    · rwa [hlo]
    rcases mem_cons.mp hj with rfl | hj
    · exact hci.trans (WithTop.coe_le_coe.mpr h1.le)
    · exact p3 c hc j (mem_cons_of_mem _ hj)

end Oigrap.Intervals

/-
Pipelines over environments, and when two orders of the same stages give the same result.

An environment gives every name a value; a pipeline turns a multiset of environments into
another, one named stage after the other. A *spreading* stage looks at one environment at a
time and gives its own name some values; a *whole* stage sees the multiset as a whole. Two
spreading stages that do not read each other's name commute, a whole stage commutes with
nothing. So an order can be rearranged into another when no spreading stage reads a name that
one of the orders has not set before, and every whole stage comes after the same names in both
(`Pipeline.run_perm`).
-/
import Mathlib.Data.Multiset.Bind
import Mathlib.Logic.Function.Basic

namespace Oigrap.Pipeline

open Function List

variable {ι R : Type*} [DecidableEq ι]

inductive Stage (ι R : Type*) where
  | spread (values : (ι → R) → Multiset R)
  | whole (f : Multiset (ι → R) → Multiset (ι → R))

/-- The environments a spreading stage makes of one. -/
def extend (i : ι) (values : (ι → R) → Multiset R) (e : ι → R) : Multiset (ι → R) :=
  (values e).map fun r => update e i r

def Stage.apply (i : ι) : Stage ι R → Multiset (ι → R) → Multiset (ι → R)
  | .spread values, m => m.bind (extend i values)
  | .whole f, m => f m

def run (stage : ι → Stage ι R) (m : Multiset (ι → R)) (l : List ι) : Multiset (ι → R) :=
  l.foldl (fun m i => (stage i).apply i m) m

/-- The values do not depend on what `j` stands for. -/
def Ignores (values : (ι → R) → Multiset R) (j : ι) : Prop :=
  ∀ e r, values (update e j r) = values e

/-! ## Two stages -/

section Commute

variable {i j : ι} {f g : (ι → R) → Multiset R} {e : ι → R}

theorem extend_comm (hij : i ≠ j) (hf : Ignores f j) (hg : Ignores g i) :
    (extend i f e).bind (extend j g) = (extend j g e).bind (extend i f) := by
  simp only [extend, Multiset.bind_map, hf _ _, hg _ _]
  rw [Multiset.bind_map_comm]
  simp only [update_comm hij]

theorem apply_comm (hij : i ≠ j) (hf : Ignores f j) (hg : Ignores g i) (m : Multiset (ι → R)) :
    (Stage.spread g).apply j ((Stage.spread f).apply i m) =
      (Stage.spread f).apply i ((Stage.spread g).apply j m) := by
  simp only [Stage.apply, Multiset.bind_assoc, extend_comm hij hf hg]

end Commute

/-! ## Orders -/

/-- The names that come before `i`. -/
def before (l : List ι) (i : ι) : List ι := l.takeWhile (· ≠ i)

section Before

variable {l p q : List ι} {i j x : ι}

@[simp] theorem before_cons_self : before (x :: l) x = [] := by simp [before]

theorem before_cons_of_ne (h : x ≠ i) : before (x :: l) i = x :: before l i := by
  simp [before, h]

theorem before_append (h : i ∉ p) : before (p ++ i :: q) i = p := by
  have hall : ∀ a ∈ p, decide (a ≠ i) = true := by
    intro a ha
    exact decide_eq_true fun hai => h (hai ▸ ha)
  rw [before, takeWhile_append_of_pos hall]
  simp

theorem not_mem_before_self : i ∉ before l i := by
  induction l with
  | nil => simp [before]
  | cons a l ih =>
    by_cases ha : a = i
    · simp [ha]
    · simp [before_cons_of_ne ha, Ne.symm ha, ih]

theorem mem_of_mem_before (h : j ∈ before l i) : j ∈ l := (takeWhile_sublist _).mem h

/-- Dropping `x` from an order drops it from what comes before, and nothing else. -/
theorem mem_before_drop (hx : x ≠ i) (hj : j ≠ x) :
    j ∈ before (p ++ q) i ↔ j ∈ before (p ++ x :: q) i := by
  induction p with
  | nil => simp [before_cons_of_ne hx, hj]
  | cons a p ih =>
    by_cases ha : a = i
    · subst ha
      simp
    · simp [before_cons_of_ne ha, ih]

theorem not_mem_before_of_append (hi : i ∈ p) (hx : x ∉ p) : x ∉ before (p ++ q) i := by
  induction p with
  | nil => simp at hi
  | cons a p ih =>
    obtain ⟨hxa, hxp⟩ := not_or.mp (mem_cons.not.mp hx)
    by_cases ha : a = i
    · simp [ha]
    · have hip : i ∈ p := (mem_cons.mp hi).resolve_left (Ne.symm ha)
      simp [before_cons_of_ne ha, hxa, ih hip hxp]

end Before

/-- `l'` is an order of the same stages as `l`: a spreading stage reads only names that come
before it in both, a whole stage has the same names before it. -/
structure Rearranges (stage : ι → Stage ι R) (l l' : List ι) : Prop where
  perm : l.Perm l'
  nodup : l.Nodup
  spread : ∀ i ∈ l, ∀ values, stage i = .spread values → ∀ j ∈ l, j ≠ i →
    j ∉ before l i ∨ j ∉ before l' i → Ignores values j
  whole : ∀ i ∈ l, ∀ f, stage i = .whole f → ∀ j, j ∈ before l i ↔ j ∈ before l' i

section Run

variable {stage : ι → Stage ι R} {l l' p q : List ι} {x : ι}

/-- A spreading stage moves to the front over spreading stages that do not read its name and
whose names it does not read. -/
theorem run_move {f : (ι → R) → Multiset R} (hf : stage x = .spread f)
    (hp : ∀ i ∈ p, ∃ g, stage i = .spread g ∧ i ≠ x ∧ Ignores f i ∧ Ignores g x)
    (m : Multiset (ι → R)) : run stage m (p ++ x :: q) = run stage m (x :: (p ++ q)) := by
  induction p generalizing m with
  | nil => rfl
  | cons i p ih =>
    obtain ⟨g, hg, hix, hfi, hgx⟩ := hp i (by simp)
    have hcomm := apply_comm hix.symm hfi hgx m
    calc run stage m (i :: (p ++ x :: q)) = run stage ((stage i).apply i m) (x :: (p ++ q)) :=
          ih (fun j hj => hp j (by simp [hj])) _
      _ = run stage m (x :: i :: (p ++ q)) := by
          simp only [run, foldl_cons, hf, hg, hcomm]

theorem Rearranges.tail (h : Rearranges stage (p ++ x :: q) (x :: l')) :
    Rearranges stage (p ++ q) l' := by
  have hmid : (p ++ x :: q).Perm (x :: (p ++ q)) := perm_middle
  have hnd : (x :: (p ++ q)).Nodup := hmid.nodup h.nodup
  obtain ⟨hx, hnd⟩ := nodup_cons.mp hnd
  have hsub : ∀ i ∈ p ++ q, i ∈ p ++ x :: q ∧ i ≠ x := by
    intro i hi
    exact ⟨hmid.symm.mem_iff.mp (mem_cons_of_mem _ hi), fun hix => hx (hix ▸ hi)⟩
  have hbefore : ∀ i j, i ≠ x → j ≠ x → (j ∈ before (p ++ q) i ↔ j ∈ before (p ++ x :: q) i) ∧
      (j ∈ before l' i ↔ j ∈ before (x :: l') i) := by
    intro i j hi hj
    exact ⟨mem_before_drop hi.symm hj, by simp [before_cons_of_ne hi.symm, hj]⟩
  refine ⟨(perm_cons x).mp (hmid.symm.trans h.perm), hnd, ?_, ?_⟩
  · intro i hi values hvalues j hj hji hout
    obtain ⟨hi', hix⟩ := hsub i hi
    obtain ⟨hj', hjx⟩ := hsub j hj
    obtain ⟨h₁, h₂⟩ := hbefore i j hix hjx
    exact h.spread i hi' values hvalues j hj' hji (by rwa [← h₁, ← h₂])
  · intro i hi f hf j
    obtain ⟨hi', hix⟩ := hsub i hi
    by_cases hjx : j = x
    · subst hjx
      have hl' : j ∉ l' := (nodup_cons.mp (h.perm.nodup h.nodup)).1
      exact ⟨fun hj => absurd (mem_of_mem_before hj) hx,
        fun hj => absurd (mem_of_mem_before hj) hl'⟩
    · obtain ⟨h₁, h₂⟩ := hbefore i j hix hjx
      rw [h₁, h₂]
      exact h.whole i hi' f hf j

theorem run_perm (h : Rearranges stage l l') (m : Multiset (ι → R)) :
    run stage m l = run stage m l' := by
  induction l' generalizing l m with
  | nil => rw [h.perm.eq_nil]
  | cons x l' ih =>
    obtain ⟨p, q, rfl⟩ := append_of_mem (h.perm.symm.subset (mem_cons_self ..))
    have hxp : x ∉ p := by
      intro hx
      exact (nodup_append.mp h.nodup).2.2 x hx x (by simp) rfl
    have hmem : ∀ i ∈ p, i ∈ p ++ x :: q ∧ i ≠ x := by
      intro i hi
      exact ⟨mem_append_left _ hi, fun hix => hxp (hix ▸ hi)⟩
    have hfront : run stage m (p ++ x :: q) = run stage m (x :: (p ++ q)) := by
      cases hx : stage x with
      | whole f =>
        -- nothing comes before `x` in the second order, so nothing does in the first
        have hnil : p = [] := by
          rw [eq_nil_iff_forall_not_mem]
          intro j hj
          have hjx := (h.whole x (by simp) f hx j).mp (by rwa [before_append hxp])
          simp at hjx
        rw [hnil]
        rfl
      | spread f =>
        refine run_move hx (fun i hi => ?_) m
        obtain ⟨hil, hix⟩ := hmem i hi
        have hafter : x ∉ before (p ++ x :: q) i := not_mem_before_of_append hi hxp
        cases hi' : stage i with
        | whole g =>
          have hxi := (h.whole i hil g hi' x).mpr (by simp [before_cons_of_ne hix.symm])
          exact absurd hxi hafter
        | spread g =>
          exact ⟨g, rfl, hix, h.spread x (by simp) f hx i hil hix (.inr (by simp)),
            h.spread i hil g hi' x (by simp) hix.symm (.inl hafter)⟩
    rw [hfront]
    exact ih h.tail _

end Run

end Oigrap.Pipeline

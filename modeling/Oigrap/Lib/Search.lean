/-
Depth-first search with an explicit stack, in a graph given by successor lists.

The search pops a node, skips it when it has been visited, stops when it is a goal, and
pushes its successors otherwise. Each round uses up one unit of the work that is left,
which is what stands on the stack and the successor lists of the nodes not yet visited, so
with that much fuel the search ends; and it finds a goal exactly when one can be reached.

The last section is about cycles: where there has to be one, and when new edges make one.
-/
import Mathlib.Algebra.BigOperators.Group.Finset.Basic
import Mathlib.Algebra.Order.BigOperators.Group.Finset
import Mathlib.Data.Finset.Basic
import Mathlib.Data.Fintype.Card
import Mathlib.Data.Set.Finite.Basic
import Mathlib.Logic.Relation
import Mathlib.Order.WellFounded

namespace Oigrap.Search

open List

variable {V : Type*} [DecidableEq V]

/-- `none` when the fuel runs out. -/
def search (succ : V → List V) (goal : V → Bool) : ℕ → List V → List V → Option Bool
  | _, _, [] => some false
  | 0, _, _ :: _ => none
  | n + 1, visited, v :: stack =>
    if v ∈ visited then search succ goal n visited stack
    else if goal v then some true
    else search succ goal n (v :: visited) ((succ v).reverse ++ stack)

variable {succ : V → List V} {goal : V → Bool}

/-- Reachability along successors. -/
def Reaches (succ : V → List V) : V → V → Prop := Relation.ReflTransGen fun a b => b ∈ succ a

/-! ## Termination -/

variable {N : Finset V}

/-- The rounds that are left at most, when all nodes with successors are in `N`. -/
def work (succ : V → List V) (N : Finset V) (visited stack : List V) : ℕ :=
  stack.length + ∑ v ∈ N with v ∉ visited, (succ v).length

variable {visited : List V} {n : ℕ}

theorem work_expand (hN : ∀ v ∉ N, succ v = []) {v : V} (stack : List V) (hv : v ∉ visited) :
    work succ N (v :: visited) ((succ v).reverse ++ stack) + 1
      = work succ N visited (v :: stack) := by
  have hsplit : ∑ w ∈ N with w ∉ visited, (succ w).length
      = (succ v).length + ∑ w ∈ N with w ∉ v :: visited, (succ w).length := by
    have hfilter : (N.filter (· ∉ v :: visited)) = (N.filter (· ∉ visited)).erase v := by
      ext w
      simp only [mem_cons, Finset.mem_filter, Finset.mem_erase, not_or]
      tauto
    rw [hfilter]
    by_cases hmem : v ∈ N
    · exact (Finset.add_sum_erase _ _ (by simp [hmem, hv])).symm
    · rw [hN v hmem, length_nil, zero_add, Finset.erase_eq_of_notMem (by simp [hmem])]
  simp only [work, hsplit, length_append, length_reverse, length_cons]
  omega

variable {stack : List V}

theorem search_ends (hN : ∀ v ∉ N, succ v = []) (h : work succ N visited stack ≤ n) :
    ∃ b, search succ goal n visited stack = some b := by
  induction n generalizing visited stack with
  | zero =>
    cases stack with
    | nil => exact ⟨false, rfl⟩
    | cons v stack => simp [work] at h
  | succ n ih =>
    cases stack with
    | nil => exact ⟨false, rfl⟩
    | cons v stack =>
      simp only [search]
      by_cases hv : v ∈ visited
      · rw [if_pos hv]
        apply ih
        simp only [work, length_cons] at h ⊢
        omega
      · rw [if_neg hv]
        by_cases hg : goal v = true
        · exact ⟨true, if_pos hg⟩
        · rw [if_neg hg]
          apply ih
          have := work_expand hN stack hv
          omega

/-! ## Correctness -/

theorem goal_of_search (h : search succ goal n visited stack = some true) :
    ∃ v ∈ stack, ∃ w, Reaches succ v w ∧ goal w = true := by
  induction n generalizing visited stack with
  | zero => cases stack <;> simp [search] at h
  | succ n ih =>
    cases stack with
    | nil => simp [search] at h
    | cons v stack =>
      simp only [search] at h
      split_ifs at h with hv hg
      · obtain ⟨u, hu, hw⟩ := ih h
        exact ⟨u, mem_cons_of_mem _ hu, hw⟩
      · exact ⟨v, mem_cons_self, v, .refl, hg⟩
      · obtain ⟨u, hu, w, hw, hgw⟩ := ih h
        rcases mem_append.mp hu with hu | hu
        · exact ⟨v, mem_cons_self, w, hw.head (mem_reverse.mp hu), hgw⟩
        · exact ⟨u, mem_cons_of_mem _ hu, w, hw, hgw⟩

/-- What has been visited is no goal, and its successors are visited or on the stack. -/
def Expanded (succ : V → List V) (goal : V → Bool) (visited stack : List V) : Prop :=
  ∀ v ∈ visited, goal v = false ∧ ∀ w ∈ succ v, w ∈ visited ∨ w ∈ stack

omit [DecidableEq V] in
/-- With nothing left on the stack the visited nodes are closed under successors. -/
theorem Expanded.no_goal (hinv : Expanded succ goal visited []) {v w : V} (hv : v ∈ visited)
    (hw : Reaches succ v w) : goal w = false := by
  have hmem : w ∈ visited := by
    induction hw with
    | refl => exact hv
    | tail _ hstep ih => simpa using (hinv _ ih).2 _ hstep
  exact (hinv w hmem).1

theorem no_goal_of_search (hinv : Expanded succ goal visited stack)
    (h : search succ goal n visited stack = some false) {v w : V} (hv : v ∈ visited ∨ v ∈ stack)
    (hw : Reaches succ v w) : goal w = false := by
  induction n generalizing visited stack v with
  | zero =>
    cases stack with
    | cons u stack => simp [search] at h
    | nil => exact hinv.no_goal (by simpa using hv) hw
  | succ n ih =>
    cases stack with
    | nil => exact hinv.no_goal (by simpa using hv) hw
    | cons u stack =>
      simp only [search] at h
      split_ifs at h with hu hg
      · refine ih (fun x hx => ⟨(hinv x hx).1, fun y hy => ?_⟩) h ?_ hw
        · rcases (hinv x hx).2 y hy with hy | hy
          · exact .inl hy
          · rcases mem_cons.mp hy with rfl | hy
            · exact .inl hu
            · exact .inr hy
        · rcases hv with hv | hv
          · exact .inl hv
          · rcases mem_cons.mp hv with rfl | hv
            · exact .inl hu
            · exact .inr hv
      · exact absurd h (by simp)
      · refine ih (fun x hx => ?_) h ?_ hw
        · rcases mem_cons.mp hx with rfl | hx
          · exact ⟨by simpa using hg, fun y hy => .inr (by simp [hy])⟩
          · refine ⟨(hinv x hx).1, fun y hy => ?_⟩
            have := (hinv x hx).2 y hy
            simp only [mem_cons, mem_append] at this ⊢
            tauto
        · simp only [mem_cons, mem_append] at hv ⊢
          tauto

/-- With enough fuel the search from `r` finds a goal exactly when one can be reached. -/
theorem search_from (hN : ∀ v ∉ N, succ v = []) {r : V} (hn : 1 + ∑ v ∈ N, (succ v).length ≤ n) :
    (search succ goal n [] [r] = some true ∧ ∃ w, Reaches succ r w ∧ goal w = true)
      ∨ (search succ goal n [] [r] = some false ∧ ∀ w, Reaches succ r w → goal w = false) := by
  obtain ⟨b, hb⟩ : ∃ b, search succ goal n [] [r] = some b :=
    search_ends hN (by simpa [work] using hn)
  cases b with
  | true =>
    obtain ⟨v, hv, w, hw⟩ := goal_of_search hb
    rw [mem_singleton.mp hv] at hw
    exact .inl ⟨hb, w, hw⟩
  | false =>
    exact .inr ⟨hb, fun w hw => no_goal_of_search (by simp [Expanded]) hb (by simp) hw⟩

/-! ## Cycles -/

section Cycles

variable {W : Type*} {r r' : W → W → Prop}

/-- A finite set in which everything has a successor has a cycle. -/
theorem exists_cycle {S : Set W} (hfin : S.Finite) (hne : S.Nonempty)
    (h : ∀ a ∈ S, ∃ b ∈ S, r a b) : ∃ a, Relation.TransGen r a a := by
  by_contra hno
  push Not at hno
  let below : S → S → Prop := fun a b => Relation.TransGen r b.1 a.1
  have : Finite S := hfin
  have : IsTrans S below := ⟨fun _ _ _ hab hbc => hbc.trans hab⟩
  have : Std.Irrefl below := ⟨fun a => hno a.1⟩
  obtain ⟨a, ha⟩ := hne
  have hwf : WellFounded below := Finite.wellFounded_of_trans_of_irrefl below
  obtain ⟨m, -, hmin⟩ := hwf.has_min Set.univ ⟨⟨a, ha⟩, trivial⟩
  obtain ⟨b, hb, hmb⟩ := h m.1 m.2
  exact hmin ⟨b, hb⟩ trivial (.single hmb)

/-- A path whose new edges all start at `x` is an old one, or passes through `x`. -/
theorem path_through {x y z : W} (h : ∀ a b, r' a b → r a b ∨ a = x)
    (hyz : Relation.TransGen r' y z) : Relation.TransGen r y z
      ∨ (Relation.ReflTransGen r' y x ∧ Relation.TransGen r' x z) := by
  induction hyz with
  | single hstep =>
    rcases h _ _ hstep with hr | rfl
    · exact .inl (.single hr)
    · exact .inr ⟨.refl, .single hstep⟩
  | tail hpath hstep ih =>
    rcases ih with hold | ⟨hto, hfrom⟩
    · rcases h _ _ hstep with hr | rfl
      · exact .inl (hold.tail hr)
      · exact .inr ⟨hpath.to_reflTransGen, .single hstep⟩
    · exact .inr ⟨hto, hfrom.tail hstep⟩

/-- If `x` is on no cycle of the new graph, and the old graph has none, the new one has none. -/
theorem acyclic_of_new_edges {x : W} (h : ∀ a b, r' a b → r a b ∨ a = x)
    (hold : ∀ y, ¬ Relation.TransGen r y y) (hx : ¬ Relation.TransGen r' x x) (y : W) :
    ¬ Relation.TransGen r' y y := by
  intro hy
  rcases path_through h hy with hr | ⟨hto, hfrom⟩
  · exact hold y hr
  · exact hx (hfrom.trans_left hto)

end Cycles

end Oigrap.Search

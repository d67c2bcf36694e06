/-
B+ trees, as a data type and as an algorithm.

A tree of height `h` is a leaf when `h = 0` and otherwise a branch over trees of height
`h - 1`, so all leaves lie at one depth by construction. Every node carries an identity,
a natural number: an implementation keeps its nodes in numbered blocks, and the algorithm
below says which numbers new nodes take. Keys come from any linear order and may repeat.

Insertion goes down to one leaf, splits it when it is full, and hands the separator and
the new right half to the branch above, which may split in turn. What can go wrong is a
split between two equal keys: the left half then holds a key that is not below the
separator, and no search for that key will ever look there. `Straddles` names this case,
and `ins_ordered` says that in every other case the tree stays ordered and its entries
are the old ones with the new one added after its equals.
-/
import Mathlib.Data.List.Sort
import Mathlib.Order.WithBot
import Mathlib.Tactic.Common

namespace BPlusTree

open List
open Prod (fst snd)

/-! ## Trees -/

structure Leaf (K V : Type) where
  id : ℕ
  entries : List (K × V)

/-- A branch has one child more than it has separators. -/
structure Branch (K N : Type) where
  id : ℕ
  first : N
  rest : List (K × N)

/-- A tree of height `h`. -/
def Node (K V : Type) : ℕ → Type
  | 0 => Leaf K V
  | h + 1 => Branch K (Node K V h)

section Branches

variable {K N : Type}

/-- The children of a branch, left to right. -/
def kids (c : N) (rest : List (K × N)) : List N := c :: rest.map Prod.snd

/-- A branch opened at the child a search takes: what is left of it, it, and the rest. -/
structure Zipper (K N : Type) where
  before : List (N × K)
  focus : N
  after : List (K × N)

/-- Open a branch at the child after the last separator that is not above `k`. -/
def pick [LinearOrder K] (k : K) : N → List (K × N) → Zipper K N
  | c, [] => ⟨[], c, []⟩
  | c, (s, d) :: rest =>
    if k < s then ⟨[], c, (s, d) :: rest⟩
    else
      let z := pick k d rest
      ⟨(c, s) :: z.before, z.focus, z.after⟩

/-- Close a branch again. -/
def plug : List (N × K) → N → List (K × N) → N × List (K × N)
  | [], x, a => (x, a)
  | (c, s) :: b, x, a => (c, (s, (plug b x a).1) :: (plug b x a).2)

variable (b : List (N × K))

@[simp]
theorem kids_plug (x : N) (a : List (K × N)) :
    kids (plug b x a).1 (plug b x a).2 = b.map fst ++ x :: a.map snd := by
  induction b with
  | nil => rfl
  | cons c b ih =>
    rw [map_cons, cons_append, ← ih]
    rfl

@[simp]
theorem seps_plug (x : N) (a : List (K × N)) :
    (plug b x a).2.map fst = b.map snd ++ a.map fst := by
  induction b with
  | nil => rfl
  | cons c b ih =>
    rw [map_cons, cons_append, ← ih]
    rfl

theorem plug_pick [LinearOrder K] (k : K) (c : N) (rest : List (K × N)) :
    plug (pick k c rest).before (pick k c rest).focus (pick k c rest).after = (c, rest) := by
  induction rest generalizing c with
  | nil => rfl
  | cons e rest ih =>
    obtain ⟨s, d⟩ := e
    unfold pick
    split
    · rfl
    · simp only [plug, ih]

theorem kids_pick [LinearOrder K] (k : K) (c : N) (rest : List (K × N)) :
    kids c rest = (pick k c rest).before.map fst ++ (pick k c rest).focus ::
      (pick k c rest).after.map snd := by
  rw [← kids_plug, plug_pick]

/-- A new child with its separator goes in after the focus. -/
theorem plug_insert (x : N) (e : K × N) (a : List (K × N)) :
    plug b x (e :: a) = ((plug b x a).1, (plug b x a).2.insertIdx b.length e) := by
  induction b with
  | nil => rfl
  | cons c b ih =>
    rw [plug, ih, plug]
    rfl

section Map

variable {M : Type} (f : N → M)

/-- Searching and closing look at separators only. -/
theorem plug_map (b : List (N × K)) (x : N) (a : List (K × N)) :
    (f (plug b x a).1, (plug b x a).2.map (Prod.map id f))
      = plug (b.map (Prod.map f id)) (f x) (a.map (Prod.map id f)) := by
  induction b with
  | nil => rfl
  | cons c b ih =>
    rw [map_cons, plug, plug, ← ih]
    rfl

theorem pick_map [LinearOrder K] (k : K) (c : N) (rest : List (K × N)) :
    (pick k (f c) (rest.map (Prod.map id f))).focus = f (pick k c rest).focus := by
  induction rest generalizing c with
  | nil => rfl
  | cons e rest ih =>
    obtain ⟨s, d⟩ := e
    rw [map_cons]
    simp only [Prod.map, id, pick]
    by_cases hk : k < s
    · rw [if_pos hk, if_pos hk]
    · rw [if_neg hk, if_neg hk]
      exact ih d

end Map

end Branches

variable {h : ℕ}

namespace Node

variable {K V : Type}

def leaf (id : ℕ) (entries : List (K × V)) : Node K V 0 := (⟨id, entries⟩ : Leaf K V)

variable (t : Node K V h)

def branch (id : ℕ) (first : Node K V h) (rest : List (K × Node K V h)) :
    Node K V (h + 1) :=
  (⟨id, first, rest⟩ : Branch K (Node K V h))

@[elab_as_elim, induction_eliminator]
theorem on_height {motive : ∀ {h : ℕ}, Node K V h → Prop} (leaf : ∀ i es, motive (leaf i es))
    (branch : ∀ {h : ℕ} (i : ℕ) (c : Node K V h) (rest : List (K × Node K V h)),
      (∀ d : Node K V h, motive d) → motive (branch i c rest)) {h : ℕ} (t : Node K V h) :
    motive t := by
  induction h with
  | zero => exact leaf _ _
  | succ h ih => exact branch _ _ _ ih

def id : {h : ℕ} → Node K V h → ℕ
  | 0, (t : Leaf K V) => t.id
  | _ + 1, (t : Branch K (Node K V _)) => t.id

/-- The leaves, left to right. -/
def leaves : {h : ℕ} → Node K V h → List (Leaf K V)
  | 0, (t : Leaf K V) => [t]
  | _ + 1, (t : Branch K (Node K V _)) => (kids t.first t.rest).flatMap leaves

/-- The identities of all nodes. -/
def ids : {h : ℕ} → Node K V h → List ℕ
  | 0, (t : Leaf K V) => [t.id]
  | _ + 1, (t : Branch K (Node K V _)) => t.id :: (kids t.first t.rest).flatMap ids

/-- The entries in leaf order. -/
def entries : List (K × V) := t.leaves.flatMap Leaf.entries

section Simp

variable {h i : ℕ} {es : List (K × V)} {c : Node K V h} {rest : List (K × Node K V h)}

@[simp] theorem id_leaf : (leaf i es).id = i := rfl
@[simp] theorem id_branch : (branch i c rest).id = i := rfl
@[simp] theorem leaves_leaf : (leaf i es).leaves = [⟨i, es⟩] := rfl
@[simp] theorem leaves_branch : (branch i c rest).leaves = (kids c rest).flatMap leaves := rfl
@[simp] theorem ids_leaf : (leaf i es).ids = [i] := rfl
@[simp] theorem ids_branch : (branch i c rest).ids = i :: (kids c rest).flatMap ids := rfl

@[simp]
theorem entries_leaf : (leaf i es).entries = es := by
  simp [entries]

@[simp]
theorem entries_branch : (branch i c rest).entries = (kids c rest).flatMap entries := by
  unfold entries
  rw [leaves_branch, flatMap_assoc]

end Simp

theorem id_mem_ids : t.id ∈ t.ids := by
  induction t with
  | leaf i es | branch i c rest _ =>
    exact mem_cons_self

theorem leaves_sublist : (t.leaves.map Leaf.id).Sublist t.ids := by
  induction t with
  | leaf i es =>
    exact List.Sublist.refl _
  | branch i c rest ih =>
    rw [leaves_branch, ids_branch]
    refine List.Sublist.cons _ ?_
    generalize kids c rest = ds
    induction ds with
    | nil => exact List.Sublist.refl _
    | cons d ds ihd =>
      rw [flatMap_cons, flatMap_cons, map_append]
      exact (ih d).append ihd

theorem leaves_ids : ∀ l ∈ t.leaves, l.id ∈ t.ids :=
  fun _ hl => t.leaves_sublist.subset (mem_map_of_mem hl)

end Node

/-! ## Insertion -/

section Insert

variable {K V : Type} [LinearOrder K]

/-- Add an entry after all entries whose key is not above its own. -/
def place (k : K) (v : V) (es : List (K × V)) : List (K × V) :=
  es.takeWhile (fun e => e.1 ≤ k) ++ (k, v) :: es.dropWhile (fun e => e.1 ≤ k)

theorem length_place (k : K) (v : V) (es : List (K × V)) :
    (place k v es).length = es.length + 1 := by
  rw [place, length_append, length_cons, ← Nat.add_assoc, ← length_append,
    takeWhile_append_dropWhile]

theorem place_perm (k : K) (v : V) (es : List (K × V)) : (place k v es).Perm ((k, v) :: es) := by
  refine perm_middle.trans ?_
  rw [takeWhile_append_dropWhile]

variable {k : K}

theorem mem_place {v : V} {es : List (K × V)} {e : K × V} :
    e ∈ place k v es ↔ e = (k, v) ∨ e ∈ es := by
  rw [(place_perm k v es).mem_iff, mem_cons]

/-- Entries that are not above the key stay in front of it. -/
theorem place_append_right {v : V} {as : List (K × V)} (bs : List (K × V)) (h : ∀ e ∈ as, e.1 ≤ k) :
    place k v (as ++ bs) = as ++ place k v bs := by
  have hp : ∀ e ∈ as, decide (e.1 ≤ k) = true := fun e he => decide_eq_true (h e he)
  rw [place, takeWhile_append_of_pos hp, dropWhile_append_of_pos hp, append_assoc, place]

theorem place_append_left {v : V} (as : List (K × V)) {bs : List (K × V)} (h : ∀ e ∈ bs, k < e.1) :
    place k v (as ++ bs) = place k v as ++ bs := by
  induction as with
  | nil =>
    cases bs with
    | nil => rfl
    | cons b bs =>
      have hb : decide (b.1 ≤ k) = false := decide_eq_false (not_le.mpr (h b mem_cons_self))
      simp [place, hb]
  | cons a as ih =>
    by_cases ha : a.1 ≤ k
    · have hone : ∀ e ∈ [a], e.1 ≤ k := by
        intro e he
        rwa [mem_singleton.mp he]
      have h1 := place_append_right (v := v) (as ++ bs) hone
      have h2 := place_append_right (v := v) as hone
      rw [singleton_append] at h1 h2
      rw [cons_append, h1, h2, ih, append_assoc]
    · simp [place, ha]

/-- A separator between those left and those right of the focus goes in after the focus. -/
theorem place_plug {N : Type} {b : List (N × K)} {x r : N} {a : List (K × N)}
    (hb : ∀ s ∈ b.map snd, s ≤ k) (ha : ∀ s ∈ a.map fst, k < s) :
    place k r (plug b x a).2 = (plug b x ((k, r) :: a)).2 := by
  induction b with
  | nil =>
    exact place_append_left [] (fun e he => ha e.1 (mem_map_of_mem he))
  | cons c b ih =>
    have hc : ∀ e ∈ [(c.2, (plug b x a).1)], e.1 ≤ k := by
      intro e he
      rw [mem_singleton.mp he]
      exact hb c.2 mem_cons_self
    have h1 := place_append_right (v := r) (plug b x a).2 hc
    rw [ih (fun s hs => hb s (mem_cons_of_mem _ hs))] at h1
    rwa [plug_insert] at h1 ⊢

theorem place_sorted {v : V} {es : List (K × V)} (h : es.Pairwise (fun a b => a.1 ≤ b.1)) :
    (place k v es).Pairwise (fun a b => a.1 ≤ b.1) := by
  induction es with
  | nil => simp [place]
  | cons a as ih =>
    obtain ⟨hall, hs⟩ := pairwise_cons.mp h
    by_cases ha : a.1 ≤ k
    · have hone : ∀ e ∈ [a], e.1 ≤ k := by
        intro e he
        rwa [mem_singleton.mp he]
      have h1 := place_append_right (v := v) as hone
      rw [singleton_append, singleton_append] at h1
      rw [h1, pairwise_cons]
      refine ⟨?_, ih hs⟩
      intro b hb
      rcases mem_place.mp hb with rfl | hb
      · exact ha
      · exact hall b hb
    · have hlt := not_le.mp ha
      have h1 : place k v (a :: as) = (k, v) :: a :: as := by simp [place, ha]
      rw [h1, pairwise_cons]
      refine ⟨?_, h⟩
      intro b hb
      rcases mem_cons.mp hb with rfl | hb
      · exact hlt.le
      · exact hlt.le.trans (hall b hb)

/-- What an insertion into a subtree leaves: the subtree, the separator and right half it
split off if it did, and the next free identity. -/
structure Grown (K V : Type) (h : ℕ) where
  left : Node K V h
  split : Option (K × Node K V h)
  next : ℕ

variable (cl : ℕ) (ci : ℕ)

/-- Insertion into a leaf with room for `cl` entries. -/
def ins_leaf (k : K) (v : V) (id : ℕ) (es : List (K × V)) (n : ℕ) : Grown K V 0 :=
  if es.length < cl then ⟨.leaf id (place k v es), none, n⟩
  else
    match (place k v es).drop ((place k v es).length / 2) with
    | [] => ⟨.leaf id (place k v es), none, n⟩  -- not reached: the list is not empty
    | e :: right => ⟨.leaf id ((place k v es).take ((place k v es).length / 2)),
        some (e.1, .leaf n (e :: right)), n + 1⟩

/-- A branch with identity `id` that had `len` separators, and room for `ci`, takes over the
children `p`: it keeps them all or pushes its middle separator up. -/
def absorb (id len : ℕ) (p : Node K V h × List (K × Node K V h)) (n : ℕ) :
    Grown K V (h + 1) :=
  if len < ci then ⟨.branch id p.1 p.2, none, n⟩
  else
    match p.2.drop (p.2.length / 2) with
    | [] => ⟨.branch id p.1 p.2, none, n⟩  -- not reached: the list is not empty
    | (s, m) :: right => ⟨.branch id p.1 (p.2.take (p.2.length / 2)),
        some (s, .branch n m right), n + 1⟩

/-- Insertion into a tree; new nodes take the identities from `n` on. -/
def ins (cl ci : ℕ) (k : K) (v : V) : {h : ℕ} → Node K V h → ℕ → Grown K V h
  | 0, (t : Leaf K V), n => ins_leaf cl k v t.id t.entries n
  | _ + 1, (t : Branch K (Node K V _)), n =>
    let z := pick k t.first t.rest
    let g := ins cl ci k v z.focus n
    match g.split with
    | none =>
      let p := plug z.before g.left z.after
      ⟨.branch t.id p.1 p.2, none, g.next⟩
    | some e => absorb ci t.id t.rest.length (plug z.before g.left (e :: z.after)) g.next

/-- The leaf a search for `k` ends in. -/
def leaf_for (k : K) : {h : ℕ} → Node K V h → Leaf K V
  | 0, (t : Leaf K V) => t
  | _ + 1, (t : Branch K (Node K V _)) => leaf_for k (pick k t.first t.rest).focus

section Simp

variable {cl ci n h i : ℕ} {k : K} {v : V} {es : List (K × V)} {c : Node K V h}
  {rest : List (K × Node K V h)}

@[simp]
theorem ins_of_leaf : ins cl ci k v (Node.leaf i es) n = ins_leaf cl k v i es n := rfl

@[simp] theorem leaf_for_leaf : leaf_for k (Node.leaf i es) = ⟨i, es⟩ := rfl

@[simp]
theorem leaf_for_branch :
    leaf_for k (Node.branch i c rest) = leaf_for k (pick k c rest).focus := rfl

variable {z : Zipper K (Node K V h)} {g : Grown K V h} (hz : pick k c rest = z)
  (hg : ins cl ci k v z.focus n = g)

include hz hg

theorem ins_branch_none (hs : g.split = none) : ins cl ci k v (Node.branch i c rest) n =
    ⟨.branch i (plug z.before g.left z.after).1 (plug z.before g.left z.after).2, none, g.next⟩ := by
  subst hz hg
  show (match (ins cl ci k v (pick k c rest).focus n).split with
    | none => _
    | some e => _) = _
  rw [hs]
  rfl

theorem ins_branch_some {e : K × Node K V h} (hs : g.split = some e) :
    ins cl ci k v (Node.branch i c rest) n =
      absorb ci i rest.length (plug z.before g.left (e :: z.after)) g.next := by
  subst hz hg
  show (match (ins cl ci k v (pick k c rest).focus n).split with
    | none => _
    | some e => _) = _
  rw [hs]
  rfl

/-- Either way the branch takes over the children, the right half of a split one among them: it
keeps them all when there is room for them. -/
theorem ins_branch : ∃ cap len, ins cl ci k v (Node.branch i c rest) n =
    absorb cap i len (plug z.before g.left (g.split.toList ++ z.after)) g.next := by
  cases hs : g.split with
  | none => exact ⟨1, 0, ins_branch_none hz hg hs⟩
  | some e => exact ⟨ci, rest.length, ins_branch_some hz hg hs⟩

end Simp

namespace Grown

/-- The leaves of what an insertion leaves, both halves of a split together. -/
def leaves (g : Grown K V h) : List (Leaf K V) :=
  g.left.leaves ++ (g.split.map fun e => e.2.leaves).getD []

omit [LinearOrder K] in
/-- Children with what an insertion left of the focus among them. -/
theorem flatMap_plug {α : Type} (F : Node K V h → List α) (b : List (Node K V h × K))
    (g : Grown K V h) (a : List (K × Node K V h)) :
    (b.map fst ++ g.left :: (g.split.toList ++ a).map snd).flatMap F = (b.map fst).flatMap F
        ++ ((F g.left ++ (g.split.map fun e => F e.2).getD []) ++ (a.map snd).flatMap F) := by
  cases g.split with
  | none | some e => simp

omit [LinearOrder K] in
theorem leaves_plug (b : List (Node K V h × K)) (g : Grown K V h) (a : List (K × Node K V h)) :
    (b.map fst ++ g.left :: (g.split.toList ++ a).map snd).flatMap Node.leaves
      = (b.map fst).flatMap Node.leaves
        ++ (g.leaves ++ (a.map snd).flatMap Node.leaves) := flatMap_plug Node.leaves b g a

/-- The identities of all its nodes. -/
def ids (g : Grown K V h) : List ℕ := g.left.ids ++ (g.split.map fun e => e.2.ids).getD []

end Grown

omit [LinearOrder K] in
theorem absorb_leaves (i len n : ℕ) (p : Node K V h × List (K × Node K V h)) :
    (absorb ci i len p n).leaves = (kids p.1 p.2).flatMap Node.leaves := by
  unfold absorb
  split
  · simp [Grown.leaves]
  · split
    · simp [Grown.leaves]
    · rename_i s m right hd
      have hcat : p.2.take (p.2.length / 2) ++ (s, m) :: right = p.2 := by
        rw [← hd, take_append_drop]
      conv_rhs => rw [← hcat]
      simp [Grown.leaves, kids]

omit [LinearOrder K] in
theorem absorb_ids (i len n : ℕ) (p : Node K V h × List (K × Node K V h)) :
    (absorb ci i len p n).left.id = i ∧ n ≤ (absorb ci i len p n).next
      ∧ (absorb ci i len p n).ids.Perm (i :: (kids p.1 p.2).flatMap Node.ids
        ++ range' n ((absorb ci i len p n).next - n)) := by
  unfold absorb
  split
  · simp [Grown.ids]
  · split
    · simp [Grown.ids]
    · rename_i s m right hd
      have hcat : p.2.take (p.2.length / 2) ++ (s, m) :: right = p.2 := by
        rw [← hd, take_append_drop]
      refine ⟨rfl, Nat.le_succ n, ?_⟩
      conv_rhs => rw [← hcat]
      simp only [Grown.ids, Node.ids_branch, Option.map_some, Option.getD_some, kids,
        map_append, map_cons, flatMap_append, flatMap_cons,
        Nat.add_sub_cancel_left, range'_one, cons_append]
      refine List.Perm.cons _ ?_
      rw [append_assoc, append_assoc]
      refine List.Perm.append_left _ ?_
      rw [append_assoc]
      refine List.Perm.append_left _ ?_
      exact (perm_append_singleton _ _).symm

theorem range_cat {n m l : ℕ} (h1 : n ≤ m) (h2 : m ≤ l) :
    range' n (m - n) ++ range' m (l - m) = range' n (l - n) := by
  have h := range'_append_1 (s := n) (m := m - n) (n := l - m)
  rw [Nat.add_sub_cancel' h1] at h
  rw [h]
  congr 1
  omega

/-- **Identities.** The root keeps its own; the nodes are the old ones and new ones numbered
from `n` on. -/
theorem ins_ids (k : K) (v : V) (t : Node K V h) (n : ℕ) :
    (ins cl ci k v t n).left.id = t.id ∧ n ≤ (ins cl ci k v t n).next ∧ (ins cl ci k v t n).ids.Perm
        (t.ids ++ range' n ((ins cl ci k v t n).next - n)) := by
  induction t with
  | leaf i es =>
    rw [ins_of_leaf, ins_leaf]
    split
    · simp [Grown.ids]
    · split
      · simp [Grown.ids]
      · refine ⟨rfl, Nat.le_succ n, ?_⟩
        simp [Grown.ids]
  | branch i c rest ih =>
    obtain ⟨-, hle, hperm⟩ := ih (pick k c rest).focus
    have hkids := kids_pick k c rest
    generalize hz : pick k c rest = z at *
    generalize hg : ins cl ci k v z.focus n = g at *
    obtain ⟨cap, len, hins⟩ := ins_branch (i := i) hz hg
    obtain ⟨a1, a2, a3⟩ := absorb_ids cap i len g.next
      (plug z.before g.left (g.split.toList ++ z.after))
    rw [hins]
    refine ⟨a1, hle.trans a2, a3.trans ?_⟩
    -- the focus' nodes sit in the middle of the branch's
    have hids : _ = _ ++ (g.ids ++ _) := Grown.flatMap_plug Node.ids z.before g z.after
    rw [kids_plug, hids, Node.ids_branch, hkids, flatMap_append, flatMap_cons, ← range_cat hle a2,
      cons_append, cons_append, append_assoc, append_assoc, append_assoc, append_assoc]
    refine List.Perm.cons _ (List.Perm.append_left _ ?_)
    refine (List.Perm.append_right _ hperm).trans ?_
    rw [append_assoc]
    refine List.Perm.append_left _ ?_
    rw [← append_assoc, ← append_assoc]
    exact List.Perm.append_right _ perm_append_comm

theorem ins_leaves_branch (i n : ℕ) (k : K) (v : V) (c : Node K V h)
    (rest : List (K × Node K V h)) : (ins cl ci k v (Node.branch i c rest) n).leaves
      = ((pick k c rest).before.map fst).flatMap Node.leaves
        ++ ((ins cl ci k v (pick k c rest).focus n).leaves
        ++ ((pick k c rest).after.map snd).flatMap Node.leaves) := by
  obtain ⟨cap, len, hins⟩ := ins_branch (k := k) (c := c) (i := i) rfl rfl
  rw [hins, absorb_leaves, kids_plug, Grown.leaves_plug]

/-- The leftmost leaf stays the leftmost leaf. -/
theorem ins_leaves_head (k : K) (v : V) (t : Node K V h) (n : ℕ) :
    ∃ i xs ys, t.leaves.map Leaf.id = i :: xs
      ∧ (ins cl ci k v t n).leaves.map Leaf.id = i :: ys := by
  induction t with
  | leaf i es =>
    refine ⟨i, [], ?_⟩
    rw [ins_of_leaf, ins_leaf]
    split
    · exact ⟨[], rfl, rfl⟩
    · split
      · exact ⟨[], rfl, rfl⟩
      · exact ⟨[n], rfl, rfl⟩
  | branch i c rest ih =>
    obtain ⟨i', xs, ys, h1, h2⟩ := ih (pick k c rest).focus
    rw [ins_leaves_branch, Node.leaves_branch, kids_pick k c rest]
    simp only [flatMap_append, flatMap_cons, map_append, h1, h2]
    cases (((pick k c rest).before.map fst).flatMap Node.leaves).map Leaf.id with
    | nil => exact ⟨i', _, _, rfl, rfl⟩
    | cons j js => exact ⟨j, _, _, rfl, rfl⟩

/-- An insertion makes at most one new node at every level. -/
theorem ins_next (k : K) (v : V) (t : Node K V h) (n : ℕ) :
    n ≤ (ins cl ci k v t n).next ∧ (ins cl ci k v t n).next ≤ n + h + 1 := by
  induction t with
  | leaf i es =>
    rw [ins_of_leaf, ins_leaf]
    split
    · simp
    · split <;> simp
  | branch i c rest ih =>
    have hfocus := ih (pick k c rest).focus
    obtain ⟨cap, len, hins⟩ := ins_branch (k := k) (c := c) (i := i) rfl rfl
    rw [hins, absorb]
    split
    · simp only
      omega
    · split <;> simp only <;> omega

/-- Inserting `k` would split its leaf between two equal keys. -/
def Straddles (k : K) (v : V) (t : Node K V h) : Prop :=
  cl ≤ (leaf_for k t).entries.length ∧ ∃ a ∈ (place k v (leaf_for k t).entries).take
        ((place k v (leaf_for k t).entries).length / 2),
      ∃ b ∈ (place k v (leaf_for k t).entries).drop
        ((place k v (leaf_for k t).entries).length / 2), a.1 = b.1

end Insert

/-! ## Order -/

section Order

variable {K V N : Type} [LinearOrder K]

/-- The children `c, rest` of a branch, each in its interval of a partition of `[lo, hi)`;
`O` says what it is for a child to be in an interval. -/
def Span (O : N → WithBot K → WithTop K → Prop) :
    N → List (K × N) → WithBot K → WithTop K → Prop
  | c, [], lo, hi => O c lo hi
  | c, (s, d) :: rest, lo, hi => O c lo s ∧ lo < s ∧ (s : WithTop K) < hi ∧ Span O d rest s hi

/-- A tree is ordered in `[lo, hi)`: leaves are sorted and within bounds, and separators
partition the interval. -/
def Ordered : {h : ℕ} → Node K V h → WithBot K → WithTop K → Prop
  | 0, (t : Leaf K V), lo, hi => t.entries.Pairwise (fun a b => a.1 ≤ b.1)
      ∧ ∀ e ∈ t.entries, lo ≤ e.1 ∧ (e.1 : WithTop K) < hi
  | _ + 1, (t : Branch K (Node K V _)), lo, hi => Span Ordered t.first t.rest lo hi

/-- A branch opened at `focus`: the focus has an interval `[lo', hi')` of its own that
holds `k`, and a new focus, whole or split, can be put in its place. -/
structure Focus (O : N → WithBot K → WithTop K → Prop) (k : K) (z : Zipper K N)
    (lo lo' : WithBot K) (hi hi' : WithTop K) : Prop where
  inside : O z.focus lo' hi'
  above : lo' ≤ k
  below : (k : WithTop K) < hi'
  before : ∀ s ∈ z.before.map Prod.snd, (s : WithBot K) ≤ lo'
  after : ∀ s ∈ z.after.map Prod.fst, hi' ≤ s
  lower : lo ≤ lo'
  upper : hi' ≤ hi
  left_of : ∀ c ∈ z.before.map Prod.fst, ∃ l u, O c l u ∧ ∀ x : K, (x : WithTop K) < u → x < k
  right_of : ∀ c ∈ z.after.map Prod.snd, ∃ l u, O c l u ∧ ∀ x : K, l ≤ (x : WithBot K) → k < x
  whole : ∀ x, O x lo' hi' → Span O (plug z.before x z.after).1 (plug z.before x z.after).2 lo hi
  halves : ∀ (x : N) (s : K) (r : N), O x lo' s → lo' < s → (s : WithTop K) < hi' → O r s hi' →
    Span O (plug z.before x ((s, r) :: z.after)).1 (plug z.before x ((s, r) :: z.after)).2 lo hi

variable {O : N → WithBot K → WithTop K → Prop} {rest : List (K × N)} {lo : WithBot K}
  {hi : WithTop K} {k : K} {i h : ℕ} {t : Node K V h}

theorem Span.rest_above {c : N} (h : Span O c rest lo hi) :
    ∀ s ∈ rest.map fst, lo < (s : WithBot K) := by
  induction rest generalizing c lo with
  | nil => simp
  | cons e rest ih =>
    obtain ⟨s, d⟩ := e
    obtain ⟨-, hlo, -, htail⟩ := h
    intro s' hs'
    rcases mem_cons.mp hs' with rfl | hs'
    · exact hlo
    · exact hlo.trans (ih htail s' hs')

theorem Span.kids_above {c : N} (h : Span O c rest lo hi) :
    ∀ d ∈ kids c rest, ∃ l u, O d l u ∧ lo ≤ l := by
  induction rest generalizing c lo with
  | nil =>
    intro d hd
    rw [mem_singleton.mp hd]
    exact ⟨lo, hi, h, le_refl _⟩
  | cons e rest ih =>
    obtain ⟨s, x⟩ := e
    obtain ⟨hc, hlo, -, htail⟩ := h
    intro d hd
    rcases mem_cons.mp hd with rfl | hd
    · exact ⟨lo, s, hc, le_refl _⟩
    · obtain ⟨l, u, hO, hl⟩ := ih htail d hd
      exact ⟨l, u, hO, hlo.le.trans hl⟩

/-- **Opening a branch.** The child a search for `k` takes is the one whose interval
holds `k`. -/
theorem Span.focus {c : N} (h : Span O c rest lo hi) (hlo : lo ≤ k) (hhi : (k : WithTop K) < hi) :
    ∃ lo' hi', Focus O k (pick k c rest) lo lo' hi hi' := by
  induction rest generalizing c lo with
  | nil =>
    exact ⟨lo, hi, h, hlo, hhi, by simp [pick], by simp [pick], le_refl _, le_refl _,
      by simp [pick], by simp [pick], fun _ hx => hx, fun _ _ _ hx h1 h2 hr => ⟨hx, h1, h2, hr⟩⟩
  | cons e rest ih =>
    obtain ⟨s, d⟩ := e
    obtain ⟨hc, hs1, hs2, htail⟩ := h
    unfold pick
    split_ifs with hk
    · refine ⟨lo, s, hc, hlo, WithTop.coe_lt_coe.mpr hk, by simp, ?_, le_refl _, hs2.le,
        by simp, ?_, fun _ hx => ⟨hx, hs1, hs2, htail⟩, ?_⟩
      · intro s' hs'
        rcases mem_cons.mp hs' with rfl | hs'
        · exact le_refl _
        · exact WithTop.coe_le_coe.mpr (WithBot.coe_lt_coe.mp (htail.rest_above s' hs')).le
      · -- everything to the right starts at `s` or later
        intro x hx
        obtain ⟨l, u, hO, hl⟩ := htail.kids_above x hx
        refine ⟨l, u, hO, ?_⟩
        intro y hy
        exact hk.trans_le (WithBot.coe_le_coe.mp (hl.trans hy))
      · intro x s' r hx h1 h2 hr
        exact ⟨hx, h1, h2.trans hs2, hr, WithBot.coe_lt_coe.mpr (WithTop.coe_lt_coe.mp h2), hs2,
          htail⟩
    · have hsk : s ≤ k := not_lt.mp hk
      obtain ⟨lo', hi', f⟩ := ih htail (WithBot.coe_le_coe.mpr hsk)
      refine ⟨lo', hi', f.inside, f.above, f.below, ?_, f.after, hs1.le.trans f.lower, f.upper, ?_,
        f.right_of, fun x hx => ⟨hc, hs1, hs2, f.whole x hx⟩,
        fun x s' r hx h1 h2 hr => ⟨hc, hs1, hs2, f.halves x s' r hx h1 h2 hr⟩⟩
      · intro s' hs'
        rcases mem_cons.mp hs' with rfl | hs'
        · exact f.lower
        · exact f.before s' hs'
      · intro x hx
        rcases mem_cons.mp hx with rfl | hx
        · exact ⟨lo, s, hc, fun y hy => (WithTop.coe_lt_coe.mp hy).trans_le hsk⟩
        · exact f.left_of x hx

theorem Span.cut {c m : N} {s : K} {as bs : List (K × N)}
    (h : Span O c (as ++ (s, m) :: bs) lo hi) :
    Span O c as lo s ∧ lo < s ∧ (s : WithTop K) < hi ∧ Span O m bs s hi := by
  induction as generalizing c lo with
  | nil => exact h
  | cons e as ih =>
    obtain ⟨s', d⟩ := e
    obtain ⟨hc, h1, h2, htail⟩ := h
    obtain ⟨g1, g2, g3, g4⟩ := ih htail
    exact ⟨⟨hc, h1, WithTop.coe_lt_coe.mpr (WithBot.coe_lt_coe.mp g2), g1⟩, h1.trans g2, g3, g4⟩

variable {es : List (K × V)} {c : Node K V h} {cl : ℕ}

@[simp]
theorem ordered_leaf :
    Ordered (.leaf i es) lo hi ↔ es.Pairwise (fun a b => a.1 ≤ b.1)
      ∧ ∀ e ∈ es, lo ≤ e.1 ∧ (e.1 : WithTop K) < hi := Iff.rfl

@[simp]
theorem ordered_branch {rest : List (K × Node K V h)} :
    Ordered (.branch i c rest) lo hi ↔ Span Ordered c rest lo hi := Iff.rfl

theorem Ordered.bounds (ht : Ordered t lo hi) :
    ∀ e ∈ t.entries, lo ≤ e.1 ∧ (e.1 : WithTop K) < hi := by
  induction t generalizing lo hi with
  | leaf i es =>
    intro e he
    rw [Node.entries_leaf] at he
    exact ht.2 e he
  | branch i c rest ih =>
    intro e he
    rw [Node.entries_branch] at he
    obtain ⟨d, hd, hed⟩ := mem_flatMap.mp he
    have hspan : Span Ordered c rest lo hi := ht
    clear ht he
    induction rest generalizing c lo with
    | nil =>
      rw [mem_singleton.mp hd] at hed
      exact ih _ hspan e hed
    | cons x rest ihr =>
      obtain ⟨s, x⟩ := x
      obtain ⟨hc, h1, h2, htail⟩ := hspan
      rcases mem_cons.mp hd with rfl | hd
      · obtain ⟨b1, b2⟩ := ih _ hc e hed
        exact ⟨b1, b2.trans h2⟩
      · obtain ⟨b1, b2⟩ := ihr x hd htail
        exact ⟨h1.le.trans b1, b2⟩

/-- The entries left of the focus are below the key and those right of it above. -/
theorem Focus.entries {z : Zipper K (Node K V h)} {lo' : WithBot K} {hi' : WithTop K}
    (f : Focus Ordered k z lo lo' hi hi') :
    (∀ e ∈ (z.before.map fst).flatMap Node.entries, e.1 < k)
      ∧ ∀ e ∈ (z.after.map snd).flatMap Node.entries, k < e.1 := by
  constructor
  · intro e he
    obtain ⟨c, hc, hec⟩ := mem_flatMap.mp he
    obtain ⟨l, u, hO, hu⟩ := f.left_of c hc
    exact hu e.1 (hO.bounds e hec).2
  · intro e he
    obtain ⟨c, hc, hec⟩ := mem_flatMap.mp he
    obtain ⟨l, u, hO, hl⟩ := f.right_of c hc
    exact hl e.1 (hO.bounds e hec).1

/-- What an insertion into a subtree of `[lo, hi)` should leave: an ordered subtree, or two
with the separator between them, whose entries are `es`. -/
def Grown.Sound {h : ℕ} (g : Grown K V h) (lo : WithBot K) (hi : WithTop K)
    (es : List (K × V)) : Prop :=
  match g.split with
  | none => Ordered g.left lo hi ∧ g.left.entries = es
  | some (s, r) => Ordered g.left lo s ∧ lo < s ∧ (s : WithTop K) < hi ∧ Ordered r s hi
      ∧ g.left.entries ++ r.entries = es

/-- A sorted list within bounds, cut where no key is on both sides. -/
theorem cut_sound {n : ℕ} {right : List (K × V)} {e : K × V} {m : ℕ}
    (hs : es.Pairwise (fun a b => a.1 ≤ b.1)) (hb : ∀ x ∈ es, lo ≤ x.1 ∧ (x.1 : WithTop K) < hi)
    (hm : 0 < m) (hd : es.drop m = e :: right) (hne : ∀ a ∈ es.take m, a.1 ≠ e.1) :
    Ordered (.leaf i (es.take m)) lo e.1 ∧ lo < e.1 ∧ (e.1 : WithTop K) < hi
      ∧ Ordered (.leaf n (e :: right)) e.1 hi := by
  have hcat : es.take m ++ e :: right = es := by rw [← hd, take_append_drop]
  have he : e ∈ es := by
    rw [← hcat]
    exact mem_append_right _ mem_cons_self
  rw [← hcat, pairwise_append] at hs
  obtain ⟨hs1, hs2, hs3⟩ := hs
  have hlt : ∀ a ∈ es.take m, a.1 < e.1 :=
    fun a ha => lt_of_le_of_ne (hs3 a ha e mem_cons_self) (hne a ha)
  refine ⟨⟨hs1, ?_⟩, ?_, (hb e he).2, ⟨hs2, ?_⟩⟩
  · intro a ha
    exact ⟨(hb a (mem_of_mem_take ha)).1, WithTop.coe_lt_coe.mpr (hlt a ha)⟩
  · -- the left part is not empty, and its first key is below the separator
    cases es with
    | nil => cases he
    | cons a es =>
      have ha : a ∈ (a :: es).take m := by
        rw [take_cons hm]
        exact mem_cons_self
      exact (hb a mem_cons_self).1.trans_lt (WithBot.coe_lt_coe.mpr (hlt a ha))
  · intro x hx
    refine ⟨?_, (hb x ?_).2⟩
    · rcases mem_cons.mp hx with rfl | hx'
      · exact le_refl _
      · exact WithBot.coe_le_coe.mpr ((pairwise_cons.mp hs2).1 x hx')
    · rw [← hcat]
      exact mem_append_right _ hx

theorem ins_leaf_sound {n : ℕ} {v : V} (hcl : 0 < cl) (ho : Ordered (.leaf i es) lo hi)
    (hlo : lo ≤ k) (hhi : (k : WithTop K) < hi) (hno : ¬ Straddles cl k v (.leaf i es)) :
    (ins_leaf cl k v i es n).Sound lo hi (place k v es) := by
  have hs := place_sorted (k := k) (v := v) ho.1
  have hb : ∀ x ∈ place k v es, lo ≤ x.1 ∧ (x.1 : WithTop K) < hi := by
    intro x hx
    rcases mem_place.mp hx with rfl | hx
    · exact ⟨hlo, hhi⟩
    · exact ho.2 x hx
  unfold ins_leaf
  split_ifs with hroom
  · exact ⟨⟨hs, hb⟩, Node.entries_leaf⟩
  · have hlen := length_place k v es
    cases hd : (place k v es).drop ((place k v es).length / 2) with
    | nil =>
      have := drop_eq_nil_iff.mp hd
      omega
    | cons e right =>
      have hne : ∀ a ∈ (place k v es).take ((place k v es).length / 2), a.1 ≠ e.1 := by
        intro a ha heq
        refine hno ⟨not_lt.mp hroom, a, ha, e, ?_, heq⟩
        simp only [leaf_for_leaf]
        rw [hd]
        exact mem_cons_self
      obtain ⟨h1, h2, h3, h4⟩ := cut_sound (i := i) (n := n) hs hb (by omega) hd hne
      refine ⟨h1, h2, h3, h4, ?_⟩
      rw [Node.entries_leaf, Node.entries_leaf, ← hd, take_append_drop]

theorem absorb_sound (ci i len n : ℕ) {p : Node K V h × List (K × Node K V h)}
    (ho : Span Ordered p.1 p.2 lo hi) :
    (absorb ci i len p n).Sound lo hi ((kids p.1 p.2).flatMap Node.entries) := by
  unfold absorb
  split
  · exact ⟨ho, Node.entries_branch⟩
  · cases hd : p.2.drop (p.2.length / 2) with
    | nil => exact ⟨ho, Node.entries_branch⟩
    | cons e right =>
      obtain ⟨s, m⟩ := e
      have hcat : p.2.take (p.2.length / 2) ++ (s, m) :: right = p.2 := by
        rw [← hd, take_append_drop]
      rw [← hcat] at ho
      obtain ⟨h1, h2, h3, h4⟩ := ho.cut
      refine ⟨h1, h2, h3, h4, ?_⟩
      conv_rhs => rw [← hcat]
      simp [kids]

/-- **Insertion keeps the order.** Unless it splits a leaf between two equal keys, it
leaves an ordered tree whose entries are the old ones with the new one placed. -/
theorem ins_sound (ci n : ℕ) {v : V} (hcl : 0 < cl) (ho : Ordered t lo hi) (hlo : lo ≤ k)
    (hhi : (k : WithTop K) < hi) (hno : ¬ Straddles cl k v t) :
    (ins cl ci k v t n).Sound lo hi (place k v t.entries) := by
  induction t generalizing lo hi with
  | leaf i es =>
    rw [Node.entries_leaf]
    exact ins_leaf_sound hcl ho hlo hhi hno
  | branch i c rest ih =>
    obtain ⟨lo', hi', f⟩ := Span.focus (ordered_branch.mp ho) hlo hhi
    have hg := ih (pick k c rest).focus f.inside f.above f.below hno
    -- the new entry goes to the focus' part of the entries
    have hplace : place k v (Node.branch i c rest).entries
        = ((pick k c rest).before.map fst).flatMap Node.entries
          ++ (place k v (pick k c rest).focus.entries
          ++ ((pick k c rest).after.map snd).flatMap Node.entries) := by
      rw [Node.entries_branch, kids_pick k, flatMap_append, flatMap_cons,
        place_append_right _ (fun e he => (f.entries.1 e he).le), place_append_left _ f.entries.2]
    rw [hplace]
    unfold Grown.Sound at hg
    cases hsplit : (ins cl ci k v (pick k c rest).focus n).split with
    | none =>
      rw [ins_branch_none rfl rfl hsplit]
      rw [hsplit] at hg
      refine ⟨f.whole _ hg.1, ?_⟩
      rw [Node.entries_branch, kids_plug, flatMap_append, flatMap_cons, hg.2]
    | some e =>
      obtain ⟨s, r⟩ := e
      rw [ins_branch_some rfl rfl hsplit]
      rw [hsplit] at hg
      obtain ⟨h1, h2, h3, h4, h5⟩ := hg
      have hspan := absorb_sound ci i rest.length (ins cl ci k v (pick k c rest).focus n).next
        (f.halves _ s r h1 h2 h3 h4)
      rwa [kids_plug, flatMap_append, flatMap_cons, map_cons, flatMap_cons,
        ← append_assoc (Node.entries _), h5] at hspan

/-! ## Searching -/

/-- Separators are sorted in every branch on the path of `k`, so a binary search in them
finds the child `pick` takes. -/
def Routable (k : K) : {h : ℕ} → Node K V h → Prop
  | 0, _ => True
  | _ + 1, (t : Branch K (Node K V _)) =>
    (t.rest.map Prod.fst).Pairwise (· ≤ ·) ∧ Routable k (pick k t.first t.rest).focus

/-- Wherever the insertion of `k` hands a separator to a branch, the place of that separator
among the others is right after the child that was split. -/
def Fits (cl ci : ℕ) (k : K) (v : V) (n : ℕ) : {h : ℕ} → Node K V h → Prop
  | 0, _ => True
  | _ + 1, (t : Branch K (Node K V _)) =>
    Fits cl ci k v n (pick k t.first t.rest).focus ∧
      ∀ s r, (ins cl ci k v (pick k t.first t.rest).focus n).split = some (s, r) →
        (∀ x ∈ (pick k t.first t.rest).before.map Prod.snd, x ≤ s)
          ∧ ∀ x ∈ (pick k t.first t.rest).after.map Prod.fst, s < x

@[simp]
theorem routable_branch {rest : List (K × Node K V h)} :
    Routable k (.branch i c rest) ↔
      (rest.map fst).Pairwise (· ≤ ·) ∧ Routable k (pick k c rest).focus := Iff.rfl

@[simp]
theorem fits_branch {ci n : ℕ} {v : V} {rest : List (K × Node K V h)} :
    Fits cl ci k v n (.branch i c rest) ↔ Fits cl ci k v n (pick k c rest).focus ∧
      ∀ s r, (ins cl ci k v (pick k c rest).focus n).split = some (s, r) →
        (∀ x ∈ (pick k c rest).before.map snd, x ≤ s)
          ∧ ∀ x ∈ (pick k c rest).after.map fst, s < x := Iff.rfl

theorem Span.seps_sorted {c : N} (h : Span O c rest lo hi) :
    (rest.map fst).Pairwise (· ≤ ·) := by
  induction rest generalizing c lo with
  | nil => exact List.Pairwise.nil
  | cons e rest ih =>
    obtain ⟨s, d⟩ := e
    obtain ⟨-, -, -, htail⟩ := h
    rw [map_cons, pairwise_cons]
    exact ⟨fun s' hs' => (WithBot.coe_lt_coe.mp (htail.rest_above s' hs')).le, ih htail⟩

theorem Ordered.routable (ho : Ordered t lo hi) (hlo : lo ≤ k) (hhi : (k : WithTop K) < hi) :
    Routable k t := by
  induction t generalizing lo hi with
  | leaf i es => trivial
  | branch i c rest ih =>
    obtain ⟨lo', hi', f⟩ := Span.focus (ordered_branch.mp ho) hlo hhi
    exact ⟨(ordered_branch.mp ho).seps_sorted, ih _ f.inside f.above f.below⟩

/-- In an ordered tree a separator goes where the split was. -/
theorem Ordered.fits (ci n : ℕ) {v : V} (hcl : 0 < cl) (ho : Ordered t lo hi) (hlo : lo ≤ k)
    (hhi : (k : WithTop K) < hi) (hno : ¬ Straddles cl k v t) : Fits cl ci k v n t := by
  induction t generalizing lo hi with
  | leaf i es => trivial
  | branch i c rest ih =>
    obtain ⟨lo', hi', f⟩ := Span.focus (ordered_branch.mp ho) hlo hhi
    rw [fits_branch]
    refine ⟨ih _ f.inside f.above f.below hno, ?_⟩
    intro s r hsplit
    have hg := ins_sound ci n hcl f.inside f.above f.below hno
    unfold Grown.Sound at hg
    rw [hsplit] at hg
    obtain ⟨-, h2, h3, -, -⟩ := hg
    constructor
    · intro x hx
      exact (WithBot.coe_lt_coe.mp ((f.before x hx).trans_lt h2)).le
    · intro x hx
      exact WithTop.coe_lt_coe.mp (h3.trans_le (f.after x hx))

/-- **Search.** The leaf a search for `k` ends in has only smaller keys to its left and only
larger ones to its right. -/
theorem Ordered.leaf_for (ho : Ordered t lo hi) (hlo : lo ≤ k) (hhi : (k : WithTop K) < hi) :
    ∃ pre post, t.leaves = pre ++ leaf_for k t :: post ∧ (∀ e ∈ pre.flatMap Leaf.entries, e.1 < k)
      ∧ ∀ e ∈ post.flatMap Leaf.entries, k < e.1 := by
  induction t generalizing lo hi with
  | leaf i es =>
    exact ⟨[], [], rfl, by simp, by simp⟩
  | branch i c rest ih =>
    obtain ⟨lo', hi', f⟩ := Span.focus (ordered_branch.mp ho) hlo hhi
    obtain ⟨pre, post, hl, hpre, hpost⟩ := ih (pick k c rest).focus f.inside f.above f.below
    refine ⟨((pick k c rest).before.map fst).flatMap Node.leaves ++ pre,
      post ++ ((pick k c rest).after.map snd).flatMap Node.leaves, ?_, ?_, ?_⟩
    · rw [Node.leaves_branch, kids_pick k, flatMap_append, flatMap_cons, hl, leaf_for_branch]
      simp only [append_assoc, cons_append]
    · intro e he
      rw [flatMap_append, flatMap_assoc] at he
      rcases mem_append.mp he with he | he
      · exact f.entries.1 e he
      · exact hpre e he
    · intro e he
      rw [flatMap_append, flatMap_assoc] at he
      rcases mem_append.mp he with he | he
      · exact hpost e he
      · exact f.entries.2 e he

/-! ## Whole trees -/

/-- A tree of any height. -/
structure Tree (K V : Type) where
  height : ℕ
  root : Node K V height

namespace Tree

/-- The tree with no entries, in node `i`. -/
def empty (i : ℕ) : Tree K V := ⟨0, .leaf i []⟩

/-- What becomes of a root that was inserted into: when it was split, a new root is put over
its halves. -/
def of_grown {h : ℕ} (g : Grown K V h) : Tree K V × ℕ :=
  match g.split with
  | none => (⟨h, g.left⟩, g.next)
  | some e => (⟨h + 1, .branch g.next g.left [e]⟩, g.next + 1)

/-- Insertion; the second result is the next free identity. -/
def insert (cl ci : ℕ) (k : K) (v : V) (t : Tree K V) (n : ℕ) : Tree K V × ℕ :=
  of_grown (ins cl ci k v t.root n)

/-- An insertion adds at most one node a level and one level. -/
theorem insert_bounds (cl ci : ℕ) (k : K) (v : V) (t : Tree K V) (n : ℕ) :
    (t.insert cl ci k v n).1.height ≤ t.height + 1
      ∧ (t.insert cl ci k v n).2 ≤ n + t.height + 2 := by
  have hnext := (ins_next cl ci k v t.root n).2
  unfold insert of_grown
  split
  · exact ⟨Nat.le_succ _, hnext.trans (Nat.le_succ _)⟩
  · exact ⟨le_rfl, Nat.succ_le_succ hnext⟩

/-- **Insertion**, on whole trees. -/
theorem insert_ordered {cl : ℕ} (ci n : ℕ) {k : K} {v : V} {t : Tree K V} (hcl : 0 < cl)
    (ho : Ordered t.root ⊥ ⊤) (hno : ¬ Straddles cl k v t.root) :
    Ordered (t.insert cl ci k v n).1.root ⊥ ⊤
      ∧ (t.insert cl ci k v n).1.root.entries = place k v t.root.entries := by
  have hg := ins_sound ci n hcl ho bot_le (WithTop.coe_lt_top k) hno
  unfold Grown.Sound at hg
  unfold insert of_grown
  cases hsplit : (ins cl ci k v t.root n).split with
  | none =>
    rwa [hsplit] at hg
  | some e =>
    obtain ⟨s, r⟩ := e
    rw [hsplit] at hg
    obtain ⟨h1, h2, h3, h4, h5⟩ := hg
    refine ⟨⟨h1, h2, h3, h4⟩, ?_⟩
    simp only [Node.entries_branch, kids, map_cons, map_nil, flatMap_cons, flatMap_nil, append_nil]
    exact h5

end Tree

end Order

end BPlusTree

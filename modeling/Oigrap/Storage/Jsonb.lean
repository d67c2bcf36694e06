/-
JSON values and containment.

`json_contains_val` is the operator `@>`. Its recursion goes down the outer value only: two
objects are compared key by key, two arrays element by element, and an array also contains
what one of its elements contains. `contains_preorder` says that it is a preorder on the
values without floats.
-/
import Oigrap.Lib.Utf8

namespace Oigrap.Storage

open List

/-- A float is its bit pattern. -/
inductive JsonVal where
  | Null
  | Bool (b : Bool)
  | Int (n : Int64)
  | Float (bits : UInt64)
  | Str (s : Text)
  | Array (items : List JsonVal)
  | Object (pairs : List (Text × JsonVal))
  deriving Repr

/-! ## Containment -/

section Contains

-- equality of floats
variable (f64_eq : UInt64 → UInt64 → Bool)

mutual

def json_contains_val : JsonVal → JsonVal → Bool
  | .Object o_pairs, .Object i_pairs => i_pairs.all fun p => any_pair o_pairs p.1 p.2
  | .Array o_items, .Array i_items => i_items.all (any_item o_items)
  | .Array o_items, iv => any_item o_items iv
  -- the rest is `a == b`, and no two containers of one kind are left
  | .Null, .Null => true
  | .Bool a, .Bool b => a = b
  | .Int a, .Int b => a = b
  | .Float a, .Float b => f64_eq a b
  | .Str a, .Str b => a = b
  | _, _ => false

/-- Some pair has the key and a value that contains `iv`. -/
def any_pair : List (Text × JsonVal) → Text → JsonVal → Bool
  | [], _, _ => false
  | (ok, ov) :: o_pairs, ik, iv => (ok = ik && json_contains_val ov iv) || any_pair o_pairs ik iv

/-- Some element contains `iv`. -/
def any_item : List JsonVal → JsonVal → Bool
  | [], _ => false
  | ov :: o_items, iv => json_contains_val ov iv || any_item o_items iv

end

inductive FloatFree : JsonVal → Prop
  | null : FloatFree .Null
  | bool b : FloatFree (.Bool b)
  | int n : FloatFree (.Int n)
  | str s : FloatFree (.Str s)
  | array {items} : (∀ v ∈ items, FloatFree v) → FloatFree (.Array items)
  | object {pairs} : (∀ p ∈ pairs, FloatFree p.2) → FloatFree (.Object pairs)

variable {f64_eq} {a b c v : JsonVal}

theorem any_item_iff {items : List JsonVal} :
    any_item f64_eq items v = true ↔ ∃ x ∈ items, json_contains_val f64_eq x v = true := by
  induction items with
  | nil => simp [any_item]
  | cons y items ih => simp [any_item, ih]

theorem any_pair_iff {pairs : List (Text × JsonVal)} {k : Text} :
    any_pair f64_eq pairs k v = true
      ↔ ∃ p ∈ pairs, p.1 = k ∧ json_contains_val f64_eq p.2 v = true := by
  induction pairs with
  | nil => simp [any_pair]
  | cons q pairs ih => simp [any_pair, ih]

theorem contains_refl (h : FloatFree a) : json_contains_val f64_eq a a = true := by
  induction h with
  | array _ ih =>
    rw [json_contains_val, all_eq_true]
    exact fun x hx => any_item_iff.mpr ⟨x, hx, ih x hx⟩
  | object _ ih =>
    rw [json_contains_val, all_eq_true]
    exact fun p hp => any_pair_iff.mpr ⟨p, hp, rfl, ih p hp⟩
  | _ => simp [json_contains_val]

/-- What an array has to contain to contain the value. -/
def parts : JsonVal → List JsonVal
  | .Array items => items
  | v => [v]

theorem array_contains_iff {items : List JsonVal} : json_contains_val f64_eq (.Array items) v = true
    ↔ ∀ y ∈ parts v, ∃ x ∈ items, json_contains_val f64_eq x y = true := by
  cases v <;> simp [json_contains_val, parts, any_item_iff]

theorem contains_trans (ha : FloatFree a) (hab : json_contains_val f64_eq a b = true)
    (hbc : json_contains_val f64_eq b c = true) : json_contains_val f64_eq a c = true := by
  induction ha generalizing b c with
  | array _ ih =>
    rw [array_contains_iff] at hab ⊢
    intro z hz
    cases b with
    | Array bs =>
      obtain ⟨y, hy, hyz⟩ := array_contains_iff.mp hbc z hz
      obtain ⟨x, hx, hxy⟩ := hab y hy
      exact ⟨x, hx, ih x hx hxy hyz⟩
    | _ =>
      obtain ⟨x, hx, hxb⟩ := hab _ mem_cons_self
      cases c with
      | Array is => simp [json_contains_val] at hbc
      | _ =>
        obtain rfl := mem_singleton.mp hz
        exact ⟨x, hx, ih x hx hxb hbc⟩
  | object _ ih =>
    cases b with
    | Object bs =>
      cases c with
      | Object cs =>
        simp only [json_contains_val, all_eq_true, any_pair_iff] at hab hbc ⊢
        intro r hr
        obtain ⟨q, hq, hqr, hqv⟩ := hbc r hr
        obtain ⟨p, hp, hpq, hpv⟩ := hab q hq
        exact ⟨p, hp, hpq.trans hqr, ih p hp hpv hqv⟩
      | _ => simp [json_contains_val] at hbc
    | _ => simp [json_contains_val] at hab
  | _ =>
    -- a scalar contains itself only
    cases b <;> simp only [json_contains_val, decide_eq_true_eq, Bool.false_eq_true] at hab
    all_goals first | exact hbc | rwa [hab]

/-- **Containment is a preorder.** -/
theorem contains_preorder :
    (∀ a, FloatFree a → json_contains_val f64_eq a a = true)
      ∧ ∀ a b c, FloatFree a → FloatFree b → FloatFree c → json_contains_val f64_eq a b = true →
        json_contains_val f64_eq b c = true → json_contains_val f64_eq a c = true :=
  ⟨fun _ => contains_refl, fun _ _ _ ha _ _ => contains_trans ha⟩

theorem contains_preorder_nested :
    json_contains_val (· == ·) (.Array [.Array [.Int 1, .Null]]) (.Int 1) = true := by
  have hin : FloatFree (.Array [.Int 1, .Null]) := .array (by simp [FloatFree.int, FloatFree.null])
  exact (@contains_preorder (· == ·)).2 _ _ _ (.array (by simp [hin])) hin (.int 1) (by decide)
    (by decide)

end Contains

end Oigrap.Storage

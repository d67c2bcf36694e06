/-
`crates/raft/src/shard.rs`: routing of keys to shards.

A router keeps key ranges in a list sorted by start key. A lookup takes the last range that
does not start above the key and checks the end of that one only. That this is enough rests
on the ranges being laid one after the other, which `add_shard` and `split_shard` keep:
the invariant is `Wf`, and the search is `Intervals.Laid.covers_iff`.

Keys are byte strings in lexicographic order; an empty end key stands for no bound.
-/
import Oigrap.Lib.Intervals
import Oigrap.Lib.Runs
import Oigrap.Raft.Node
import Oigrap.Storage.BTree

namespace Oigrap.Raft

open Intervals Function List
open Storage.BTree (partition_point insertIdx_partition_point)

abbrev ShardId := ℕ
abbrev ShardKey := List UInt8

structure ShardRange where
  shard_id : ShardId
  start_key : ShardKey
  /-- exclusive; empty means unbounded -/
  end_key : ShardKey
  deriving DecidableEq, Repr

namespace ShardRange

/-- The upper bound, with the empty key read as none. -/
def stop (r : ShardRange) : WithTop ShardKey := if r.end_key = [] then ⊤ else r.end_key

/-- The keys of the range. -/
def Contains (r : ShardRange) (key : ShardKey) : Prop :=
  r.start_key ≤ key ∧ (r.end_key = [] ∨ key < r.end_key)

instance (r : ShardRange) (key : ShardKey) : Decidable (r.Contains key) :=
  inferInstanceAs (Decidable (_ ∧ _))

end ShardRange

structure ShardRouter where
  shards : List ShardRange
  shard_nodes : ShardId → Option (List NodeId)

namespace ShardRouter

def new : ShardRouter := ⟨[], fun _ => none⟩

def add_shard (t : ShardRouter) (shard : ShardRange) (nodes : List NodeId) : ShardRouter :=
  let pos := partition_point (fun s => decide (s.start_key < shard.start_key)) t.shards
  { shards := t.shards.insertIdx pos shard
    shard_nodes := update t.shard_nodes shard.shard_id (some nodes) }

def route (t : ShardRouter) (key : ShardKey) : Option ShardId :=
  let pos := partition_point (fun s => decide (s.start_key ≤ key)) t.shards
  if pos = 0 then none
  else
    match t.shards[pos - 1]? with
    | none => none
    | some candidate =>
      if candidate.end_key.isEmpty ∨ key < candidate.end_key then some candidate.shard_id else none

def split_shard (t : ShardRouter) (shard_id : ShardId) (split_key : ShardKey)
    (new_shard_id : ShardId) (new_nodes : List NodeId) : ShardRouter :=
  match t.shards.findIdx? (fun s => s.shard_id == shard_id) with
  | none => t
  | some pos =>
    match t.shards[pos]? with
    | none => t
    | some original =>
      let shards := t.shards.set pos { original with end_key := split_key }
      let new_shard : ShardRange := ⟨new_shard_id, split_key, original.end_key⟩
      let insert_pos := partition_point (fun s => decide (s.start_key ≤ split_key)) shards
      { shards := shards.insertIdx insert_pos new_shard
        shard_nodes := update t.shard_nodes new_shard_id (some new_nodes) }

/-! ## Histories -/

inductive RouterOp where
  | add (shard : ShardRange) (nodes : List NodeId)
  | split (shard_id : ShardId) (split_key : ShardKey) (new_shard_id : ShardId)
      (new_nodes : List NodeId)

def step (t : ShardRouter) : RouterOp → ShardRouter
  | .add shard nodes => t.add_shard shard nodes
  | .split shard_id split_key new_shard_id new_nodes =>
    t.split_shard shard_id split_key new_shard_id new_nodes

/-- What an operation is to do to the ranges, whatever their order: one more, or its two parts in
the place of one. -/
def RouterOp.apply (ranges : List ShardRange) : RouterOp → List ShardRange
  | .add shard _ => shard :: ranges
  | .split shard_id split_key new_shard_id _ => ranges.flatMap fun r =>
    if r.shard_id = shard_id
    then [⟨shard_id, r.start_key, split_key⟩, ⟨new_shard_id, split_key, r.end_key⟩]
    else [r]

/-- A new id and a split point inside the range, above its start. -/
def CanSplit (t : ShardRouter) (shard_id : ShardId) (split_key : ShardKey)
    (new_shard_id : ShardId) : Prop :=
  (∃ r ∈ t.shards, r.shard_id = shard_id ∧ r.start_key < split_key ∧ r.Contains split_key)
    ∧ ∀ r ∈ t.shards, r.shard_id ≠ new_shard_id

/-- Ranges are added with new ids, contain some key and have none in common with those
already there. -/
def Allowed (t : ShardRouter) : RouterOp → Prop
  | .add shard _ => (∃ key, shard.Contains key)
      ∧ ∀ r ∈ t.shards, r.shard_id ≠ shard.shard_id ∧ ∀ key, ¬ (shard.Contains key ∧ r.Contains key)
  | .split shard_id split_key new_shard_id _ => t.CanSplit shard_id split_key new_shard_id

/-! ## The invariant -/

structure Wf (t : ShardRouter) : Prop where
  laid : Laid ShardRange.start_key ShardRange.stop t.shards
  ids : (t.shards.map ShardRange.shard_id).Nodup

variable {t : ShardRouter} {r shard : ShardRange} {key split_key : ShardKey}
  {shard_id new_shard_id : ShardId} {nodes : List NodeId}

theorem new_wf : new.Wf := ⟨laid_nil, nodup_nil⟩

theorem contains_iff : r.Contains key ↔ Covers ShardRange.start_key ShardRange.stop r key := by
  unfold ShardRange.Contains Covers ShardRange.stop
  refine and_congr_right fun _ => ?_
  split_ifs with hend
  · exact ⟨fun _ => WithTop.coe_lt_top key, fun _ => .inl hend⟩
  · rw [WithTop.coe_lt_coe]
    exact ⟨fun h => h.resolve_left hend, .inr⟩

theorem proper_of_contains (h : r.Contains key) : (r.start_key : WithTop ShardKey) < r.stop := by
  obtain ⟨hlo, hhi⟩ := contains_iff.mp h
  exact (WithTop.coe_le_coe.mpr hlo).trans_lt hhi

/-- The search by index takes the last range that does not start above the key. -/
theorem route_eq (t : ShardRouter) (key : ShardKey) :
    t.route key = (t.shards.takeWhile fun s => decide (s.start_key ≤ key)).getLast?.bind
      fun candidate => if (key : WithTop ShardKey) < candidate.stop then some candidate.shard_id
        else none := by
  have hcheck : ∀ r : ShardRange, (r.end_key.isEmpty ∨ key < r.end_key)
      ↔ (key : WithTop ShardKey) < r.stop := by
    intro r
    unfold ShardRange.stop
    by_cases hend : r.end_key = []
    · simp [hend]
    · rw [if_neg hend, WithTop.coe_lt_coe, List.isEmpty_iff]
      exact ⟨fun h => h.resolve_left hend, .inr⟩
  unfold route partition_point
  rw [getLast?_eq_getElem?]
  obtain ⟨rest, hrest⟩ := takeWhile_prefix (l := t.shards) fun s => decide (s.start_key ≤ key)
  generalize t.shards.takeWhile (fun s => decide (s.start_key ≤ key)) = front at hrest ⊢
  simp only []
  by_cases h0 : front.length = 0
  · rw [if_pos h0, length_eq_zero_iff.mp h0]
    rfl
  · have hlt : front.length - 1 < front.length := by omega
    rw [if_neg h0, ← hrest, getElem?_append_left hlt, getElem?_eq_getElem hlt]
    simp only [hcheck, Option.bind_some]

theorem ne_nil_of_lt {k : ShardKey} (h : k < key) : key ≠ [] := by
  rintro rfl
  exact not_lt_nil _ h

section

variable (h : t.Wf)
include h

/-- **Routing.** In a well-formed router a key goes to the shard whose range contains it. -/
theorem Wf.route_iff (key : ShardKey) (s : ShardId) :
    t.route key = some s ↔ ∃ r ∈ t.shards, r.shard_id = s ∧ r.Contains key := by
  rw [route_eq, Option.bind_eq_some_iff]
  constructor
  · rintro ⟨r, hlast, hs⟩
    by_cases hlt : (key : WithTop ShardKey) < r.stop
    · rw [if_pos hlt] at hs
      obtain ⟨hin, hc⟩ := (h.laid.covers_iff key).mpr ⟨hlast, hlt⟩
      exact ⟨r, hin, Option.some.inj hs, contains_iff.mpr hc⟩
    · simp [if_neg hlt] at hs
  · rintro ⟨r, hin, rfl, hc⟩
    obtain ⟨hlast, hlt⟩ := (h.laid.covers_iff key).mp ⟨hin, contains_iff.mp hc⟩
    exact ⟨r, hlast, by rw [if_pos hlt]⟩

theorem Wf.route_none_iff (key : ShardKey) :
    t.route key = none ↔ ∀ r ∈ t.shards, ¬ r.Contains key := by
  rw [Option.eq_none_iff_forall_ne_some]
  constructor
  · intro hno r hr hc
    exact hno r.shard_id ((h.route_iff key _).mpr ⟨r, hr, rfl, hc⟩)
  · intro hno s hs
    obtain ⟨r, hr, -, hc⟩ := (h.route_iff key s).mp hs
    exact hno r hr hc

/-! ## The operations keep it -/

theorem Wf.add_shard (ha : t.Allowed (.add shard nodes)) : (t.add_shard shard nodes).Wf := by
  obtain ⟨⟨key, hkey⟩, hnew⟩ := ha
  have hsplit := takeWhile_append_dropWhile
    (p := fun s : ShardRange => decide (s.start_key < shard.start_key)) (l := t.shards)
  have hlaid := h.laid
  have hids := h.ids
  rw [← hsplit] at hlaid hids
  have hfront : ∀ a ∈ t.shards.takeWhile fun s => decide (s.start_key < shard.start_key),
      a.start_key < shard.start_key := fun a ha => by simpa using mem_takeWhile_imp ha
  refine ⟨?_, ?_⟩
  · show Laid _ _ (t.shards.insertIdx _ shard)
    rw [insertIdx_partition_point]
    have hafter : ∀ b ∈ t.shards.dropWhile fun s => decide (s.start_key < shard.start_key),
        shard.start_key ≤ b.start_key := by
      intro b hb
      refine h.laid.dropWhile_lt shard.start_key b ?_
      convert hb
    refine hlaid.insert (proper_of_contains hkey) hfront hafter ?_
    intro j hj k hk hj'
    rw [hsplit] at hj
    exact (hnew j hj).2 k ⟨contains_iff.mpr hk, contains_iff.mpr hj'⟩
  · show ((t.shards.insertIdx _ shard).map _).Nodup
    rw [insertIdx_partition_point, map_append, map_cons]
    rw [map_append] at hids
    refine nodup_middle.mpr (nodup_cons.mpr ⟨?_, hids⟩)
    intro hin
    rw [← map_append, hsplit] at hin
    obtain ⟨r, hr, hid⟩ := mem_map.mp hin
    exact (hnew r hr).1 hid

variable (hs : t.CanSplit shard_id split_key new_shard_id) (new_nodes : List NodeId)
include hs

/-- What a split does to the list: the range that is cut is followed by its second part. -/
theorem Wf.split_eq :
    ∃ front r rest, t.shards = front ++ r :: rest ∧ r.shard_id = shard_id
      ∧ r.start_key < split_key ∧ r.Contains split_key
      ∧ (t.split_shard shard_id split_key new_shard_id new_nodes).shards
        = front ++ ⟨shard_id, r.start_key, split_key⟩ :: ⟨new_shard_id, split_key, r.end_key⟩
          :: rest := by
  obtain ⟨⟨r, hr, rfl, hlt, hin⟩, -⟩ := hs
  obtain ⟨front, rest, hsplit⟩ := append_of_mem hr
  have hids := h.ids
  rw [hsplit, map_append, map_cons] at hids
  have hfirst : ∀ a ∈ front, a.shard_id ≠ r.shard_id := by
    intro a ha heq
    exact (nodup_cons.mp (nodup_middle.mp hids)).1
      (mem_append_left _ (mem_map.mpr ⟨a, ha, heq⟩))
  have hidx : t.shards.findIdx? (fun s => s.shard_id == r.shard_id) = some front.length := by
    have hnone : front.findIdx? (fun s => s.shard_id == r.shard_id) = none :=
      findIdx?_eq_none_iff.mpr fun a ha => beq_false_of_ne (hfirst a ha)
    rw [hsplit, findIdx?_append, hnone, findIdx?_cons, if_pos (beq_self_eq_true _),
      Option.map_some, zero_add, Option.none_or]
  have hget : t.shards[front.length]? = some r := by
    rw [hsplit, getElem?_append_right (le_rfl), Nat.sub_self, getElem?_cons_zero]
  -- every range up to the one that is cut starts at or below the split key, all others above it
  have hsorted := h.laid.sorted
  have hlaid := h.laid.pairwise
  rw [hsplit] at hsorted hlaid
  have hlow : ∀ a ∈ front ++ [⟨r.shard_id, r.start_key, split_key⟩],
      decide (a.start_key ≤ split_key) = true := by
    intro a ha
    rcases mem_append.mp ha with ha | ha
    · have har := (pairwise_append.mp hsorted).2.2 a ha r mem_cons_self
      exact decide_eq_true (har.trans hlt).le
    · rw [mem_singleton.mp ha]
      exact decide_eq_true hlt.le
  have hhigh : ∀ b ∈ rest, ¬ decide (b.start_key ≤ split_key) = true := by
    intro b hb hle
    have hrb := rel_of_pairwise_cons (pairwise_append.mp hlaid).2.1 hb
    have hin' := (contains_iff.mp hin).2.trans_le hrb
    exact absurd (of_decide_eq_true hle) (not_le.mpr (WithTop.coe_lt_coe.mp hin'))
  have hrest : rest.takeWhile (fun s => decide (s.start_key ≤ split_key)) = []
      ∧ rest.dropWhile (fun s => decide (s.start_key ≤ split_key)) = rest := by
    cases rest with
    | nil => exact ⟨rfl, rfl⟩
    | cons b rest =>
      have hb := hhigh b mem_cons_self
      exact ⟨takeWhile_cons_of_neg hb, dropWhile_cons_of_neg hb⟩
  refine ⟨front, r, rest, hsplit, rfl, hlt, hin, ?_⟩
  unfold split_shard
  simp only [hidx, hget]
  rw [hsplit, set_append_right _ _ (le_rfl), Nat.sub_self, set_cons_zero,
    insertIdx_partition_point, append_cons front, takeWhile_append_of_pos hlow,
    dropWhile_append_of_pos hlow, hrest.1, hrest.2]
  simp

theorem Wf.split_shard : (t.split_shard shard_id split_key new_shard_id new_nodes).Wf := by
  have hfresh := hs.2
  obtain ⟨front, r, rest, hsplit, rfl, hlt, hin, heq⟩ := h.split_eq hs new_nodes
  have hlaid := h.laid
  have hids := h.ids
  rw [hsplit] at hlaid hids hfresh
  have hcut : (⟨r.shard_id, r.start_key, split_key⟩ : ShardRange).stop = split_key :=
    if_neg (ne_nil_of_lt hlt)
  refine ⟨?_, ?_⟩
  · rw [heq]
    exact hlaid.split rfl hcut rfl hlt (contains_iff.mp hin).2
  · rw [heq]
    rw [map_append, map_cons] at hids
    have hmid : new_shard_id ∉ front.map ShardRange.shard_id ++ r.shard_id ::
      rest.map ShardRange.shard_id := by
      rw [← map_cons, ← map_append]
      intro hmem
      obtain ⟨a, ha, hid⟩ := mem_map.mp hmem
      exact hfresh a ha hid
    rw [map_append, map_cons, map_cons, append_cons]
    refine nodup_middle.mpr (nodup_cons.mpr ⟨?_, ?_⟩) <;> rwa [← append_cons]

/-- **A split moves the upper part of one range.** -/
theorem Wf.route_split (key : ShardKey) :
    (t.split_shard shard_id split_key new_shard_id new_nodes).route key
      = if t.route key = some shard_id ∧ split_key ≤ key then some new_shard_id
        else t.route key := by
  have hwf := h.split_shard hs new_nodes
  obtain ⟨front, r, rest, hsplit, rfl, hlt, hin, heq⟩ := h.split_eq hs new_nodes
  have hr : r ∈ t.shards := by
    rw [hsplit]
    exact mem_append_right _ mem_cons_self
  -- the two parts together are the range that was cut
  have hlow : (⟨r.shard_id, r.start_key, split_key⟩ : ShardRange).Contains key
      ↔ r.Contains key ∧ key < split_key := by
    constructor
    · rintro ⟨hlo, hhi⟩
      have hk := hhi.resolve_left (ne_nil_of_lt hlt)
      exact ⟨⟨hlo, hin.2.imp_right hk.trans⟩, hk⟩
    · rintro ⟨hk, hlt'⟩
      exact ⟨hk.1, .inr hlt'⟩
  have hhigh : (⟨new_shard_id, split_key, r.end_key⟩ : ShardRange).Contains key
      ↔ r.Contains key ∧ split_key ≤ key := by
    constructor
    · rintro ⟨hlo, hhi⟩
      exact ⟨⟨hlt.le.trans hlo, hhi⟩, hlo⟩
    · rintro ⟨hk, hle⟩
      exact ⟨hle, hk.2⟩
  by_cases hc : r.Contains key
  · have hold : t.route key = some r.shard_id := (h.route_iff key _).mpr ⟨r, hr, rfl, hc⟩
    by_cases hle : split_key ≤ key
    · rw [if_pos ⟨hold, hle⟩, hwf.route_iff, heq]
      exact ⟨_, mem_append_right _ (mem_cons_of_mem _ mem_cons_self), rfl, hhigh.mpr ⟨hc, hle⟩⟩
    · rw [if_neg (fun hb => hle hb.2), hold, hwf.route_iff, heq]
      exact ⟨_, mem_append_right _ mem_cons_self, rfl, hlow.mpr ⟨hc, not_le.mp hle⟩⟩
  · have hother : t.route key ≠ some r.shard_id := by
      intro hroute
      obtain ⟨r', hr', hid, hc'⟩ := (h.route_iff key _).mp hroute
      rw [inj_on_of_nodup_map h.ids hr' hr hid] at hc'
      exact hc hc'
    rw [if_neg (fun hb => hother hb.1)]
    refine Option.ext fun s => ?_
    rw [hwf.route_iff, h.route_iff, heq, hsplit]
    simp only [mem_append, mem_cons]
    constructor
    · rintro ⟨r', hr', hid, hc'⟩
      rcases hr' with hr' | rfl | rfl | hr'
      · exact ⟨r', .inl hr', hid, hc'⟩
      · exact absurd (hlow.mp hc').1 hc
      · exact absurd (hhigh.mp hc').1 hc
      · exact ⟨r', .inr (.inr hr'), hid, hc'⟩
    · rintro ⟨r', hr', hid, hc'⟩
      rcases hr' with hr' | rfl | hr'
      · exact ⟨r', .inl hr', hid, hc'⟩
      · exact absurd hc' hc
      · exact ⟨r', .inr (.inr (.inr hr')), hid, hc'⟩

end

theorem step_wf {op : RouterOp} (h : t.Wf) (ha : t.Allowed op) : (t.step op).Wf := by
  cases op with
  | add shard nodes => exact h.add_shard ha
  | split shard_id split_key new_shard_id new_nodes => exact h.split_shard ha _

/-- The router keeps the ranges it was given: none is lost and none appears. -/
theorem step_perm {op : RouterOp} {ranges : List ShardRange} (h : t.Wf) (ha : t.Allowed op)
    (hp : t.shards ~ ranges) : (t.step op).shards ~ op.apply ranges := by
  cases op with
  | add shard nodes =>
    show t.shards.insertIdx _ shard ~ shard :: ranges
    rw [insertIdx_partition_point]
    refine perm_middle.trans (.cons _ ?_)
    rwa [takeWhile_append_dropWhile]
  | split shard_id split_key new_shard_id new_nodes =>
    refine .trans ?_ (hp.flatMap_right _)
    obtain ⟨front, r, rest, hsplit, rfl, -, -, heq⟩ := h.split_eq ha new_nodes
    have hids := h.ids
    rw [hsplit, map_append, map_cons] at hids
    have hr := (nodup_cons.mp (nodup_middle.mp hids)).1
    -- the ranges with other ids stay as they are
    have hkeep : ∀ l : List ShardRange, (∀ a ∈ l, a.shard_id ≠ r.shard_id) →
        l.flatMap (fun a => if a.shard_id = r.shard_id
          then [⟨r.shard_id, a.start_key, split_key⟩, ⟨new_shard_id, split_key, a.end_key⟩]
          else [a]) = l := by
      intro l hl
      rw [flatMap_congr fun a ha => if_neg (hl a ha), flatMap_singleton']
    have hfront := hkeep front fun a ha heq =>
      hr (mem_append_left _ (mem_map.mpr ⟨a, ha, heq⟩))
    have hrest := hkeep rest fun a ha heq =>
      hr (mem_append_right _ (mem_map.mpr ⟨a, ha, heq⟩))
    show (t.split_shard _ _ _ _).shards ~ _
    rw [heq, hsplit, flatMap_append, flatMap_cons, hfront, hrest, if_pos rfl]
    exact .rfl

theorem ranges_perm {ops : List RouterOp} (h : Along step Allowed new ops) :
    (ops.foldl step new).shards ~ ops.foldl RouterOp.apply [] := by
  induction ops using List.reverseRecOn with
  | nil => exact .rfl
  | append_singleton ops op ih =>
    obtain ⟨hops, hop⟩ := Along.append_iff.mp h
    have hwf : (ops.foldl step new).Wf := hops.invariant new_wf fun _ _ hw ha => step_wf hw ha
    rw [foldl_append, foldl_append]
    exact step_perm hwf (Along.cons_iff.mp hop).1 (ih hops)

/-- **Routing is a partition.** In every state that allowed additions and splits lead to, the
router has the ranges that were added, as they were split; a key is routed to the shard whose
range contains it and to none if there is no such range; and a split moves exactly the keys of
the range that are not below the split key to the new shard. -/
theorem route_partition {ops : List RouterOp} (h : Along step Allowed new ops) :
    (ops.foldl step new).shards ~ ops.foldl RouterOp.apply []
      ∧ (∀ key s, (ops.foldl step new).route key = some s ↔
        ∃ r ∈ ops.foldl RouterOp.apply [], r.shard_id = s ∧ r.Contains key)
      ∧ (∀ key, (ops.foldl step new).route key = none ↔
        ∀ r ∈ ops.foldl RouterOp.apply [], ¬ r.Contains key)
      ∧ ∀ shard_id split_key new_shard_id new_nodes,
        (ops.foldl step new).CanSplit shard_id split_key new_shard_id → ∀ key,
        ((ops.foldl step new).split_shard shard_id split_key new_shard_id new_nodes).route key
          = if (ops.foldl step new).route key = some shard_id ∧ split_key ≤ key
            then some new_shard_id else (ops.foldl step new).route key := by
  have hwf : (ops.foldl step new).Wf := h.invariant new_wf fun _ _ hw ha => step_wf hw ha
  have hperm := ranges_perm h
  refine ⟨hperm, fun key s => ?_, fun key => ?_, fun _ _ _ _ hs key => hwf.route_split hs _ key⟩
  · simp only [hwf.route_iff, hperm.mem_iff]
  · simp only [hwf.route_none_iff, hperm.mem_iff]

/-- One shard over everything, split once. -/
theorem route_partition_one_split :
    ((ShardRouter.new.step (.add ⟨1, [0x00], []⟩ [1, 2])).step (.split 1 [0x80] 2 [3, 4])).route [0xFF]
      = some 2 := by
  have h := (@route_partition [.add ⟨1, [0x00], []⟩ [1, 2]] ?_).2.2.2 1 [0x80] 2 [3, 4] ?_ [0xFF]
  · exact h
  · refine Along.cons_iff.mpr ⟨⟨⟨[0x00], by decide⟩, ?_⟩, Along.nil⟩
    exact fun r hr => absurd hr not_mem_nil
  · refine ⟨⟨⟨1, [0x00], []⟩, mem_singleton_self _, rfl, by decide, by decide⟩, ?_⟩
    intro r hr
    rw [mem_singleton.mp hr]
    decide

/-! ## Ranges of keys -/

/-- `find_shards_in_range`: a shard that ends exactly at `low` passes the filter. -/
def find_shards_in_range (t : ShardRouter) (low high : ShardKey) : List ShardId :=
  (t.shards.filter fun s =>
    decide (s.start_key ≤ high) && (s.end_key.isEmpty || decide (s.end_key ≥ low))).map
      ShardRange.shard_id

theorem mem_find_shards_in_range {low high : ShardKey} :
    shard_id ∈ t.find_shards_in_range low high ↔ ∃ r ∈ t.shards, r.shard_id = shard_id
      ∧ r.start_key ≤ high ∧ (r.end_key = [] ∨ low ≤ r.end_key) := by
  simp [find_shards_in_range, and_assoc, and_comm]

/-- A proper range that passes the filter has the larger of its start and `low`, or ends at
`low`. -/
theorem meets_of_filter {low high : ShardKey} (hproper : (r.start_key : WithTop ShardKey) < r.stop)
    (hle : low ≤ high) (hstart : r.start_key ≤ high) (hend : r.end_key = [] ∨ low ≤ r.end_key) :
    (∃ key, r.Contains key ∧ low ≤ key ∧ key ≤ high) ∨ r.stop = low := by
  have hlow : (low : WithTop ShardKey) ≤ r.stop := by
    unfold ShardRange.stop
    split_ifs with hnil
    · exact le_top
    · exact WithTop.coe_le_coe.mpr (hend.resolve_left hnil)
  rcases hlow.lt_or_eq with hlt | heq
  · refine .inl ⟨max r.start_key low, contains_iff.mpr ⟨le_max_left _ _, ?_⟩, le_max_right _ _,
      max_le hstart hle⟩
    rw [WithTop.coe_max]
    exact max_lt hproper hlt
  · exact .inr heq.symm

/-- **A range of keys.** The shard of every key of the range is found, no shard twice, and each
one found has a key of the range or ends where the range starts. -/
theorem find_shards_in_range_complete {ops : List RouterOp} (h : Along step Allowed new ops)
    {low key high : ShardKey} (hlow : low ≤ key) (hhigh : key ≤ high) :
    (∀ s, (ops.foldl step new).route key = some s →
        s ∈ (ops.foldl step new).find_shards_in_range low high)
      ∧ ((ops.foldl step new).find_shards_in_range low high).Nodup
      ∧ ∀ s ∈ (ops.foldl step new).find_shards_in_range low high,
        ∃ r ∈ (ops.foldl step new).shards, r.shard_id = s
          ∧ ((∃ k, r.Contains k ∧ low ≤ k ∧ k ≤ high) ∨ r.stop = low) := by
  have hwf : (ops.foldl step new).Wf := h.invariant new_wf fun _ _ hw ha => step_wf hw ha
  refine ⟨fun s hs => ?_, hwf.ids.sublist (filter_sublist.map _), fun s hs => ?_⟩
  · obtain ⟨r, hr, hid, hstart, hend⟩ := (hwf.route_iff key s).mp hs
    exact mem_find_shards_in_range.mpr
      ⟨r, hr, hid, hstart.trans hhigh, hend.imp_right fun hlt => hlow.trans hlt.le⟩
  · obtain ⟨r, hr, hid, hstart, hend⟩ := mem_find_shards_in_range.mp hs
    exact ⟨r, hr, hid, meets_of_filter (hwf.laid.proper r hr) (hlow.trans hhigh) hstart hend⟩

/-- One shard over everything is found for every range. -/
theorem find_shards_in_range_one :
    1 ∈ (new.step (.add ⟨1, [0x00], []⟩ [1])).find_shards_in_range [0x10] [0x20] := by
  refine (@find_shards_in_range_complete [.add ⟨1, [0x00], []⟩ [1]] ?_ [0x10] [0x18] [0x20]
    (by decide) (by decide)).1 1 (by decide)
  refine Along.cons_iff.mpr ⟨⟨⟨[0x00], by decide⟩, ?_⟩, Along.nil⟩
  exact fun r hr => absurd hr not_mem_nil

end ShardRouter

end Oigrap.Raft

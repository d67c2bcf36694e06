/-
The lock manager: `crates/storage/src/lock.rs`.

`acquire` runs under the mutex except while it sleeps on the condition variable, so an
`acquire` is a first attempt and, for each time it wakes, another one. The state of the
model is the lock table together with the calls that are asleep; an action is the first
attempt of a call, the waking of a sleeping one, or a `release_all`, which marks every
sleeper as notified. A sleeper may also wake without having been notified, as condition
variables allow.

Mutual exclusion holds in every run (`lock_exclusion`). That no sleeper is left on a free
target depends on the run, since a grant needs an empty queue: `no_stuck_free_lock`. The
deadlock check looks at the waits-for graph before the requester is in it;
`detect_deadlock_iff` says what it computes, and the module on deadlocks what follows.
-/
import Mathlib.Logic.Function.Basic
import Oigrap.Lib.Runs
import Oigrap.Lib.Search
import Oigrap.Storage.BTree
import Oigrap.Storage.Wal

namespace Oigrap.Storage

open Function List

inductive LockTarget where
  | Table (table_id : ℕ)
  | Tuple (table_id : ℕ) (tid : TupleId)
  deriving DecidableEq, Repr

inductive LockMode where
  | Shared
  | Exclusive
  deriving DecidableEq, Repr

structure LockRequest where
  xid : Xid
  target : LockTarget
  mode : LockMode
  deriving DecidableEq, Repr

def is_compatible : LockMode → LockMode → Bool
  | .Shared, .Shared => true
  | _, _ => false

structure LockEntry where
  holders : List (Xid × LockMode)
  waiters : List (Xid × LockMode)
  deriving DecidableEq, Repr

namespace LockEntry

def new : LockEntry := ⟨[], []⟩

def all_compatible (self : LockEntry) (mode : LockMode) : Bool :=
  self.holders.all fun h => is_compatible h.2 mode

def already_holds (self : LockEntry) (xid : Xid) (mode : LockMode) : Bool :=
  self.holders.any fun h => h.1 = xid && (h.2 = mode || h.2 = .Exclusive)

/-- `waiters.iter().any(|(wxid, _)| *wxid == xid)`. -/
def is_waiting (self : LockEntry) (xid : Xid) : Bool := self.waiters.any fun w => w.1 = xid

theorem is_waiting_iff {e : LockEntry} {xid : Xid} :
    e.is_waiting xid = true ↔ ∃ m, (xid, m) ∈ e.waiters := by
  simp [is_waiting]

end LockEntry

/-- The hash map of entries. `keys` are its keys in the order in which `values()` visits
them; where there is no entry, `entry` is an empty one. -/
structure LockTable where
  keys : List LockTarget
  entry : LockTarget → LockEntry
  absent : ∀ t, t ∉ keys → entry t = LockEntry.new

namespace LockTable

def empty : LockTable := ⟨[], fun _ => LockEntry.new, fun _ _ => rfl⟩

variable (self : LockTable) (t : LockTarget) (req : LockRequest)

def get : Option LockEntry :=
  if t ∈ self.keys then some (self.entry t) else none

/-- The table with the entry of one target set, and added if it was not there. -/
def set (e : LockEntry) : LockTable where
  keys := if t ∈ self.keys then self.keys else t :: self.keys
  entry := update self.entry t e
  absent := by
    intro u hu
    have hne : u ≠ t := by
      rintro rfl
      split_ifs at hu with h
      · exact hu h
      · simp at hu
    rw [update_of_ne hne]
    apply self.absent
    split_ifs at hu with h
    · exact hu
    · exact fun h' => hu (mem_cons_of_mem _ h')

/-- `map.entry(target).or_insert_with(LockEntry::new)`. -/
def or_insert : LockTable := self.set t (self.entry t)

/-! ## Deadlock detection -/

/-- The holders of the targets that a transaction waits on, itself among them if it is one. -/
def blockers (xid : Xid) : List Xid :=
  self.keys.flatMap fun t =>
    if (self.entry t).is_waiting xid then (self.entry t).holders.map Prod.fst else []

def waiting : List Xid :=
  (self.keys.flatMap fun t => (self.entry t).waiters.map Prod.fst).dedup

/-- An upper bound of the rounds of the loop of `detect_deadlock`. -/
def rounds : ℕ := 1 + (self.waiting.map fun x => (self.blockers x).length).sum

/-- The loop pops transactions from a stack. One that is popped for the first time has the
holders it waits for compared with `waiting_xid` and pushed. -/
def detect_deadlock (waiting_xid : Xid) (locks : LockTable) : Bool :=
  (Search.search locks.blockers (fun x => x ≠ waiting_xid && waiting_xid ∈ locks.blockers x)
    locks.rounds [] [waiting_xid]).getD false

/-! ## One attempt of `acquire` -/

/-- The condition for a grant: no conflict with a holder, and nobody waits. -/
def grantable : Bool :=
  (self.entry req.target).all_compatible req.mode && (self.entry req.target).waiters.isEmpty

def grant : LockTable :=
  let e := self.entry req.target
  self.set req.target { e with holders := e.holders ++ [(req.xid, req.mode)] }

def enqueue : LockTable :=
  let e := self.entry req.target
  if e.is_waiting req.xid then self
  else self.set req.target { e with waiters := e.waiters ++ [(req.xid, req.mode)] }

/-- The body of the loop of `acquire` up to the wait; no result means that the call goes to
sleep. -/
def attempt : LockTable × Option (Except String Unit) :=
  let locks := self.or_insert req.target
  if locks.grantable req then (locks.grant req, some (.ok ()))
  else if detect_deadlock req.xid locks then (locks, some (.error "deadlock"))
  else ((locks.or_insert req.target).enqueue req, none)

/-- What a call does first when it wakes. -/
def leave : LockTable :=
  if req.target ∈ self.keys then
    let e := self.entry req.target
    self.set req.target { e with waiters := e.waiters.filter fun w => w.1 ≠ req.xid }
  else self

/-- An entry without the holds of a transaction. -/
def release_entry (xid : Xid) (e : LockEntry) : LockEntry :=
  { e with holders := e.holders.filter fun h => h.1 ≠ xid }

/-- `release_all` on the table: the holds go, and then the empty entries. -/
def release (xid : Xid) : LockTable where
  keys := self.keys.filter fun t => release_entry xid (self.entry t) ≠ LockEntry.new
  entry t := release_entry xid (self.entry t)
  absent := by
    intro t ht
    by_cases hk : t ∈ self.keys
    · simpa [hk] using ht
    · rw [self.absent t hk]
      rfl

end LockTable

/-! ## The manager with its callers -/

/-- A call of `acquire` that is asleep. -/
structure Sleeper where
  req : LockRequest
  notified : Bool
  deriving DecidableEq, Repr

structure LockManager where
  locks : LockTable
  asleep : List Sleeper

namespace LockManager

def new : LockManager := ⟨LockTable.empty, []⟩

inductive Action where
  | acquire (req : LockRequest)
  | wake (k : ℕ)
  | release_all (xid : Xid)
  deriving DecidableEq, Repr

variable (self : LockManager)

/-- The attempt an action makes, if it makes one: a first attempt unless the lock is held
already, or another one after waking. -/
def attempts : Action → Option (LockTable × LockRequest)
  | .acquire req =>
    if (self.locks.get req.target).any fun e => e.already_holds req.xid req.mode then none
    else some (self.locks, req)
  | .wake k => self.asleep[k]?.map fun c => (self.locks.leave c.req, c.req)
  | .release_all _ => none

/-- The other calls that are asleep. -/
def others : Action → List Sleeper
  | .acquire _ => self.asleep
  | .wake k => self.asleep.eraseIdx k
  | .release_all _ => self.asleep

/-- What an attempt leaves behind. -/
def conclude (others : List Sleeper) (req : LockRequest)
    (r : LockTable × Option (Except String Unit)) : LockManager :=
  ⟨r.1, if r.2.isNone then others ++ [⟨req, false⟩] else others⟩

def release_all (xid : Xid) : LockManager :=
  ⟨self.locks.release xid, self.asleep.map fun c => { c with notified := true }⟩

def step : Action → LockManager
  | .release_all xid => self.release_all xid
  | a =>
    match self.attempts a with
    | none => self
    | some (locks, req) => conclude (self.others a) req (locks.attempt req)

/-- The state after a run from an empty manager. -/
def run (as : List Action) : LockManager := as.foldl step new

end LockManager

/-! ## The waits-for graph -/

namespace LockTable

variable {l l' : LockTable} {req : LockRequest}

theorem entry_or_insert (l : LockTable) (t : LockTarget) : (l.or_insert t).entry = l.entry :=
  update_eq_self t l.entry

/-- A transaction waits for each other holder of a target in whose queue it is. -/
def Waits (l : LockTable) (a b : Xid) : Prop :=
  a ≠ b ∧ ∃ t, (l.entry t).is_waiting a = true ∧ ∃ m, (b, m) ∈ (l.entry t).holders

/-- The transaction is on a cycle of the waits-for graph. -/
def OnCycle (l : LockTable) (x : Xid) : Prop := Relation.TransGen l.Waits x x

theorem mem_blockers {a b : Xid} : b ∈ l.blockers a
      ↔ ∃ t, (l.entry t).is_waiting a = true ∧ ∃ m, (b, m) ∈ (l.entry t).holders := by
  simp only [blockers, mem_flatMap]
  constructor
  · rintro ⟨t, -, ht⟩
    split_ifs at ht with hw
    · obtain ⟨⟨b', m⟩, hb, rfl⟩ := mem_map.mp ht
      exact ⟨t, hw, m, hb⟩
    · simp at ht
  · rintro ⟨t, hw, m, hb⟩
    have hk : t ∈ l.keys := by
      by_contra hk
      rw [l.absent t hk] at hb
      simp [LockEntry.new] at hb
    exact ⟨t, hk, by rw [if_pos hw]; exact mem_map.mpr ⟨_, hb, rfl⟩⟩

theorem waits_iff {a b : Xid} : l.Waits a b ↔ a ≠ b ∧ b ∈ l.blockers a := by
  rw [mem_blockers, Waits]

theorem blockers_of_not_waiting {a : Xid} (h : a ∉ l.waiting) : l.blockers a = [] := by
  rw [eq_nil_iff_forall_not_mem]
  intro b hb
  rw [blockers, mem_flatMap] at hb
  obtain ⟨t, hk, hb⟩ := hb
  split_ifs at hb with hw
  · obtain ⟨m, hm⟩ := LockEntry.is_waiting_iff.mp hw
    exact h (mem_dedup.mpr (mem_flatMap.mpr ⟨t, hk, mem_map.mpr ⟨_, hm, rfl⟩⟩))
  · simp at hb

/-- Self-loops do not matter for what can be reached. -/
theorem reaches_iff {a b : Xid} :
    Search.Reaches l.blockers a b ↔ Relation.ReflTransGen l.Waits a b := by
  constructor
  · intro h
    induction h with
    | refl => exact .refl
    | @tail c d _ hstep ih =>
      by_cases hcd : c = d
      · exact hcd ▸ ih
      · exact ih.tail (waits_iff.mpr ⟨hcd, hstep⟩)
  · intro h
    induction h with
    | refl => exact .refl
    | tail _ hstep ih => exact ih.tail (waits_iff.mp hstep).2

/-- The search finds exactly the cycles that are there before the requester is enqueued. -/
theorem detect_deadlock_iff (x : Xid) (l : LockTable) :
    detect_deadlock x l = true ↔ l.OnCycle x := by
  have hgoal {y : Xid} : (y ≠ x && x ∈ l.blockers y) = true ↔ l.Waits y x := by
    rw [waits_iff]
    simp
  have hcycle : l.OnCycle x ↔ ∃ y, Search.Reaches l.blockers x y
      ∧ (y ≠ x && x ∈ l.blockers y) = true := by
    simp only [reaches_iff, hgoal, OnCycle, Relation.TransGen.tail'_iff]
  have hN : ∀ v ∉ l.waiting.toFinset, l.blockers v = [] :=
    fun v hv => blockers_of_not_waiting fun h => hv (mem_toFinset.mpr h)
  have hrounds : 1 + ∑ v ∈ l.waiting.toFinset, (l.blockers v).length ≤ l.rounds := by
    have hnodup : l.waiting.Nodup := nodup_dedup _
    rw [sum_toFinset _ hnodup, rounds]
  rw [hcycle, detect_deadlock]
  rcases Search.search_from (r := x) hN hrounds with ⟨hs, hex⟩ | ⟨hs, hno⟩
  · rw [hs]
    exact iff_of_true rfl hex
  · rw [hs]
    refine iff_of_false (by simp) ?_
    rintro ⟨y, hy, hg⟩
    rw [hno y hy] at hg
    exact absurd hg (by simp)

/-- A transaction that is in no queue is not found to be in a deadlock. -/
theorem not_onCycle_of_not_waiting {x : Xid} (h : ∀ t, (l.entry t).is_waiting x = false) :
    ¬ l.OnCycle x := by
  intro hc
  obtain ⟨y, ⟨-, t, ht, -⟩, -⟩ := Relation.TransGen.head'_iff.mp hc
  rw [h t] at ht
  exact absurd ht (by simp)

/-! ## What an attempt does -/

/-- The requester would be on a cycle if it were enqueued. -/
def Closes (l : LockTable) (req : LockRequest) : Prop := (l.enqueue req).OnCycle req.xid

section

variable (h : l'.entry = l.entry)
include h

theorem onCycle_congr {x : Xid} : l'.OnCycle x ↔ l.OnCycle x := by
  have : l'.Waits = l.Waits := by
    funext a b
    simp only [Waits, h]
  rw [OnCycle, OnCycle, this]

theorem grantable_congr : l'.grantable req = l.grantable req := by
  simp only [grantable, h]

theorem entry_grant_congr : (l'.grant req).entry = (l.grant req).entry := by
  simp only [grant, set, h]

theorem entry_enqueue_congr : (l'.enqueue req).entry = (l.enqueue req).entry := by
  simp only [enqueue, h]
  split_ifs
  · exact h
  · simp only [set, h]

end

/-- Only the requester is new in a queue, and only in that of its target. -/
theorem mem_waiters_enqueue {t : LockTarget} {w : Xid × LockMode}
    (h : w ∈ ((l.enqueue req).entry t).waiters) :
    w ∈ (l.entry t).waiters ∨ (t = req.target ∧ w.1 = req.xid) := by
  rw [enqueue] at h
  split_ifs at h
  · exact .inl h
  · by_cases ht : t = req.target
    · subst ht
      simp only [set, update_self, mem_append, mem_singleton] at h
      exact h.imp id fun hw => ⟨rfl, by rw [hw]⟩
    · simp only [set, update_of_ne ht] at h
      exact .inl h

variable (l req)

theorem attempt_cases :
    (l.grantable req = true ∧ (l.attempt req).2 = some (.ok ())
        ∧ (l.attempt req).1.entry = (l.grant req).entry)
      ∨ (l.grantable req = false ∧ l.OnCycle req.xid
        ∧ (l.attempt req).2 = some (.error "deadlock") ∧ (l.attempt req).1.entry = l.entry)
      ∨ (l.grantable req = false ∧ ¬ l.OnCycle req.xid ∧ (l.attempt req).2 = none
        ∧ (l.attempt req).1.entry = (l.enqueue req).entry) := by
  have he := entry_or_insert l req.target
  rw [← grantable_congr he, ← onCycle_congr he, ← detect_deadlock_iff]
  by_cases hg : (l.or_insert req.target).grantable req = true
  · refine .inl ⟨hg, ?_⟩
    simp only [attempt, hg, if_true]
    exact ⟨trivial, entry_grant_congr he⟩
  · by_cases hd : detect_deadlock req.xid (l.or_insert req.target) = true
    · refine .inr (.inl ⟨by simpa using hg, hd, ?_⟩)
      simp only [attempt, hg, hd, if_true]
      exact ⟨rfl, he⟩
    · refine .inr (.inr ⟨by simpa using hg, hd, ?_⟩)
      simp only [attempt, hg, hd]
      exact ⟨rfl, entry_enqueue_congr ((entry_or_insert _ _).trans he)⟩

theorem attempt_eq_deadlock :
    (l.attempt req).2 = some (.error "deadlock") ↔ l.grantable req = false ∧ l.OnCycle req.xid := by
  rcases attempt_cases l req with ⟨hg, h, -⟩ | ⟨hg, hc, h, -⟩ | ⟨hg, hc, h, -⟩
  · simp [h, hg]
  · simp [h, hg, hc]
  · simp [h, hg, hc]

variable (t : LockTarget)

theorem holders_enqueue :
    ((l.enqueue req).entry t).holders = (l.entry t).holders := by
  rw [enqueue]
  split_ifs
  · rfl
  · by_cases ht : t = req.target
    · subst ht
      simp [set]
    · simp [set, update_of_ne ht]

theorem holders_leave :
    ((l.leave req).entry t).holders = (l.entry t).holders := by
  rw [leave]
  split_ifs
  · by_cases ht : t = req.target
    · subst ht
      simp [set]
    · simp [set, update_of_ne ht]
  · rfl

theorem holders_grant :
    ((l.grant req).entry t).holders
      = (l.entry t).holders ++ if t = req.target then [(req.xid, req.mode)] else [] := by
  by_cases ht : t = req.target
  · subst ht
    simp [grant, set]
  · simp [grant, set, ht]

theorem waiters_grant :
    ((l.grant req).entry t).waiters = (l.entry t).waiters := by
  by_cases ht : t = req.target
  · subst ht
    simp [grant, set]
  · simp [grant, set, update_of_ne ht]

theorem waiters_leave :
    ((l.leave req).entry t).waiters
      = if t = req.target then (l.entry t).waiters.filter (fun w => w.1 ≠ req.xid)
        else (l.entry t).waiters := by
  rw [leave]
  by_cases ht : t = req.target
  · subst ht
    rw [if_pos rfl]
    split_ifs with hk
    · simp [set]
    · rw [l.absent _ hk]
      rfl
  · split_ifs
    · simp [set, update_of_ne ht]
    · rfl

theorem waiters_subset_enqueue :
    (l.entry t).waiters ⊆ ((l.enqueue req).entry t).waiters := by
  rw [enqueue]
  split_ifs
  · exact List.Subset.refl _
  · by_cases ht : t = req.target
    · subst ht
      simp [set]
    · simp [set, update_of_ne ht]

theorem is_waiting_enqueue :
    ((l.enqueue req).entry req.target).is_waiting req.xid = true := by
  rw [enqueue]
  split_ifs with h
  · exact h
  · simp [set, LockEntry.is_waiting]

end LockTable

namespace LockManager

open LockTable

variable {s : LockManager} {a : Action} {l : LockTable} {req : LockRequest}

/-- An action is a `release_all`, does nothing, or makes an attempt. -/
theorem step_cases (s : LockManager) (a : Action) :
    (∃ xid, a = .release_all xid ∧ s.step a = s.release_all xid) ∨ s.step a = s
      ∨ ∃ l req, s.attempts a = some (l, req)
          ∧ s.step a = conclude (s.others a) req (l.attempt req) := by
  have attempting (h : s.step a = match s.attempts a with
      | none => s
      | some (locks, req) => conclude (s.others a) req (locks.attempt req)) :
      s.step a = s ∨ ∃ l req, s.attempts a = some (l, req)
          ∧ s.step a = conclude (s.others a) req (l.attempt req) := by
    cases ha : s.attempts a with
    | none => rw [ha] at h; exact .inl h
    | some r => rw [ha] at h; exact .inr ⟨r.1, r.2, rfl, h⟩
  cases a with
  | release_all xid => exact .inl ⟨xid, rfl, rfl⟩
  | acquire req | wake k => exact .inr (attempting rfl)

/-- The attempt is a first one, or that of a call that wakes and has left the queue. -/
theorem attempts_cases (h : s.attempts a = some (l, req)) :
    (a = .acquire req ∧ l = s.locks ∧ s.others a = s.asleep)
      ∨ ∃ k c, a = .wake k ∧ s.asleep[k]? = some c ∧ c.req = req ∧ l = s.locks.leave req
          ∧ s.others a = s.asleep.eraseIdx k := by
  cases a with
  | release_all xid => simp [attempts] at h
  | acquire req' =>
    simp only [attempts] at h
    split_ifs at h
    cases h
    exact .inl ⟨rfl, rfl, rfl⟩
  | wake k =>
    simp only [attempts, Option.map_eq_some_iff] at h
    obtain ⟨c, hc, heq⟩ := h
    cases heq
    exact .inr ⟨k, c, rfl, hc, rfl, rfl, rfl⟩

theorem holders_of_attempts (h : s.attempts a = some (l, req)) (t : LockTarget) :
    (l.entry t).holders = (s.locks.entry t).holders := by
  rcases attempts_cases h with ⟨-, rfl, -⟩ | ⟨k, c, -, -, -, rfl, -⟩
  · rfl
  · exact holders_leave _ _ t

/-! ## Exclusion -/

/-- An exclusive hold of a target is its only hold. -/
def Excludes (s : LockManager) : Prop :=
  ∀ t x, (x, LockMode.Exclusive) ∈ (s.locks.entry t).holders →
    (s.locks.entry t).holders = [(x, LockMode.Exclusive)]

/-- A grant next to holders is one of a shared lock next to shared locks. -/
theorem shared_of_compatible {e : LockEntry} {mode : LockMode}
    (h : e.all_compatible mode = true) {p : Xid × LockMode} (hp : p ∈ e.holders) :
    p.2 = .Shared ∧ mode = .Shared := by
  have := all_eq_true.mp h p hp
  revert this
  cases p.2 <;> cases mode <;> simp [is_compatible]

theorem Excludes.step (h : s.Excludes) (a : Action) : (s.step a).Excludes := by
  rcases step_cases s a with ⟨xid, -, heq⟩ | heq | ⟨l, req, ha, heq⟩
  · rw [heq]
    intro t x hx
    obtain ⟨hx, hne⟩ := mem_filter.mp hx
    change ((s.locks.entry t).holders).filter _ = _
    rw [h t x hx]
    simpa using hne
  · rwa [heq]
  · rw [heq]
    intro t x hx
    have hl := holders_of_attempts ha t
    rcases attempt_cases l req with ⟨hg, -, he⟩ | ⟨-, -, -, he⟩ | ⟨-, -, -, he⟩
    · simp only [conclude, he, holders_grant] at hx ⊢
      by_cases ht : t = req.target
      · have hcomp : (l.entry t).all_compatible req.mode = true := by
          rw [grantable, Bool.and_eq_true] at hg
          rw [ht]
          exact hg.1
        rw [if_pos ht] at hx ⊢
        rcases mem_append.mp hx with hx | hx
        · exact absurd (shared_of_compatible hcomp hx).1 (by simp)
        · obtain ⟨rfl, hmode⟩ := Prod.mk.inj (mem_singleton.mp hx)
          have hnil : (l.entry t).holders = [] := by
            rw [eq_nil_iff_forall_not_mem]
            intro p hp
            exact absurd (hmode.trans (shared_of_compatible hcomp hp).2) (by simp)
          rw [hnil, hmode, nil_append]
      · simp only [if_neg ht, append_nil, hl] at hx ⊢
        exact h t x hx
    · simp only [conclude, he, hl] at hx ⊢
      exact h t x hx
    · simp only [conclude, he, holders_enqueue, hl] at hx ⊢
      exact h t x hx

/-- In every run an exclusive lock is held alone, and `release_all` leaves no hold behind. -/
theorem lock_exclusion (as : List Action) :
    (∀ t x, (x, LockMode.Exclusive) ∈ ((run as).locks.entry t).holders →
        ((run as).locks.entry t).holders = [(x, LockMode.Exclusive)]) ∧ ∀ xid t mode,
          (xid, mode) ∉ (((run as).step (.release_all xid)).locks.entry t).holders := by
  have hall : Along step (fun _ _ => True) new as := fun _ _ _ => trivial
  have hinit : new.Excludes := by
    intro t x hx
    simp [new, LockTable.empty, LockEntry.new] at hx
  refine ⟨hall.invariant hinit fun s a h _ => h.step a, ?_⟩
  intro xid t mode h
  exact absurd (mem_filter.mp h).2 (by simp)

/-! ## Holds -/

/-- An attempt adds a hold or none, and takes none away. -/
theorem holders_attempt (h : s.attempts a = some (l, req)) (t : LockTarget) :
    (s.locks.entry t).holders <+: ((l.attempt req).1.entry t).holders := by
  rw [← holders_of_attempts h t]
  rcases attempt_cases l req with ⟨-, -, he⟩ | ⟨-, -, -, he⟩ | ⟨-, -, -, he⟩
  · rw [he, holders_grant]
    exact prefix_append _ _
  · rw [he]
  · rw [he, holders_enqueue]

theorem held_step {xid : Xid} {mode : LockMode} {t : LockTarget}
    (h : (xid, mode) ∈ (s.locks.entry t).holders) (ha : a ≠ .release_all xid) :
    (xid, mode) ∈ ((s.step a).locks.entry t).holders := by
  rcases step_cases s a with ⟨y, rfl, heq⟩ | heq | ⟨l, req, hatt, heq⟩
  · rw [heq]
    have hne : xid ≠ y := fun hxy => ha (hxy ▸ rfl)
    exact mem_filter.mpr ⟨h, decide_eq_true hne⟩
  · rwa [heq]
  · rw [heq]
    exact (holders_attempt hatt t).subset h

/-- **Locks are kept until they are released**, whatever the others do, and as long as one is
kept nobody else holds the target in a conflicting mode. -/
theorem held_until_release (as bs : List Action) (xid : Xid) (mode : LockMode) (t : LockTarget)
    (h : (xid, mode) ∈ ((run as).locks.entry t).holders) (hno : .release_all xid ∉ bs) :
    (xid, mode) ∈ ((run (as ++ bs)).locks.entry t).holders
      ∧ ∀ p ∈ ((run (as ++ bs)).locks.entry t).holders, p.1 ≠ xid →
        p.2 = .Shared ∧ mode = .Shared := by
  have hb : Along step (fun _ a => a ≠ .release_all xid) (run as) bs :=
    fun pre a hpre heq => hno (hpre.subset (heq ▸ mem_append_right _ mem_cons_self))
  have hkept : (xid, mode) ∈ ((run (as ++ bs)).locks.entry t).holders := by
    rw [run, foldl_append]
    exact hb.invariant (P := fun s => (xid, mode) ∈ (s.locks.entry t).holders) h
      fun s a hs ha => held_step hs ha
  have hall : Along step (fun _ _ => True) new (as ++ bs) := fun _ _ _ => trivial
  have hinit : new.Excludes := by
    intro t x hx
    simp [new, LockTable.empty, LockEntry.new] at hx
  have hex : (run (as ++ bs)).Excludes := hall.invariant hinit fun s a h _ => h.step a
  refine ⟨hkept, ?_⟩
  rintro ⟨y, m⟩ hp hne
  cases m with
  | Exclusive =>
    rw [hex t y hp] at hkept
    cases mem_singleton.mp hkept
    exact absurd rfl hne
  | Shared =>
    cases mode with
    | Exclusive =>
      rw [hex t xid hkept] at hp
      cases mem_singleton.mp hp
    | Shared => exact ⟨rfl, rfl⟩

/-- Transaction 1 keeps its lock while the others ask for it. -/
theorem held_until_release_two :
    (1, .Exclusive) ∈ ((run ([.acquire ⟨1, .Table 5, .Exclusive⟩] ++
      [.acquire ⟨2, .Table 5, .Shared⟩, .release_all 2])).locks.entry (.Table 5)).holders :=
  (held_until_release _ _ 1 .Exclusive (.Table 5) (by decide) (by decide)).1

/-! ## Sleepers on free targets -/

/-- Nobody is about to run: every call that is asleep has to be notified first. -/
def Quiescent (s : LockManager) : Prop := ∀ c ∈ s.asleep, c.notified = false

/-- Each non-empty queue has a holder that is not the transaction at its head. -/
def NoneStuck (s : LockManager) : Prop :=
  ∀ t w ws, (s.locks.entry t).waiters = w :: ws → ∃ h ∈ (s.locks.entry t).holders, h.1 ≠ w.1

/-- A request that is neither granted nor refused is made while another transaction holds the
target. -/
def WaitsForOther (s : LockManager) (a : Action) : Prop :=
  ∀ l req, s.attempts a = some (l, req) → l.grantable req = false →
    detect_deadlock req.xid l = false → ∃ h ∈ (l.entry req.target).holders, h.1 ≠ req.xid

/-- Whoever is in a queue is asleep, and whoever sleeps without having been notified waits
for another transaction. -/
structure Queued (s : LockManager) : Prop where
  asleep : ∀ t, ∀ w ∈ (s.locks.entry t).waiters, ∃ c ∈ s.asleep, c.req.xid = w.1 ∧ c.req.target = t
  blocked : ∀ c ∈ s.asleep, c.notified = false →
    ∃ h ∈ (s.locks.entry c.req.target).holders, h.1 ≠ c.req.xid

/-- Who is in a queue when the attempt is made is one of the other sleepers. -/
theorem Queued.others (h : s.Queued) (ha : s.attempts a = some (l, req)) {t : LockTarget}
    {w : Xid × LockMode} (hw : w ∈ (l.entry t).waiters) :
    ∃ c ∈ s.others a, c.req.xid = w.1 ∧ c.req.target = t := by
  rcases attempts_cases ha with ⟨-, rfl, ho⟩ | ⟨k, c, -, hk, rfl, rfl, ho⟩
  · rw [ho]
    exact h.asleep t w hw
  · rw [waiters_leave] at hw
    have hsub : w ∈ (s.locks.entry t).waiters := by
      split_ifs at hw
      · exact (mem_filter.mp hw).1
      · exact hw
    obtain ⟨c', hc', hx, ht⟩ := h.asleep t w hsub
    refine ⟨c', ?_, hx, ht⟩
    -- the one that woke has left the queue, so it is another one
    have hne : c' ≠ c := by
      rintro rfl
      rw [if_pos ht.symm] at hw
      exact absurd hx.symm (by simpa using (mem_filter.mp hw).2)
    rw [ho, mem_eraseIdx_iff_getElem?]
    obtain ⟨i, hi⟩ := mem_iff_getElem?.mp hc'
    refine ⟨i, ?_, hi⟩
    rintro rfl
    exact hne (Option.some.inj (hi.symm.trans hk))

theorem mem_asleep_of_others {c : Sleeper} (h : c ∈ s.others a) : c ∈ s.asleep := by
  cases a with
  | wake k => exact mem_of_mem_eraseIdx h
  | _ => exact h

theorem Queued.step (h : s.Queued) (hok : s.WaitsForOther a) : (s.step a).Queued := by
  rcases step_cases s a with ⟨xid, -, heq⟩ | heq | ⟨l, req, ha, heq⟩
  · rw [heq]
    refine ⟨fun t w hw => ?_, fun c hc hn => ?_⟩
    · obtain ⟨c, hc, hx⟩ := h.asleep t w hw
      exact ⟨_, mem_map_of_mem hc, hx⟩
    · -- a release notifies every sleeper
      obtain ⟨c', -, rfl⟩ := mem_map.mp hc
      simp at hn
  · rwa [heq]
  · rw [heq]
    have old {c : Sleeper} (hc : c ∈ s.others a) (hn : c.notified = false) :
        ∃ p ∈ (l.entry c.req.target).holders, p.1 ≠ c.req.xid := by
      rw [holders_of_attempts ha]
      exact h.blocked c (mem_asleep_of_others hc) hn
    rcases attempt_cases l req with ⟨-, hr, he⟩ | ⟨-, -, hr, he⟩ | ⟨hg, hno, hr, he⟩
    · simp only [conclude, hr]
      refine ⟨fun t w hw => ?_, fun c hc hn => ?_⟩
      · rw [he, waiters_grant] at hw
        exact h.others ha hw
      · obtain ⟨p, hp, hne⟩ := old hc hn
        rw [he, holders_grant]
        exact ⟨p, mem_append_left _ hp, hne⟩
    · simp only [conclude, hr]
      refine ⟨fun t w hw => ?_, fun c hc hn => ?_⟩
      · rw [he] at hw
        exact h.others ha hw
      · rw [he]
        exact old hc hn
    · simp only [conclude, hr, Option.isNone_none, if_true]
      refine ⟨fun t w hw => ?_, fun c hc hn => ?_⟩
      · rw [he] at hw
        rcases mem_waiters_enqueue hw with hw | ⟨rfl, hx⟩
        · obtain ⟨c, hc, hx⟩ := h.others ha hw
          exact ⟨c, mem_append_left _ hc, hx⟩
        · exact ⟨⟨req, false⟩, by simp, hx.symm, rfl⟩
      · rw [he, holders_enqueue]
        rcases mem_append.mp hc with hc | hc
        · exact old hc hn
        · rw [mem_singleton.mp hc]
          rw [← detect_deadlock_iff, Bool.not_eq_true] at hno
          exact hok l req ha hg hno

theorem Queued.none_stuck (h : s.Queued) (hq : s.Quiescent) : s.NoneStuck := by
  intro t w ws hw
  obtain ⟨c, hc, hx, rfl⟩ := h.asleep t w (by simp [hw])
  rw [← hx]
  exact h.blocked c hc (hq c hc)

/-- When requests have to wait only while another transaction holds the target, no state of
the run in which everybody sleeps leaves a queue without such a holder. -/
theorem no_stuck_free_lock (as : List Action) (h : Along step WaitsForOther new as) :
    ∀ pre, pre <+: as → (run pre).Quiescent → (run pre).NoneStuck := by
  intro pre hpre hq
  have hinit : new.Queued := by
    refine ⟨fun t w hw => ?_, fun c hc => ?_⟩
    · simp [new, LockTable.empty, LockEntry.new] at hw
    · simp [new] at hc
  exact ((h.initial hpre).invariant hinit fun s a hs hok => hs.step hok).none_stuck hq

instance (s : LockManager) (a : Action) : Decidable (s.WaitsForOther a) :=
  decidable_of_iff (∀ r ∈ s.attempts a, r.1.grantable r.2 = false →
      detect_deadlock r.2.xid r.1 = false → ∃ h ∈ (r.1.entry r.2.target).holders, h.1 ≠ r.2.xid)
    ⟨fun h l req ha => h (l, req) ha, fun h r ha => h r.1 r.2 ha⟩

theorem no_stuck_free_lock_two :
    let calls : List Action := [.acquire ⟨1, .Table 5, .Exclusive⟩,
      .acquire ⟨2, .Table 5, .Shared⟩, .release_all 1, .wake 0]
    Along step WaitsForOther new calls
      ∧ ∀ pre, pre <+: calls → (run pre).Quiescent → (run pre).NoneStuck := by
  intro calls
  have h : Along step WaitsForOther new calls := by decide +kernel
  exact ⟨h, no_stuck_free_lock _ h⟩

/-- The sole holder of a shared lock asks for the exclusive one and waits for itself; and
two waiters that are woken each find the other one in the queue of a target nobody holds. -/
theorem stuck_on_free_lock :
    let upgraded := run [.acquire ⟨1, .Table 5, .Shared⟩, .acquire ⟨1, .Table 5, .Exclusive⟩]
    let woken := run [.acquire ⟨1, .Table 5, .Exclusive⟩, .acquire ⟨2, .Table 5, .Exclusive⟩,
      .acquire ⟨3, .Table 5, .Exclusive⟩, .release_all 1, .wake 0, .wake 0]
    (upgraded.Quiescent ∧ ¬ upgraded.NoneStuck) ∧ woken.Quiescent ∧ ¬ woken.NoneStuck := by
  intro upgraded woken
  refine ⟨⟨?_, fun h => ?_⟩, ?_, fun h => ?_⟩
  · unfold Quiescent
    decide +kernel
  · obtain ⟨p, hp, hne⟩ := h (.Table 5) (1, .Exclusive) [] (by decide +kernel)
    have hall : ∀ p ∈ (upgraded.locks.entry (.Table 5)).holders, p.1 = 1 := by decide +kernel
    exact hne (hall p hp)
  · unfold Quiescent
    decide +kernel
  · obtain ⟨p, hp, -⟩ := h (.Table 5) (2, .Exclusive) [(3, .Exclusive)] (by decide +kernel)
    have hnil : (woken.locks.entry (.Table 5)).holders = [] := by decide +kernel
    rw [hnil] at hp
    simp at hp

end LockManager

end Oigrap.Storage

/-
`crates/raft/src/state_machine.rs`: the key-value state machine and its snapshots.

A snapshot is text, one line `key=value` per entry. Commands are arbitrary text, so keys and
values may contain line breaks, and `str::lines` drops a carriage return before a line
break. Reading a snapshot back therefore loses information for some states; the result
says for which.

Text is a list of characters. The hash map is a list of entries with distinct keys, and two
states are the same when they answer every key alike. Snapshots list the entries by key;
that byte order and character order agree does not matter to what is proved here.
-/
import Mathlib
import Oigrap.Lib.Utf8
import Oigrap.Raft.Node

namespace Oigrap.Raft

open List

/-- The text before and after the first `c`. -/
def split_once (c : Char) : Text → Option (Text × Text)
  | [] => none
  | d :: s => if d = c then some ([], s) else (split_once c s).map fun p => (d :: p.1, p.2)

/-- `strip_suffix('\r')`, or the text itself. -/
def strip_cr (s : Text) : Text := if s.getLast? = some '\r' then s.dropLast else s

/-- `str::lines`, with `line` what has been read of the current line. A last line without a
line break keeps its carriage return. -/
def lines (line : Text) : Text → List Text
  | [] => if line = [] then [] else [line]
  | c :: s => if c = '\n' then strip_cr line :: lines [] s else lines (line ++ [c]) s

structure KvStateMachine where
  data : AList (fun _ : Text => Text)

namespace KvStateMachine

def new : KvStateMachine := ⟨∅⟩

def get (m : KvStateMachine) (key : Text) : Option Text := m.data.lookup key

def apply (m : KvStateMachine) (entry : LogEntry) : KvStateMachine :=
  match from_utf8 entry.data with
  | none => m
  | some cmd =>
    match "SET ".toList.isPrefixOf? cmd with
    | some rest =>
      match split_once '=' rest with
      | some (key, val) => ⟨m.data.insert key val⟩
      | none => m
    | none =>
      match "DEL ".toList.isPrefixOf? cmd with
      | some key => ⟨m.data.erase key⟩
      | none => m

/-- The line of an entry, without its line break. -/
def line_of (e : (_ : Text) × Text) : Text := e.1 ++ '=' :: e.2

def snapshot_text (m : KvStateMachine) : Text :=
  (m.data.entries.mergeSort fun a b => decide (a.1 ≤ b.1)).flatMap fun e => line_of e ++ ['\n']

def snapshot (m : KvStateMachine) : List UInt8 := into_bytes m.snapshot_text

def restore_line (data : AList (fun _ : Text => Text)) (line : Text) :
    AList (fun _ : Text => Text) :=
  match split_once '=' line with
  | some (key, val) => data.insert key val
  | none => data

/-- `restore` clears the map first, whatever it held. -/
def restore (_ : KvStateMachine) (snapshot : List UInt8) : KvStateMachine :=
  match from_utf8 snapshot with
  | none => ⟨∅⟩
  | some s => ⟨(lines [] s).foldl restore_line ∅⟩

/-! ## Lines -/

theorem split_once_append {c : Char} {s : Text} (h : c ∉ s) (t : Text) :
    split_once c (s ++ c :: t) = some (s, t) := by
  induction s with
  | nil => rw [nil_append, split_once, if_pos rfl]
  | cons d s ih =>
    obtain ⟨hd, hs⟩ := not_or.mp (fun hor => h (mem_cons.mpr hor))
    rw [cons_append, split_once, if_neg (Ne.symm hd), ih hs]
    rfl

theorem split_once_some {c : Char} {s k v : Text} (h : split_once c s = some (k, v)) :
    c ∉ k ∧ s = k ++ c :: v := by
  induction s generalizing k with
  | nil => cases h
  | cons d s ih =>
    unfold split_once at h
    by_cases hd : d = c
    · rw [if_pos hd] at h
      cases h
      exact ⟨not_mem_nil, by rw [hd]; rfl⟩
    · rw [if_neg hd] at h
      obtain ⟨⟨k', v'⟩, hs, heq⟩ := Option.map_eq_some_iff.mp h
      cases heq
      obtain ⟨hk, rfl⟩ := ih hs
      exact ⟨not_mem_cons_of_ne_of_not_mem (Ne.symm hd) hk, rfl⟩

theorem lines_append {t : Text} (h : '\n' ∉ t) (line s : Text) :
    lines line (t ++ '\n' :: s) = strip_cr (line ++ t) :: lines [] s := by
  induction t generalizing line with
  | nil => rw [nil_append, lines, if_pos rfl, append_nil]
  | cons c t ih =>
    obtain ⟨hc, ht⟩ := not_or.mp (fun hor => h (mem_cons.mpr hor))
    rw [cons_append, lines, if_neg (Ne.symm hc), ih ht, append_assoc]
    rfl

theorem mem_strip_cr {c : Char} {s : Text} (h : c ∈ strip_cr s) : c ∈ s := by
  unfold strip_cr at h
  split at h
  · exact dropLast_subset s h
  · exact h

theorem no_break_of_mem_lines {line s l : Text} (hline : '\n' ∉ line) (h : l ∈ lines line s) :
    '\n' ∉ l := by
  induction s generalizing line with
  | nil =>
    unfold lines at h
    split at h
    · cases h
    · rwa [mem_singleton.mp h]
  | cons c s ih =>
    unfold lines at h
    by_cases hc : c = '\n'
    · rw [if_pos hc] at h
      rcases mem_cons.mp h with rfl | h
      · exact fun hin => hline (mem_strip_cr hin)
      · exact ih not_mem_nil h
    · rw [if_neg hc] at h
      refine ih ?_ h
      intro hin
      rcases mem_append.mp hin with hin | hin
      · exact hline hin
      · exact hc (mem_singleton.mp hin).symm

/-- Only the value of a line can lose a carriage return. -/
theorem strip_cr_line (k v : Text) : strip_cr (k ++ '=' :: v) = k ++ '=' :: strip_cr v := by
  unfold strip_cr
  cases v using reverseRecOn with
  | nil =>
    rw [getLast?_append, getLast?_singleton, Option.some_or, if_neg (by decide),
      getLast?_nil, if_neg (by simp)]
  | append_singleton v c =>
    rw [← cons_append, ← append_assoc, getLast?_concat, getLast?_concat]
    split
    · rw [dropLast_concat, dropLast_concat]
    · rw [append_assoc]
      rfl

/-! ## What a snapshot keeps -/

variable {m : KvStateMachine}

/-- Equal as maps. -/
def Same (m m' : KvStateMachine) : Prop := ∀ key, m.get key = m'.get key

/-- No key contains an equals sign: `apply` cuts commands at the first one. -/
def KeysPlain (m : KvStateMachine) : Prop := ∀ e ∈ m.data.entries, '=' ∉ e.1

/-- The entries a snapshot can tell: no line break anywhere, and no value that ends in a
carriage return. -/
def Readable (m : KvStateMachine) : Prop :=
  ∀ e ∈ m.data.entries, '\n' ∉ e.1 ∧ '\n' ∉ e.2 ∧ e.2.getLast? ≠ some '\r'

instance (m : KvStateMachine) : Decidable m.Readable :=
  inferInstanceAs (Decidable (∀ e ∈ m.data.entries, _))

theorem new_keysPlain : new.KeysPlain := fun _ he => absurd he not_mem_nil

theorem apply_keysPlain (h : m.KeysPlain) (entry : LogEntry) : (m.apply entry).KeysPlain := by
  unfold apply
  split
  · exact h
  · split
    · split
      · rename_i key val hsplit
        intro e he
        rcases mem_cons.mp he with rfl | he
        · exact (split_once_some hsplit).1
        · exact h e ((kerase_sublist _ _).subset he)
      · exact h
    · split
      · exact fun e he => h e ((kerase_sublist _ _).subset he)
      · exact h

theorem get_eq_some_iff {key val : Text} : m.get key = some val ↔ ⟨key, val⟩ ∈ m.data.entries :=
  AList.mem_lookup_iff

variable {l : List ((_ : Text) × Text)}

/-- What `restore` inserts, read line by line. -/
theorem foldl_lookup (hnd : l.NodupKeys) (heq : ∀ e ∈ l, '=' ∉ e.1)
    (data : AList (fun _ : Text => Text)) (key : Text) :
    ((l.map fun e => strip_cr (line_of e)).foldl restore_line data).lookup key
      = ((l.dlookup key).map strip_cr).or (data.lookup key) := by
  induction l generalizing data with
  | nil => rfl
  | cons e l ih =>
    obtain ⟨k, v⟩ := e
    obtain ⟨hk, hnd'⟩ := nodupKeys_cons.mp hnd
    have hline : restore_line data (strip_cr (line_of ⟨k, v⟩)) = data.insert k (strip_cr v) := by
      rw [line_of, strip_cr_line, restore_line, split_once_append (heq _ mem_cons_self)]
    rw [map_cons, foldl_cons, hline, ih hnd' fun e he => heq e (mem_cons_of_mem _ he)]
    by_cases hkey : key = k
    · subst hkey
      rw [dlookup_eq_none.mpr hk, dlookup_cons_eq, AList.lookup_insert]
      rfl
    · rw [AList.lookup_insert_ne hkey, dlookup_cons_ne _ _ hkey]

theorem lines_entries (h : ∀ e ∈ l, '\n' ∉ e.1 ∧ '\n' ∉ e.2) :
    lines [] (l.flatMap fun e => line_of e ++ ['\n']) = l.map fun e => strip_cr (line_of e) := by
  induction l with
  | nil => rfl
  | cons e l ih =>
    obtain ⟨h1, h2⟩ := h e mem_cons_self
    have hline : '\n' ∉ line_of e := by
      intro hin
      rcases mem_append.mp hin with hin | hin
      · exact h1 hin
      · rcases mem_cons.mp hin with heq | hin
        · exact absurd heq (by decide)
        · exact h2 hin
    rw [flatMap_cons, append_assoc, singleton_append, lines_append hline,
      nil_append, ih fun e he => h e (mem_cons_of_mem _ he), map_cons]

/-- **Without line breaks,** a snapshot keeps everything but a carriage return at the end of a
value. -/
theorem get_restore (hk : m.KeysPlain)
    (h : ∀ e ∈ m.data.entries, '\n' ∉ e.1 ∧ '\n' ∉ e.2) (m' : KvStateMachine) (key : Text) :
    (m'.restore m.snapshot).get key = (m.get key).map strip_cr := by
  have hperm := mergeSort_perm m.data.entries fun a b => decide (a.1 ≤ b.1)
  have hnd : (m.data.entries.mergeSort fun a b => decide (a.1 ≤ b.1)).NodupKeys :=
    (perm_nodupKeys hperm).mpr m.data.nodupKeys
  unfold restore snapshot
  rw [from_utf8_into_bytes]
  simp only [get]
  rw [snapshot_text, lines_entries fun e he => h e (hperm.mem_iff.mp he),
    foldl_lookup hnd fun e he => hk e (hperm.mem_iff.mp he), AList.lookup_empty, Option.or_none,
    perm_dlookup key hnd hperm]
  rfl

theorem restore_no_break (m' : KvStateMachine) (snapshot : List UInt8) :
    ∀ e ∈ (m'.restore snapshot).data.entries, '\n' ∉ e.1 ∧ '\n' ∉ e.2 := by
  unfold restore
  split
  · exact fun e he => absurd he not_mem_nil
  · rename_i s _
    have hlines : ∀ l ∈ lines [] s, '\n' ∉ l := fun l hl => no_break_of_mem_lines not_mem_nil hl
    generalize lines [] s = ls at hlines
    have hempty : ∀ e ∈ (∅ : AList (fun _ : Text => Text)).entries, '\n' ∉ e.1 ∧ '\n' ∉ e.2 :=
      fun e he => absurd he not_mem_nil
    revert hempty
    generalize (∅ : AList (fun _ : Text => Text)) = data
    intro hdata
    induction ls generalizing data with
    | nil => exact hdata
    | cons l ls ih =>
      refine ih (fun l' hl' => hlines l' (mem_cons_of_mem _ hl')) _ ?_
      unfold restore_line
      split
      · rename_i key val hsplit
        have hl := hlines l mem_cons_self
        rw [(split_once_some hsplit).2] at hl
        intro e he
        rcases mem_cons.mp he with rfl | he
        · exact ⟨fun hin => hl (mem_append_left _ hin),
            fun hin => hl (mem_append_right _ (mem_cons_of_mem _ hin))⟩
        · exact hdata e ((kerase_sublist _ _).subset he)
      · exact hdata

theorem strip_cr_eq_self_iff {s : Text} : strip_cr s = s ↔ s.getLast? ≠ some '\r' := by
  unfold strip_cr
  split_ifs with hcr
  · refine ⟨fun heq => ?_, fun hne => absurd hcr hne⟩
    have hlen := congrArg List.length heq
    rw [length_dropLast] at hlen
    have hpos := length_pos_of_ne_nil (l := s) (by rintro rfl; cases hcr)
    omega
  · exact ⟨fun _ => hcr, fun _ => rfl⟩

/-- **Snapshots.** After any commands, restoring the snapshot on any machine gives the same map
exactly when no key or value contains a line break and no value ends in a carriage return. -/
theorem restore_snapshot_iff (entries : List LogEntry) :
    (∀ m' : KvStateMachine, (m'.restore (entries.foldl apply new).snapshot).Same
        (entries.foldl apply new)) ↔ (entries.foldl apply new).Readable := by
  have hk : (entries.foldl apply new).KeysPlain := by
    suffices hrun : ∀ m : KvStateMachine, m.KeysPlain → (entries.foldl apply m).KeysPlain from
      hrun new new_keysPlain
    induction entries with
    | nil => exact fun m h => h
    | cons entry entries ih => exact fun m h => ih (m.apply entry) (apply_keysPlain h entry)
  generalize entries.foldl apply new = m at hk
  constructor
  · intro hsame
    have hbreak : ∀ e ∈ m.data.entries, '\n' ∉ e.1 ∧ '\n' ∉ e.2 := by
      intro e he
      have hget := (hsame new e.1).trans (get_eq_some_iff.mpr he)
      exact restore_no_break new m.snapshot _ (get_eq_some_iff.mp hget)
    intro e he
    refine ⟨(hbreak e he).1, (hbreak e he).2, strip_cr_eq_self_iff.mp ?_⟩
    have hget := get_eq_some_iff.mpr he
    have hsame' := hsame new e.1
    rw [get_restore hk hbreak, hget] at hsame'
    exact Option.some.inj hsame'
  · intro hr m' key
    rw [get_restore hk fun e he => ⟨(hr e he).1, (hr e he).2.1⟩]
    cases hget : m.get key with
    | none => rfl
    | some val =>
      have hval := (hr _ (get_eq_some_iff.mp hget)).2.2
      exact congrArg some (strip_cr_eq_self_iff.mpr hval)

/-- A value with a line break: `SET a=1`, line break, `b=2`. -/
def two_line_command : LogEntry := ⟨1, 1, into_bytes "SET a=1\nb=2".toList⟩

theorem apply_two_line_command : new.apply two_line_command
    = ⟨AList.insert "a".toList "1\nb=2".toList ∅⟩ := by
  unfold apply two_line_command
  rw [from_utf8_into_bytes]
  rfl

/-- Its snapshot is read back as two entries, and the value of `a` is cut at the line break. -/
theorem snapshot_splits_value : ¬ ∀ m' : KvStateMachine,
    (m'.restore (new.apply two_line_command).snapshot).Same (new.apply two_line_command) := by
  intro h
  have hget : (new.apply two_line_command).get "a".toList = some "1\nb=2".toList := by
    rw [apply_two_line_command]
    exact AList.lookup_insert _
  have hcut := restore_no_break new (new.apply two_line_command).snapshot _
    (get_eq_some_iff.mp ((h new "a".toList).trans hget))
  exact hcut.2 (by decide)

end KvStateMachine

end Oigrap.Raft

/-
`crates/storage/src/disk.rs`, `replacer.rs` and `buffer_pool.rs`: the database file, the
LRU replacer and the pool of frames every other component reads and writes pages through.

Frames, the page table, pin counts, dirty bits and the replacer's two maps are the
source's. The file is a sequence of whole pages, since every access is page-aligned. A
device that fails is an oracle `io` saying which system call succeeds, so that "faithful
I/O" is the assumption that it always answers `true` and nothing else about the disk has
to be assumed. A file cannot grow past the largest file offset.
-/
import Mathlib.Data.Finset.Card
import Oigrap.Lib.Wp
import Oigrap.Storage.Page

namespace Oigrap.Storage

open ByteMem Wp Function List

/-! ## `disk.rs` -/

abbrev MAGIC : List UInt8 := [79, 73, 71, 82, 65, 80, 0, 0]
abbrev FORMAT_VERSION : ℕ := 1

/-- The largest file size the operating system accepts (`off_t` is signed). -/
abbrev MAX_FILE_SIZE : ℕ := 2 ^ 63 - 1

/-- `DiskManager`, together with the file it has open. -/
structure DiskManager where
  /-- the pages of the file; a hole reads as zeros -/
  pages : PageId → Page
  /-- the length of the file, in pages -/
  len : ℕ
  next_page_id : ℕ
  /-- whether the `n`-th system call on the file succeeds -/
  io : ℕ → Bool
  /-- how many system calls there have been -/
  calls : ℕ

namespace DiskManager

/-- `page_offset` multiplies two `u64`s. -/
def page_offset (page_id : PageId) : EStateM Fault DiskManager ℕ :=
  if page_id * PAGE_SIZE < 2 ^ 64 then pure (page_id * PAGE_SIZE) else throw .panic

/-- One system call: it fails when the device says so. -/
def syscall : EStateM Fault DiskManager Unit := do
  let d ← get
  set { d with calls := d.calls + 1 }
  if d.io d.calls then pure () else throw (.err .Io)

/-- `read_page`: reading past the end of the file is an I/O error. -/
def read_page (page_id : PageId) : EStateM Fault DiskManager Page := do
  let _ ← page_offset page_id
  syscall
  let d ← get
  if page_id < d.len then return d.pages page_id else throw (.err .Io)

/-- `write_page` extends the file if necessary. -/
def write_page (page_id : PageId) (data : Page) : EStateM Fault DiskManager Unit := do
  let offset ← page_offset page_id
  syscall
  if offset + PAGE_SIZE ≤ MAX_FILE_SIZE then
    modify fun d =>
      { d with pages := update d.pages page_id data, len := max d.len (page_id + 1) }
  else throw (.err .Io)

def header_page (next_page_id : ℕ) : Page :=
  ⟨store 4 (store 8 (write Page.blank.data 0 MAGIC) 8 next_page_id) 16 FORMAT_VERSION⟩

def write_header_page (next_page_id : ℕ) : EStateM Fault DiskManager Unit :=
  write_page 0 (header_page next_page_id)

/-- `allocate_page`: the page is zero-filled on disk, which is not a `Page::new`. -/
def allocate_page : EStateM Fault DiskManager PageId := do
  let d ← get
  let page_id := d.next_page_id
  set { d with next_page_id := (page_id + 1) % 2 ^ 64 }
  write_page page_id Page.blank
  write_header_page (page_id + 1)
  return page_id

/-- `DiskManager::create` on an empty file. -/
def create (io : ℕ → Bool) : Except Fault DiskManager :=
  match write_header_page 1 ⟨fun _ => Page.blank, 0, 1, io, 0⟩ with
  | .ok _ d => .ok d
  | .error e _ => .error e

/-- `DiskManager::open`: the page count comes from the header page. -/
def «open» (pages : PageId → Page) (len : ℕ) (io : ℕ → Bool) : Except Fault DiskManager :=
  match read_page 0 ⟨pages, len, 0, io, 0⟩ with
  | .error e _ => .error e
  | .ok h d =>
    if read h.data 0 8 ≠ MAGIC then
      .error (.err (.Corruption "invalid magic bytes in header page"))
    else .ok { d with next_page_id := load 8 h.data 8 }

end DiskManager

/-! ## `replacer.rs` -/

abbrev FrameId := ℕ

/-- `LruReplacer`. The B-tree map from timestamps to frames is its list of entries in key
order. -/
structure LruReplacer where
  evictable : Finset FrameId
  access_order : List (ℕ × FrameId)
  frame_timestamp : FrameId → Option ℕ
  clock : ℕ

namespace LruReplacer

def new : LruReplacer := ⟨∅, [], fun _ => none, 0⟩

/-- Insertion into the timestamp map. -/
def order_insert (ts : ℕ) (frame_id : FrameId) : List (ℕ × FrameId) → List (ℕ × FrameId)
  | [] => [(ts, frame_id)]
  | (t, g) :: l =>
    if ts < t then (ts, frame_id) :: (t, g) :: l
    else if ts = t then (ts, frame_id) :: l
    else (t, g) :: order_insert ts frame_id l

/-- Removal from the timestamp map. -/
def order_remove (ts : ℕ) (l : List (ℕ × FrameId)) : List (ℕ × FrameId) :=
  l.filter fun e => e.1 ≠ ts

variable (r : LruReplacer) (frame_id : FrameId)

/-- The timestamp map without the entry of a frame, if it has one. -/
def order_without : List (ℕ × FrameId) :=
  match r.frame_timestamp frame_id with
  | some old_ts => order_remove old_ts r.access_order
  | none => r.access_order

def record_access : LruReplacer :=
  let ts := r.clock + 1
  { r with
    access_order := order_insert ts frame_id (r.order_without frame_id)
    frame_timestamp := update r.frame_timestamp frame_id (some ts)
    clock := ts }

def set_evictable (evictable : Bool) : LruReplacer :=
  { r with evictable := if evictable then insert frame_id r.evictable
                        else r.evictable.erase frame_id }

/-- `evict`: the evictable frame that was accessed longest ago. -/
def evict : Option (FrameId × LruReplacer) :=
  match r.access_order.find? (fun e => e.2 ∈ r.evictable) with
  | none => none
  | some (ts, frame_id) => some (frame_id,
      { r with
        access_order := order_remove ts r.access_order
        frame_timestamp := update r.frame_timestamp frame_id none
        evictable := r.evictable.erase frame_id })

def remove : LruReplacer :=
  { r with
    access_order := r.order_without frame_id
    frame_timestamp := update r.frame_timestamp frame_id none
    evictable := r.evictable.erase frame_id }

end LruReplacer

/-! ## `buffer_pool.rs` -/

structure Frame where
  page : Page
  page_id : Option PageId
  pin_count : ℕ
  is_dirty : Bool

/-- `BufferPool`. `frames` is the vector of `pool_size` frames. -/
structure BufferPool where
  frames : FrameId → Frame
  pool_size : ℕ
  page_table : PageId → Option FrameId
  free_list : List FrameId
  replacer : LruReplacer
  disk : DiskManager

namespace BufferPool

/-- A program on the pool. -/
abbrev PoolM := EStateM Fault BufferPool

def new (pool_size : ℕ) (disk : DiskManager) : BufferPool where
  frames frame_id := ⟨Page.new frame_id, none, 0, false⟩
  pool_size := pool_size
  page_table _ := none
  free_list := range pool_size
  replacer := LruReplacer.new
  disk := disk

variable {α : Type} (s : BufferPool) (frame_id : FrameId) (page_id : PageId)
  (op : Page → Except Fault (α × Page))

/-- A disk operation of the pool. -/
def on_disk (x : EStateM Fault DiskManager α) : PoolM α :=
  zoom BufferPool.disk (fun d s => { s with disk := d }) x

def set_frame (fr : Frame) : BufferPool :=
  { s with frames := update s.frames frame_id fr }

/-- The write-back of `find_free_frame` and `flush_page`: a dirty frame goes to disk. -/
def write_back : PoolM Unit := do
  let s ← get
  if (s.frames frame_id).is_dirty then
    on_disk (DiskManager.write_page page_id (s.frames frame_id).page)
    modify fun s => s.set_frame frame_id { s.frames frame_id with is_dirty := false }

/-- The frame a victim leaves behind: its page is out of the page table. -/
def vacate : BufferPool :=
  let s' := match (s.frames frame_id).page_id with
    | some pid => { s with page_table := update s.page_table pid none }
    | none => s
  s'.set_frame frame_id { s'.frames frame_id with page_id := none }

/-- What happens to a victim's contents; a dirty frame without a page fails `unwrap()`. -/
def write_back_victim : PoolM Unit := do
  let s ← get
  match (s.frames frame_id).page_id with
  | some page_id => write_back frame_id page_id
  | none => if (s.frames frame_id).is_dirty then throw .panic else pure ()

/-- `find_free_frame`: an unused frame, or the least recently used unpinned one, written
back if dirty. -/
def find_free_frame : PoolM FrameId := do
  let s ← get
  match s.free_list with
  | frame_id :: rest =>
    set { s with free_list := rest }
    return frame_id
  | [] =>
    match s.replacer.evict with
    | none => throw (.err .BufferFull)
    | some (frame_id, r) =>
      set { s with replacer := r }
      write_back_victim frame_id
      modify fun s => s.vacate frame_id
      return frame_id

/-- The common end of `fetch_page` and `new_page`: the frame holds the page, pinned once. -/
def install (page : Page) (is_dirty : Bool) : BufferPool :=
  { s.set_frame frame_id ⟨page, some page_id, 1, is_dirty⟩ with
    page_table := update s.page_table page_id (some frame_id)
    replacer := (s.replacer.record_access frame_id).set_evictable frame_id false }

def fetch_page : PoolM FrameId := do
  let s ← get
  match s.page_table page_id with
  | some frame_id =>
    let fr := s.frames frame_id
    set { s.set_frame frame_id { fr with pin_count := fr.pin_count + 1 } with
      replacer := (s.replacer.set_evictable frame_id false).record_access frame_id }
    return frame_id
  | none =>
    let frame_id ← find_free_frame
    let page ← on_disk (DiskManager.read_page page_id)
    modify fun s => s.install frame_id page_id page false
    return frame_id

def new_page : PoolM (PageId × FrameId) := do
  let frame_id ← find_free_frame
  let page_id ← on_disk DiskManager.allocate_page
  modify fun s => s.install frame_id page_id (Page.new page_id) true
  return (page_id, frame_id)

/-- `pool.page(frame_id)`, read by `op`. Indexing the frame vector is bounds-checked. -/
def page (op : Page → Except Fault α) : PoolM α := do
  let s ← get
  if frame_id < s.pool_size then lift (op (s.frames frame_id).page) else throw .panic

/-- `pool.page_mut(frame_id)`, changed by `op`. -/
def page_mut : PoolM α := do
  let s ← get
  if frame_id < s.pool_size then
    let (a, p) ← lift (op (s.frames frame_id).page)
    set (s.set_frame frame_id { s.frames frame_id with page := p })
    return a
  else throw .panic

/-- A change of one page. -/
abbrev PageOp := Page → Except Fault Page

/-- Several changes, one after the other. -/
def run_ops : List PageOp → Page → Except Fault Page
  | [], p => .ok p
  | op :: ops, p => do
    let q ← op p
    run_ops ops q

/-- Several changes of one pinned page; those before a failing one stay. -/
def edit (frame_id : FrameId) : List PageOp → PoolM Unit
  | [] => pure ()
  | op :: ops => do
    page_mut frame_id fun p => do
      let q ← op p
      return ((), q)
    edit frame_id ops

def unpin_page (is_dirty : Bool) : PoolM Unit := do
  let s ← get
  match s.page_table page_id with
  | none => throw (.err (.PageNotFound page_id))
  | some frame_id =>
    let fr := s.frames frame_id
    if fr.pin_count = 0 then throw (.err (.PageNotPinned page_id))
    let fr' := { fr with pin_count := fr.pin_count - 1, is_dirty := fr.is_dirty || is_dirty }
    set { s.set_frame frame_id fr' with
      replacer := if fr.pin_count - 1 = 0 then s.replacer.set_evictable frame_id true
                  else s.replacer }

/-- `flush_page`: write the page back if dirty; it stays in the pool. -/
def flush_page : PoolM Unit := do
  let s ← get
  match s.page_table page_id with
  | none => throw (.err (.PageNotFound page_id))
  | some frame_id => write_back frame_id page_id

/-- The pages `flush_all` collects before it starts writing. -/
def dirty_pages : List PageId :=
  (range s.pool_size).filterMap fun f =>
    if (s.frames f).is_dirty then (s.frames f).page_id else none

def flush_all : PoolM Unit := do
  let s ← get
  s.dirty_pages.forM flush_page

/-- `delete_page`: the page leaves the pool and its frame is free again. -/
def delete_page : PoolM Unit := do
  let s ← get
  match s.page_table page_id with
  | none => pure ()
  | some frame_id =>
    let fr := s.frames frame_id
    if fr.pin_count > 0 then
      throw (.err (.Corruption ("cannot delete pinned page " ++ toString page_id)))
    set { s.set_frame frame_id { fr with page_id := none, is_dirty := false, pin_count := 0 } with
      page_table := update s.page_table page_id none
      replacer := s.replacer.remove frame_id
      free_list := s.free_list ++ [frame_id] }

/-! The two ways the rest of the source uses a page: pin it, look at it, unpin it; and
pin it, change it, unpin it dirty. An `Err` from the middle leaves the page pinned. -/

def read_at (op : Page → Except Fault α) : PoolM α := do
  let frame_id ← fetch_page page_id
  let a ← page frame_id op
  unpin_page page_id false
  return a

def write_at : PoolM α := do
  let frame_id ← fetch_page page_id
  let a ← page_mut frame_id op
  unpin_page page_id true
  return a

def edit_at (ops : List PageOp) : PoolM Unit := do
  let frame_id ← fetch_page page_id
  edit frame_id ops
  unpin_page page_id true

end BufferPool

end Oigrap.Storage

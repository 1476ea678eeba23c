import OsKernel.Lib.ActionSystem
import Mathlib.Tactic

/-!
# Dirty-page writeback `demos/writeback/wb_sim.c`

Threads mark pages dirty, write inodes back and call `fsync_inode`.  One step
of the model is one section under `state->lock`, one section under
`g_dirty_count_lock`, one call of `block_device_write_page`, one unlocked
clearing of `page->dirty`, or one unlocked read of `nr_dirty`; a thread's `Pc`
says which step comes next and holds the locals it needs (the loop's saved
pointer `n` among them).  Any thread may move next, so every interleaving of
these steps is a run.

The device write is synchronous: when the step is done, the page is on the
device.  The header `list.h` is not in the repository.  Its two operations on
a node that is on the list are those of a circular list; what they do to a
node that is on no list is left open (`Kernel`).

Not modelled: `dp->inode`, which nothing reads, the queues of `global_wb`,
which stay empty, and here the threshold test `should_start_writeback` (see
`OsKernel.Writeback.FlushThread`); the flush thread may start on any inode at any
time.

Three fields are ghosts, written by the steps and read by none of them:
`Page.modified`, `Page.dirtiedAt` and `Fsync.dirtyAtBegin`.  A point in time is
given by the number of device writes made so far.
-/

namespace OsKernel
namespace Writeback

open Lib

/-- What the code is linked with: which inode a page belongs to, its
`page->index`, `PAGE_SIZE`, and the two list operations of the writeback
loop. -/
structure Kernel (I P : Type) [DecidableEq P] where
  inodeOf : P → I
  index : P → Nat
  pageSize : Nat
  /-- `list_del` of a page's node, as seen from the list of its inode. -/
  listDel : List P → P → List P
  /-- `pos->next`; `none` is the list head. -/
  listNext : List P → P → Option P
  listDel_of_mem : ∀ {l : List P} {p : P}, p ∈ l → listDel l p = l.erase p
  listNext_of_mem : ∀ {l : List P} {p : P}, p ∈ l →
    listNext l p = l[l.idxOf p + 1]?

/-- `struct inode_wb_state`; `nrDirty` is a `u32`. -/
structure InodeWbState (P : Type) where
  dirtyPages : List P
  nrDirty : Nat
  writebackInProgress : Bool
  flushPending : Bool

/-- `inode_wb_state_init`. -/
def inodeWbStateInit {P : Type} : InodeWbState P :=
  { dirtyPages := [], nrDirty := 0
    writebackInProgress := false, flushPending := false }

/-- `list_add_tail` to the dirty list and `nr_dirty++`. -/
def InodeWbState.add {P : Type} (x : InodeWbState P) (p : P) :
    InodeWbState P :=
  { x with dirtyPages := x.dirtyPages ++ [p]
           nrDirty := (x.nrDirty + 1) % 2 ^ 32 }

/-- `list_del` from the dirty list and `nr_dirty--`. -/
def InodeWbState.del {I P : Type} [DecidableEq P] (K : Kernel I P)
    (x : InodeWbState P) (p : P) : InodeWbState P :=
  { x with dirtyPages := K.listDel x.dirtyPages p
           nrDirty := (x.nrDirty + (2 ^ 32 - 1)) % 2 ^ 32 }

/-- A page's `dirty` flag and the `offset` and `synced` of its descriptor. -/
structure Page where
  dirty : Bool
  offset : Nat
  synced : Bool
  /-- Ghost: the content was modified after the page's last device write. -/
  modified : Bool
  /-- Ghost: when the flag was last set. -/
  dirtiedAt : Nat

/-- The arguments of one `block_device_write_page`; the device is that of the
inode. -/
structure DeviceWrite (I P : Type) where
  inode : I
  page : P
  offset : Nat

/-- A running `fsync_inode`.  The ghost `dirtyAtBegin` gives, for each page of
the inode that was dirty when the call began, when it had been dirtied. -/
structure Fsync (I P : Type) where
  inode : I
  dirtyAtBegin : P → Option Nat

/-- The locals of a running `writeback_inode`: the inode, the saved pointer
`n` of `list_for_each_safe`, and the `fsync_inode` it returns to, if any. -/
structure Pass (I P : Type) where
  inode : I
  next : Option P
  caller : Option (Fsync I P)

/-- Where a thread is. -/
inductive Pc (I P : Type)
  | idle
  /-- The page is modified, `mark_page_dirty` is next. -/
  | marking (p : P)
  /-- `writeback_inode` is called, its first locked section is next. -/
  | entering (i : I) (caller : Option (Fsync I P))
  /-- The page is off the list, `block_device_write_page` is next. -/
  | writing (w : Pass I P) (p : P)
  /-- The page is written, `page->dirty = false` is next. -/
  | clearing (w : Pass I P) (p : P)
  /-- `g_dirty_count--` is next. -/
  | counting (w : Pass I P)
  /-- The loop takes the lock again and goes on to `n`. -/
  | looping (w : Pass I P)
  /-- `fsync_inode` reads `nr_dirty` next. -/
  | fsyncTest (f : Fsync I P)
  /-- `fsync_inode` is in its waiting loop. -/
  | fsyncWait (f : Fsync I P)

/-- The state shared by the threads, and where each of them is. -/
structure State (T I P : Type) where
  inodes : I → InodeWbState P
  pages : P → Page
  /-- `g_dirty_count`, a `u64`. -/
  gDirtyCount : Nat
  /-- The device writes made so far, oldest first. -/
  device : List (DeviceWrite I P)
  pc : T → Pc I P

variable {T I P : Type}

namespace State

/-- Thread `t` moves to `pc`. -/
@[simps -fullyApplied]
def setPc [DecidableEq T] (s : State T I P) (t : T) (pc : Pc I P) :
    State T I P :=
  { s with pc := Function.update s.pc t pc }

/-- Replace the writeback state of one inode. -/
@[simps -fullyApplied]
def setInode [DecidableEq I] (s : State T I P) (i : I) (x : InodeWbState P) :
    State T I P :=
  { s with inodes := Function.update s.inodes i x }

/-- Replace one page. -/
@[simps -fullyApplied]
def setPage [DecidableEq P] (s : State T I P) (p : P) (x : Page) : State T I P :=
  { s with pages := Function.update s.pages p x }

/-- Replacing a page by one with the same field leaves the field of every page
as it was. -/
theorem setPage_field [DecidableEq P] {β : Type} (s : State T I P) {p : P}
    {x : Page} (f : Page → β) (hsame : f x = f (s.pages p)) (q : P) :
    f ((s.setPage p x).pages q) = f (s.pages q) :=
  apply_update_of_eq f hsame q

theorem setInode_field [DecidableEq I] {β : Type} (s : State T I P) {i : I}
    {x : InodeWbState P} (f : InodeWbState P → β)
    (hsame : f x = f (s.inodes i)) (j : I) :
    f ((s.setInode i x).inodes j) = f (s.inodes j) :=
  apply_update_of_eq f hsame j

/-- A value read off the threads' positions does not change when a thread
moves to a position with the same value. -/
theorem apply_pc_of_eq [DecidableEq T] {β : Type} (s : State T I P) {t : T}
    {pc pc' : Pc I P} (f : Pc I P → β) (hpc : s.pc t = pc)
    (hsame : f pc' = f pc) (u : T) :
    f (Function.update s.pc t pc' u) = f (s.pc u) :=
  apply_update_of_eq f (hsame.trans (congrArg f hpc.symm)) u

/-- A property of positions that the mover had already. -/
theorem of_update [DecidableEq T] (s : State T I P) {t : T} {pc pc' : Pc I P}
    {Q : Pc I P → Prop} (hpc : s.pc t = pc) (hold : Q pc' → Q pc) (u : T)
    (hu : Q (Function.update s.pc t pc' u)) : Q (s.pc u) :=
  Lib.of_update (fun hnew => hpc ▸ hold hnew) hu

/-- The page has been passed to the device since the time `since`. -/
def WrittenSince (s : State T I P) (p : P) (since : Nat) : Prop :=
  ∃ w ∈ s.device.drop since, w.page = p

end State

variable [DecidableEq T] [DecidableEq I] [DecidableEq P]

/-- `mark_page_dirty(page, page's inode)`, one locked section. -/
def markPageDirty (K : Kernel I P) (s : State T I P) (p : P) : State T I P :=
  if (s.pages p).dirty then s
  else
    let s := s.setInode (K.inodeOf p) ((s.inodes (K.inodeOf p)).add p)
    let s := s.setPage p
      { s.pages p with dirty := true
                       offset := K.index p * K.pageSize % 2 ^ 64
                       synced := false
                       dirtiedAt := s.device.length }
    { s with gDirtyCount := (s.gDirtyCount + 1) % 2 ^ 64 }

/-- `unmark_page_dirty(page, page's inode)`, one locked section. -/
def unmarkPageDirty (K : Kernel I P) (s : State T I P) (p : P) : State T I P :=
  if (s.pages p).dirty then
    let s := s.setInode (K.inodeOf p) ((s.inodes (K.inodeOf p)).del K p)
    let s := s.setPage p { s.pages p with dirty := false }
    { s with gDirtyCount := (s.gDirtyCount + (2 ^ 64 - 1)) % 2 ^ 64 }
  else s

/-- Where a thread goes when its `writeback_inode` returns. -/
def afterPass : Option (Fsync I P) → Pc I P
  | none => .idle
  | some f => .fsyncWait f

/-- The end of the loop: the flag is cleared under the lock. -/
def writebackEnd (s : State T I P) (t : T) (i : I)
    (caller : Option (Fsync I P)) : State T I P :=
  (s.setInode i { s.inodes i with writebackInProgress := false }).setPc t
    (afterPass caller)

/-- The locked part of the loop body: page `p`, the one at `pos`, leaves the
list, and the pointer after it is saved. -/
def writebackTake (K : Kernel I P) (s : State T I P) (t : T) (i : I) (p : P)
    (caller : Option (Fsync I P)) : State T I P :=
  let next := K.listNext (s.inodes i).dirtyPages p
  let s := s.setInode i ((s.inodes i).del K p)
  let s := s.setPage p { s.pages p with synced := false }
  s.setPc t (.writing ⟨i, next, caller⟩ p)

/-- The loop test of `list_for_each_safe` at `pos`, and what follows it up to
the next unlock. -/
def writebackLoop (K : Kernel I P) (s : State T I P) (t : T) (i : I)
    (pos : Option P) (caller : Option (Fsync I P)) : State T I P :=
  match pos with
  | none => writebackEnd s t i caller
  | some p => writebackTake K s t i p caller

/-- The first locked section of `writeback_inode`. -/
def writebackEnter (K : Kernel I P) (s : State T I P) (t : T) (i : I)
    (caller : Option (Fsync I P)) : State T I P :=
  writebackLoop K
    (s.setInode i { s.inodes i with writebackInProgress := true }) t i
    (s.inodes i).dirtyPages.head? caller

/-- `block_device_write_page(inode->bdev, dp->page, dp->offset)`. -/
def blockDeviceWritePage (s : State T I P) (t : T) (w : Pass I P) (p : P) :
    State T I P :=
  let request : DeviceWrite I P := ⟨w.inode, p, (s.pages p).offset⟩
  let s := s.setPage p { s.pages p with modified := false }
  { s with device := s.device ++ [request] }.setPc t (.clearing w p)

/-- `dp->synced = true; dp->page->dirty = false`, outside the lock. -/
def clearDirty (s : State T I P) (t : T) (w : Pass I P) (p : P) :
    State T I P :=
  (s.setPage p { s.pages p with synced := true, dirty := false }).setPc t
    (.counting w)

/-- `g_dirty_count--` under its own lock. -/
def countDown (s : State T I P) (t : T) (w : Pass I P) : State T I P :=
  { s with gDirtyCount := (s.gDirtyCount + (2 ^ 64 - 1)) % 2 ^ 64 }.setPc t
    (.looping w)

/-- The dirty pages of an inode and when they were dirtied. -/
def dirtyNow (K : Kernel I P) (s : State T I P) (i : I) (p : P) :
    Option Nat :=
  if K.inodeOf p = i ∧ (s.pages p).dirty = true then
    some (s.pages p).dirtiedAt
  else none

/-- The first locked section of `fsync_inode`. -/
def fsyncBegin (K : Kernel I P) (s : State T I P) (t : T) (i : I) :
    State T I P :=
  (s.setInode i { s.inodes i with flushPending := true }).setPc t
    (.fsyncTest ⟨i, dirtyNow K s i⟩)

/-- The unlocked test that decides whether `fsync_inode` starts a pass. -/
def fsyncStart (s : State T I P) (t : T) (f : Fsync I P) : State T I P :=
  if 0 < (s.inodes f.inode).nrDirty then
    s.setPc t (.entering f.inode (some f))
  else s.setPc t (.fsyncWait f)

/-- The test of the waiting loop, under the lock. -/
def fsyncDone (s : State T I P) (i : I) : Bool :=
  (s.inodes i).nrDirty == 0 && !(s.inodes i).writebackInProgress

/-- One round of the waiting loop: return `0`, or `schedule()`. -/
def fsyncRound (s : State T I P) (t : T) (f : Fsync I P) : State T I P :=
  if fsyncDone s f.inode then s.setPc t .idle else s

/-- What an idle thread may start. -/
inductive Call (I P : Type)
  /-- Modify a page, then call `mark_page_dirty`. -/
  | write (p : P)
  | unmarkPageDirty (p : P)
  | writebackInode (i : I)
  /-- One round of the loops of `writeback_all_inodes` and
  `flush_thread_entry`. -/
  | flushInode (i : I)
  | fsyncInode (i : I)

/-- The first step of a call. -/
def start (K : Kernel I P) (s : State T I P) (t : T) : Call I P → State T I P
  | .write p =>
      (s.setPage p { s.pages p with modified := true }).setPc t (.marking p)
  | .unmarkPageDirty p => unmarkPageDirty K s p
  | .writebackInode i => s.setPc t (.entering i none)
  | .flushInode i =>
      if 0 < (s.inodes i).nrDirty then s.setPc t (.entering i none) else s
  | .fsyncInode i => fsyncBegin K s t i

/-- The next step of a thread inside a call. -/
def advance (K : Kernel I P) (s : State T I P) (t : T) : Option (State T I P) :=
  match s.pc t with
  | .idle => none
  | .marking p => some ((markPageDirty K s p).setPc t .idle)
  | .entering i caller => some (writebackEnter K s t i caller)
  | .writing w p => some (blockDeviceWritePage s t w p)
  | .clearing w p => some (clearDirty s t w p)
  | .counting w => some (countDown s t w)
  | .looping w => some (writebackLoop K s t w.inode w.next w.caller)
  | .fsyncTest f => some (fsyncStart s t f)
  | .fsyncWait f => some (fsyncRound s t f)

/-- An idle thread starts a call, or a thread inside one makes its next
step. -/
inductive Action (T I P : Type)
  | start (t : T) (c : Call I P)
  | advance (t : T)

/-- The thread that moves. -/
def Action.thread : Action T I P → T
  | .start t _ => t
  | .advance t => t

/-- One step. -/
def step (K : Kernel I P) (s : State T I P) :
    Action T I P → Option (State T I P)
  | .start t c =>
      match s.pc t with
      | .idle => some (start K s t c)
      | _ => none
  | .advance t => advance K s t

/-- The inodes are initialised, no page is dirty and no thread is inside a
call. -/
structure Initial (s : State T I P) : Prop where
  inodes : ∀ i, s.inodes i = inodeWbStateInit
  clean : ∀ p, (s.pages p).dirty = false
  unmodified : ∀ p, (s.pages p).modified = false
  count : s.gDirtyCount = 0
  device : s.device = []
  idle : ∀ t, s.pc t = .idle

/-- All interleavings of the threads' steps. -/
def system (K : Kernel I P) : ActionSystem (State T I P) (Action T I P) where
  init := Initial
  step := step K

/-! ## One inode with one page -/

/-- The list operations of a circular list, for nodes on the list and off
it. -/
def onePageKernel : Kernel Unit Unit where
  inodeOf := fun _ => ()
  index := fun _ => 0
  pageSize := 4096
  listDel := List.erase
  listNext := fun l p => l[l.idxOf p + 1]?
  listDel_of_mem := fun _ => rfl
  listNext_of_mem := fun _ => rfl

/-- The state after `inode_wb_state_init`. -/
def freshState (T : Type) : State T Unit Unit where
  inodes := fun _ => inodeWbStateInit
  pages := fun _ => ⟨false, 0, false, false, 0⟩
  gDirtyCount := 0
  device := []
  pc := fun _ => .idle

theorem freshState_initial (T : Type) : Initial (freshState T) := by
  constructor <;> simp [freshState]

end Writeback
end OsKernel

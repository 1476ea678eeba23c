import OsKernel.Writeback.Sync
import Mathlib.Data.Fintype.Card
import Mathlib.Tactic

/-!
# The flush thread

`flush_thread_entry` sleeps, asks `should_start_writeback`, and if the dirty
pages take a tenth of the available memory or more it writes all of them.  Here
the others call `mark_page_dirty` and `unmark_page_dirty` while it sleeps, and it
is not interrupted while it works.

What it should do is said in terms of the dirty pages alone (`Backlog`), without
counters and machine integers.  The code does that, turn after turn
(`Shows.turns`), if the pages can be counted in 32 bits and `dirty * 100` does
not overflow (`NoOverflow`).
-/

namespace OsKernel
namespace Writeback

open Lib

variable {T I P : Type} [DecidableEq T] [DecidableEq I] [DecidableEq P]

/-! ## The thread -/

/-- `should_start_writeback`, when `get_available_memory_kb` returns
`available`. -/
def shouldStartWriteback (K : Kernel I P) (s : State T I P)
    (available : Nat) : Bool :=
  let dirty := s.gDirtyCount * (K.pageSize / 1024) % 2 ^ 64
  available == 0 || decide (10 ≤ dirty * 100 % 2 ^ 64 / available)

/-- What is done while the thread sleeps, and the available memory in KB when it
wakes up. -/
structure Interval (P : Type) where
  calls : List (Mark P)
  available : Nat

/-- One turn of the loop.  The loop over `all_inodes` in `flush_thread_entry` is
that of `writeback_all_inodes`. -/
def flushTurn (K : Kernel I P) (t : T) (fuel : Nat) (allInodes : List I)
    (x : Interval P) (s : State T I P) : Option (State T I P) :=
  let s := x.calls.foldl (Mark.apply K) s
  if shouldStartWriteback K s x.available then
    writebackAllInodes K t fuel allInodes s
  else some s

/-- `flush_thread_entry` up to the end of the last of the intervals. -/
def flushThreadEntry (K : Kernel I P) (t : T) (fuel : Nat)
    (allInodes : List I) : List (Interval P) → State T I P →
    Option (State T I P)
  | [], s => some s
  | x :: rest, s =>
      (flushTurn K t fuel allInodes x s).bind
        (flushThreadEntry K t fuel allInodes rest)

/-- After the intervals the thread goes to sleep in state `s'`. -/
def FlushReturns (K : Kernel I P) (t : T) (allInodes : List I)
    (intervals : List (Interval P)) (s s' : State T I P) : Prop :=
  ∃ enough, ∀ fuel, enough ≤ fuel →
    flushThreadEntry K t fuel allInodes intervals s = some s'

/-! ## What it is for -/

/-- The dirty pages in the order they were marked, and the device writes. -/
structure Backlog (I P : Type) where
  dirty : List P
  written : List (DeviceWrite I P)

/-- `n` dirty pages take a tenth of the available memory. -/
def TooMuch (K : Kernel I P) (n available : Nat) : Prop :=
  available ≤ 10 * (n * (K.pageSize / 1024))

instance (K : Kernel I P) (n available : Nat) :
    Decidable (TooMuch K n available) :=
  inferInstanceAs (Decidable (_ ≤ _))

/-- The dirty pages at the end of an interval. -/
def Backlog.marked (b : Backlog I P) (x : Interval P) : List P :=
  x.calls.foldl Mark.reorder b.dirty

/-- If there is too much, all of it is written. -/
def Backlog.turn (K : Kernel I P) (allInodes : List I) (b : Backlog I P)
    (x : Interval P) : Backlog I P :=
  if TooMuch K (b.marked x).length x.available then
    ⟨[], b.written ++ syncWrites K (b.marked x) allInodes⟩
  else ⟨b.marked x, b.written⟩

/-- The turns of the intervals. -/
def Backlog.turns (K : Kernel I P) (allInodes : List I) (b : Backlog I P)
    (intervals : List (Interval P)) : Backlog I P :=
  intervals.foldl (Backlog.turn K allInodes) b

/-! ## The code does it -/

/-- No counter overflows, whatever pages are dirty. -/
structure NoOverflow (K : Kernel I P) [Fintype P] : Prop where
  pages : Fintype.card P < 2 ^ 32
  size : K.pageSize / 1024 * 100 ≤ 2 ^ 32

section Refines

variable [Fintype P] {K : Kernel I P} {s : State T I P} {order : List P}
  {allInodes : List I} {t : T}

section

omit [DecidableEq T]

theorem Marked.length_lt (h : Marked K s order) (hfits : NoOverflow K) :
    order.length < 2 ^ 32 :=
  Nat.lt_of_le_of_lt h.nodup.length_le_card hfits.pages

theorem Marked.gDirtyCount_eq (h : Marked K s order) (hfits : NoOverflow K) :
    s.gDirtyCount = order.length := by
  have hlength := h.length_lt hfits
  rw [h.global, Nat.mod_eq_of_lt (by omega)]

theorem Marked.countersTell (h : Marked K s order) (hfits : NoOverflow K) :
    CountersTell K order := by
  intro i hdvd
  have hle : (ofInode K order i).length ≤ order.length :=
    List.length_filter_le _ _
  have hzero := Nat.eq_zero_of_dvd_of_lt hdvd
    (Nat.lt_of_le_of_lt hle (h.length_lt hfits))
  exact List.length_eq_zero_iff.mp hzero

/-- The test is exact: `dirty * 100 / available >= 10` compares the dirty
memory with a tenth of the available memory, rounding included. -/
theorem Marked.shouldStartWriteback_iff (h : Marked K s order)
    (hfits : NoOverflow K) (available : Nat) :
    shouldStartWriteback K s available = true ↔
      TooMuch K order.length available := by
  have hlength := h.length_lt hfits
  have hglobal := h.gDirtyCount_eq hfits
  -- neither product leaves 64 bits
  have hproduct : order.length * (K.pageSize / 1024) * 100 < 2 ^ 64 := by
    calc order.length * (K.pageSize / 1024) * 100
        = order.length * (K.pageSize / 1024 * 100) := Nat.mul_assoc _ _ _
      _ ≤ order.length * 2 ^ 32 := Nat.mul_le_mul_left _ hfits.size
      _ < 2 ^ 32 * 2 ^ 32 := Nat.mul_lt_mul_of_pos_right hlength (by decide)
      _ = 2 ^ 64 := by norm_num
  have hdirty : order.length * (K.pageSize / 1024) % 2 ^ 64 =
      order.length * (K.pageSize / 1024) := Nat.mod_eq_of_lt (by omega)
  rw [shouldStartWriteback, hglobal, hdirty, Nat.mod_eq_of_lt hproduct,
    TooMuch]
  generalize order.length * (K.pageSize / 1024) = dirty
  by_cases hzero : available = 0
  · simp [hzero]
  · have hpos := Nat.pos_of_ne_zero hzero
    simp only [beq_iff_eq, hzero, Bool.or_eq_true, decide_eq_true_eq, false_or,
      Nat.le_div_iff_mul_le hpos]
    omega

end

/-- A sync with counters that tell everything leaves nothing. -/
theorem Marked.sync (h : Marked K s order) (hfits : NoOverflow K)
    (hidle : s.pc t = .idle) (hnodup : allInodes.Nodup)
    (hall : ∀ i, i ∈ allInodes) :
    ∃ s', SyncReturns K t allInodes s s' ∧ Marked K s' [] ∧
      s'.device = s.device ++ syncWrites K order allInodes ∧
      s'.pc t = .idle := by
  have htell := h.countersTell hfits
  obtain ⟨s', hreturns, hmarked, -, hdone⟩ :=
    sync_returns_idle allInodes hnodup h hidle
  obtain ⟨s'', hreturns'', hcomplete⟩ :=
    (h.syncComplete_iff hidle hnodup hall).mpr htell
  obtain rfl := hreturns.unique hreturns''
  rw [leftOver_eq_nil hall htell] at hmarked
  exact ⟨s', hreturns, hmarked, hcomplete.writes, hdone⟩

section

omit [DecidableEq T] [Fintype P]

theorem Mark.apply_device (call : Mark P) :
    (call.apply K s).device = s.device := by
  cases call <;> simp only [Mark.apply, markPageDirty, unmarkPageDirty] <;>
    split <;> rfl

theorem foldl_apply_device (calls : List (Mark P)) :
    (calls.foldl (Mark.apply K) s).device = s.device := by
  induction calls generalizing s with
  | nil => rfl
  | cons call rest ih => exact ih.trans call.apply_device

end

/-- The state is that of a backlog, with the device writes since `s₀`, and the
flush thread is asleep. -/
structure Shows (K : Kernel I P) (t : T) (s₀ : State T I P) (b : Backlog I P)
    (s : State T I P) : Prop where
  dirty : Marked K s b.dirty
  written : s.device = s₀.device ++ b.written
  idle : s.pc t = .idle

/-- One turn of the loop is one turn of the backlog. -/
theorem Shows.turn {s₀ : State T I P} {b : Backlog I P}
    (h : Shows K t s₀ b s) (hfits : NoOverflow K) (hnodup : allInodes.Nodup)
    (hall : ∀ i, i ∈ allInodes) (x : Interval P) :
    ∃ s' enough, (∀ fuel, enough ≤ fuel →
        flushTurn K t fuel allInodes x s = some s') ∧
      Shows K t s₀ (b.turn K allInodes x) s' := by
  obtain ⟨hmarked, hpc⟩ := h.dirty.calls x.calls
  have hdevice : (x.calls.foldl (Mark.apply K) s).device =
      s₀.device ++ b.written :=
    (foldl_apply_device x.calls).trans h.written
  have hidle : (x.calls.foldl (Mark.apply K) s).pc t = .idle := by
    rw [hpc, h.idle]
  have htest := hmarked.shouldStartWriteback_iff hfits x.available
  by_cases hmuch : TooMuch K (b.marked x).length x.available
  · obtain ⟨s', ⟨enough, hreturns⟩, hclean, hwrites, hdone⟩ :=
      hmarked.sync hfits hidle hnodup hall
    refine ⟨s', enough, fun fuel hfuel => ?_, ?_⟩
    · rw [flushTurn, if_pos (htest.mpr hmuch), hreturns fuel hfuel]
    · rw [Backlog.turn, if_pos hmuch]
      refine ⟨hclean, ?_, hdone⟩
      rw [hwrites, hdevice, List.append_assoc]
      rfl
  · refine ⟨_, 0, fun fuel _ => if_neg (mt htest.mp hmuch), ?_⟩
    rw [Backlog.turn, if_neg hmuch]
    exact ⟨hmarked, hdevice, hidle⟩

/-- The thread does what it is for, turn after turn. -/
theorem Shows.turns {s₀ : State T I P} {b : Backlog I P}
    (h : Shows K t s₀ b s) (hfits : NoOverflow K) (hnodup : allInodes.Nodup)
    (hall : ∀ i, i ∈ allInodes) (intervals : List (Interval P)) :
    ∃ s', FlushReturns K t allInodes intervals s s' ∧
      Shows K t s₀ (b.turns K allInodes intervals) s' := by
  induction intervals generalizing s b with
  | nil => exact ⟨s, ⟨0, fun _ _ => rfl⟩, h⟩
  | cons x rest ih =>
      obtain ⟨s₁, enough₁, hturn, hshows₁⟩ := h.turn hfits hnodup hall x
      obtain ⟨s', ⟨enough, hrest⟩, hshows⟩ := ih hshows₁
      refine ⟨s', ⟨max enough₁ enough, fun fuel hfuel => ?_⟩, hshows⟩
      rw [flushThreadEntry, hturn fuel (le_of_max_le_left hfuel),
        Option.bind_some]
      exact hrest fuel (le_of_max_le_right hfuel)

end Refines

/-! ## What becomes of a page -/

/-- The call marks the page. -/
def Mark.marks (p : P) : Mark P → Bool
  | .mark q => q = p
  | .unmark _ => false

/-- The call unmarks the page. -/
def Mark.unmarks (p : P) : Mark P → Bool
  | .mark _ => false
  | .unmark q => q = p

/-- The calls of the intervals. -/
def callsOf (intervals : List (Interval P)) : List (Mark P) :=
  intervals.flatMap Interval.calls

/-- How often a page was written, and once more if it is dirty. -/
def Backlog.weight (b : Backlog I P) (p : P) : Nat :=
  (b.written.map DeviceWrite.page).count p + b.dirty.count p

section Pages

variable {K : Kernel I P} {allInodes : List I} {order : List P} {p : P}
  {b : Backlog I P}

theorem count_reorder_le (call : Mark P) :
    (Mark.reorder order call).count p ≤
      order.count p + [call].countP (Mark.marks p) := by
  cases call with
  | mark q =>
      simp only [Mark.reorder]
      split
      · exact Nat.le_add_right _ _
      · rw [List.count_append]
        by_cases hq : q = p <;> simp [Mark.marks, hq]
  | unmark q =>
      exact Nat.le_add_right_of_le (List.erase_sublist.count_le p)

theorem count_foldl_reorder_le (calls : List (Mark P)) :
    (calls.foldl Mark.reorder order).count p ≤
      order.count p + calls.countP (Mark.marks p) := by
  induction calls generalizing order with
  | nil => exact Nat.le_refl _
  | cons call rest ih =>
      have hfirst : (Mark.reorder order call).count p ≤
          order.count p + [call].countP (Mark.marks p) :=
        count_reorder_le call
      rw [← List.singleton_append, List.countP_append]
      exact ih.trans (by omega)

theorem mem_reorder {call : Mark P} (hkeeps : call.unmarks p = false)
    (hp : p ∈ order ∨ call.marks p = true) : p ∈ Mark.reorder order call := by
  cases call with
  | mark q =>
      simp only [Mark.marks, decide_eq_true_eq] at hp
      simp only [Mark.reorder]
      split
      · rename_i hq
        rcases hp with hp | rfl
        · exact hp
        · exact hq
      · rcases hp with hp | rfl
        · exact List.mem_append_left _ hp
        · exact List.mem_append_right _ List.mem_cons_self
  | unmark q =>
      have hne : p ≠ q := by
        rintro rfl
        simp [Mark.unmarks] at hkeeps
      rcases hp with hp | hp
      · exact (List.mem_erase_of_ne hne).mpr hp
      · exact absurd hp Bool.false_ne_true

theorem mem_foldl_reorder {calls : List (Mark P)}
    (hkeeps : ∀ call ∈ calls, call.unmarks p = false)
    (hp : p ∈ order ∨ ∃ call ∈ calls, call.marks p = true) :
    p ∈ calls.foldl Mark.reorder order := by
  induction calls generalizing order with
  | nil => simpa using hp
  | cons call rest ih =>
      obtain ⟨hfirst, hrest⟩ := List.forall_mem_cons.mp hkeeps
      refine ih hrest ?_
      rw [List.exists_mem_cons_iff, ← or_assoc] at hp
      exact hp.imp_left (mem_reorder hfirst)

/-- Writing a page takes it from the dirty pages to the written ones. -/
theorem Backlog.weight_turn (hnodup : allInodes.Nodup)
    (hall : ∀ i, i ∈ allInodes) (x : Interval P) :
    (b.turn K allInodes x).weight p =
      (b.written.map DeviceWrite.page).count p + (b.marked x).count p := by
  unfold Backlog.turn
  split
  · rw [Backlog.weight, List.map_append, List.count_append, syncWrites_pages,
      count_flatMap_ofInode p hnodup, if_pos (hall _), List.count_nil,
      Nat.add_zero]
  · rfl

/-- A page is written at most once for each time it is marked. -/
theorem Backlog.weight_turns_le (hnodup : allInodes.Nodup)
    (hall : ∀ i, i ∈ allInodes) (intervals : List (Interval P)) :
    (b.turns K allInodes intervals).weight p ≤
      b.weight p + (callsOf intervals).countP (Mark.marks p) := by
  induction intervals generalizing b with
  | nil => exact Nat.le_refl _
  | cons x rest ih =>
      have hrest := ih (b := b.turn K allInodes x)
      have hmarked : (b.marked x).count p ≤
          b.dirty.count p + x.calls.countP (Mark.marks p) :=
        count_foldl_reorder_le x.calls
      have hcalls : callsOf (x :: rest) = x.calls ++ callsOf rest :=
        List.flatMap_cons
      have hweight : b.weight p = (b.written.map DeviceWrite.page).count p +
          b.dirty.count p := rfl
      rw [Backlog.weight_turn hnodup hall] at hrest
      rw [hcalls, List.countP_append, hweight]
      refine hrest.trans ?_
      omega

/-- A page that was dirty or is marked, and is not unmarked, is dirty or
written. -/
theorem Backlog.weight_turns_pos (hnodup : allInodes.Nodup)
    (hall : ∀ i, i ∈ allInodes) {intervals : List (Interval P)}
    (hkeeps : ∀ call ∈ callsOf intervals, call.unmarks p = false)
    (hp : 0 < b.weight p ∨
      ∃ call ∈ callsOf intervals, call.marks p = true) :
    0 < (b.turns K allInodes intervals).weight p := by
  induction intervals generalizing b with
  | nil => simpa [callsOf, Backlog.turns] using hp
  | cons x rest ih =>
      rw [callsOf, List.flatMap_cons] at hkeeps hp
      obtain ⟨hfirst, hrest⟩ := List.forall_mem_append.mp hkeeps
      refine ih hrest ?_
      rw [Backlog.weight_turn hnodup hall]
      -- written before, or dirty at the end of this interval, or marked later
      have hmarked : (p ∈ b.dirty ∨ ∃ call ∈ x.calls, call.marks p = true) →
          0 < (b.marked x).count p :=
        fun h => List.count_pos_iff.mpr (mem_foldl_reorder hfirst h)
      rcases hp with hp | ⟨call, hcall, hmark⟩
      · left
        by_cases hdirty : p ∈ b.dirty
        · exact Nat.add_pos_right _ (hmarked (.inl hdirty))
        · rw [Backlog.weight, List.count_eq_zero.mpr hdirty] at hp
          exact Nat.add_pos_left hp _
      · rcases List.mem_append.mp hcall with hcall | hcall
        · exact .inl (Nat.add_pos_right _ (hmarked (.inr ⟨call, hcall, hmark⟩)))
        · exact .inr ⟨call, hcall, hmark⟩

/-- After a turn nothing is dirty, or not too much. -/
theorem Backlog.turn_bounded (b : Backlog I P) (x : Interval P) :
    (b.turn K allInodes x).dirty = [] ∨
      ¬ TooMuch K (b.turn K allInodes x).dirty.length x.available := by
  unfold Backlog.turn
  split
  · exact .inl rfl
  · rename_i hfew
    exact .inr hfew

theorem Backlog.turns_bounded (b : Backlog I P)
    {intervals : List (Interval P)} {x : Interval P}
    (hx : intervals.getLast? = some x) :
    (b.turns K allInodes intervals).dirty = [] ∨
      ¬ TooMuch K (b.turns K allInodes intervals).dirty.length x.available := by
  obtain ⟨before, rfl⟩ := List.getLast?_eq_some_iff.mp hx
  rw [Backlog.turns, List.foldl_append]
  exact Backlog.turn_bounded _ x

/-- Every write is that of a page to its own place. -/
theorem Backlog.written_turns {b : Backlog I P}
    (hplaces : ∀ w ∈ b.written, w = pageWrite K (K.inodeOf w.page) w.page)
    (intervals : List (Interval P)) :
    ∀ w ∈ (b.turns K allInodes intervals).written,
      w = pageWrite K (K.inodeOf w.page) w.page := by
  induction intervals generalizing b with
  | nil => exact hplaces
  | cons x rest ih =>
      refine ih ?_
      unfold Backlog.turn
      split
      · intro w hw
        rcases List.mem_append.mp hw with hw | hw
        · exact hplaces w hw
        · obtain ⟨i, -, hw⟩ := List.mem_flatMap.mp hw
          obtain ⟨q, hq, rfl⟩ := List.mem_map.mp hw
          rw [(mem_ofInode.mp hq).2.symm]
          rfl
      · exact hplaces

end Pages

/-! ## The thread keeps up -/

/-- What the flush thread achieves from state `s` to state `s'`. -/
structure KeepsUp (K : Kernel I P) [Fintype P] (intervals : List (Interval P))
    (s s' : State T I P) (written : List (DeviceWrite I P)) : Prop where
  /-- The global counter is the number of dirty pages. -/
  counted : s'.gDirtyCount =
    (Finset.univ.filter fun p => (s'.pages p).dirty = true).card
  /-- They take less than a tenth of the memory that was available. -/
  bounded : ∀ x, intervals.getLast? = some x →
    s'.gDirtyCount = 0 ∨ ¬ TooMuch K s'.gDirtyCount x.available
  device : s'.device = s.device ++ written
  /-- Every write is that of a page to its own place. -/
  places : ∀ w ∈ written, w = pageWrite K (K.inodeOf w.page) w.page
  /-- No page is written more often than it was marked. -/
  atMost : ∀ p, (written.map DeviceWrite.page).count p +
      (if (s'.pages p).dirty then 1 else 0) ≤
    (if (s.pages p).dirty then 1 else 0) +
      (callsOf intervals).countP (Mark.marks p)
  /-- No page is forgotten. -/
  atLeast : ∀ p, (∀ call ∈ callsOf intervals, call.unmarks p = false) →
    ((s.pages p).dirty = true ∨
      ∃ call ∈ callsOf intervals, call.marks p = true) →
    (s'.pages p).dirty = true ∨ p ∈ written.map DeviceWrite.page

section KeepsUp

variable {K : Kernel I P} {s s' : State T I P} {order : List P}

omit [DecidableEq T] in
theorem Marked.count_eq (h : Marked K s order) (p : P) :
    order.count p = if (s.pages p).dirty then 1 else 0 := by
  by_cases hp : p ∈ order
  · rw [if_pos ((h.flags p).mpr hp), List.count_eq_one_of_mem h.nodup hp]
  · rw [if_neg (mt (h.flags p).mp hp), List.count_eq_zero.mpr hp]

variable [Fintype P]

omit [DecidableEq T] in
theorem Marked.card_dirty (h : Marked K s order) :
    (Finset.univ.filter fun p => (s.pages p).dirty = true).card =
      order.length := by
  have hset : (Finset.univ.filter fun p => (s.pages p).dirty = true) =
      order.toFinset := by
    ext p
    simp [h.flags]
  rw [hset, List.toFinset_card_of_nodup h.nodup]

omit [DecidableEq T] [Fintype P] in
theorem Shows.weight_eq {t : T} {s₀ : State T I P} {b : Backlog I P}
    (h : Shows K t s₀ b s) (p : P) :
    b.weight p = (b.written.map DeviceWrite.page).count p +
      if (s.pages p).dirty then 1 else 0 := by
  rw [← h.dirty.count_eq]
  rfl

omit [DecidableEq T] in
/-- The state of a backlog that started at `s` keeps up. -/
theorem Shows.keepsUp {t : T} {allInodes : List I}
    {intervals : List (Interval P)} {b : Backlog I P} (hfits : NoOverflow K)
    (hnodup : allInodes.Nodup) (hall : ∀ i, i ∈ allInodes)
    (h : Shows K t s ⟨order, []⟩ s)
    (hb : b = .turns K allInodes ⟨order, []⟩ intervals)
    (h' : Shows K t s b s') : KeepsUp K intervals s s' b.written := by
  have hcount := h'.dirty.gDirtyCount_eq hfits
  have hweight : ∀ p, (Backlog.mk order ([] : List (DeviceWrite I P))).weight p =
      if (s.pages p).dirty then 1 else 0 :=
    fun p => (h.weight_eq p).trans (Nat.zero_add _)
  constructor
  · rw [h'.dirty.card_dirty, hcount]
  · intro x hx
    rw [hcount, hb]
    refine (Backlog.turns_bounded _ hx).imp_left fun hnil => ?_
    rw [hnil]
    rfl
  · exact h'.written
  · rw [hb]
    exact Backlog.written_turns (fun w hw => absurd hw List.not_mem_nil)
      intervals
  · intro p
    rw [← h'.weight_eq, ← hweight, hb]
    exact Backlog.weight_turns_le hnodup hall intervals
  · intro p hkeeps hp
    have hpos : 0 < b.weight p := by
      rw [hb]
      refine Backlog.weight_turns_pos hnodup hall hkeeps ?_
      refine hp.imp_left fun hdirty => ?_
      rw [hweight, if_pos hdirty]
      exact Nat.one_pos
    -- what is left of the weight is the flag; the rest of it was written
    by_cases hdirty : (s'.pages p).dirty = true
    · exact .inl hdirty
    · rw [h'.weight_eq, if_neg hdirty] at hpos
      exact .inr (List.count_pos_iff.mp hpos)

/-- However the pages are marked and unmarked while the flush thread sleeps, and
however much memory is available when it wakes up: it always goes to sleep again
with less than a tenth of the available memory dirty, it never writes a page more
often than it was marked, and from any of its turns on a page that is dirty or
marked then, and not unmarked, is in the end written or still dirty. -/
theorem flush_thread_keeps_up (hfits : NoOverflow K) {s₀ : State T I P}
    (hinit : Initial s₀) (t : T) {allInodes : List I}
    (hnodup : allInodes.Nodup) (hall : ∀ i, i ∈ allInodes)
    (earlier later : List (Interval P)) :
    ∃ s s' written, FlushReturns K t allInodes earlier s₀ s ∧
      FlushReturns K t allInodes later s s' ∧
      KeepsUp K later s s' written := by
  have hstart : Shows K t s₀ ⟨[], []⟩ s₀ :=
    ⟨Marked.init hinit, (List.append_nil _).symm, by rw [hinit.idle]⟩
  obtain ⟨s, hearlier, hs⟩ := hstart.turns hfits hnodup hall earlier
  -- the later turns are counted from the state the earlier ones left
  have hagain : Shows K t s
      ⟨(Backlog.turns K allInodes ⟨[], []⟩ earlier).dirty, []⟩ s :=
    ⟨hs.dirty, (List.append_nil _).symm, hs.idle⟩
  obtain ⟨s', hlater, hs'⟩ := hagain.turns hfits hnodup hall later
  exact ⟨s, s', _, hearlier, hlater, hagain.keepsUp hfits hnodup hall rfl hs'⟩

end KeepsUp

/-- Three pages of 4 KB; 200 KB are available first, and then 60 KB. -/
theorem flush_thread_keeps_up_sample :
    ∃ s s' written,
      FlushReturns (manyPagesKernel 3) () [()]
        [⟨[.mark 0, .mark 1], 200⟩] (manyPagesState 3) s ∧
      FlushReturns (manyPagesKernel 3) () [()]
        [⟨[.mark 2, .mark 0], 60⟩, ⟨[.mark 0], 60⟩] s s' ∧
      KeepsUp (manyPagesKernel 3)
        [⟨[.mark 2, .mark 0], 60⟩, ⟨[.mark 0], 60⟩] s s' written :=
  flush_thread_keeps_up ⟨by decide, by decide⟩ (manyPagesState_initial 3) ()
    (List.nodup_singleton ()) (fun _ => List.mem_singleton.mpr rfl) _ _

end Writeback
end OsKernel

import OsKernel.IoSched.Model
import OsKernel.Lib.KeyedLists
import OsKernel.Lib.Ledger
import Mathlib.Tactic

/-!
# The three lists of the deadline scheduler

What the scheduler holds is one thing, the pending requests in the order of
their arrival; its three lists are views of it (`Represents`).  The FIFOs are
the reads and the others, in order of arrival, and `dispatch` is all of them in
order of sectors.  Adding a request appends it to the pending ones, and a
dispatch takes one out, so no list keeps a request that another has lost.

`deadline_consistent` reads off what this means for the lists in every
reachable state.
-/

namespace OsKernel
namespace IoSched

open Lib

/-- The order of `dispatch`: by sector, equal sectors by arrival. -/
def Before (a b : Queued) : Prop :=
  a.req.sector < b.req.sector ∨
    (a.req.sector = b.req.sector ∧ a.arrival < b.arrival)

theorem Before.trans {a b c : Queued} (hab : Before a b) (hbc : Before b c) :
    Before a c := by
  rcases hab with hab | ⟨hab, harr⟩
  · rcases hbc with hbc | ⟨hbc, _⟩
    · exact .inl (UInt64.lt_trans hab hbc)
    · exact .inl (hbc ▸ hab)
  · rcases hbc with hbc | ⟨hbc, harr'⟩
    · exact .inl (hab ▸ hbc)
    · exact .inr ⟨hab.trans hbc, harr.trans harr'⟩

theorem deadlineAddRequest_deadlines (dd : Deadline) (q : Queued) :
    (deadlineAddRequest dd q).readDeadline = dd.readDeadline ∧
      (deadlineAddRequest dd q).writeDeadline = dd.writeDeadline := by
  cases hread : q.isRead <;> simp [deadlineAddRequest, hread]

theorem deadlineAddRequest_dispatch (dd : Deadline) (q : Queued) :
    (deadlineAddRequest dd q).dispatch = insertBySector q dd.dispatch := by
  cases hread : q.isRead <;> simp [deadlineAddRequest, hread]

theorem insertBySector_perm (q : Queued) (l : List Queued) :
    (insertBySector q l).Perm (q :: l) :=
  List.perm_orderedInsert _ _ _

/-- The lists of `dd` are the views of the pending requests, given in order of
arrival. -/
structure Represents (dd : Deadline) (pending : List Queued) : Prop where
  arrival : pending.Pairwise fun a b => a.arrival < b.arrival
  addr : (pending.map Queued.addr).Nodup
  reads : dd.readFifo = pending.filter Queued.isRead
  writes : dd.writeFifo = pending.filter fun q => !q.isRead
  perm : dd.dispatch.Perm pending
  sorted : dd.dispatch.Pairwise Before

namespace Represents

variable {dd : Deadline} {pending : List Queued}

theorem init : Represents deadlineInit [] := by
  constructor <;> simp [deadlineInit]

/-- `deadline_add_request` appends to the pending requests. -/
theorem add (h : Represents dd pending) {q : Queued}
    (harrival : ∀ b ∈ pending, b.arrival < q.arrival)
    (haddr : ∀ b ∈ pending, b.addr ≠ q.addr) :
    Represents (deadlineAddRequest dd q) (pending ++ [q]) := by
  have hdispatch := deadlineAddRequest_dispatch dd q
  constructor
  · refine List.pairwise_append.mpr ⟨h.arrival, by simp, fun b hb c hc => ?_⟩
    obtain rfl := List.mem_singleton.mp hc
    exact harrival b hb
  · exact nodup_map_concat h.addr haddr
  · cases hread : q.isRead <;>
      simp [deadlineAddRequest, hread, h.reads, List.filter_append]
  · cases hread : q.isRead <;>
      simp [deadlineAddRequest, hread, h.writes, List.filter_append]
  · rw [hdispatch]
    exact ((insertBySector_perm q dd.dispatch).trans (h.perm.cons q)).trans
      (List.perm_append_singleton q pending).symm
  · rw [hdispatch]
    refine pairwise_orderedInsert (R := Before) (fun _ _ _ => Before.trans)
      (fun b _ hlt => .inl hlt) ?_ h.sorted
    -- the new request goes after its equals: it arrived after them
    intro b hb hge
    have harr := harrival b (h.perm.subset hb)
    rcases UInt64.lt_or_eq_of_le (UInt64.not_lt.mp hge) with hlt | heq
    · exact .inl hlt
    · exact .inr ⟨heq, harr⟩

end Represents

/-! ## A dispatch -/

/-- The request `deadline_dispatch` takes. -/
def deadlineSelect (jiffiesToMsecs : UInt64 → UInt64)
    (readNow writeNow : UInt64) (dd : Deadline) : Option Queued :=
  if deadlineReadExpired jiffiesToMsecs readNow dd then dd.readFifo.head?
  else if deadlineWriteExpired jiffiesToMsecs writeNow dd then
    dd.writeFifo.head?
  else dd.dispatch.head?

/-- Both removals of a dispatch. -/
def Deadline.unlink (dd : Deadline) (q : Queued) : Deadline :=
  (dd.delFiolist q).delQueuelist q

/-- Each branch of `deadline_dispatch` unlinks what it takes from both
lists. -/
theorem deadlineDispatch_eq (jiffiesToMsecs : UInt64 → UInt64)
    (readNow writeNow : UInt64) (dd : Deadline) :
    deadlineDispatch jiffiesToMsecs readNow writeNow dd =
      match deadlineSelect jiffiesToMsecs readNow writeNow dd with
      | none => (none, dd)
      | some q => (some q, dd.unlink q) := by
  unfold deadlineDispatch deadlineSelect
  split
  · cases dd.readFifo <;> rfl
  · split
    · cases dd.writeFifo <;> rfl
    · cases dd.dispatch <;> rfl

theorem deadlineDispatch_fst (jiffiesToMsecs : UInt64 → UInt64)
    (readNow writeNow : UInt64) (dd : Deadline) :
    (deadlineDispatch jiffiesToMsecs readNow writeNow dd).1 =
      deadlineSelect jiffiesToMsecs readNow writeNow dd := by
  rw [deadlineDispatch_eq]
  cases deadlineSelect jiffiesToMsecs readNow writeNow dd <;> rfl

section Dispatch

variable {jiffiesToMsecs : UInt64 → UInt64} {readNow writeNow : UInt64}
  {dd : Deadline} {pending : List Queued}

theorem headExpired_ne_nil {now : UInt64} {deadline : UInt32}
    {l : List Queued} (h : headExpired jiffiesToMsecs now deadline l = true) :
    l ≠ [] := by
  rintro rfl
  cases h

theorem Represents.mem_of_select (h : Represents dd pending) {q : Queued}
    (hq : deadlineSelect jiffiesToMsecs readNow writeNow dd = some q) :
    q ∈ pending := by
  unfold deadlineSelect at hq
  split at hq
  · have hmem := List.mem_of_head? hq
    rw [h.reads] at hmem
    exact List.mem_of_mem_filter hmem
  · split at hq
    · have hmem := List.mem_of_head? hq
      rw [h.writes] at hmem
      exact List.mem_of_mem_filter hmem
    · exact h.perm.subset (List.mem_of_head? hq)

/-- A dispatch takes nothing only if nothing is pending. -/
theorem Represents.select_eq_none_iff (h : Represents dd pending) :
    deadlineSelect jiffiesToMsecs readNow writeNow dd = none ↔
      pending = [] := by
  constructor
  · intro hnone
    unfold deadlineSelect at hnone
    split at hnone
    · rename_i hexpired
      exact absurd (List.head?_eq_none_iff.mp hnone)
        (headExpired_ne_nil hexpired)
    · split at hnone
      · rename_i hexpired
        exact absurd (List.head?_eq_none_iff.mp hnone)
          (headExpired_ne_nil hexpired)
      · have hnil := List.head?_eq_none_iff.mp hnone
        exact (hnil ▸ h.perm).nil_eq.symm
  · rintro rfl
    have hdispatch : dd.dispatch = [] := h.perm.eq_nil
    simp [deadlineSelect, deadlineReadExpired, deadlineWriteExpired,
      h.reads, h.writes, hdispatch, headExpired]

/-- Unlinking a pending request takes it out of the pending ones. -/
theorem Represents.unlink (h : Represents dd pending) (q : Queued) :
    Represents (dd.unlink q) (listDel q.addr pending) where
  arrival := h.arrival.filter _
  addr := h.addr.sublist (List.filter_sublist.map _)
  reads := by
    change listDel q.addr dd.readFifo = _
    rw [h.reads, listDel, listDel, List.filter_comm]
  writes := by
    change listDel q.addr dd.writeFifo = _
    rw [h.writes, listDel, listDel, List.filter_comm]
  perm := h.perm.filter _
  sorted := h.sorted.filter _

end Dispatch

/-! ## Runs -/

/-- What one call can do. -/
inductive Step (jiffiesToMsecs : UInt64 → UInt64) (s : Run) :
    Action → Run → Prop
  | add {r : Request} (hfree : ∀ q ∈ s.dd.dispatch, q.addr ≠ r.addr) :
      Step jiffiesToMsecs s (.add r)
        { s with
          dd := deadlineAddRequest s.dd ⟨r, s.added.length⟩
          added := s.added ++ [⟨r, s.added.length⟩]
          clock := r.jiffies }
  | idle {readNow writeNow : UInt64}
      (hnone : deadlineSelect jiffiesToMsecs readNow writeNow s.dd = none) :
      Step jiffiesToMsecs s (.dispatch readNow writeNow)
        { s with clock := writeNow }
  | take {readNow writeNow : UInt64} {q : Queued}
      (hsome : deadlineSelect jiffiesToMsecs readNow writeNow s.dd = some q) :
      Step jiffiesToMsecs s (.dispatch readNow writeNow)
        { s with
          dd := s.dd.unlink q
          returned := s.returned ++ [q]
          clock := writeNow }

theorem step_cases {jiffiesToMsecs : UInt64 → UInt64} {s s' : Run}
    {a : Action} (hstep : (system jiffiesToMsecs).step s a = some s') :
    Step jiffiesToMsecs s a s' := by
  change step jiffiesToMsecs s a = some s' at hstep
  cases a with
  | add r =>
      rw [step] at hstep
      split at hstep
      · cases hstep
      · rename_i hfree
        obtain rfl := Option.some.inj hstep
        exact .add fun q hq heq => hfree ⟨q, hq, heq⟩
  | dispatch readNow writeNow =>
      rw [step, deadlineDispatch_eq] at hstep
      obtain rfl := Option.some.inj hstep
      cases hselect :
          deadlineSelect jiffiesToMsecs readNow writeNow s.dd with
      | none => simpa using Step.idle hselect
      | some q => exact Step.take hselect

/-- The requests added are those returned and those pending; each carries the
number of the call that added it. -/
structure Accounted (s : Run) (pending : List Queued) : Prop where
  represents : Represents s.dd pending
  perm : s.added.Perm (s.returned ++ pending)
  numbered : s.added.map Queued.arrival = List.range s.added.length

namespace Accounted

variable {jiffiesToMsecs : UInt64 → UInt64} {s : Run} {pending : List Queued}

theorem init (hinit : (system jiffiesToMsecs).init s) : Accounted s [] := by
  obtain ⟨hdd, hadded, hreturned⟩ := hinit
  constructor
  · rw [hdd]
    exact .init
  · simp [hadded, hreturned]
  · simp [hadded]

theorem setClock (h : Accounted s pending) (now : UInt64) :
    Accounted { s with clock := now } pending :=
  ⟨h.represents, h.perm, h.numbered⟩

theorem ledger (h : Accounted s pending) :
    Ledger Queued.arrival s.added s.returned pending :=
  ⟨h.perm, h.numbered⟩

theorem mem_added (h : Accounted s pending) {q : Queued}
    (hq : q ∈ pending) : q ∈ s.added :=
  h.ledger.mem_added hq

theorem arrival_lt (h : Accounted s pending) {q : Queued}
    (hq : q ∈ pending) : q.arrival < s.added.length :=
  h.ledger.number_lt hq

theorem add (h : Accounted s pending) {r : Request}
    (hfree : ∀ q ∈ s.dd.dispatch, q.addr ≠ r.addr) :
    Accounted
      { s with
        dd := deadlineAddRequest s.dd ⟨r, s.added.length⟩
        added := s.added ++ [⟨r, s.added.length⟩]
        clock := r.jiffies }
      (pending ++ [⟨r, s.added.length⟩]) := by
  have hledger : Ledger Queued.arrival (s.added ++ [⟨r, s.added.length⟩])
      s.returned (pending ++ [⟨r, s.added.length⟩]) :=
    h.ledger.add rfl (List.perm_append_singleton _ pending)
  refine ⟨?_, hledger.perm, hledger.numbered⟩
  refine h.represents.add (fun b hb => h.arrival_lt hb) (fun b hb => ?_)
  exact hfree b (h.represents.perm.symm.subset hb)

theorem take (h : Accounted s pending) {q : Queued} (hq : q ∈ pending)
    (now : UInt64) :
    Accounted
      { s with
        dd := s.dd.unlink q
        returned := s.returned ++ [q]
        clock := now }
      (listDel q.addr pending) := by
  have hledger : Ledger Queued.arrival s.added (s.returned ++ [q])
      (listDel q.addr pending) :=
    h.ledger.take (perm_cons_filter_key h.represents.addr hq)
  exact ⟨h.represents.unlink q, hledger.perm, hledger.numbered⟩

end Accounted

theorem reachable_accounted {jiffiesToMsecs : UInt64 → UInt64} {s : Run}
    (hreach : (system jiffiesToMsecs).Reachable s) :
    ∃ pending, Accounted s pending := by
  refine hreach.invariant (P := fun s => ∃ pending, Accounted s pending) ?_ ?_
  · intro s hinit
    exact ⟨[], .init hinit⟩
  · rintro s a s' - ⟨pending, h⟩ hstep
    cases step_cases hstep with
    | add hfree => exact ⟨_, h.add hfree⟩
    | idle hnone => exact ⟨pending, h.setClock _⟩
    | take hsome => exact ⟨_, h.take (h.represents.mem_of_select hsome) _⟩

/-- What the lists of the scheduler are and where the requests are. -/
structure Consistent (jiffiesToMsecs : UInt64 → UInt64) (s : Run) : Prop where
  /-- By sector, equal sectors in order of arrival. -/
  sorted : s.dd.dispatch.Pairwise Before
  /-- No request is queued twice. -/
  addr : (s.dd.dispatch.map Queued.addr).Nodup
  /-- A request is on `dispatch` iff it is on exactly one FIFO. -/
  oneFifo : ∀ q, q ∈ s.dd.dispatch ↔
    (q ∈ s.dd.readFifo ∧ q ∉ s.dd.writeFifo) ∨
      (q ∈ s.dd.writeFifo ∧ q ∉ s.dd.readFifo)
  reads : ∀ q ∈ s.dd.readFifo, q.isRead = true
  writes : ∀ q ∈ s.dd.writeFifo, q.isRead = false
  /-- Both FIFOs are in order of arrival. -/
  readOrder : s.dd.readFifo.Pairwise fun a b => a.arrival < b.arrival
  writeOrder : s.dd.writeFifo.Pairwise fun a b => a.arrival < b.arrival
  /-- A request that was added was returned once or is queued. -/
  accounted : ∀ q ∈ s.added,
    (s.returned.count q = 1 ∧ q ∉ s.dd.dispatch) ∨
      (s.returned.count q = 0 ∧ q ∈ s.dd.dispatch)
  /-- Nothing else is returned or queued. -/
  known : ∀ q, q ∈ s.returned ∨ q ∈ s.dd.dispatch → q ∈ s.added
  /-- A dispatch returns `NULL` iff nothing is queued. -/
  null : ∀ readNow writeNow,
    (deadlineDispatch jiffiesToMsecs readNow writeNow s.dd).1 = none ↔
      s.dd.dispatch = [] ∧ s.dd.readFifo = [] ∧ s.dd.writeFifo = []

theorem Represents.oneFifo {dd : Deadline} {pending : List Queued}
    (h : Represents dd pending) (q : Queued) :
    q ∈ dd.dispatch ↔
      (q ∈ dd.readFifo ∧ q ∉ dd.writeFifo) ∨
        (q ∈ dd.writeFifo ∧ q ∉ dd.readFifo) := by
  rw [h.perm.mem_iff, h.reads, h.writes, List.mem_filter, List.mem_filter]
  cases hread : q.isRead <;> simp

theorem Represents.null {jiffiesToMsecs : UInt64 → UInt64}
    {dd : Deadline} {pending : List Queued} (h : Represents dd pending)
    (readNow writeNow : UInt64) :
    (deadlineDispatch jiffiesToMsecs readNow writeNow dd).1 = none ↔
      dd.dispatch = [] ∧ dd.readFifo = [] ∧ dd.writeFifo = [] := by
  rw [deadlineDispatch_fst, h.select_eq_none_iff]
  constructor
  · rintro rfl
    exact ⟨h.perm.eq_nil, by simp [h.reads], by simp [h.writes]⟩
  · rintro ⟨hdispatch, -, -⟩
    exact (hdispatch ▸ h.perm).nil_eq.symm

/-- An added request is returned once or pending, not both. -/
theorem Accounted.count {s : Run} {pending : List Queued}
    (h : Accounted s pending) {q : Queued} (hq : q ∈ s.added) :
    (s.returned.count q = 1 ∧ q ∉ pending) ∨
      (s.returned.count q = 0 ∧ q ∈ pending) := by
  by_cases hreturned : q ∈ s.returned
  · left
    refine ⟨List.count_eq_one_of_mem h.ledger.returned_nodup hreturned, ?_⟩
    intro hpending
    exact ((h.ledger.mem_pending_iff q).mp hpending).2 hreturned
  · right
    exact ⟨List.count_eq_zero.mpr hreturned,
      (h.ledger.mem_pending_iff q).mpr ⟨hq, hreturned⟩⟩

/-- In every reachable state of the scheduler the lists are sorted, agree with
each other, and have lost no request. -/
theorem deadline_consistent {jiffiesToMsecs : UInt64 → UInt64} {s : Run}
    (hreach : (system jiffiesToMsecs).Reachable s) :
    Consistent jiffiesToMsecs s := by
  obtain ⟨pending, h⟩ := reachable_accounted hreach
  have hrep := h.represents
  exact
    { sorted := hrep.sorted
      addr := (hrep.perm.map Queued.addr).nodup_iff.mpr hrep.addr
      oneFifo := hrep.oneFifo
      reads := by
        intro q hq
        rw [hrep.reads] at hq
        exact List.of_mem_filter hq
      writes := by
        intro q hq
        rw [hrep.writes] at hq
        simpa using List.of_mem_filter hq
      readOrder := hrep.reads ▸ hrep.arrival.filter _
      writeOrder := hrep.writes ▸ hrep.arrival.filter _
      accounted := by
        intro q hq
        rw [hrep.perm.mem_iff]
        exact h.count hq
      known := by
        intro q hq
        rw [hrep.perm.mem_iff, ← List.mem_append] at hq
        exact h.perm.symm.subset hq
      null := hrep.null }

/-- Two reads and a write are added; the write has the lowest sector and is
dispatched first. -/
theorem deadline_consistent_sample :
    ∃ s : Run, (system id).Reachable s ∧ Consistent id s ∧
      s.dd.dispatch.map (fun q => q.req.sector) = [30, 70] ∧
      s.returned.map (fun q => q.req.sector) = [10] := by
  have hinit : (system id).init ⟨deadlineInit, [], [], 0⟩ := ⟨rfl, rfl, rfl⟩
  obtain ⟨s, hrun, hdispatch, hreturned⟩ : ∃ s, (system id).run
      ⟨deadlineInit, [], [], 0⟩
      [.add ⟨1, 70, 0, 0⟩, .add ⟨2, 10, 1, 5⟩, .add ⟨3, 30, 0, 9⟩,
        .dispatch 20 20] = some s ∧
      s.dd.dispatch.map (fun q => q.req.sector) = [30, 70] ∧
      s.returned.map (fun q => q.req.sector) = [10] :=
    ⟨_, rfl, by decide, by decide⟩
  have hreach : (system id).Reachable s :=
    ActionSystem.Reachable.run (.start hinit) hrun
  exact ⟨s, hreach, deadline_consistent hreach, hdispatch, hreturned⟩

end IoSched
end OsKernel

import OsKernel.IoSched.Policy

/-!
# Overdue requests and later ones

A request is overdue when it is as old as the deadline of its class.  One would
expect that nothing added after that is dispatched before it.  For a read that
is so.  A write can be overtaken: `deadline_dispatch` tests the reads first, and
a read that was added after the write was overdue may be overdue itself by the
time of the next dispatch.

To say when a request was added, the runs here have a clock of their own: a
request is added at some time, with a stamp that is not later.  `alloc_request`
sets the stamp, so stamps need not be in the order of adding; that they are is
one of the conditions.
-/

namespace OsKernel
namespace IoSched

open Lib

/-! ## Runs with a clock -/

/-- The scheduler, the time, and when each request was added. -/
structure TimedRun where
  run : Run
  now : UInt64
  addedAt : List UInt64

/-- Calls at given times; a dispatch reads the clock twice. -/
inductive TimedAction
  | add (r : Request) (now : UInt64)
  | dispatch (readNow writeNow : UInt64)

/-- One call, not before the last one. -/
def timedStep (jiffiesToMsecs : UInt64 → UInt64) (s : TimedRun) :
    TimedAction → Option TimedRun
  | .add r now =>
      if s.now ≤ now ∧ r.jiffies ≤ now then
        (step jiffiesToMsecs s.run (.add r)).map fun run =>
          { run := run, now := now, addedAt := s.addedAt ++ [now] }
      else none
  | .dispatch readNow writeNow =>
      if s.now ≤ readNow ∧ readNow ≤ writeNow then
        (step jiffiesToMsecs s.run (.dispatch readNow writeNow)).map fun run =>
          { s with run := run, now := writeNow }
      else none

/-- The runs after `deadline_init` with a clock that does not run backwards. -/
def timedSystem (jiffiesToMsecs : UInt64 → UInt64) :
    ActionSystem TimedRun TimedAction where
  init s := (system jiffiesToMsecs).init s.run ∧ s.addedAt = []
  step := timedStep jiffiesToMsecs

/-- When a request was added. -/
def TimedRun.timeOf (s : TimedRun) (q : Queued) : UInt64 :=
  s.addedAt.getD q.arrival 0

/-- The deadline of a request's class. -/
def Deadline.deadlineOf (dd : Deadline) (q : Queued) : UInt32 :=
  if q.isRead then dd.readDeadline else dd.writeDeadline

/-- To dispatch `r` before `q` is to let it overtake: `q` was added before `r`
and was overdue when `r` was added. -/
def Overtakes (jiffiesToMsecs : UInt64 → UInt64) (s : TimedRun)
    (r q : Queued) : Prop :=
  q.arrival < r.arrival ∧
    age jiffiesToMsecs (s.timeOf r) q ≥ (s.run.dd.deadlineOf q).toUInt64

/-- No request was returned before one that it overtakes. -/
structure NoOvertaking (jiffiesToMsecs : UInt64 → UInt64) (s : TimedRun) :
    Prop where
  returned : s.run.returned.Pairwise fun r q => ¬ Overtakes jiffiesToMsecs s r q
  pending : ∀ r ∈ s.run.returned, ∀ q, s.run.Pending q →
    ¬ Overtakes jiffiesToMsecs s r q

/-- A dispatch now returns no request before one that it overtakes. -/
def OvertakesNobody (jiffiesToMsecs : UInt64 → UInt64) (s : TimedRun)
    (readNow writeNow : UInt64) : Prop :=
  ∀ r, (deadlineDispatch jiffiesToMsecs readNow writeNow s.run.dd).1 = some r →
    ∀ q, s.run.Pending q → ¬ Overtakes jiffiesToMsecs s r q

/-- The head of the read FIFO has expired, and the head of the write FIFO was
there before it and overdue when it was added. -/
def ReadJumpsWrite (jiffiesToMsecs : UInt64 → UInt64) (s : TimedRun)
    (readNow : UInt64) : Prop :=
  ∃ r ∈ s.run.dd.readFifo.head?, ∃ w ∈ s.run.dd.writeFifo.head?,
    age jiffiesToMsecs readNow r ≥ s.run.dd.readDeadline.toUInt64 ∧
    w.arrival < r.arrival ∧
    age jiffiesToMsecs (s.timeOf r) w ≥ s.run.dd.writeDeadline.toUInt64

/-- Requests are stamped in the order in which they are added. -/
def StampedInOrder (s : TimedRun) : TimedAction → Prop
  | .add r _ => ∀ q ∈ s.run.dd.dispatch, q.req.jiffies ≤ r.jiffies
  | .dispatch _ _ => True

/-- And no dispatch finds an expired read behind an overdue write. -/
def NoJump (jiffiesToMsecs : UInt64 → UInt64) (s : TimedRun)
    (a : TimedAction) : Prop :=
  StampedInOrder s a ∧
    match a with
    | .add _ _ => True
    | .dispatch readNow _ => ¬ ReadJumpsWrite jiffiesToMsecs s readNow

instance (jiffiesToMsecs : UInt64 → UInt64) (s : TimedRun) (readNow : UInt64) :
    Decidable (ReadJumpsWrite jiffiesToMsecs s readNow) :=
  inferInstanceAs (Decidable (∃ r ∈ s.run.dd.readFifo.head?, ∃ w ∈ _, _))

instance (s : TimedRun) : (a : TimedAction) → Decidable (StampedInOrder s a)
  | .add r _ =>
      inferInstanceAs
        (Decidable (∀ q ∈ s.run.dd.dispatch, q.req.jiffies ≤ r.jiffies))
  | .dispatch _ _ => inferInstanceAs (Decidable True)

instance (jiffiesToMsecs : UInt64 → UInt64) (s : TimedRun) :
    (a : TimedAction) → Decidable (NoJump jiffiesToMsecs s a)
  | .add _ _ => inferInstanceAs (Decidable (StampedInOrder s _ ∧ True))
  | .dispatch readNow _ =>
      inferInstanceAs (Decidable
        (True ∧ ¬ ReadJumpsWrite jiffiesToMsecs s readNow))

/-! ## Steps -/

section Steps

variable {jiffiesToMsecs : UInt64 → UInt64} {s t : TimedRun}

/-- What one call does. -/
inductive TimedStep (jiffiesToMsecs : UInt64 → UInt64) (s : TimedRun) :
    TimedAction → TimedRun → Prop
  | add {r : Request} {now : UInt64} {run : Run} (hclock : s.now ≤ now)
      (hstamp : r.jiffies ≤ now)
      (hstep : (system jiffiesToMsecs).step s.run (.add r) = some run) :
      TimedStep jiffiesToMsecs s (.add r now)
        { run := run, now := now, addedAt := s.addedAt ++ [now] }
  | dispatch {readNow writeNow : UInt64} {run : Run}
      (hclock : s.now ≤ readNow) (hle : readNow ≤ writeNow)
      (hstep : (system jiffiesToMsecs).step s.run
        (.dispatch readNow writeNow) = some run) :
      TimedStep jiffiesToMsecs s (.dispatch readNow writeNow)
        { s with run := run, now := writeNow }

theorem timedStep_cases {a : TimedAction}
    (hstep : (timedSystem jiffiesToMsecs).step s a = some t) :
    TimedStep jiffiesToMsecs s a t := by
  change timedStep jiffiesToMsecs s a = some t at hstep
  cases a with
  | add r now =>
      simp only [timedStep] at hstep
      split at hstep
      next hguard =>
        obtain ⟨run, hrun, rfl⟩ := Option.map_eq_some_iff.mp hstep
        exact .add hguard.1 hguard.2 hrun
      next => contradiction
  | dispatch readNow writeNow =>
      simp only [timedStep] at hstep
      split at hstep
      next hguard =>
        obtain ⟨run, hrun, rfl⟩ := Option.map_eq_some_iff.mp hstep
        exact .dispatch hguard.1 hguard.2 hrun
      next => contradiction

/-- The runs with a clock are runs of the scheduler. -/
theorem timed_reachable (hreach : (timedSystem jiffiesToMsecs).Reachable s) :
    (system jiffiesToMsecs).Reachable s.run := by
  refine hreach.invariant
    (P := fun s => (system jiffiesToMsecs).Reachable s.run) ?_ ?_
  · intro s hinit
    exact .start hinit.1
  · intro s a t _ hs hstep
    cases timedStep_cases hstep with
    | add _ _ hrun => exact hs.next hrun
    | dispatch _ _ hrun => exact hs.next hrun

/-- The requests that are queued have stamps in order of arrival, none later
than the time of adding, which is not after the present time. -/
structure Dated (s : TimedRun) : Prop where
  length : s.addedAt.length = s.run.added.length
  grow : ∀ a ∈ s.run.dd.dispatch, ∀ b ∈ s.run.dd.dispatch,
    a.arrival < b.arrival → a.req.jiffies ≤ b.req.jiffies
  stamped : ∀ q ∈ s.run.dd.dispatch, q.req.jiffies ≤ s.timeOf q
  past : ∀ q ∈ s.run.dd.dispatch, s.timeOf q ≤ s.now

/-- The time of a request that is there does not change. -/
theorem timeOf_append {addedAt : List UInt64} {q : Queued}
    (hlt : q.arrival < addedAt.length) (now : UInt64) :
    (addedAt ++ [now]).getD q.arrival 0 = addedAt.getD q.arrival 0 := by
  rw [List.getD_eq_getElem?_getD, List.getD_eq_getElem?_getD,
    List.getElem?_append_left hlt]

theorem Dated.add (h : Dated s) {pending : List Queued}
    (haccounted : Accounted s.run pending) {r : Request} {now : UInt64}
    {run : Run} (hclock : s.now ≤ now) (hstamp : r.jiffies ≤ now)
    (horder : ∀ q ∈ s.run.dd.dispatch, q.req.jiffies ≤ r.jiffies)
    (hadded : run.added = s.run.added ++ [⟨r, s.run.added.length⟩])
    (hdispatch : run.dd.dispatch =
      insertBySector ⟨r, s.run.added.length⟩ s.run.dd.dispatch) :
    Dated { run := run, now := now, addedAt := s.addedAt ++ [now] } := by
  have hlt : ∀ q ∈ s.run.dd.dispatch, q.arrival < s.addedAt.length := by
    intro q hq
    rw [h.length]
    exact haccounted.arrival_lt (haccounted.represents.perm.subset hq)
  have hcases : ∀ q ∈ run.dd.dispatch,
      q = ⟨r, s.run.added.length⟩ ∨ q ∈ s.run.dd.dispatch := by
    intro q hq
    rw [hdispatch] at hq
    exact List.mem_cons.mp ((insertBySector_perm _ _).subset hq)
  have hnew : (s.addedAt ++ [now]).getD s.run.added.length 0 = now := by
    rw [← h.length, List.getD_eq_getElem?_getD, List.getElem?_concat_length]
    rfl
  constructor
  · rw [hadded, List.length_append, List.length_append, h.length]
    rfl
  · intro a ha b hb hab
    rcases hcases b hb with rfl | hb
    · rcases hcases a ha with rfl | ha
      · exact UInt64.le_refl _
      · exact horder a ha
    · rcases hcases a ha with rfl | ha
      · -- the new request has arrived last
        have hbound := hlt b hb
        rw [h.length] at hbound
        exact absurd hab (Nat.not_lt.mpr hbound.le)
      · exact h.grow a ha b hb hab
  · intro q hq
    rcases hcases q hq with rfl | hq
    · show r.jiffies ≤ (s.addedAt ++ [now]).getD s.run.added.length 0
      rw [hnew]
      exact hstamp
    · show q.req.jiffies ≤ (s.addedAt ++ [now]).getD q.arrival 0
      rw [timeOf_append (hlt q hq)]
      exact h.stamped q hq
  · intro q hq
    rcases hcases q hq with rfl | hq
    · show (s.addedAt ++ [now]).getD s.run.added.length 0 ≤ now
      rw [hnew]
      exact UInt64.le_refl _
    · show (s.addedAt ++ [now]).getD q.arrival 0 ≤ now
      rw [timeOf_append (hlt q hq)]
      exact UInt64.le_trans (h.past q hq) hclock

theorem Dated.dispatch (h : Dated s) {run : Run} {writeNow : UInt64}
    (hlater : s.now ≤ writeNow) (hadded : run.added = s.run.added)
    (hsub : ∀ q ∈ run.dd.dispatch, q ∈ s.run.dd.dispatch) :
    Dated { s with run := run, now := writeNow } where
  length := by
    rw [hadded]
    exact h.length
  grow := fun a ha b hb => h.grow a (hsub a ha) b (hsub b hb)
  stamped := fun q hq => h.stamped q (hsub q hq)
  past := fun q hq => UInt64.le_trans (h.past q (hsub q hq)) hlater

theorem TimedStep.dated {a : TimedAction}
    (hstep : TimedStep jiffiesToMsecs s a t) (h : Dated s)
    {pending : List Queued} (haccounted : Accounted s.run pending)
    (hok : StampedInOrder s a) : Dated t := by
  cases hstep with
  | add hclock hstamp hrun =>
      cases step_cases hrun with
      | add hfree =>
          exact h.add haccounted hclock hstamp hok rfl
            (deadlineAddRequest_dispatch _ _)
  | dispatch hclock hle hrun =>
      have hlater := UInt64.le_trans hclock hle
      cases step_cases hrun with
      | idle hnone => exact h.dispatch hlater rfl fun q hq => hq
      | take hsome =>
          exact h.dispatch hlater rfl fun q hq => List.mem_of_mem_filter hq

theorem dated_of_stampedInOrder
    (hreach : (timedSystem jiffiesToMsecs).ReachableWhile StampedInOrder s) :
    Dated s := by
  refine hreach.invariant (P := Dated) ?_ ?_
  · rintro s ⟨⟨hdd, hadded, -⟩, haddedAt⟩
    constructor <;> simp [hdd, hadded, haddedAt, deadlineInit]
  · intro s a t hprev hs hok hstep
    obtain ⟨pending, haccounted⟩ :=
      reachable_accounted (timed_reachable hprev.reachable)
    exact (timedStep_cases hstep).dated hs haccounted hok

/-! ## One dispatch -/

variable {pending : List Queued} {readNow writeNow : UInt64} {r q : Queued}

/-- Along a FIFO the stamps grow. -/
theorem Dated.fifo_grow (h : Dated s) (haccounted : Accounted s.run pending)
    (p : Queued → Bool) :
    (pending.filter p).Pairwise fun a b => a.req.jiffies ≤ b.req.jiffies := by
  have hperm := haccounted.represents.perm
  refine List.Pairwise.imp_of_mem ?_
    (haccounted.represents.arrival.filter p)
  intro a b ha hb hab
  exact h.grow a (hperm.symm.subset (List.mem_of_mem_filter ha)) b
    (hperm.symm.subset (List.mem_of_mem_filter hb)) hab

/-- If a request on a FIFO was overdue at some time, the head of the FIFO has
expired by then. -/
theorem Dated.headExpired_of_mem (h : Dated s)
    (hmono : ∀ a b, a ≤ b → jiffiesToMsecs a ≤ jiffiesToMsecs b)
    (haccounted : Accounted s.run pending) {p : Queued → Bool}
    {time now : UInt64} {deadline : UInt32} (hq : q ∈ pending) (hp : p q = true)
    (hstamp : q.req.jiffies ≤ time) (hle : time ≤ now) (hnow : s.now ≤ now)
    (hoverdue : age jiffiesToMsecs time q ≥ deadline.toUInt64) :
    headExpired jiffiesToMsecs now deadline (pending.filter p) = true := by
  have hperm := haccounted.represents.perm
  rw [headExpired_iff hmono (h.fifo_grow haccounted p)]
  · refine ⟨q, List.mem_filter.mpr ⟨hq, hp⟩, ?_⟩
    exact UInt64.le_trans hoverdue
      (age_le_age hmono (UInt64.le_refl _) hstamp hle)
  · intro b hb
    have hb' := hperm.symm.subset (List.mem_of_mem_filter hb)
    exact UInt64.le_trans (h.stamped b hb')
      (UInt64.le_trans (h.past b hb') hnow)

/-- The head of a FIFO overtakes no request of its own class. -/
theorem Accounted.not_lt_head {s : Run} (haccounted : Accounted s pending)
    {p : Queued → Bool} (hhead : (pending.filter p).head? = some r)
    (hq : q ∈ pending) (hp : p q = true) : ¬ q.arrival < r.arrival := by
  have hle := arrival_head_le (haccounted.represents.arrival.filter p) hhead q
    (List.mem_filter.mpr ⟨hq, hp⟩)
  omega

/-- The head of a FIFO is at least as old as the rest. -/
theorem Dated.age_le_head (h : Dated s)
    (hmono : ∀ a b, a ≤ b → jiffiesToMsecs a ≤ jiffiesToMsecs b)
    (haccounted : Accounted s.run pending) {p : Queued → Bool}
    (hhead : (pending.filter p).head? = some r) (hq : q ∈ pending)
    (hp : p q = true) {time : UInt64} (hstamp : q.req.jiffies ≤ time) :
    age jiffiesToMsecs time q ≤ age jiffiesToMsecs time r := by
  have hgrow := h.fifo_grow haccounted p
  have hqfifo : q ∈ pending.filter p := List.mem_filter.mpr ⟨hq, hp⟩
  obtain ⟨rest, hfifo⟩ := List.head?_eq_some_iff.mp hhead
  rw [hfifo] at hgrow hqfifo
  rcases List.mem_cons.mp hqfifo with rfl | hrest
  · exact UInt64.le_refl _
  · exact age_le_age hmono ((List.pairwise_cons.mp hgrow).1 q hrest) hstamp
      (UInt64.le_refl _)

/-- If the expired head of the read FIFO overtakes some write, it overtakes the
head of the write FIFO, which waits at least as long. -/
theorem Dated.readJumpsWrite_of_write (h : Dated s)
    (hmono : ∀ a b, a ≤ b → jiffiesToMsecs a ≤ jiffiesToMsecs b)
    (haccounted : Accounted s.run pending)
    (hexpired : deadlineReadExpired jiffiesToMsecs readNow s.run.dd = true)
    (hhead : s.run.dd.readFifo.head? = some r) (hq : q ∈ pending)
    (hclass : (!q.isRead) = true) (harrival : q.arrival < r.arrival)
    (hstamp : q.req.jiffies ≤ s.timeOf r)
    (hlate : age jiffiesToMsecs (s.timeOf r) q ≥
      s.run.dd.writeDeadline.toUInt64) :
    ReadJumpsWrite jiffiesToMsecs s readNow := by
  obtain ⟨r', hhead', hage⟩ := head_of_headExpired hexpired
  obtain rfl : r = r' := Option.some.inj (hhead.symm.trans hhead')
  obtain ⟨w, hw⟩ : ∃ w, (pending.filter fun q => !q.isRead).head? = some w := by
    rw [← Option.isSome_iff_exists, List.isSome_head?]
    exact List.ne_nil_of_mem (List.mem_filter.mpr ⟨hq, hclass⟩)
  refine ⟨r, hhead, w, haccounted.represents.writes ▸ hw, hage, ?_, ?_⟩
  · have hfirst := haccounted.not_lt_head hw hq hclass
    omega
  · exact UInt64.le_trans hlate
      (h.age_le_head hmono haccounted hw hq hclass hstamp)

/-- Only an expired read overtakes, and then the head of the write FIFO. -/
theorem Dated.readJumpsWrite_of_overtakes (h : Dated s)
    (hmono : ∀ a b, a ≤ b → jiffiesToMsecs a ≤ jiffiesToMsecs b)
    (haccounted : Accounted s.run pending) (hnow : s.now ≤ readNow)
    (hle : readNow ≤ writeNow)
    (hselect : deadlineSelect jiffiesToMsecs readNow writeNow s.run.dd = some r)
    (hq : q ∈ pending) (hover : Overtakes jiffiesToMsecs s r q) :
    ReadJumpsWrite jiffiesToMsecs s readNow := by
  obtain ⟨harrival, hoverdue⟩ := hover
  have hrep := haccounted.represents
  have hr := hrep.perm.symm.subset (hrep.mem_of_select hselect)
  have hstamp : q.req.jiffies ≤ s.timeOf r :=
    UInt64.le_trans (h.grow q (hrep.perm.symm.subset hq) r hr harrival)
      (h.stamped r hr)
  have htime : s.timeOf r ≤ readNow := UInt64.le_trans (h.past r hr) hnow
  cases hread : q.isRead with
  | true =>
      -- The reads have expired, so the dispatch takes their head.
      have hexpired : deadlineReadExpired jiffiesToMsecs readNow s.run.dd =
          true := by
        rw [deadlineReadExpired, hrep.reads]
        apply h.headExpired_of_mem hmono haccounted hq hread hstamp htime hnow
        simpa [Deadline.deadlineOf, hread] using hoverdue
      rw [deadlineSelect, if_pos hexpired, hrep.reads] at hselect
      exact absurd harrival (haccounted.not_lt_head hselect hq hread)
  | false =>
      have hclass : (!q.isRead) = true := by simp [hread]
      have hlate : age jiffiesToMsecs (s.timeOf r) q ≥
          s.run.dd.writeDeadline.toUInt64 := by
        simpa [Deadline.deadlineOf, hread] using hoverdue
      by_cases hexpired : deadlineReadExpired jiffiesToMsecs readNow s.run.dd
      · -- An expired read goes first.
        rw [deadlineSelect, if_pos hexpired] at hselect
        exact h.readJumpsWrite_of_write hmono haccounted hexpired hselect hq
          hclass harrival hstamp hlate
      · -- Otherwise the writes have expired, and the dispatch takes their head.
        have hwrite : deadlineWriteExpired jiffiesToMsecs writeNow s.run.dd =
            true := by
          rw [deadlineWriteExpired, hrep.writes]
          exact h.headExpired_of_mem hmono haccounted (p := fun q => !q.isRead)
            hq hclass hstamp (UInt64.le_trans htime hle)
            (UInt64.le_trans hnow hle) hlate
        rw [deadlineSelect, if_neg hexpired, if_pos hwrite, hrep.writes]
          at hselect
        exact absurd harrival (haccounted.not_lt_head hselect hq hclass)

/-- A dispatch overtakes nobody exactly when no expired read is behind an
overdue write. -/
theorem Dated.overtakesNobody_iff (h : Dated s)
    (hmono : ∀ a b, a ≤ b → jiffiesToMsecs a ≤ jiffiesToMsecs b)
    (haccounted : Accounted s.run pending) (hnow : s.now ≤ readNow)
    (hle : readNow ≤ writeNow) :
    OvertakesNobody jiffiesToMsecs s readNow writeNow ↔
      ¬ ReadJumpsWrite jiffiesToMsecs s readNow := by
  constructor
  · rintro hnobody ⟨r, hr, w, hw, hexpired, harrival, hoverdue⟩
    have hrep := haccounted.represents
    have hselect : deadlineSelect jiffiesToMsecs readNow writeNow s.run.dd =
        some r := by
      have htest : deadlineReadExpired jiffiesToMsecs readNow s.run.dd = true := by
        obtain ⟨rest, hfifo⟩ := List.head?_eq_some_iff.mp hr
        rw [deadlineReadExpired, hfifo]
        exact decide_eq_true hexpired
      rw [deadlineSelect, if_pos htest]
      exact hr
    have hwrite : w ∈ pending ∧ w.isRead = false := by
      have hmem := List.mem_of_head? hw
      rw [hrep.writes] at hmem
      simpa using List.mem_filter.mp hmem
    refine hnobody r ((deadlineDispatch_fst ..).trans hselect) w
      ((haccounted.pending_iff w).mpr hwrite.1) ⟨harrival, ?_⟩
    simpa [Deadline.deadlineOf, hwrite.2] using hoverdue
  · intro hjump r hdispatch q hq hover
    rw [deadlineDispatch_fst] at hdispatch
    exact hjump (h.readJumpsWrite_of_overtakes hmono haccounted hnow hle
      hdispatch ((haccounted.pending_iff q).mp hq) hover)

/-! ## Whole runs -/

/-- What was returned overtook nobody as long as the requests and their times
are the same and those that become pending come later. -/
theorem NoOvertaking.of_kept (h : NoOvertaking jiffiesToMsecs s)
    (hreturned : t.run.returned = s.run.returned)
    (htime : ∀ r ∈ s.run.returned, t.timeOf r = s.timeOf r)
    (hdeadline : ∀ q, t.run.dd.deadlineOf q = s.run.dd.deadlineOf q)
    (hpending : ∀ r ∈ s.run.returned, ∀ q, t.run.Pending q →
      s.run.Pending q ∨ r.arrival ≤ q.arrival) :
    NoOvertaking jiffiesToMsecs t := by
  have hsame : ∀ r ∈ s.run.returned, ∀ q,
      Overtakes jiffiesToMsecs t r q ↔ Overtakes jiffiesToMsecs s r q := by
    intro r hr q
    rw [Overtakes, Overtakes, htime r hr, hdeadline q]
  constructor
  · rw [hreturned]
    refine List.Pairwise.imp_of_mem ?_ h.returned
    intro r q hr _ hnot
    rwa [hsame r hr q]
  · rw [hreturned]
    intro r hr q hq
    rcases hpending r hr q hq with hold | hlater
    · rw [hsame r hr q]
      exact h.pending r hr q hold
    · exact fun hover => absurd hover.1 (Nat.not_lt.mpr hlater)

theorem NoOvertaking.add (h : NoOvertaking jiffiesToMsecs s)
    (hlength : s.addedAt.length = s.run.added.length)
    (haccounted : Accounted s.run pending) {new : Request} {now : UInt64} :
    NoOvertaking jiffiesToMsecs
      { run :=
          { s.run with
            dd := deadlineAddRequest s.run.dd ⟨new, s.run.added.length⟩
            added := s.run.added ++ [⟨new, s.run.added.length⟩]
            clock := new.jiffies }
        now := now
        addedAt := s.addedAt ++ [now] } := by
  have hbound : ∀ r ∈ s.run.returned, r.arrival < s.run.added.length := by
    intro r hr
    exact haccounted.ledger.number_lt_of_added
      (haccounted.perm.symm.subset (List.mem_append_left _ hr))
  refine h.of_kept rfl ?_ ?_ ?_
  · intro r hr
    exact timeOf_append (by rw [hlength]; exact hbound r hr) now
  · intro q
    obtain ⟨hread, hwrite⟩ := deadlineAddRequest_deadlines s.run.dd
      ⟨new, s.run.added.length⟩
    simp only [Deadline.deadlineOf, hread, hwrite]
  · rintro r hr q ⟨hadded, hnot⟩
    rcases List.mem_append.mp hadded with hold | hnew
    · exact Or.inl ⟨hold, hnot⟩
    · rw [List.mem_singleton.mp hnew]
      exact Or.inr (hbound r hr).le

theorem NoOvertaking.take (h : NoOvertaking jiffiesToMsecs s)
    (hr : s.run.Pending r)
    (hnobody : ∀ q, s.run.Pending q → ¬ Overtakes jiffiesToMsecs s r q)
    {clock now : UInt64} :
    NoOvertaking jiffiesToMsecs
      { s with
        run :=
          { s.run with
            dd := s.run.dd.unlink r
            returned := s.run.returned ++ [r]
            clock := clock }
        now := now } := by
  constructor
  · refine List.pairwise_append.mpr
      ⟨h.returned, List.pairwise_singleton _ _, ?_⟩
    intro x hx y hy
    rw [List.mem_singleton.mp hy]
    exact h.pending x hx r hr
  · rintro x hx q ⟨hadded, hnot⟩
    have hq : s.run.Pending q :=
      ⟨hadded, fun hmem => hnot (List.mem_append_left _ hmem)⟩
    rcases List.mem_append.mp hx with hold | hnew
    · exact h.pending x hold q hq
    · rw [List.mem_singleton.mp hnew]
      exact hnobody q hq

theorem noOvertaking_of_noJump
    (hmono : ∀ a b, a ≤ b → jiffiesToMsecs a ≤ jiffiesToMsecs b)
    (hreach : (timedSystem jiffiesToMsecs).ReachableWhile
      (NoJump jiffiesToMsecs) s) :
    Dated s ∧ NoOvertaking jiffiesToMsecs s := by
  refine hreach.invariant
    (P := fun s => Dated s ∧ NoOvertaking jiffiesToMsecs s) ?_ ?_
  · intro s hinit
    refine ⟨dated_of_stampedInOrder (.start hinit), ?_⟩
    obtain ⟨⟨-, -, hreturned⟩, -⟩ := hinit
    constructor <;> simp [hreturned]
  · rintro s a t hprev ⟨hdated, hnone⟩ ⟨hstamps, hjump⟩ hstep
    obtain ⟨pending, haccounted⟩ :=
      reachable_accounted (timed_reachable hprev.reachable)
    have hcases := timedStep_cases hstep
    refine ⟨hcases.dated hdated haccounted hstamps, ?_⟩
    cases hcases with
    | add hclock hstamp hrun =>
        cases step_cases hrun with
        | add hfree => exact hnone.add hdated.length haccounted
    | dispatch hclock hle hrun =>
        have hnobody :=
          (hdated.overtakesNobody_iff hmono haccounted hclock hle).mpr hjump
        cases step_cases hrun with
        | idle _ => exact ⟨hnone.returned, hnone.pending⟩
        | take hsome =>
            have hpending := haccounted.represents.mem_of_select hsome
            apply hnone.take ((haccounted.pending_iff _).mpr hpending)
            exact hnobody _ ((deadlineDispatch_fst ..).trans hsome)

end Steps

/-- When requests are stamped in the order in which they are added, a dispatch
overtakes nobody exactly when no expired read is behind a write that was overdue
when the read was added; in runs without such a dispatch no overdue request is
ever overtaken. -/
theorem deadline_overtaking_iff {jiffiesToMsecs : UInt64 → UInt64}
    (hmono : ∀ a b, a ≤ b → jiffiesToMsecs a ≤ jiffiesToMsecs b)
    {s : TimedRun}
    (hreach : (timedSystem jiffiesToMsecs).ReachableWhile StampedInOrder s) :
    (∀ readNow writeNow, s.now ≤ readNow → readNow ≤ writeNow →
      (OvertakesNobody jiffiesToMsecs s readNow writeNow ↔
        ¬ ReadJumpsWrite jiffiesToMsecs s readNow)) ∧
    ((timedSystem jiffiesToMsecs).ReachableWhile (NoJump jiffiesToMsecs) s →
      NoOvertaking jiffiesToMsecs s) := by
  obtain ⟨pending, haccounted⟩ :=
    reachable_accounted (timed_reachable hreach.reachable)
  have hdated := dated_of_stampedInOrder hreach
  refine ⟨?_, fun hjump => (noOvertaking_of_noJump hmono hjump).2⟩
  intro readNow writeNow hnow hle
  exact hdated.overtakesNobody_iff hmono haccounted hnow hle

/-- Before the first call, at time `0`. -/
def timedStart : TimedRun := ⟨⟨deadlineInit, [], [], 0⟩, 0, []⟩

/-- A read that was added before the write was overdue goes first once it has
expired. -/
theorem deadline_overtaking_sample :
    ∃ s : TimedRun, (timedSystem id).ReachableWhile StampedInOrder s ∧
      s.run.returned.map (fun q => q.req.sector) = [40] ∧ NoOvertaking id s ∧
      OvertakesNobody id s 700 700 := by
  obtain ⟨s, hstamps, hjumps, hreturned, hnow, hnot⟩ : ∃ s,
      (timedSystem id).runWhile StampedInOrder timedStart
        [.add ⟨1, 10, 1, 0⟩ 0, .add ⟨2, 40, 0, 20⟩ 20, .dispatch 600 600] =
          some s ∧
      (timedSystem id).runWhile (NoJump id) timedStart
        [.add ⟨1, 10, 1, 0⟩ 0, .add ⟨2, 40, 0, 20⟩ 20, .dispatch 600 600] =
          some s ∧
      s.run.returned.map (fun q => q.req.sector) = [40] ∧ s.now ≤ 700 ∧
      ¬ ReadJumpsWrite id s 700 :=
    ⟨_, rfl, rfl, by decide, by decide, by decide⟩
  have hinit : (timedSystem id).init timedStart := ⟨⟨rfl, rfl, rfl⟩, rfl⟩
  have hreach : (timedSystem id).ReachableWhile StampedInOrder s :=
    ActionSystem.ReachableWhile.run (.start hinit) hstamps
  obtain ⟨hdispatch, hruns⟩ :=
    deadline_overtaking_iff (fun _ _ hab => hab) hreach
  exact ⟨s, hreach, hreturned,
    hruns (ActionSystem.ReachableWhile.run (.start hinit) hjumps),
    (hdispatch 700 700 hnow (by decide)).mpr hnot⟩

/-- A write is overdue at time `5000`, and a read is added then.  At time `5500`
the read is overdue too and is dispatched before the write. -/
theorem deadline_read_overtakes_write :
    ∃ s : TimedRun, (timedSystem id).Reachable s ∧
      s.run.returned.map (fun q => q.req.sector) = [40] ∧
      s.run.dd.dispatch.map (fun q => q.req.sector) = [10] ∧
      ¬ NoOvertaking id s := by
  obtain ⟨s, hrun, hreturned, hpending, r, hr, q, hq, hover⟩ : ∃ s,
      (timedSystem id).run timedStart
        [.add ⟨1, 10, 1, 0⟩ 0, .add ⟨2, 40, 0, 5000⟩ 5000,
          .dispatch 5500 5500] = some s ∧
      s.run.returned.map (fun q => q.req.sector) = [40] ∧
      s.run.dd.dispatch.map (fun q => q.req.sector) = [10] ∧
      ∃ r, r ∈ s.run.returned ∧ ∃ q, s.run.Pending q ∧ Overtakes id s r q :=
    ⟨_, rfl, by decide, by decide, ⟨⟨2, 40, 0, 5000⟩, 1⟩, by decide,
      ⟨⟨1, 10, 1, 0⟩, 0⟩, ⟨by decide, by decide⟩, by decide, by decide⟩
  have hinit : (timedSystem id).init timedStart := ⟨⟨rfl, rfl, rfl⟩, rfl⟩
  refine ⟨s, ActionSystem.Reachable.run (.start hinit) hrun, hreturned,
    hpending, ?_⟩
  intro hnone
  exact hnone.pending r hr q hq hover

end IoSched
end OsKernel

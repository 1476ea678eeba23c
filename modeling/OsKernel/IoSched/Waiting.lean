import OsKernel.IoSched.Overtaking
import OsKernel.IoSched.CfqService

/-!
# How long a request waits

The deadline scheduler promises that no request waits for ever.  Once a request
is overdue its place in its FIFO counts (`Run.ahead`): every dispatch takes a
request from before it, and what is added later goes behind it.  So an overdue
read is returned after as many further dispatches as there are reads before it,
whatever else is added.  An overdue write waits in addition for the reads that
expire meanwhile.

CFQ promises fair shares.  But one request of at least `cfq_slice` bytes uses up
a slice, and the slice is 100 bytes, less than a sector.  With such requests
`cfq_dispatch` looks for a queue from the head of the list each time: it serves
the process that was the first to get a queue until that one has nothing left,
then the second, and so on.
-/

namespace OsKernel
namespace IoSched

open Lib

/-! ## Deadline: the requests before an overdue one -/

/-- The FIFO of a request's class. -/
def Deadline.fifoOf (dd : Deadline) (q : Queued) : List Queued :=
  if q.isRead then dd.readFifo else dd.writeFifo

/-- How many requests are before `q` in the FIFO of its class. -/
def Run.ahead (s : Run) (q : Queued) : Nat :=
  (s.dd.fifoOf q).countP fun b => b.arrival < q.arrival

/-- How many reads have been returned. -/
def Run.readsReturned (s : Run) : Nat := s.returned.countP Queued.isRead

/-- The request is pending, and overdue by the last time the clock was read. -/
structure Run.Late (s : Run) (jiffiesToMsecs : UInt64 → UInt64) (q : Queued) :
    Prop where
  pending : s.Pending q
  overdue : age jiffiesToMsecs s.clock q ≥ (s.dd.deadlineOf q).toUInt64

/-- How many of the calls are dispatches. -/
def dispatchCount (actions : List Action) : Nat :=
  actions.countP fun
    | .add _ => false
    | .dispatch _ _ => true

theorem dispatchCount_cons (a : Action) (rest : List Action) :
    dispatchCount (a :: rest) = dispatchCount [a] + dispatchCount rest := by
  rw [← List.singleton_append]
  exact List.countP_append

instance (s : Run) : (a : Action) → Decidable (Timely s a)
  | .add r => inferInstanceAs (Decidable (s.clock ≤ r.jiffies))
  | .dispatch readNow writeNow =>
      inferInstanceAs (Decidable (s.clock ≤ readNow ∧ readNow ≤ writeNow))

theorem Timely.clock_le {s t : Run} {jiffiesToMsecs : UInt64 → UInt64}
    {a : Action} (h : Timely s a) (hstep : Step jiffiesToMsecs s a t) :
    s.clock ≤ t.clock := by
  cases hstep with
  | add hfree => exact h
  | idle hnone => exact UInt64.le_trans h.1 h.2
  | take hsome => exact UInt64.le_trans h.1 h.2

section Deadline

variable {jiffiesToMsecs : UInt64 → UInt64} {s t : Run} {pending : List Queued}
  {q r : Queued}

theorem Represents.fifoOf_eq {dd : Deadline} (h : Represents dd pending)
    (q : Queued) :
    dd.fifoOf q = pending.filter fun b => b.isRead == q.isRead := by
  cases hread : q.isRead with
  | true => simp [Deadline.fifoOf, hread, h.reads]
  | false => simp [Deadline.fifoOf, hread, h.writes]

theorem Accounted.ahead_eq (h : Accounted s pending) (q : Queued) :
    s.ahead q =
      (pending.filter fun b => b.isRead == q.isRead).countP
        fun b => b.arrival < q.arrival := by
  rw [Run.ahead, h.represents.fifoOf_eq]

/-- The head of the FIFO of a pending request is that request or one before
it. -/
theorem Accounted.head_fifoOf (h : Accounted s pending) (hq : s.Pending q)
    (hr : (s.dd.fifoOf q).head? = some r) :
    r = q ∨ (r.isRead = q.isRead ∧ r.arrival < q.arrival) := by
  rw [h.represents.fifoOf_eq] at hr
  obtain ⟨⟨hpending, hclass⟩, hfirst⟩ := h.earliest_head hr
  rcases (hfirst q hq rfl).lt_or_eq with hlt | heq
  · exact Or.inr ⟨hclass, hlt⟩
  · left
    have hdistinct := h.represents.arrival.imp fun hab => Nat.ne_of_lt hab
    exact List.inj_on_of_nodup_map (List.pairwise_map.mpr hdistinct)
      ((h.pending_iff r).mp hpending) ((h.pending_iff q).mp hq) heq

/-- The head of the FIFO of an overdue request has expired, at any later
time. -/
theorem Accounted.headExpired_of_late
    (hmono : ∀ a b, a ≤ b → jiffiesToMsecs a ≤ jiffiesToMsecs b)
    (h : Accounted s pending) (hstamped : Stamped s pending)
    (hlate : s.Late jiffiesToMsecs q) {now : UInt64} (hnow : s.clock ≤ now) :
    headExpired jiffiesToMsecs now (s.dd.deadlineOf q) (s.dd.fifoOf q) =
      true := by
  have hmem := (h.pending_iff q).mp hlate.pending
  rw [h.represents.fifoOf_eq,
    headExpired_iff_overdue hmono h hstamped hnow q.isRead]
  exact ⟨q, hlate.pending, rfl, UInt64.le_trans hlate.overdue
    (age_le_age hmono (UInt64.le_refl _) (hstamped.past q hmem) hnow)⟩

/-- What a dispatch takes while `q` is overdue: `q` itself, a request before it
in its FIFO, or, if `q` is a write, a read. -/
theorem Accounted.select_of_late
    (hmono : ∀ a b, a ≤ b → jiffiesToMsecs a ≤ jiffiesToMsecs b)
    (h : Accounted s pending) (hstamped : Stamped s pending)
    (hlate : s.Late jiffiesToMsecs q) {readNow writeNow : UInt64}
    (htimely : Timely s (.dispatch readNow writeNow)) :
    ∃ r, deadlineSelect jiffiesToMsecs readNow writeNow s.dd = some r ∧
      (r = q ∨ (r.isRead = q.isRead ∧ r.arrival < q.arrival) ∨
        (q.isRead = false ∧ r.isRead = true)) := by
  obtain ⟨hclock, hle⟩ := htimely
  have hfifo : ∀ r, (s.dd.fifoOf q).head? = some r →
      r = q ∨ (r.isRead = q.isRead ∧ r.arrival < q.arrival) ∨
        (q.isRead = false ∧ r.isRead = true) := by
    intro r hr
    rcases h.head_fifoOf hlate.pending hr with heq | hbefore
    · exact Or.inl heq
    · exact Or.inr (Or.inl hbefore)
  by_cases hread : q.isRead = true
  · have hexpired := h.headExpired_of_late hmono hstamped hlate hclock
    rw [Deadline.deadlineOf, if_pos hread] at hexpired
    obtain ⟨r, hr, -⟩ := head_of_headExpired hexpired
    refine ⟨r, ?_, hfifo r hr⟩
    rw [Deadline.fifoOf, if_pos hread] at hexpired hr
    rw [deadlineSelect, deadlineReadExpired, if_pos hexpired, hr]
  · by_cases hreads : deadlineReadExpired jiffiesToMsecs readNow s.dd = true
    · -- An expired read goes before all writes.
      obtain ⟨r, hr, -⟩ := head_of_headExpired hreads
      have hmem := List.mem_of_head? hr
      rw [h.represents.reads] at hmem
      refine ⟨r, by rw [deadlineSelect, if_pos hreads, hr], Or.inr (Or.inr ?_)⟩
      exact ⟨by simpa using hread, List.of_mem_filter hmem⟩
    · have hexpired := h.headExpired_of_late hmono hstamped hlate
        (UInt64.le_trans hclock hle)
      rw [Deadline.deadlineOf, if_neg hread] at hexpired
      obtain ⟨r, hr, -⟩ := head_of_headExpired hexpired
      refine ⟨r, ?_, hfifo r hr⟩
      rw [Deadline.fifoOf, if_neg hread] at hexpired hr
      rw [deadlineSelect, if_neg hreads, deadlineWriteExpired,
        if_pos hexpired, hr]

/-- A request that is added goes behind those that are there. -/
theorem Accounted.ahead_add (h : Accounted s pending) (hq : q ∈ pending)
    {new : Request} (hfree : ∀ b ∈ s.dd.dispatch, b.addr ≠ new.addr) :
    Run.ahead
      { s with
        dd := deadlineAddRequest s.dd ⟨new, s.added.length⟩
        added := s.added ++ [⟨new, s.added.length⟩]
        clock := new.jiffies } q = s.ahead q := by
  have hlt := h.arrival_lt hq
  rw [(h.add hfree).ahead_eq, h.ahead_eq, List.filter_append,
    List.countP_append, List.countP_filter (l := [_])]
  simp only [List.countP_singleton]
  rw [if_neg, Nat.add_zero]
  simp only [Bool.and_eq_true, decide_eq_true_eq, not_and]
  intro hlate
  omega

/-- A request that is taken no longer counts. -/
theorem Accounted.ahead_take (h : Accounted s pending) (hr : r ∈ pending)
    (now : UInt64) (q : Queued) :
    s.ahead q =
      Run.ahead
        { s with
          dd := s.dd.unlink r
          returned := s.returned ++ [r]
          clock := now } q +
      if r.isRead = q.isRead ∧ r.arrival < q.arrival then 1 else 0 := by
  have hperm : pending.Perm (r :: listDel r.addr pending) :=
    perm_cons_filter_key h.represents.addr hr
  rw [(h.take hr now).ahead_eq, h.ahead_eq, List.countP_filter,
    List.countP_filter, hperm.countP_eq, List.countP_cons]
  simp [and_comm]

/-- The reads returned count for a write only. -/
def Run.passed (s : Run) (q : Queued) : Nat :=
  if q.isRead then 0 else s.readsReturned

theorem Step.deadlineOf_eq {a : Action} (hstep : Step jiffiesToMsecs s a t)
    (q : Queued) : t.dd.deadlineOf q = s.dd.deadlineOf q := by
  cases hstep with
  | @add new hfree =>
      obtain ⟨hread, hwrite⟩ :=
        deadlineAddRequest_deadlines s.dd ⟨new, s.added.length⟩
      simp only [Deadline.deadlineOf, hread, hwrite]
  | idle hnone => rfl
  | take hsome => rfl

theorem Step.mem_added {a : Action} (hstep : Step jiffiesToMsecs s a t)
    (hq : q ∈ s.added) : q ∈ t.added := by
  cases hstep with
  | add hfree => exact List.mem_append_left _ hq
  | idle hnone => exact hq
  | take hsome => exact hq

/-- An overdue request stays overdue until it is returned. -/
theorem Run.Late.step
    (hmono : ∀ a b, a ≤ b → jiffiesToMsecs a ≤ jiffiesToMsecs b)
    (hlate : s.Late jiffiesToMsecs q) (hpast : q.req.jiffies ≤ s.clock)
    {a : Action} (htimely : Timely s a) (hstep : Step jiffiesToMsecs s a t)
    (hnot : q ∉ t.returned) : t.Late jiffiesToMsecs q where
  pending := ⟨hstep.mem_added hlate.pending.1, hnot⟩
  overdue := by
    rw [hstep.deadlineOf_eq]
    exact UInt64.le_trans hlate.overdue
      (age_le_age hmono (UInt64.le_refl _) hpast (htimely.clock_le hstep))

/-- While an overdue request waits, each dispatch takes away one of those before
it in its FIFO or returns a read that passes it. -/
theorem Accounted.ahead_step
    (hmono : ∀ a b, a ≤ b → jiffiesToMsecs a ≤ jiffiesToMsecs b)
    (h : Accounted s pending) (hstamped : Stamped s pending)
    (hlate : s.Late jiffiesToMsecs q) {a : Action} (htimely : Timely s a)
    (hstep : Step jiffiesToMsecs s a t) (hnot : q ∉ t.returned) :
    dispatchCount [a] + t.ahead q + s.passed q = s.ahead q + t.passed q := by
  have hmem := (h.pending_iff q).mp hlate.pending
  cases hstep with
  | add hfree =>
      rw [h.ahead_add hmem hfree]
      simp [dispatchCount, Run.passed, Run.readsReturned]
  | idle hnone =>
      rw [h.represents.select_eq_none_iff] at hnone
      simp [hnone] at hmem
  | @take readNow writeNow r hsome =>
      obtain ⟨r', hr', hcases⟩ :=
        h.select_of_late hmono hstamped hlate htimely
      obtain rfl : r = r' := Option.some.inj (hsome.symm.trans hr')
      rw [h.ahead_take (h.represents.mem_of_select hsome) writeNow q]
      have hcount : dispatchCount [.dispatch readNow writeNow] = 1 := rfl
      have hreads : (s.returned ++ [r]).countP Queued.isRead =
          s.readsReturned + if r.isRead then 1 else 0 := by
        rw [List.countP_append, List.countP_singleton]
        rfl
      simp only [hcount, Run.passed, Run.readsReturned] at hreads ⊢
      rw [hreads]
      rcases hcases with rfl | hbefore | ⟨hwrite, hread⟩
      · simp at hnot
      · -- One less before it; it is not a read that passes a write.
        rw [if_pos hbefore, hbefore.1]
        cases q.isRead with
        | true => simp [Nat.add_comm]
        | false =>
            simp only [Bool.false_eq_true, if_false]
            omega
      · have hother : ¬ (r.isRead = q.isRead ∧ r.arrival < q.arrival) := by
          simp [hwrite, hread]
        rw [if_neg hother, hwrite, hread]
        simp only [Bool.false_eq_true, if_false, if_true]
        omega

theorem returned_of_step {a : Action}
    (hstep : (system jiffiesToMsecs).step s a = some t)
    (hq : q ∈ s.returned) : q ∈ t.returned := by
  cases step_cases hstep with
  | add hfree => exact hq
  | idle hnone => exact hq
  | take hsome => exact List.mem_append_left _ hq

theorem ahead_run
    (hmono : ∀ a b, a ≤ b → jiffiesToMsecs a ≤ jiffiesToMsecs b)
    (hreach : (system jiffiesToMsecs).ReachableWhile Timely s)
    (hlate : s.Late jiffiesToMsecs q) {actions : List Action}
    (hrun : (system jiffiesToMsecs).runWhile Timely s actions = some t) :
    q ∈ t.returned ∨
      dispatchCount actions + t.ahead q + s.passed q =
        s.ahead q + t.passed q := by
  induction actions generalizing s with
  | nil =>
      obtain rfl := Option.some.inj hrun
      right
      simp [dispatchCount]
  | cons a rest ih =>
      rw [ActionSystem.runWhile] at hrun
      split at hrun
      next htimely =>
        obtain ⟨u, hstep, hrest⟩ := Option.bind_eq_some_iff.mp hrun
        obtain ⟨pending, h, hstamped⟩ := reachable_stamped hreach
        have hu := hreach.next htimely hstep
        by_cases hnot : q ∈ u.returned
        · left
          exact ActionSystem.of_runWhile (P := fun s => q ∈ s.returned)
            (fun _ _ _ hq hstep => returned_of_step hstep hq) hnot hrest
        · have hpast := hstamped.past q ((h.pending_iff q).mp hlate.pending)
          have hone := h.ahead_step hmono hstamped hlate htimely
            (step_cases hstep) hnot
          rcases ih hu (hlate.step hmono hpast htimely (step_cases hstep) hnot)
            hrest with hreturned | hmany
          · exact Or.inl hreturned
          · right
            have hcount := dispatchCount_cons a rest
            omega
      next => contradiction

end Deadline

/-- An overdue read is returned after as many further dispatches as there are
reads before it in its FIFO; an overdue write after as many as there are writes
before it and reads returned meanwhile.  What is added does not matter. -/
theorem overdue_served {jiffiesToMsecs : UInt64 → UInt64}
    (hmono : ∀ a b, a ≤ b → jiffiesToMsecs a ≤ jiffiesToMsecs b) {s t : Run}
    (hreach : (system jiffiesToMsecs).ReachableWhile Timely s) {q : Queued}
    (hlate : s.Late jiffiesToMsecs q) {actions : List Action}
    (hrun : (system jiffiesToMsecs).runWhile Timely s actions = some t) :
    (q.isRead = true → s.ahead q < dispatchCount actions → q ∈ t.returned) ∧
    (q.isRead = false →
      s.ahead q + (t.readsReturned - s.readsReturned) < dispatchCount actions →
      q ∈ t.returned) := by
  rcases ahead_run hmono hreach hlate hrun with hreturned | hcount
  · exact ⟨fun _ _ => hreturned, fun _ _ => hreturned⟩
  · constructor
    · intro hread hmany
      simp only [Run.passed, hread, if_true] at hcount
      omega
    · intro hwrite hmany
      simp only [Run.passed, hwrite, Bool.false_eq_true, if_false] at hcount
      omega

/-- Two reads queued at time `0` and one at `5`; the first two are overdue at
`600`.  Two dispatches return both although reads of lower sectors come in
between. -/
theorem overdue_served_sample :
    ∃ s t q, (system id).ReachableWhile Timely s ∧ s.Late id q ∧
      s.ahead q = 1 ∧
      (system id).runWhile Timely s
        [.add ⟨4, 5, 0, 700⟩, .dispatch 700 700, .add ⟨5, 6, 0, 701⟩,
          .dispatch 800 800] = some t ∧
      q ∈ t.returned := by
  obtain ⟨s, hstart, hlate, hahead⟩ : ∃ s,
      (system id).runWhile Timely ⟨deadlineInit, [], [], 0⟩
        [.add ⟨1, 90, 0, 0⟩, .add ⟨2, 80, 0, 0⟩, .add ⟨3, 10, 0, 5⟩,
          .dispatch 20 20, .add ⟨3, 10, 0, 600⟩] = some s ∧
      s.Late id ⟨⟨2, 80, 0, 0⟩, 1⟩ ∧ s.ahead ⟨⟨2, 80, 0, 0⟩, 1⟩ = 1 :=
    ⟨_, rfl, ⟨⟨by decide, by decide⟩, by decide⟩, by decide⟩
  have hreach : (system id).ReachableWhile Timely s :=
    ActionSystem.ReachableWhile.run (.start ⟨rfl, rfl, rfl⟩) hstart
  obtain ⟨t, hrun⟩ : ∃ t, (system id).runWhile Timely s
      [.add ⟨4, 5, 0, 700⟩, .dispatch 700 700, .add ⟨5, 6, 0, 701⟩,
        .dispatch 800 800] = some t := by
    cases hstart
    exact ⟨_, rfl⟩
  refine ⟨s, t, _, hreach, hlate, hahead, hrun, ?_⟩
  refine (overdue_served (fun _ _ hab => hab) hreach hlate hrun).1 rfl ?_
  rw [hahead]
  decide

/-! ## CFQ: requests as long as a slice -/

/-- `a` is to be served before `b`: its process got a queue first, or they are
of one process and `a` is first by sector and arrival. -/
def Cfq.Precedes (c : Cfq) (a b : CfqRequest) : Prop :=
  c.pos a.pid < c.pos b.pid ∨
    (a.pid = b.pid ∧ Before a.toQueued b.toQueued)

section Cfq

variable {c c' : Cfq} {s : CfqRun}

/-- The queues stand in the order of their places. -/
theorem Cfq.Formed.pos_lt (h : c.Formed) :
    c.cfqQueues.Pairwise fun x y => c.pos x.pid < c.pos y.pid := by
  rw [List.pairwise_iff_getElem]
  intro i j hi hj hij
  have hpos : ∀ k (hk : k < c.cfqQueues.length),
      c.pos c.cfqQueues[k].pid = k := by
    intro k hk
    have hidx := h.pids.idxOf_getElem k (by simpa using hk)
    rwa [List.getElem_map] at hidx
  rw [hpos i hi, hpos j hj]
  exact hij

/-- So the requests, queue by queue, stand in the order of service. -/
theorem Cfq.Formed.requests_pairwise (h : c.Formed) :
    c.requests.Pairwise c.Precedes := by
  rw [Cfq.requests, List.pairwise_flatMap]
  constructor
  · intro q hq
    refine List.Pairwise.imp_of_mem ?_ (h.sorted q hq)
    intro a b ha hb hbefore
    exact Or.inr ⟨(h.owner q hq a ha).trans (h.owner q hq b hb).symm, hbefore⟩
  · refine List.Pairwise.imp_of_mem ?_ h.pos_lt
    intro x y hx hy hlt a ha b hb
    left
    rw [h.owner x hx a ha, h.owner y hy b hb]
    exact hlt

/-- When one request uses up a slice, a dispatch takes the first of them. -/
theorem SliceUsed.requests_of_dispatches (h : SliceUsed c)
    {out : Option CfqRequest} (hdispatches : Dispatches c out c') :
    c.requests = out.toList ++ c'.requests ∧
      (out = none → c.requests = []) := by
  cases hdispatches with
  | idle hover hempty =>
      exact ⟨rfl, fun _ => List.flatMap_eq_nil_iff.mpr hempty⟩
  | wait hactive hleft hempty =>
      obtain ⟨haddr, hmem⟩ := Cfq.active_mem hactive
      exact absurd (h.used _ hmem haddr) (UInt32.not_le.mpr hleft)
  | resume hactive hleft hsplit hqueue =>
      obtain ⟨haddr, hmem⟩ := Cfq.active_mem hactive
      exact absurd (h.used _ hmem haddr) (UInt32.not_le.mpr hleft)
  | @select before after q r rest hover hsplit hbefore hqueue =>
      have hnil : before.flatMap CfqQueue.queue = [] :=
        List.flatMap_eq_nil_iff.mpr hbefore
      refine ⟨?_, fun hnone => by contradiction⟩
      simp [Cfq.requests, hsplit, hnil, hqueue]

/-- Dispatch after dispatch takes the requests in this order. -/
theorem CfqAccounted.drain (h : CfqAccounted s) (hused : SliceUsed s.cfq)
    (n : Nat) :
    ∃ t, cfqSystem.run s (List.replicate n .dispatch) = some t ∧
      t.returned = s.returned ++ s.cfq.requests.take n := by
  induction n generalizing s with
  | zero => exact ⟨s, rfl, by simp⟩
  | succ n ih =>
      obtain ⟨u, hstep⟩ : ∃ u, cfqSystem.step s .dispatch = some u := ⟨_, rfl⟩
      have hcases := cfqStep_cases h.formed hstep
      have hnext := hcases.accounted h
      rw [List.replicate_succ, ActionSystem.run, hstep]
      cases hcases with
      | idle hnone =>
          obtain ⟨t, hrun, hreturned⟩ := ih h hused
          obtain ⟨-, hnil⟩ := hused.requests_of_dispatches hnone
          refine ⟨t, hrun, ?_⟩
          rw [hreturned, hnil rfl, List.take_nil, List.take_nil]
      | serve hsome =>
          obtain ⟨t, hrun, hreturned⟩ :=
            ih hnext (hused.dispatches h.formed hsome)
          refine ⟨t, hrun, ?_⟩
          rw [hreturned, (hused.requests_of_dispatches hsome).1]
          simp

end Cfq

/-- If every request is at least as long as a slice, CFQ serves the processes
by strict priority: the pending requests are taken in the order of the first
requests of their processes, and by sector for one process.  So nothing of a
process is served while one with an earlier queue has a request pending. -/
theorem cfq_strict_priority {s : CfqRun}
    (hreach : cfqSystem.ReachableWhile FillsSlice s) :
    ∃ order : List CfqRequest,
      (∀ r, r ∈ order ↔ r ∈ s.added ∧ r ∉ s.returned) ∧
      order.Pairwise s.cfq.Precedes ∧
      ∀ n, ∃ t, cfqSystem.run s (List.replicate n .dispatch) = some t ∧
        t.returned = s.returned ++ order.take n := by
  have haccounted := cfq_accounted hreach.reachable
  exact ⟨s.cfq.requests, haccounted.ledger.mem_pending_iff,
    haccounted.formed.requests_pairwise,
    haccounted.drain (sliceUsed_of_fillsSlice hreach)⟩

/-- The second process waits while the first one is served three times. -/
theorem cfq_strict_priority_sample :
    ∃ s : CfqRun, cfqSystem.ReachableWhile FillsSlice s ∧
      s.returned.map (fun r => r.pid) = [1] ∧
      ∃ order : List CfqRequest,
        (∀ r, r ∈ order ↔ r ∈ s.added ∧ r ∉ s.returned) ∧
        order.Pairwise s.cfq.Precedes ∧
        ∀ n, ∃ t, cfqSystem.run s (List.replicate n .dispatch) = some t ∧
          t.returned = s.returned ++ order.take n := by
  obtain ⟨s, hrun, hreturned⟩ : ∃ s,
      cfqSystem.runWhile FillsSlice cfqStart
        [.add 1 ⟨1, 10, 0, 0⟩ 512 100, .add 2 ⟨2, 5, 0, 0⟩ 512 200, .dispatch,
          .add 1 ⟨3, 70, 0, 0⟩ 512 300, .add 1 ⟨4, 30, 0, 0⟩ 512 300] =
          some s ∧
      s.returned.map (fun r => r.pid) = [1] :=
    ⟨_, rfl, by decide⟩
  have hreach : cfqSystem.ReachableWhile FillsSlice s :=
    ActionSystem.ReachableWhile.run (.start ⟨rfl, rfl, rfl, rfl⟩) hrun
  exact ⟨s, hreach, hreturned, cfq_strict_priority hreach⟩

end IoSched
end OsKernel

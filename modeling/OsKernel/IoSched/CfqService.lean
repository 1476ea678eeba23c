import OsKernel.IoSched.CfqQueues
import OsKernel.Lib.Rotation

/-!
# Whom the CFQ scheduler serves

At the end of a slice `cfq_dispatch` looks for the next queue from the head of
the list, not from the place after the active one, and during a slice it does
not look at the other queues at all.  So it is neither work conserving nor
fair in general:

* an active queue that runs empty before its slice is used up makes the
  dispatch return `NULL`, whatever the other processes wait for;
* a process early in the list that keeps adding requests is selected again and
  again.

The places in the list decide when both go well.  `Cfq.pos` is the position of
a process in the list of queues; it does not change once the process has a
queue.
-/

namespace OsKernel
namespace IoSched

open Lib

/-- Every request that was added has been returned. -/
def CfqRun.NothingPending (s : CfqRun) : Prop := ∀ r ∈ s.added, r ∈ s.returned

theorem CfqAccounted.nothingPending_iff {s : CfqRun} (h : CfqAccounted s) :
    s.NothingPending ↔ ∀ q ∈ s.cfq.cfqQueues, q.queue = [] := by
  rw [CfqRun.NothingPending, ← h.ledger.pending_eq_nil_iff, Cfq.requests,
    List.flatMap_eq_nil_iff]

/-! ## Work conservation -/

/-- A dispatch returns `NULL` only if nothing is pending. -/
def WorkConserving (s : CfqRun) : Prop :=
  (cfqDispatch s.cfq).1 = none → s.NothingPending

/-- Every request is as long as a slice. -/
def FillsSlice (s : CfqRun) : CfqAction → Prop
  | .add _ _ bytes _ => s.cfq.cfqSlice ≤ bytes
  | .dispatch => True

instance (s : CfqRun) : (a : CfqAction) → Decidable (FillsSlice s a)
  | .add _ _ bytes _ => inferInstanceAs (Decidable (s.cfq.cfqSlice ≤ bytes))
  | .dispatch => inferInstanceAs (Decidable True)

/-- In runs of such requests one request uses up a slice. -/
structure SliceUsed (c : Cfq) : Prop where
  long : ∀ r ∈ c.requests, c.cfqSlice ≤ r.bytes
  used : ∀ q ∈ c.cfqQueues, c.activeQueue = some q.addr →
    c.cfqSlice ≤ q.dispatched

theorem cfqInit_sliceUsed : SliceUsed cfqInit := by
  constructor <;> simp [cfqInit, Cfq.requests]

theorem Dispatches.cfqSlice_eq {c c' : Cfq} {out : Option CfqRequest}
    (h : Dispatches c out c') : c'.cfqSlice = c.cfqSlice := by
  cases h <;> rfl

theorem SliceUsed.adds {c c' : Cfq} (h : SliceUsed c) (hformed : c.Formed)
    {r : CfqRequest} (hadds : Adds c r c') (hlong : c.cfqSlice ≤ r.bytes) :
    SliceUsed c' := by
  have hlong' : ∀ x ∈ c'.requests, c.cfqSlice ≤ x.bytes := by
    intro x hx
    rcases List.mem_cons.mp (hadds.requests_perm.subset hx) with rfl | hold
    · exact hlong
    · exact h.long x hold
  cases hadds with
  | @known before after q hsplit hpid =>
      refine ⟨hlong', ?_⟩
      intro x hx hactive
      rcases List.mem_append.mp hx with hbefore | hrest
      · exact h.used x (by simp [hsplit, hbefore]) hactive
      · rcases List.mem_cons.mp hrest with rfl | hafter
        · exact h.used q (by simp [hsplit]) hactive
        · exact h.used x (by simp [hsplit, hafter]) hactive
  | @fresh addr haddr hpid =>
      refine ⟨hlong', ?_⟩
      intro x hx hactive
      rcases List.mem_append.mp hx with hold | hnew
      · exact h.used x hold hactive
      · -- The new queue is not the active one: that was there before.
        rw [List.mem_singleton.mp hnew] at hactive
        obtain ⟨q, hq, heq⟩ := hformed.active _ hactive
        exact absurd heq (haddr q hq)

theorem SliceUsed.dispatches {c c' : Cfq} (h : SliceUsed c)
    (hformed : c.Formed) {r : CfqRequest}
    (hdispatches : Dispatches c (some r) c') : SliceUsed c' := by
  have hformed' := hformed.dispatches hdispatches
  have hr : r ∈ c.requests :=
    hdispatches.requests_perm.symm.subset (List.mem_cons_self ..)
  have hlong : ∀ x ∈ c'.requests, c'.cfqSlice ≤ x.bytes := by
    intro x hx
    rw [hdispatches.cfqSlice_eq]
    exact h.long x
      (hdispatches.requests_perm.symm.subset (List.mem_cons_of_mem _ hx))
  cases hdispatches with
  | resume hactive hleft hsplit hqueue =>
      obtain ⟨haddr, hmem⟩ := Cfq.active_mem hactive
      exact absurd (h.used _ hmem haddr) (UInt32.not_le.mpr hleft)
  | @select before after q _ rest hover hsplit hbefore hqueue =>
      refine ⟨hlong, ?_⟩
      intro x hx hactive
      have hsame : x = { q with queue := rest, dispatched := r.bytes } :=
        List.inj_on_of_nodup_map hformed'.addrs hx (by simp)
          (Option.some.inj hactive).symm
      rw [hsame]
      exact h.long r hr

theorem sliceUsed_of_fillsSlice {s : CfqRun}
    (hreach : cfqSystem.ReachableWhile FillsSlice s) : SliceUsed s.cfq := by
  refine hreach.invariant (P := fun s => SliceUsed s.cfq) ?_ ?_
  · intro s hinit
    rw [hinit.1]
    exact cfqInit_sliceUsed
  · intro s a t hprev hused hok hstep
    have haccounted := cfq_accounted hprev.reachable
    cases cfqStep_cases haccounted.formed hstep with
    | add hadds => exact hused.adds haccounted.formed hadds hok
    | idle hnone => exact hused
    | serve hsome => exact hused.dispatches haccounted.formed hsome

theorem CfqAccounted.workConserving_iff {s : CfqRun} (h : CfqAccounted s) :
    WorkConserving s ↔
      ∀ q, s.cfq.active = some q → q.queue = [] →
        q.dispatched < s.cfq.cfqSlice → s.NothingPending := by
  have hdispatches := cfqDispatch_dispatches h.formed.addrs
  constructor
  · intro hconserving q hactive hempty hleft
    apply hconserving
    have hkeep : cfqSwitch s.cfq = s.cfq := by
      simp [cfqSwitch, Cfq.sliceOver_of_left hactive hleft]
    simp [cfqDispatch, hkeep, hactive, hempty]
  · intro hcond hnone
    rw [hnone] at hdispatches
    generalize (cfqDispatch s.cfq).2 = c at hdispatches
    cases hdispatches with
    | idle hover hempty => exact h.nothingPending_iff.mpr hempty
    | wait hactive hleft hempty => exact hcond _ hactive hempty hleft

/-- A dispatch returns `NULL` with requests pending exactly when the active
queue is empty and has a part of its slice left.  This does not happen in runs
of requests that are as long as a slice. -/
theorem cfq_workConserving_iff {s : CfqRun} (hreach : cfqSystem.Reachable s) :
    (WorkConserving s ↔
      ∀ q, s.cfq.active = some q → q.queue = [] →
        q.dispatched < s.cfq.cfqSlice → s.NothingPending) ∧
    (cfqSystem.ReachableWhile FillsSlice s → WorkConserving s) := by
  have haccounted := cfq_accounted hreach
  refine ⟨haccounted.workConserving_iff, ?_⟩
  intro hfills
  have hused := sliceUsed_of_fillsSlice hfills
  rw [haccounted.workConserving_iff]
  intro q hactive _ hleft
  obtain ⟨haddr, hmem⟩ := Cfq.active_mem hactive
  exact absurd (hused.used q hmem haddr) (UInt32.not_le.mpr hleft)

/-- Two processes with a request of 512 bytes each; one is served and the next
dispatch serves the other. -/
theorem cfq_workConserving_sample :
    ∃ s : CfqRun, cfqSystem.Reachable s ∧ WorkConserving s ∧
      s.returned.map (fun r => r.pid) = [1] ∧ s.cfq.hasPending 2 = true := by
  obtain ⟨s, hrun, hreturned, hpending⟩ : ∃ s,
      cfqSystem.runWhile FillsSlice cfqStart
        [.add 1 ⟨1, 10, 0, 0⟩ 512 100, .add 2 ⟨2, 40, 0, 0⟩ 512 200, .dispatch] =
          some s ∧
      s.returned.map (fun r => r.pid) = [1] ∧ s.cfq.hasPending 2 = true :=
    ⟨_, rfl, by decide, by decide⟩
  have hfills : cfqSystem.ReachableWhile FillsSlice s :=
    ActionSystem.ReachableWhile.run (.start ⟨rfl, rfl, rfl, rfl⟩) hrun
  have hreach := hfills.reachable
  exact ⟨s, hreach, (cfq_workConserving_iff hreach).2 hfills, hreturned,
    hpending⟩

/-- A process whose only request has no bytes, as a flush has, is served.  Its
slice goes on, and the next dispatch returns `NULL` although the other process
waits. -/
theorem cfq_null_while_pending :
    ∃ s : CfqRun, cfqSystem.Reachable s ∧ s.cfq.hasPending 2 = true ∧
      (cfqDispatch s.cfq).1 = none ∧ ¬ WorkConserving s := by
  obtain ⟨s, hrun, hpending, hnone, r, hadded, hreturned⟩ : ∃ s,
      cfqSystem.run cfqStart
        [.add 1 ⟨1, 10, 2, 0⟩ 0 100, .add 2 ⟨2, 40, 0, 0⟩ 512 200, .dispatch] =
          some s ∧
      s.cfq.hasPending 2 = true ∧ (cfqDispatch s.cfq).1 = none ∧
      ∃ r, r ∈ s.added ∧ r ∉ s.returned :=
    ⟨_, rfl, by decide, by decide, ⟨⟨⟨2, 40, 0, 0⟩, 1⟩, 512, 2⟩, by decide,
      by decide⟩
  have hreach : cfqSystem.Reachable s :=
    ActionSystem.Reachable.run cfqStart_reachable hrun
  exact ⟨s, hreach, hpending, hnone,
    fun hconserving => hreturned (hconserving hnone r hadded)⟩

/-! ## Places in the list -/

/-- The processes in the order of their queues. -/
def Cfq.pids (c : Cfq) : List Int := c.cfqQueues.map CfqQueue.pid

/-- The position of a process's queue in the list. -/
def Cfq.pos (c : Cfq) (pid : Int) : Nat := c.pids.idxOf pid

theorem Cfq.pid_mem_pids {c : Cfq} {q : CfqQueue} (hq : q ∈ c.cfqQueues) :
    q.pid ∈ c.pids :=
  List.mem_map_of_mem hq

theorem Cfq.pos_ne {c : Cfq} {p x : Int} (hp : p ∈ c.pids) (hne : p ≠ x) :
    c.pos p ≠ c.pos x := by
  intro heq
  exact hne ((List.idxOf_inj hp).mp heq)

/-- The queue that a selection finds is the first one that is not empty. -/
theorem Cfq.Formed.pos_le_of_first {c : Cfq} (h : c.Formed)
    {before after : List CfqQueue} {q x : CfqQueue}
    (hsplit : c.cfqQueues = before ++ q :: after)
    (hbefore : ∀ b ∈ before, b.queue = []) (hx : x ∈ c.cfqQueues)
    (hne : x.queue ≠ []) : c.pos q.pid ≤ c.pos x.pid := by
  have hpids := h.pids
  rw [hsplit] at hpids hx
  rw [Cfq.pos, Cfq.pos, Cfq.pids, hsplit, idxOf_split hpids]
  rcases List.mem_append.mp hx with hin | hrest
  · exact absurd (hbefore x hin) hne
  · rcases List.mem_cons.mp hrest with rfl | hafter
    · rw [idxOf_split hpids]
    · exact (lt_idxOf_of_mem_after hpids hafter).le

theorem Cfq.hasPending_iff {c : Cfq} {pid : Int} :
    c.hasPending pid = true ↔ ∃ q ∈ c.cfqQueues, q.pid = pid ∧ q.queue ≠ [] := by
  simp [Cfq.hasPending]

/-- What a dispatch at the end of a slice serves, if anything is pending: the
first queue that is not empty. -/
theorem Cfq.Formed.dispatch_of_sliceOver {c : Cfq} (h : c.Formed)
    (hover : c.sliceOver = true) (hpending : ∃ q ∈ c.cfqQueues, q.queue ≠ []) :
    ∃ q ∈ c.cfqQueues, q.queue ≠ [] ∧
      (∃ r, (cfqDispatch c).1 = some r ∧ r.pid = q.pid) ∧
      ∀ x ∈ c.cfqQueues, x.queue ≠ [] → c.pos q.pid ≤ c.pos x.pid := by
  have hdispatches := cfqDispatch_dispatches h.addrs
  generalize cfqDispatch c = result at hdispatches ⊢
  obtain ⟨out, c'⟩ := result
  cases hdispatches with
  | idle _ hempty =>
      obtain ⟨q, hq, hne⟩ := hpending
      exact absurd (hempty q hq) hne
  | wait hactive hleft _ =>
      rw [Cfq.sliceOver_of_left hactive hleft] at hover
      contradiction
  | resume hactive hleft _ _ =>
      rw [Cfq.sliceOver_of_left hactive hleft] at hover
      contradiction
  | @select before after q r rest _ hsplit hbefore hqueue =>
      have hq : q ∈ c.cfqQueues := by simp [hsplit]
      have howner := h.owner q hq r (by simp [hqueue])
      refine ⟨q, hq, by simp [hqueue], ⟨r, rfl, howner⟩, ?_⟩
      intro x hx hne
      exact h.pos_le_of_first hsplit hbefore hx hne

/-! ## Rotation -/

/-- If the active queue has used up its slice and another process has a request
pending, a dispatch serves another process. -/
def Rotates (s : CfqRun) : Prop :=
  ∀ q ∈ s.cfq.active, s.cfq.cfqSlice ≤ q.dispatched →
    (∃ r ∈ s.added, r ∉ s.returned ∧ r.pid ≠ q.pid) →
    ∃ r, (cfqDispatch s.cfq).1 = some r ∧ r.pid ≠ q.pid

/-- While a process waits, every other process is served in one turn at
most. -/
def OneTurnEach (s : CfqRun) : Prop :=
  ∀ p x t t', (x, t) ∈ s.since p → (x, t') ∈ s.since p → t = t'

/-- A selection takes the queue that comes next after the active one: no queue
after it has a request, or none up to it has. -/
def Cfq.InTurn (c : Cfq) : Prop :=
  ∀ q ∈ c.active, c.cfqSlice ≤ q.dispatched →
    (∀ x ∈ c.cfqQueues, x.queue ≠ [] → c.pos x.pid ≤ c.pos q.pid) ∨
    (∀ x ∈ c.cfqQueues, x.queue ≠ [] → c.pos q.pid < c.pos x.pid)

instance (c : Cfq) : Decidable c.InTurn :=
  inferInstanceAs (Decidable (∀ q ∈ c.active, _))

/-- The dispatches of a run come in turn. -/
def DispatchesInTurn (s : CfqRun) : CfqAction → Prop
  | .add _ _ _ _ => True
  | .dispatch => s.cfq.InTurn

instance (s : CfqRun) : (a : CfqAction) → Decidable (DispatchesInTurn s a)
  | .add _ _ _ _ => inferInstanceAs (Decidable True)
  | .dispatch => inferInstanceAs (Decidable s.cfq.InTurn)

/-- The active queue with its slice used up, and the queue that a dispatch then
serves. -/
theorem CfqAccounted.served_of_used {s : CfqRun} (h : CfqAccounted s)
    {q : CfqQueue} (hactive : s.cfq.active = some q)
    (hused : s.cfq.cfqSlice ≤ q.dispatched) {r : CfqRequest}
    (hr : r ∈ s.added ∧ r ∉ s.returned) :
    ∃ y ∈ s.cfq.cfqQueues, y.queue ≠ [] ∧
      (∃ r, (cfqDispatch s.cfq).1 = some r ∧ r.pid = y.pid) ∧
      ∀ x ∈ s.cfq.cfqQueues, x.queue ≠ [] →
        s.cfq.pos y.pid ≤ s.cfq.pos x.pid := by
  apply h.formed.dispatch_of_sliceOver
  · simp [Cfq.sliceOver, hactive, hused]
  · obtain ⟨x, hx, hqueued⟩ :=
      List.mem_flatMap.mp ((h.ledger.mem_pending_iff r).mpr hr)
    exact ⟨x, hx, List.ne_nil_of_mem hqueued⟩

/-- The active process is not served again exactly when its queue is empty or a
queue before it in the list is not. -/
theorem CfqAccounted.rotates_iff {s : CfqRun} (h : CfqAccounted s) :
    Rotates s ↔
      ∀ q ∈ s.cfq.active, s.cfq.cfqSlice ≤ q.dispatched →
        (∃ r ∈ s.added, r ∉ s.returned ∧ r.pid ≠ q.pid) →
        q.queue = [] ∨ ∃ x ∈ s.cfq.cfqQueues, x.queue ≠ [] ∧
          s.cfq.pos x.pid < s.cfq.pos q.pid := by
  refine forall_congr' fun q => forall_congr' fun hactive =>
    forall_congr' fun hused => forall_congr' fun hother => ?_
  obtain ⟨r, hadded, hnot, -⟩ := hother
  obtain ⟨y, hy, hne, ⟨served, hserved, hpid⟩, hfirst⟩ :=
    h.served_of_used hactive hused ⟨hadded, hnot⟩
  obtain ⟨-, hq⟩ := Cfq.active_mem hactive
  constructor
  · rintro ⟨r', hr', hne'⟩
    obtain rfl : served = r' := by simpa [hserved] using hr'
    rw [hpid] at hne'
    by_cases hempty : q.queue = []
    · exact Or.inl hempty
    · right
      have hle := hfirst q hq hempty
      have hdiff := Cfq.pos_ne (Cfq.pid_mem_pids hy) hne'
      exact ⟨y, hy, hne, by omega⟩
  · intro hcond
    refine ⟨served, hserved, ?_⟩
    rw [hpid]
    intro hsame
    obtain rfl := List.inj_on_of_nodup_map h.formed.pids hy hq hsame
    rcases hcond with hempty | ⟨x, hx, hxne, hlt⟩
    · exact hne hempty
    · have hle := hfirst x hx hxne
      omega

/-- Dispatches that come in turn rotate. -/
theorem CfqAccounted.rotates_of_inTurn {s : CfqRun} (h : CfqAccounted s)
    (hturn : s.cfq.InTurn) : Rotates s := by
  rw [h.rotates_iff]
  intro q hactive hused hother
  obtain ⟨r, hadded, hnot, hpid⟩ := hother
  obtain ⟨-, hq⟩ := Cfq.active_mem hactive
  obtain ⟨x, hx, hqueued⟩ :=
    List.mem_flatMap.mp ((h.ledger.mem_pending_iff r).mpr ⟨hadded, hnot⟩)
  have hxpid : x.pid ≠ q.pid := by
    rw [← h.formed.owner x hx r hqueued]
    exact hpid
  have hdiff := Cfq.pos_ne (Cfq.pid_mem_pids hx) hxpid
  have hxne := List.ne_nil_of_mem hqueued
  rcases hturn q hactive hused with hupto | hafter
  · have hle := hupto x hx hxne
    exact Or.inr ⟨x, hx, hxne, by omega⟩
  · left
    by_contra hne
    exact absurd (hafter q hq hne) (lt_irrefl _)

/-! ## Turns -/

/-- Adding a request keeps the queues that are there, with their addresses and
processes. -/
theorem Adds.kept {c c' : Cfq} {r : CfqRequest} (h : Adds c r c')
    {q : CfqQueue} (hq : q ∈ c.cfqQueues) :
    ∃ q' ∈ c'.cfqQueues, q'.addr = q.addr ∧ q'.pid = q.pid := by
  cases h with
  | @known before after changed hsplit hpid =>
      rw [hsplit] at hq
      rcases List.mem_append.mp hq with hbefore | hrest
      · exact ⟨q, by simp [hbefore], rfl, rfl⟩
      · rcases List.mem_cons.mp hrest with rfl | hafter
        · exact ⟨{ q with queue := cfqInsert r q.queue }, by simp, rfl, rfl⟩
        · exact ⟨q, by simp [hafter], rfl, rfl⟩
  | fresh haddr hpid => exact ⟨q, List.mem_append_left _ hq, rfl, rfl⟩

/-- So the active process stays the same. -/
theorem Adds.active {c c' : Cfq} {r : CfqRequest} (h : Adds c r c')
    (hformed : c'.Formed) {q : CfqQueue} (hactive : c.active = some q) :
    ∃ q', c'.active = some q' ∧ q'.pid = q.pid := by
  obtain ⟨haddr, hq⟩ := Cfq.active_mem hactive
  obtain ⟨q', hq', haddr', hpid⟩ := h.kept hq
  have hsame : c'.activeQueue = c.activeQueue := by cases h <;> rfl
  refine ⟨q', Cfq.active_eq_some hformed.addrs ?_ hq', hpid⟩
  rw [hsame, haddr, haddr']

/-- And no process changes its place. -/
theorem Adds.pos_eq {c c' : Cfq} {r : CfqRequest} (h : Adds c r c') {p : Int}
    (hp : p ∈ c.pids) : p ∈ c'.pids ∧ c'.pos p = c.pos p := by
  obtain ⟨added, hpids⟩ : ∃ added, c'.pids = c.pids ++ added := by
    cases h with
    | @known before after q hsplit hpid =>
        exact ⟨[], by simp [Cfq.pids, hsplit]⟩
    | fresh haddr hpid => exact ⟨[r.pid], by simp [Cfq.pids]⟩
  rw [Cfq.pos, Cfq.pos, hpids]
  exact ⟨List.mem_append_left _ hp, List.idxOf_append_of_mem hp⟩

/-- A dispatch leaves the processes as they are and makes the one it serves the
active one. -/
theorem Dispatches.active {c c' : Cfq} {r : CfqRequest} (hformed : c.Formed)
    (h : Dispatches c (some r) c') :
    c'.pids = c.pids ∧ r.pid ∈ c.pids ∧
      ∃ q, c'.active = some q ∧ q.pid = r.pid := by
  have hformed' := hformed.dispatches h
  obtain ⟨before, q, after, rest, dispatched, hsplit, hqueue, rfl⟩ := h.served
  have hq : q ∈ c.cfqQueues := by simp [hsplit]
  have hpid : r.pid = q.pid := hformed.owner q hq r (by simp [hqueue])
  refine ⟨by simp [Cfq.pids, hsplit], hpid ▸ Cfq.pid_mem_pids hq,
    { q with queue := rest, dispatched := dispatched }, ?_, hpid.symm⟩
  exact Cfq.active_eq_some hformed'.addrs rfl (by simp)

/-- Where a dispatch in turn goes while another process `p` waits: it stays
with the active process, or goes on to one that comes before `p`. -/
theorem Dispatches.sooner {c c' : Cfq} {r : CfqRequest} (hformed : c.Formed)
    (h : Dispatches c (some r) c') (hturn : c.InTurn) {q : CfqQueue}
    (hactive : c.active = some q) {p : Int} (hpending : c.hasPending p = true)
    (hqp : q.pid ≠ p) (hrp : r.pid ≠ p) :
    (c.selects = false ∧ r.pid = q.pid) ∨
      (c.selects = true ∧ Sooner (c.pos p) (c.pos q.pid) (c.pos r.pid)) := by
  obtain ⟨w, hw, rfl, hwaiting⟩ := Cfq.hasPending_iff.mp hpending
  obtain ⟨-, hq⟩ := Cfq.active_mem hactive
  cases h with
  | @resume before after x _ rest hactive' hleft hsplit hqueue =>
      left
      obtain rfl : q = x := Option.some.inj (hactive.symm.trans hactive')
      refine ⟨?_, hformed.owner q hq r (by simp [hqueue])⟩
      rw [Cfq.selects, Cfq.sliceOver_of_left hactive hleft, Bool.false_and]
  | @select before after y _ rest hover hsplit hbefore hqueue =>
      right
      have hy : y ∈ c.cfqQueues := by simp [hsplit]
      have hyne : y.queue ≠ [] := by simp [hqueue]
      have hpid : r.pid = y.pid := hformed.owner y hy r (by simp [hqueue])
      have hselects : c.selects = true := by
        rw [Cfq.selects, hover, Bool.true_and, List.any_eq_true]
        exact ⟨y, hy, by simp [hqueue]⟩
      have hused : c.cfqSlice ≤ q.dispatched := by
        simpa [Cfq.sliceOver, hactive] using hover
      -- The selected queue is the first that is not empty, so it is before `p`.
      have hfirst := hformed.pos_le_of_first hsplit hbefore hw hwaiting
      have hyp := Cfq.pos_ne (Cfq.pid_mem_pids hy) (hpid ▸ hrp)
      have hqp' := Cfq.pos_ne (Cfq.pid_mem_pids hq) hqp
      refine ⟨hselects, ?_⟩
      rw [hpid]
      apply sooner_of_lt (by omega)
      rcases hturn q hactive hused with hupto | hafter
      · left
        have hle := hupto w hw hwaiting
        omega
      · exact Or.inr (hafter y hy hyne)

/-- An entry of the record of the process `p`: the process served there is the
active one in its present turn, or comes before it in the order around from
`p`. -/
structure Waited (s : CfqRun) (p : Int) (entry : Int × Nat) : Prop where
  waiting : p ∈ s.cfq.pids
  served : entry.1 ∈ s.cfq.pids
  active : ∃ q, s.cfq.active = some q ∧ q.pid ≠ p ∧
    (entry.1 = q.pid ∧ entry.2 = s.turn ∨
      Sooner (s.cfq.pos p) (s.cfq.pos entry.1) (s.cfq.pos q.pid))

/-- The records of all processes are in order, and no process has two turns in
one of them. -/
structure TakesTurns (s : CfqRun) : Prop where
  waited : ∀ p, ∀ entry ∈ s.since p, Waited s p entry
  once : OneTurnEach s

theorem TakesTurns.add {s : CfqRun} (h : TakesTurns s) {c : Cfq}
    {r : CfqRequest} (hadds : Adds s.cfq r c) (hformed : c.Formed)
    (added : List CfqRequest) :
    TakesTurns { s with cfq := c, added := added } := by
  refine ⟨?_, h.once⟩
  intro p entry hentry
  obtain ⟨hwaiting, hserved, q, hactive, hqp, horder⟩ := h.waited p entry hentry
  obtain ⟨hwaiting', hposp⟩ := hadds.pos_eq hwaiting
  obtain ⟨hserved', hpose⟩ := hadds.pos_eq hserved
  obtain ⟨-, hposq⟩ :=
    hadds.pos_eq (Cfq.pid_mem_pids (Cfq.active_mem hactive).2)
  obtain ⟨q', hactive', hpid⟩ := hadds.active hformed hactive
  refine ⟨hwaiting', hserved', q', hactive', ?_, ?_⟩
  · rw [hpid]
    exact hqp
  · rw [hpid]
    show _ ∨ Sooner (c.pos p) (c.pos entry.1) (c.pos q.pid)
    rw [hposp, hpose, hposq]
    exact horder

/-- What an entry of the record is to the process that a dispatch in turn
serves: it is of that process and of this turn, or comes before it. -/
theorem TakesTurns.order_of_dispatches {s : CfqRun} (h : TakesTurns s)
    (hformed : s.cfq.Formed) {r : CfqRequest} {c : Cfq}
    (hsome : Dispatches s.cfq (some r) c) (hturn : s.cfq.InTurn) {p : Int}
    (hpending : s.cfq.hasPending p = true) (hrp : r.pid ≠ p)
    {entry : Int × Nat} (hentry : entry ∈ s.since p) :
    (entry.1 = r.pid ∧
        entry.2 = if s.cfq.selects then s.turn + 1 else s.turn) ∨
      Sooner (s.cfq.pos p) (s.cfq.pos entry.1) (s.cfq.pos r.pid) := by
  obtain ⟨-, -, q, hactive, hqp, horder⟩ := h.waited p entry hentry
  rcases hsome.sooner hformed hturn hactive hpending hqp hrp with
    ⟨hselects, hpid⟩ | ⟨hselects, hsooner⟩
  · rw [hselects, hpid]
    exact horder
  · right
    rcases horder with ⟨hsame, -⟩ | hearlier
    · rw [hsame]
      exact hsooner
    · exact hearlier.trans hsooner

/-- The record of a process after a dispatch that served `r`: the old entries
and the new one are in order, and the record of a process that did not wait is
empty. -/
theorem TakesTurns.entry_of_serve {s : CfqRun} (h : TakesTurns s)
    (hformed : s.cfq.Formed) {r : CfqRequest} {c : Cfq}
    (hsome : Dispatches s.cfq (some r) c) (hturn : s.cfq.InTurn) {turn : Nat}
    (hcount : turn = if s.cfq.selects then s.turn + 1 else s.turn) {p : Int}
    {entry : Int × Nat}
    (hentry : entry ∈ if s.cfq.hasPending p && r.pid != p then
      s.since p ++ [(r.pid, turn)] else []) :
    (p ∈ s.cfq.pids ∧ r.pid ≠ p ∧ entry.1 ∈ s.cfq.pids) ∧
    (entry ∈ s.since p ∨ entry = (r.pid, turn)) ∧
    (entry.1 = r.pid ∧ entry.2 = turn ∨
      Sooner (s.cfq.pos p) (s.cfq.pos entry.1) (s.cfq.pos r.pid)) := by
  split at hentry
  next hkept =>
    rw [Bool.and_eq_true, bne_iff_ne] at hkept
    obtain ⟨hpending, hrp⟩ := hkept
    obtain ⟨w, hw, hwpid, -⟩ := Cfq.hasPending_iff.mp hpending
    have hp : p ∈ s.cfq.pids := hwpid ▸ Cfq.pid_mem_pids hw
    rcases List.mem_append.mp hentry with hold | hnew
    · have horder :=
        h.order_of_dispatches hformed hsome hturn hpending hrp hold
      rw [← hcount] at horder
      exact ⟨⟨hp, hrp, (h.waited p entry hold).served⟩, Or.inl hold, horder⟩
    · obtain rfl := List.mem_singleton.mp hnew
      obtain ⟨-, hrmem, -⟩ := hsome.active hformed
      exact ⟨⟨hp, hrp, hrmem⟩, Or.inr rfl, Or.inl ⟨rfl, rfl⟩⟩
  next => exact absurd hentry List.not_mem_nil

theorem TakesTurns.serve {s : CfqRun} (h : TakesTurns s)
    (hformed : s.cfq.Formed) {r : CfqRequest} {c : Cfq}
    (hsome : Dispatches s.cfq (some r) c) (hturn : s.cfq.InTurn)
    {returned : List CfqRequest} {turn : Nat}
    (hcount : turn = if s.cfq.selects then s.turn + 1 else s.turn) :
    TakesTurns
      { s with
        cfq := c
        returned := returned
        turn := turn
        since := fun pid =>
          if s.cfq.hasPending pid && r.pid != pid then
            s.since pid ++ [(r.pid, turn)]
          else [] } := by
  obtain ⟨hpids, -, q, hactive, hqpid⟩ := hsome.active hformed
  have hpos : ∀ x, c.pos x = s.cfq.pos x := by
    intro x
    rw [Cfq.pos, Cfq.pos, hpids]
  constructor
  · intro p entry hentry
    obtain ⟨⟨hp, hrp, hserved⟩, -, horder⟩ :=
      h.entry_of_serve hformed hsome hturn hcount hentry
    refine ⟨?_, ?_, q, hactive, ?_, ?_⟩
    · rw [hpids]
      exact hp
    · rw [hpids]
      exact hserved
    · rw [hqpid]
      exact hrp
    · simp only [hpos, hqpid]
      exact horder
  · intro p x t t' ht ht'
    obtain ⟨-, hmem, horder⟩ :=
      h.entry_of_serve hformed hsome hturn hcount ht
    obtain ⟨-, hmem', horder'⟩ :=
      h.entry_of_serve hformed hsome hturn hcount ht'
    rcases horder with ⟨hx, hthis⟩ | hsooner
    · rcases horder' with ⟨-, hthis'⟩ | hsooner'
      · exact hthis.trans hthis'.symm
      · rw [show x = r.pid from hx] at hsooner'
        exact absurd hsooner' Sooner.irrefl
    · -- The process is not the one just served, so both entries are old.
      have hne : ∀ t, (x, t) ≠ (r.pid, turn) := by
        intro t heq
        rw [show x = r.pid from congrArg Prod.fst heq] at hsooner
        exact Sooner.irrefl hsooner
      exact h.once p x t t' (hmem.resolve_right (hne t))
        (hmem'.resolve_right (hne t'))

theorem takesTurns_of_inTurn {s : CfqRun}
    (hreach : cfqSystem.ReachableWhile DispatchesInTurn s) : TakesTurns s := by
  refine hreach.invariant (P := TakesTurns) ?_ ?_
  · rintro s ⟨-, -, -, hsince⟩
    constructor
    · intro p entry hentry
      simp [hsince] at hentry
    · intro p x t t' ht
      simp [hsince] at ht
  · intro s a t hprev hs hok hstep
    have haccounted := cfq_accounted hprev.reachable
    have hnext := cfq_accounted (hprev.next hok hstep).reachable
    cases cfqStep_cases haccounted.formed hstep with
    | add hadds => exact hs.add hadds hnext.formed _
    | idle hnone => exact hs
    | serve hsome => exact hs.serve haccounted.formed hsome hok rfl

/-- When the active queue has used up its slice and another process waits, the
active process is not served again exactly when its queue is empty or a queue
before it in the list is not.  In runs whose dispatches come in turn it is
never served again, and while a process waits every other one has one turn at
most. -/
theorem cfq_rotation {s : CfqRun} (hreach : cfqSystem.Reachable s) :
    (Rotates s ↔
      ∀ q ∈ s.cfq.active, s.cfq.cfqSlice ≤ q.dispatched →
        (∃ r ∈ s.added, r ∉ s.returned ∧ r.pid ≠ q.pid) →
        q.queue = [] ∨ ∃ x ∈ s.cfq.cfqQueues, x.queue ≠ [] ∧
          s.cfq.pos x.pid < s.cfq.pos q.pid) ∧
    (s.cfq.InTurn → Rotates s) ∧
    (cfqSystem.ReachableWhile DispatchesInTurn s → OneTurnEach s) := by
  have haccounted := cfq_accounted hreach
  exact ⟨haccounted.rotates_iff, haccounted.rotates_of_inTurn,
    fun hturn => (takesTurns_of_inTurn hturn).once⟩

/-- Three processes with one request each, served one after the other. -/
theorem cfq_rotation_sample :
    ∃ s : CfqRun, cfqSystem.Reachable s ∧ Rotates s ∧ OneTurnEach s ∧
      s.since 3 = [(1, 1), (2, 2)] := by
  obtain ⟨s, hrun, hturn, hsince⟩ : ∃ s,
      cfqSystem.runWhile DispatchesInTurn cfqStart
        [.add 1 ⟨1, 10, 0, 0⟩ 512 100, .add 2 ⟨2, 40, 0, 0⟩ 512 200,
          .add 3 ⟨3, 70, 0, 0⟩ 512 300, .dispatch, .dispatch] = some s ∧
      s.cfq.InTurn ∧ s.since 3 = [(1, 1), (2, 2)] :=
    ⟨_, rfl, by decide, by decide⟩
  have hruns : cfqSystem.ReachableWhile DispatchesInTurn s :=
    ActionSystem.ReachableWhile.run (.start ⟨rfl, rfl, rfl, rfl⟩) hrun
  obtain ⟨-, hrotates, hone⟩ := cfq_rotation hruns.reachable
  exact ⟨s, hruns.reachable, hrotates hturn, hone hruns, hsince⟩

/-- The process at the head of the list adds a request each time it was served;
it is served a second and a third time while the other waits. -/
theorem cfq_serves_first_again :
    ∃ s : CfqRun, cfqSystem.Reachable s ∧ ¬ Rotates s ∧ ¬ OneTurnEach s ∧
      s.since 2 = [(1, 1), (1, 2)] := by
  obtain ⟨s, hrun, hsince, q, hactive, hused, r, hadded, hreturned, hpid,
      r', hserved, hsame⟩ : ∃ s,
      cfqSystem.run cfqStart
        [.add 1 ⟨1, 10, 0, 0⟩ 512 100, .add 2 ⟨2, 40, 0, 0⟩ 512 200, .dispatch,
          .add 1 ⟨3, 20, 0, 0⟩ 512 300, .dispatch,
          .add 1 ⟨4, 30, 0, 0⟩ 512 300] = some s ∧
      s.since 2 = [(1, 1), (1, 2)] ∧
      ∃ q, s.cfq.active = some q ∧ s.cfq.cfqSlice ≤ q.dispatched ∧
      ∃ r, r ∈ s.added ∧ r ∉ s.returned ∧ r.pid ≠ q.pid ∧
      ∃ r', (cfqDispatch s.cfq).1 = some r' ∧ r'.pid = q.pid :=
    ⟨_, rfl, by decide, _, rfl, by decide, ⟨⟨⟨2, 40, 0, 0⟩, 1⟩, 512, 2⟩,
      by decide, by decide, by decide, _, rfl, by decide⟩
  have hreach : cfqSystem.Reachable s :=
    ActionSystem.Reachable.run cfqStart_reachable hrun
  refine ⟨s, hreach, ?_, ?_, hsince⟩
  · intro hrotates
    obtain ⟨x, hx, hne⟩ :=
      hrotates q hactive hused ⟨r, hadded, hreturned, hpid⟩
    rw [hserved, Option.some.injEq] at hx
    exact hne (hx ▸ hsame)
  · intro hone
    have hequal := hone 2 1 1 2 (by simp [hsince]) (by simp [hsince])
    contradiction

end IoSched
end OsKernel

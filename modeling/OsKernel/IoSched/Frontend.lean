import OsKernel.IoSched.CfqService

/-!
# Switching between the I/O schedulers

`current_iosched` points to one of three schedulers, each with lists of its own
in static memory.  `io_sched_set` moves the pointer and calls `init_fn` of the
new scheduler, which empties its lists.  Nobody hands the requests of the old
scheduler over, so they are out of reach, and a switch from a scheduler to
itself drops them as well.

The noop scheduler is modelled here too; it is a FIFO.  Of the front end the
functions that only print or free (`iosched_finish_request`, `exit_fn`) are left
out.  A request belongs to the schedulers from the call that adds it to the
dispatch that returns it; it is not added again in between.
-/

namespace OsKernel
namespace IoSched

open Lib

/-! ## The model -/

/-- `noop_init`. -/
def noopInit : List Queued := []

/-- `noop_add_request`. -/
def noopAddRequest (dispatch : List Queued) (q : Queued) : List Queued :=
  dispatch ++ [q]

/-- `noop_dispatch`. -/
def noopDispatch : List Queued → Option Queued × List Queued
  | [] => (none, [])
  | q :: rest => (some q, rest)

/-- `noop_sched`, `deadline_sched` and `cfq_sched`. -/
inductive Scheduler
  | noop
  | deadline
  | cfq
  deriving DecidableEq, Repr

/-- `current_iosched` and the lists of the three schedulers. -/
structure Front where
  current : Scheduler
  noop : List Queued
  deadline : Deadline
  cfq : Cfq

/-- `current_iosched->init_fn(current_iosched)`. -/
def Front.initFn (f : Front) : Front :=
  match f.current with
  | .noop => { f with noop := noopInit }
  | .deadline => { f with deadline := deadlineInit }
  | .cfq => { f with cfq := cfqInit }

/-- `io_sched_init`. -/
def ioSchedInit (f : Front) : Front :=
  Front.initFn { f with current := .deadline }

/-- The comparisons of `io_sched_set`. -/
def schedulerNamed (name : String) : Option Scheduler :=
  if name = "noop" then some .noop
  else if name = "deadline" then some .deadline
  else if name = "cfq" then some .cfq
  else none

/-- `io_sched_set`; `none` stands for the return value `-EINVAL`. -/
def ioSchedSet (f : Front) (name : String) : Option Front :=
  (schedulerNamed name).map fun sched => Front.initFn { f with current := sched }

/-- `iosched_add_request`.  What `kmalloc` returns matters to CFQ only. -/
def ioschedAddRequest (f : Front) (r : CfqRequest) (kmalloc : Option Nat) :
    Front :=
  match f.current with
  | .noop => { f with noop := noopAddRequest f.noop r.toQueued }
  | .deadline =>
      { f with deadline := deadlineAddRequest f.deadline r.toQueued }
  | .cfq => { f with cfq := cfqAddRequest f.cfq r kmalloc }

/-- `iosched_dispatch`; the two clock values matter to the deadline scheduler
only. -/
def ioschedDispatch (jiffiesToMsecs : UInt64 → UInt64)
    (readNow writeNow : UInt64) (f : Front) : Option Queued × Front :=
  match f.current with
  | .noop =>
      let result := noopDispatch f.noop
      (result.1, { f with noop := result.2 })
  | .deadline =>
      let result := deadlineDispatch jiffiesToMsecs readNow writeNow f.deadline
      (result.1, { f with deadline := result.2 })
  | .cfq =>
      let result := cfqDispatch f.cfq
      (result.1.map CfqRequest.toQueued, { f with cfq := result.2 })

/-- The requests that can be reached from `current_iosched`. -/
def Front.requests (f : Front) : List Queued :=
  match f.current with
  | .noop => f.noop
  | .deadline => f.deadline.dispatch
  | .cfq => f.cfq.requests.map CfqRequest.toQueued

/-- The front end in a run, with the requests added and returned so far. -/
structure FrontRun where
  front : Front
  added : List Queued
  returned : List Queued

/-- Calls of the front end. -/
inductive FrontAction
  | add (pid : Int) (r : Request) (bytes : UInt32) (kmalloc : Option Nat)
  | dispatch (readNow writeNow : UInt64)
  | set (name : String)

/-- One call.  A request that was added and not returned may not be added, and
`kmalloc` returns memory that is not in use. -/
def frontStep (jiffiesToMsecs : UInt64 → UInt64) (s : FrontRun) :
    FrontAction → Option FrontRun
  | .add pid r bytes kmalloc =>
      if (∀ q ∈ s.added, q ∉ s.returned → q.addr ≠ r.addr) ∧
          ∀ addr ∈ kmalloc, s.front.cfq.Unused addr then
        let r : CfqRequest :=
          { req := r, arrival := s.added.length, bytes := bytes, pid := pid }
        some
          { s with
            front := ioschedAddRequest s.front r kmalloc
            added := s.added ++ [r.toQueued] }
      else none
  | .dispatch readNow writeNow =>
      let result := ioschedDispatch jiffiesToMsecs readNow writeNow s.front
      some
        { s with
          front := result.2
          returned := s.returned ++ result.1.toList }
  | .set name =>
      some { s with front := (ioSchedSet s.front name).getD s.front }

/-- The runs after `io_sched_init`. -/
def frontSystem (jiffiesToMsecs : UInt64 → UInt64) :
    ActionSystem FrontRun FrontAction where
  init s := (∃ f, s.front = ioSchedInit f) ∧ s.added = [] ∧ s.returned = []
  step := frontStep jiffiesToMsecs

/-! ## The current scheduler -/

/-- The lists of the current scheduler are in order. -/
def Front.Good (f : Front) : Prop :=
  match f.current with
  | .noop => True
  | .deadline => ∃ pending, Represents f.deadline pending
  | .cfq => f.cfq.Formed

/-- Whatever it was before, a scheduler that `init_fn` was called for is in
order and empty. -/
theorem Front.initFn_good (f : Front) :
    f.initFn.Good ∧ f.initFn.requests = [] := by
  cases hcurrent : f.current with
  | noop => simp [Front.initFn, Front.Good, Front.requests, hcurrent, noopInit]
  | deadline =>
      simp only [Front.initFn, Front.Good, Front.requests, hcurrent]
      exact ⟨⟨[], Represents.init⟩, rfl⟩
  | cfq =>
      simp only [Front.initFn, Front.Good, Front.requests, hcurrent]
      exact ⟨cfqInit_formed, rfl⟩

/-- CFQ needs memory for the first request of a process. -/
def Front.HasRoom (f : Front) (pid : Int) (kmalloc : Option Nat) : Prop :=
  f.current = .cfq → kmalloc = none → ∃ q ∈ f.cfq.cfqQueues, q.pid = pid

instance (f : Front) (pid : Int) (kmalloc : Option Nat) :
    Decidable (f.HasRoom pid kmalloc) :=
  inferInstanceAs (Decidable (_ → _ → _))

/-- Adding a request with the next number to a scheduler that does not have
it. -/
theorem Front.Good.add {f : Front} (h : f.Good) {r : CfqRequest}
    {kmalloc : Option Nat} (hunused : ∀ addr ∈ kmalloc, f.cfq.Unused addr)
    (hroom : f.HasRoom r.pid kmalloc)
    (harrival : ∀ b ∈ f.requests, b.arrival < r.arrival)
    (haddr : ∀ b ∈ f.requests, b.addr ≠ r.addr) :
    (ioschedAddRequest f r kmalloc).Good ∧
      (ioschedAddRequest f r kmalloc).requests.Perm
        (r.toQueued :: f.requests) := by
  cases hcurrent : f.current with
  | noop =>
      simp only [ioschedAddRequest, Front.Good, Front.requests, hcurrent]
      exact ⟨trivial, List.perm_append_singleton _ _⟩
  | deadline =>
      simp only [Front.Good, hcurrent] at h
      simp only [Front.requests, hcurrent] at harrival haddr
      obtain ⟨pending, hrep⟩ := h
      have hadd := hrep.add (q := r.toQueued)
        (fun b hb => harrival b (hrep.perm.symm.subset hb))
        (fun b hb => haddr b (hrep.perm.symm.subset hb))
      simp only [ioschedAddRequest, Front.Good, Front.requests, hcurrent]
      refine ⟨⟨_, hadd⟩, hadd.perm.trans ?_⟩
      exact (List.perm_append_singleton _ _).trans (hrep.perm.symm.cons _)
  | cfq =>
      simp only [Front.Good, hcurrent] at h
      simp only [Front.requests, hcurrent, List.forall_mem_map] at harrival
      have hadds := cfqAddRequest_adds h.addrs r hunused (hroom hcurrent)
      simp only [ioschedAddRequest, Front.Good, Front.requests, hcurrent]
      exact ⟨h.adds hadds harrival,
        hadds.requests_perm.map CfqRequest.toQueued⟩

/-- Without memory for a new queue CFQ drops the request. -/
theorem ioschedAddRequest_of_not_hasRoom {f : Front} {r : CfqRequest}
    {kmalloc : Option Nat} (hroom : ¬ f.HasRoom r.pid kmalloc) :
    (ioschedAddRequest f r kmalloc).requests = f.requests := by
  simp only [Front.HasRoom, Classical.not_imp] at hroom
  obtain ⟨hcurrent, rfl, hnone⟩ := hroom
  have hfind : (f.cfq.cfqQueues.find? fun q => q.pid == r.pid) = none := by
    rw [List.find?_eq_none]
    intro q hq hpid
    exact hnone ⟨q, hq, by simpa using hpid⟩
  simp only [ioschedAddRequest, Front.requests, hcurrent, cfqAddRequest,
    cfqGetQueue, hfind]

/-- A dispatch takes what it returns out of the requests. -/
theorem Front.Good.dispatch {f : Front} (h : f.Good)
    (jiffiesToMsecs : UInt64 → UInt64) (readNow writeNow : UInt64) :
    (ioschedDispatch jiffiesToMsecs readNow writeNow f).2.Good ∧
      f.requests.Perm
        ((ioschedDispatch jiffiesToMsecs readNow writeNow f).1.toList ++
          (ioschedDispatch jiffiesToMsecs readNow writeNow f).2.requests) := by
  cases hcurrent : f.current with
  | noop =>
      simp only [ioschedDispatch, Front.Good, Front.requests, hcurrent]
      refine ⟨trivial, ?_⟩
      cases f.noop with
      | nil => exact List.Perm.refl _
      | cons q rest => exact List.Perm.refl _
  | deadline =>
      simp only [Front.Good, hcurrent] at h
      obtain ⟨pending, hrep⟩ := h
      simp only [ioschedDispatch, Front.Good, Front.requests, hcurrent]
      rw [deadlineDispatch_eq]
      cases hselect :
          deadlineSelect jiffiesToMsecs readNow writeNow f.deadline with
      | none => exact ⟨⟨pending, hrep⟩, List.Perm.refl _⟩
      | some q =>
          have hmem := hrep.perm.symm.subset (hrep.mem_of_select hselect)
          have haddrs : (f.deadline.dispatch.map Queued.addr).Nodup :=
            (hrep.perm.map Queued.addr).nodup_iff.mpr hrep.addr
          exact ⟨⟨_, hrep.unlink q⟩, perm_cons_filter_key haddrs hmem⟩
  | cfq =>
      simp only [Front.Good, hcurrent] at h
      have hdispatches := cfqDispatch_dispatches h.addrs
      simp only [ioschedDispatch, Front.Good, Front.requests, hcurrent]
      refine ⟨h.dispatches hdispatches, ?_⟩
      generalize cfqDispatch f.cfq = result at hdispatches ⊢
      obtain ⟨out, c⟩ := result
      cases out with
      | none =>
          rw [show c = f.cfq from hdispatches.eq_of_none]
          exact List.Perm.refl _
      | some r => exact hdispatches.requests_perm.map CfqRequest.toQueued

/-! ## Runs -/

/-- Every request that was added has been returned. -/
def FrontRun.NothingPending (s : FrontRun) : Prop :=
  ∀ q ∈ s.added, q ∈ s.returned

instance (s : FrontRun) : Decidable s.NothingPending :=
  inferInstanceAs (Decidable (∀ q ∈ s.added, _))

/-- The requests added are those returned and those that can be reached from
`current_iosched`, and none was returned twice. -/
structure FrontRun.Kept (s : FrontRun) : Prop where
  perm : s.added.Perm (s.returned ++ s.front.requests)
  once : s.returned.Nodup

/-- The calls that lose no request: CFQ gets the memory it needs, and a switch
to a scheduler comes when nothing is pending. -/
def KeepsRequests (s : FrontRun) : FrontAction → Prop
  | .add pid _ _ kmalloc => s.front.HasRoom pid kmalloc
  | .dispatch _ _ => True
  | .set name => schedulerNamed name ≠ none → s.NothingPending

instance (s : FrontRun) : (a : FrontAction) → Decidable (KeepsRequests s a)
  | .add pid _ _ kmalloc =>
      inferInstanceAs (Decidable (s.front.HasRoom pid kmalloc))
  | .dispatch _ _ => inferInstanceAs (Decidable True)
  | .set name =>
      inferInstanceAs (Decidable (schedulerNamed name ≠ none → s.NothingPending))

/-- The invariant of the runs that lose no request. -/
structure FrontAccounted (s : FrontRun) : Prop where
  good : s.front.Good
  ledger : Ledger Queued.arrival s.added s.returned s.front.requests

theorem FrontAccounted.kept {s : FrontRun} (h : FrontAccounted s) : s.Kept :=
  ⟨h.ledger.perm, h.ledger.returned_nodup⟩

theorem ioSchedSet_some {f g : Front} {name : String}
    (hset : ioSchedSet f name = some g) :
    schedulerNamed name ≠ none ∧ g.Good ∧ g.requests = [] := by
  obtain ⟨sched, hnamed, rfl⟩ := Option.map_eq_some_iff.mp hset
  exact ⟨by simp [hnamed], Front.initFn_good _⟩

section Steps

variable {jiffiesToMsecs : UInt64 → UInt64} {s t : FrontRun} {a : FrontAction}

/-- What one call does. -/
inductive FrontStep (jiffiesToMsecs : UInt64 → UInt64) (s : FrontRun) :
    FrontAction → FrontRun → Prop
  | add {pid : Int} {r : Request} {bytes : UInt32} {kmalloc : Option Nat}
      (hfree : ∀ q ∈ s.added, q ∉ s.returned → q.addr ≠ r.addr)
      (hunused : ∀ addr ∈ kmalloc, s.front.cfq.Unused addr) :
      FrontStep jiffiesToMsecs s (.add pid r bytes kmalloc)
        { s with
          front := ioschedAddRequest s.front
            ⟨⟨r, s.added.length⟩, bytes, pid⟩ kmalloc
          added := s.added ++ [⟨r, s.added.length⟩] }
  | dispatch {readNow writeNow : UInt64} :
      FrontStep jiffiesToMsecs s (.dispatch readNow writeNow)
        { s with
          front := (ioschedDispatch jiffiesToMsecs readNow writeNow s.front).2
          returned := s.returned ++
            (ioschedDispatch jiffiesToMsecs readNow writeNow s.front).1.toList }
  | unknown {name : String} (hname : schedulerNamed name = none) :
      FrontStep jiffiesToMsecs s (.set name) s
  | switch {name : String} {g : Front} (hset : ioSchedSet s.front name = some g) :
      FrontStep jiffiesToMsecs s (.set name) { s with front := g }

theorem frontStep_cases (hstep : (frontSystem jiffiesToMsecs).step s a = some t) :
    FrontStep jiffiesToMsecs s a t := by
  change frontStep jiffiesToMsecs s a = some t at hstep
  cases a with
  | add pid r bytes kmalloc =>
      simp only [frontStep] at hstep
      split at hstep
      next hguard =>
        obtain rfl := Option.some.inj hstep
        exact .add hguard.1 hguard.2
      next => contradiction
  | dispatch readNow writeNow =>
      obtain rfl := Option.some.inj hstep
      exact .dispatch
  | set name =>
      obtain rfl := Option.some.inj hstep
      cases hset : ioSchedSet s.front name with
      | none => exact .unknown (Option.map_eq_none_iff.mp hset)
      | some g => exact .switch hset

/-- The request added is not one that can be reached. -/
theorem FrontAccounted.fresh (h : FrontAccounted s) {r : Request}
    (hfree : ∀ q ∈ s.added, q ∉ s.returned → q.addr ≠ r.addr) :
    ∀ q ∈ s.front.requests, q.addr ≠ r.addr := by
  intro q hq
  obtain ⟨hadded, hnot⟩ := (h.ledger.mem_pending_iff q).mp hq
  exact hfree q hadded hnot

theorem FrontStep.accounted (hstep : FrontStep jiffiesToMsecs s a t)
    (h : FrontAccounted s) (hok : KeepsRequests s a) : FrontAccounted t := by
  cases hstep with
  | add hfree hunused =>
      obtain ⟨hgood, hperm⟩ := h.good.add (r := ⟨⟨_, s.added.length⟩, _, _⟩)
        hunused hok (fun b hb => h.ledger.number_lt hb) (h.fresh hfree)
      exact ⟨hgood, h.ledger.add rfl hperm⟩
  | @dispatch readNow writeNow =>
      obtain ⟨hgood, hperm⟩ := h.good.dispatch jiffiesToMsecs readNow writeNow
      refine ⟨hgood, ?_⟩
      generalize ioschedDispatch jiffiesToMsecs readNow writeNow s.front =
        result at hperm ⊢
      obtain ⟨out, f⟩ := result
      cases out with
      | none =>
          have hsame := h.ledger.perm.trans (hperm.append_left s.returned)
          exact ⟨by simpa using hsame, h.ledger.numbered⟩
      | some q => exact h.ledger.take hperm
  | unknown hname => exact h
  | switch hset =>
      obtain ⟨hknown, hgood, hnil⟩ := ioSchedSet_some hset
      have hpending := h.ledger.pending_eq_nil_iff.mpr (hok hknown)
      refine ⟨hgood, ?_⟩
      have hledger := h.ledger
      rw [hpending] at hledger
      show Ledger Queued.arrival s.added s.returned (Front.requests _)
      rw [hnil]
      exact hledger

/-- A call that is not one of those loses a request. -/
theorem FrontStep.not_kept (hstep : FrontStep jiffiesToMsecs s a t)
    (h : FrontAccounted s) (hok : ¬ KeepsRequests s a) : ¬ t.Kept := by
  have hlength := h.ledger.perm.length_eq
  rw [List.length_append] at hlength
  intro hkept
  have hlength' := hkept.perm.length_eq
  rw [List.length_append] at hlength'
  cases hstep with
  | @add pid r bytes kmalloc hfree hunused =>
      have hroom : ¬ s.front.HasRoom
          (CfqRequest.pid ⟨⟨r, s.added.length⟩, bytes, pid⟩) kmalloc := hok
      simp only [ioschedAddRequest_of_not_hasRoom hroom, List.length_append,
        List.length_singleton] at hlength'
      omega
  | dispatch => exact hok trivial
  | unknown hname => exact hok fun hknown => absurd hname hknown
  | switch hset =>
      obtain ⟨-, -, hnil⟩ := ioSchedSet_some hset
      apply hok
      intro _
      apply h.ledger.pending_eq_nil_iff.mp
      apply List.eq_nil_of_length_eq_zero
      simp only [hnil, List.length_nil] at hlength'
      omega

theorem FrontAccounted.init (hinit : (frontSystem jiffiesToMsecs).init s) :
    FrontAccounted s := by
  obtain ⟨⟨f, hfront⟩, hadded, hreturned⟩ := hinit
  obtain ⟨hgood, hnil⟩ := Front.initFn_good { f with current := .deadline }
  constructor
  · rw [hfront]
    exact hgood
  · rw [hfront, hadded, hreturned, ioSchedInit, hnil]
    exact Ledger.nil

theorem frontAccounted_of_keepsRequests
    (hreach : (frontSystem jiffiesToMsecs).ReachableWhile KeepsRequests s) :
    FrontAccounted s :=
  hreach.invariant (fun _ hinit => .init hinit) fun _ _ _ _ h hok hstep =>
    (frontStep_cases hstep).accounted h hok

/-! ## Draining -/

/-- While CFQ is the current scheduler, requests are as long as a slice. -/
def FillsCfqSlice (s : FrontRun) : FrontAction → Prop
  | .add _ _ bytes _ => s.front.current = .cfq → s.front.cfq.cfqSlice ≤ bytes
  | .dispatch _ _ => True
  | .set _ => True

instance (s : FrontRun) : (a : FrontAction) → Decidable (FillsCfqSlice s a)
  | .add _ _ bytes _ =>
      inferInstanceAs (Decidable (_ → s.front.cfq.cfqSlice ≤ bytes))
  | .dispatch _ _ => inferInstanceAs (Decidable True)
  | .set _ => inferInstanceAs (Decidable True)

/-- Both conditions on the calls of a run. -/
def KeepsAndFills (s : FrontRun) (a : FrontAction) : Prop :=
  KeepsRequests s a ∧ FillsCfqSlice s a

instance (s : FrontRun) (a : FrontAction) : Decidable (KeepsAndFills s a) :=
  inferInstanceAs (Decidable (_ ∧ _))

/-- No queue of CFQ makes a dispatch wait. -/
def Front.Ready (f : Front) : Prop := f.current = .cfq → SliceUsed f.cfq

theorem Front.initFn_ready (f : Front) : f.initFn.Ready := by
  cases hcurrent : f.current with
  | noop => simp [Front.initFn, Front.Ready, hcurrent]
  | deadline => simp [Front.initFn, Front.Ready, hcurrent]
  | cfq =>
      simp only [Front.initFn, Front.Ready, hcurrent]
      exact fun _ => cfqInit_sliceUsed

theorem Front.Ready.dispatch {f : Front} (h : f.Ready) (hgood : f.Good)
    (readNow writeNow : UInt64) :
    (ioschedDispatch jiffiesToMsecs readNow writeNow f).2.Ready := by
  cases hcurrent : f.current with
  | noop => simp [ioschedDispatch, Front.Ready, hcurrent]
  | deadline => simp [ioschedDispatch, Front.Ready, hcurrent]
  | cfq =>
      simp only [Front.Good, hcurrent] at hgood
      have hused := h hcurrent
      have hdispatches := cfqDispatch_dispatches hgood.addrs
      simp only [ioschedDispatch, Front.Ready, hcurrent]
      intro _
      generalize cfqDispatch f.cfq = result at hdispatches ⊢
      obtain ⟨out, c⟩ := result
      cases out with
      | none =>
          rw [show c = f.cfq from hdispatches.eq_of_none]
          exact hused
      | some r => exact hused.dispatches hgood hdispatches

/-- A dispatch then returns a request as long as there is one. -/
theorem Front.Ready.requests_of_none {f : Front} (h : f.Ready)
    (hgood : f.Good) {readNow writeNow : UInt64}
    (hnone : (ioschedDispatch jiffiesToMsecs readNow writeNow f).1 = none) :
    f.requests = [] := by
  cases hcurrent : f.current with
  | noop =>
      simp only [ioschedDispatch, hcurrent] at hnone
      simp only [Front.requests, hcurrent]
      cases hqueue : f.noop with
      | nil => rfl
      | cons q rest => simp [hqueue, noopDispatch] at hnone
  | deadline =>
      simp only [Front.Good, hcurrent] at hgood
      obtain ⟨pending, hrep⟩ := hgood
      simp only [ioschedDispatch, hcurrent] at hnone
      simp only [Front.requests, hcurrent]
      exact ((hrep.null readNow writeNow).mp hnone).1
  | cfq =>
      simp only [Front.Good, hcurrent] at hgood
      have hused := h hcurrent
      have hdispatches := cfqDispatch_dispatches hgood.addrs
      simp only [ioschedDispatch, hcurrent, Option.map_eq_none_iff] at hnone
      rw [hnone] at hdispatches
      simp only [Front.requests, hcurrent, List.map_eq_nil_iff, Cfq.requests,
        List.flatMap_eq_nil_iff]
      generalize (cfqDispatch f.cfq).2 = c at hdispatches
      cases hdispatches with
      | idle hover hempty => exact hempty
      | wait hactive hleft hempty =>
          obtain ⟨haddr, hmem⟩ := Cfq.active_mem hactive
          exact absurd (hused.used _ hmem haddr) (UInt32.not_le.mpr hleft)

theorem FrontStep.ready (hstep : FrontStep jiffiesToMsecs s a t)
    (h : FrontAccounted s) (hready : s.front.Ready)
    (hok : KeepsAndFills s a) : t.front.Ready := by
  cases hstep with
  | @add pid r bytes kmalloc hfree hunused =>
      cases hcurrent : s.front.current with
      | noop => simp [ioschedAddRequest, Front.Ready, hcurrent]
      | deadline => simp [ioschedAddRequest, Front.Ready, hcurrent]
      | cfq =>
          have hgood := h.good
          simp only [Front.Good, hcurrent] at hgood
          simp only [ioschedAddRequest, Front.Ready, hcurrent]
          intro _
          exact (hready hcurrent).adds hgood
            (cfqAddRequest_adds hgood.addrs _ hunused (hok.1 hcurrent))
            (hok.2 hcurrent)
  | dispatch => exact hready.dispatch h.good _ _
  | unknown hname => exact hready
  | switch hset =>
      obtain ⟨sched, -, rfl⟩ := Option.map_eq_some_iff.mp hset
      exact Front.initFn_ready _

theorem frontReady_of_keepsAndFills
    (hreach : (frontSystem jiffiesToMsecs).ReachableWhile KeepsAndFills s) :
    FrontAccounted s ∧ s.front.Ready := by
  refine hreach.invariant
    (P := fun s => FrontAccounted s ∧ s.front.Ready) ?_ ?_
  · intro s hinit
    refine ⟨.init hinit, ?_⟩
    obtain ⟨⟨f, hfront⟩, -, -⟩ := hinit
    rw [hfront]
    exact Front.initFn_ready _
  · rintro s a t - ⟨haccounted, hready⟩ hok hstep
    have hcases := frontStep_cases hstep
    exact ⟨hcases.accounted haccounted hok.1,
      hcases.ready haccounted hready hok⟩

/-- Dispatching goes on until everything is returned: as many dispatches as
there are requests are enough, at any times. -/
theorem FrontAccounted.drains (h : FrontAccounted s) (hready : s.front.Ready)
    {times : List (UInt64 × UInt64)}
    (henough : s.front.requests.length ≤ times.length) :
    ∃ t, (frontSystem jiffiesToMsecs).run s
        (times.map fun now => .dispatch now.1 now.2) = some t ∧
      ∀ q ∈ s.added, q ∈ t.returned := by
  induction times generalizing s with
  | nil =>
      refine ⟨s, rfl, h.ledger.pending_eq_nil_iff.mp ?_⟩
      exact List.eq_nil_of_length_eq_zero (Nat.le_zero.mp henough)
  | cons now times ih =>
      obtain ⟨-, hperm⟩ := h.good.dispatch jiffiesToMsecs now.1 now.2
      have hstep : FrontStep jiffiesToMsecs s (.dispatch now.1 now.2) _ :=
        .dispatch
      have hnext := hstep.accounted h trivial
      have hready' : (ioschedDispatch jiffiesToMsecs now.1 now.2
          s.front).2.Ready := hready.dispatch h.good now.1 now.2
      have hlength := hperm.length_eq
      rw [List.length_append, List.length_cons] at *
      have hless : (ioschedDispatch jiffiesToMsecs now.1 now.2
          s.front).2.requests.length ≤ times.length := by
        cases hout : (ioschedDispatch jiffiesToMsecs now.1 now.2 s.front).1 with
        | none =>
            rw [hready.requests_of_none h.good hout, hout] at hlength
            simp only [List.length_nil, Option.toList_none] at hlength
            omega
        | some q =>
            rw [hout] at hlength
            simp only [Option.toList_some, List.length_singleton] at hlength
            omega
      obtain ⟨t, hrun, hall⟩ := ih hnext hready' hless
      exact ⟨t, hrun, hall⟩

end Steps

/-- In the runs whose calls all lose no request the front end has what was
added and not returned, and returns nothing twice; any other call loses a
request.  If moreover requests given to CFQ are as long as a slice, dispatching
returns everything. -/
theorem switching_keeps_requests {jiffiesToMsecs : UInt64 → UInt64}
    {s : FrontRun}
    (hreach : (frontSystem jiffiesToMsecs).ReachableWhile KeepsRequests s) :
    s.Kept ∧
    (∀ a t, (frontSystem jiffiesToMsecs).step s a = some t →
      (t.Kept ↔ KeepsRequests s a)) ∧
    ((frontSystem jiffiesToMsecs).ReachableWhile KeepsAndFills s →
      ∀ times : List (UInt64 × UInt64),
        s.front.requests.length ≤ times.length →
        ∃ t, (frontSystem jiffiesToMsecs).run s
            (times.map fun now => .dispatch now.1 now.2) = some t ∧
          ∀ q ∈ s.added, q ∈ t.returned) := by
  have haccounted := frontAccounted_of_keepsRequests hreach
  refine ⟨haccounted.kept, ?_, ?_⟩
  · intro a t hstep
    have hcases := frontStep_cases hstep
    constructor
    · intro hkept
      by_contra hok
      exact hcases.not_kept haccounted hok hkept
    · intro hok
      exact (hcases.accounted haccounted hok).kept
  · intro hfills times henough
    exact haccounted.drains (frontReady_of_keepsAndFills hfills).2 henough

/-- All schedulers before the first call. -/
def frontStart : FrontRun :=
  { front := ioSchedInit ⟨.noop, [], deadlineInit, cfqInit⟩
    added := []
    returned := [] }

/-- A read passes through the deadline scheduler; then CFQ takes over and gets
two requests, and a switch to an unknown scheduler changes nothing.  Two
dispatches return both. -/
theorem switching_keeps_requests_sample :
    ∃ s : FrontRun, (frontSystem id).ReachableWhile KeepsRequests s ∧
      s.front.requests.length = 2 ∧ s.Kept ∧
      ∃ t, (frontSystem id).run s [.dispatch 9 9, .dispatch 9 9] = some t ∧
        ∀ q ∈ s.added, q ∈ t.returned := by
  obtain ⟨s, hkeeps, hfills, hlength⟩ : ∃ s,
      (frontSystem id).runWhile KeepsRequests frontStart
        [.add 1 ⟨1, 10, 0, 0⟩ 512 none, .dispatch 5 5, .set "cfq",
          .add 1 ⟨2, 70, 0, 0⟩ 512 (some 100),
          .add 2 ⟨3, 40, 0, 0⟩ 512 (some 200), .set "bfq"] = some s ∧
      (frontSystem id).runWhile KeepsAndFills frontStart
        [.add 1 ⟨1, 10, 0, 0⟩ 512 none, .dispatch 5 5, .set "cfq",
          .add 1 ⟨2, 70, 0, 0⟩ 512 (some 100),
          .add 2 ⟨3, 40, 0, 0⟩ 512 (some 200), .set "bfq"] = some s ∧
      s.front.requests.length = 2 :=
    ⟨_, rfl, rfl, by decide⟩
  have hinit : (frontSystem id).init frontStart := ⟨⟨_, rfl⟩, rfl, rfl⟩
  have hreach : (frontSystem id).ReachableWhile KeepsRequests s :=
    ActionSystem.ReachableWhile.run (.start hinit) hkeeps
  obtain ⟨hkept, -, hdrains⟩ := switching_keeps_requests hreach
  exact ⟨s, hreach, hlength, hkept,
    hdrains (ActionSystem.ReachableWhile.run (.start hinit) hfills)
      [(9, 9), (9, 9)] (by rw [hlength]; decide)⟩

/-- A switch from the deadline scheduler to itself drops the request that was
added. -/
theorem switching_loses_request :
    ∃ s : FrontRun, (frontSystem id).Reachable s ∧ s.added.length = 1 ∧
      s.returned = [] ∧ s.front.requests = [] ∧ ¬ s.Kept := by
  obtain ⟨s, hrun, hadded, hreturned, hnil⟩ : ∃ s,
      (frontSystem id).run frontStart
        [.add 1 ⟨1, 10, 0, 0⟩ 512 none, .set "deadline"] = some s ∧
      s.added.length = 1 ∧ s.returned = [] ∧ s.front.requests = [] :=
    ⟨_, rfl, rfl, rfl, rfl⟩
  have hinit : (frontSystem id).init frontStart := ⟨⟨_, rfl⟩, rfl, rfl⟩
  refine ⟨s, ActionSystem.Reachable.run (.start hinit) hrun, hadded, hreturned,
    hnil, ?_⟩
  intro hkept
  have hlength := hkept.perm.length_eq
  rw [hadded, hreturned, hnil] at hlength
  contradiction

end IoSched
end OsKernel

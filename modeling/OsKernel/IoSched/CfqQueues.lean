import OsKernel.IoSched.CfqModel
import OsKernel.IoSched.Deadline
import OsKernel.Lib.Ledger
import Mathlib.Tactic

/-!
# The queues of the CFQ scheduler

`Adds` and `Dispatches` say what the two functions do to the list of queues: at
most one queue changes, at its place in the list.  The invariant `Cfq.Formed`
and the count of the requests (`Cfq.requests`) follow from these two alone.
-/

namespace OsKernel
namespace IoSched

open Lib

/-! ## What a call does to the list of queues -/

/-- A request goes into the queue of its process, or into a new one at the tail
of the list. -/
inductive Adds (c : Cfq) (r : CfqRequest) : Cfq → Prop
  | known {before after : List CfqQueue} {q : CfqQueue}
      (hsplit : c.cfqQueues = before ++ q :: after) (hpid : q.pid = r.pid) :
      Adds c r
        { c with
          cfqQueues :=
            before ++ { q with queue := cfqInsert r q.queue } :: after }
  | fresh {addr : Nat} (haddr : c.Unused addr)
      (hpid : ∀ q ∈ c.cfqQueues, q.pid ≠ r.pid) :
      Adds c r
        { c with
          cfqQueues := c.cfqQueues ++ [⟨addr, r.pid, [r], 0⟩] }

/-- The ways a dispatch can go: nothing is pending at the end of a slice; the
active queue is empty and its slice goes on; the active queue is served; or a
queue is selected and served. -/
inductive Dispatches (c : Cfq) : Option CfqRequest → Cfq → Prop
  | idle (hover : c.sliceOver = true)
      (hempty : ∀ q ∈ c.cfqQueues, q.queue = []) : Dispatches c none c
  | wait {q : CfqQueue} (hactive : c.active = some q)
      (hleft : q.dispatched < c.cfqSlice) (hempty : q.queue = []) :
      Dispatches c none c
  | resume {before after : List CfqQueue} {q : CfqQueue} {r : CfqRequest}
      {rest : List CfqRequest} (hactive : c.active = some q)
      (hleft : q.dispatched < c.cfqSlice)
      (hsplit : c.cfqQueues = before ++ q :: after)
      (hqueue : q.queue = r :: rest) :
      Dispatches c (some r)
        { c with
          cfqQueues := before ++
            { q with queue := rest, dispatched := q.dispatched + r.bytes } ::
              after }
  | select {before after : List CfqQueue} {q : CfqQueue} {r : CfqRequest}
      {rest : List CfqRequest} (hover : c.sliceOver = true)
      (hsplit : c.cfqQueues = before ++ q :: after)
      (hbefore : ∀ b ∈ before, b.queue = []) (hqueue : q.queue = r :: rest) :
      Dispatches c (some r)
        { c with
          cfqQueues := before ++
            { q with queue := rest, dispatched := r.bytes } :: after
          activeQueue := some q.addr }

theorem Cfq.write_split {c : Cfq} {before after : List CfqQueue} {q : CfqQueue}
    (haddrs : (c.cfqQueues.map CfqQueue.addr).Nodup)
    (hsplit : c.cfqQueues = before ++ q :: after) (f : CfqQueue → CfqQueue) :
    c.write q.addr f = { c with cfqQueues := before ++ f q :: after } := by
  rw [hsplit] at haddrs
  rw [Cfq.write, hsplit, modifyKey_split haddrs]

/-- A request is queued if its process has a queue or gets one. -/
theorem cfqAddRequest_adds {c : Cfq}
    (haddrs : (c.cfqQueues.map CfqQueue.addr).Nodup) (r : CfqRequest)
    {kmalloc : Option Nat} (hunused : ∀ addr ∈ kmalloc, c.Unused addr)
    (hroom : kmalloc = none → ∃ q ∈ c.cfqQueues, q.pid = r.pid) :
    Adds c r (cfqAddRequest c r kmalloc) := by
  cases hfind : c.cfqQueues.find? fun q => q.pid == r.pid with
  | some q =>
      have hpid : q.pid = r.pid := by simpa using List.find?_some hfind
      obtain ⟨before, after, hsplit⟩ :=
        List.append_of_mem (List.mem_of_find?_eq_some hfind)
      simp only [cfqAddRequest, cfqGetQueue, hfind]
      rw [Cfq.write_split haddrs hsplit]
      exact .known hsplit hpid
  | none =>
      have hpid : ∀ q ∈ c.cfqQueues, q.pid ≠ r.pid := by
        intro q hq
        simpa using List.find?_eq_none.mp hfind q hq
      cases kmalloc with
      | none =>
          obtain ⟨q, hq, hsame⟩ := hroom rfl
          exact absurd hsame (hpid q hq)
      | some addr =>
          have haddr : c.Unused addr := hunused addr rfl
          simp only [cfqAddRequest, cfqGetQueue, hfind]
          -- The new queue is written to at once: it is the last of the list.
          have hnew : ((c.cfqQueues ++
              [({ addr := addr, pid := r.pid, queue := [], dispatched := 0 } :
                CfqQueue)]).map CfqQueue.addr).Nodup :=
            nodup_map_concat haddrs haddr
          have hwrite := Cfq.write_split (c := ⟨_, c.activeQueue, c.cfqSlice⟩)
            hnew rfl fun q => { q with queue := cfqInsert r q.queue }
          rw [hwrite]
          exact .fresh haddr hpid

theorem Cfq.active_mem {c : Cfq} {q : CfqQueue} (hactive : c.active = some q) :
    c.activeQueue = some q.addr ∧ q ∈ c.cfqQueues := by
  obtain ⟨addr, haddr, hfind⟩ := Option.bind_eq_some_iff.mp hactive
  have hkey : q.addr = addr := by simpa using List.find?_some hfind
  exact ⟨by rw [haddr, hkey], List.mem_of_find?_eq_some hfind⟩

theorem Cfq.active_eq_some {c : Cfq}
    (haddrs : (c.cfqQueues.map CfqQueue.addr).Nodup) {q : CfqQueue}
    (hactive : c.activeQueue = some q.addr) (hmem : q ∈ c.cfqQueues) :
    c.active = some q := by
  rw [Cfq.active, hactive]
  exact find?_key_eq_some haddrs hmem

theorem Cfq.sliceOver_of_left {c : Cfq} {q : CfqQueue}
    (hactive : c.active = some q) (hleft : q.dispatched < c.cfqSlice) :
    c.sliceOver = false := by
  simp [Cfq.sliceOver, hactive, hleft]

/-- The second half of `cfq_dispatch`: the head of the active queue. -/
theorem cfqDispatch_of_switch {c d : Cfq} (hswitch : cfqSwitch c = d)
    (haddrs : (d.cfqQueues.map CfqQueue.addr).Nodup)
    {before after : List CfqQueue} {q : CfqQueue} {r : CfqRequest}
    {rest : List CfqRequest} (hactive : d.active = some q)
    (hsplit : d.cfqQueues = before ++ q :: after) (hqueue : q.queue = r :: rest) :
    cfqDispatch c = (some r,
      { d with
        cfqQueues := before ++
          { q with queue := rest, dispatched := q.dispatched + r.bytes } ::
            after }) := by
  simp only [cfqDispatch, hswitch, hactive, hqueue]
  rw [Cfq.write_split haddrs hsplit]

/-- While the slice goes on, only the active queue is looked at. -/
theorem cfqDispatch_of_left {c : Cfq}
    (haddrs : (c.cfqQueues.map CfqQueue.addr).Nodup)
    (hover : c.sliceOver = false) :
    Dispatches c (cfqDispatch c).1 (cfqDispatch c).2 := by
  have hswitch : cfqSwitch c = c := by simp [cfqSwitch, hover]
  cases hactive : c.active with
  | none => simp [Cfq.sliceOver, hactive] at hover
  | some q =>
      have hleft : q.dispatched < c.cfqSlice := by
        simpa [Cfq.sliceOver, hactive] using hover
      cases hqueue : q.queue with
      | nil =>
          have hdispatch : cfqDispatch c = (none, c) := by
            simp [cfqDispatch, hswitch, hactive, hqueue]
          rw [hdispatch]
          exact .wait hactive hleft hqueue
      | cons r rest =>
          obtain ⟨before, after, hsplit⟩ :=
            List.append_of_mem (Cfq.active_mem hactive).2
          rw [cfqDispatch_of_switch hswitch haddrs hactive hsplit hqueue]
          exact .resume hactive hleft hsplit hqueue

/-- At the end of a slice the first queue that is not empty is served. -/
theorem cfqDispatch_of_over {c : Cfq}
    (haddrs : (c.cfqQueues.map CfqQueue.addr).Nodup)
    (hover : c.sliceOver = true) :
    Dispatches c (cfqDispatch c).1 (cfqDispatch c).2 := by
  cases hfind : c.cfqQueues.find? fun q => !q.queue.isEmpty with
  | none =>
      have hempty : ∀ q ∈ c.cfqQueues, q.queue = [] := by
        intro q hq
        simpa using List.find?_eq_none.mp hfind q hq
      have hswitch : cfqSwitch c = c := by simp [cfqSwitch, hover, hfind]
      have hdispatch : cfqDispatch c = (none, c) := by
        simp only [cfqDispatch, hswitch]
        cases hactive : c.active with
        | none => rfl
        | some q => simp only [hempty q (Cfq.active_mem hactive).2]
      rw [hdispatch]
      exact .idle hover hempty
  | some q =>
      obtain ⟨hq, before, after, hsplit, hbefore⟩ :=
        List.find?_eq_some_iff_append.mp hfind
      have hempty : ∀ b ∈ before, b.queue = [] := by
        intro b hb
        simpa using hbefore b hb
      obtain ⟨r, rest, hqueue⟩ : ∃ r rest, q.queue = r :: rest :=
        List.exists_cons_of_ne_nil (by simpa using hq)
      have hswitch : cfqSwitch c =
          { c with
            cfqQueues := before ++ { q with dispatched := 0 } :: after
            activeQueue := some q.addr } := by
        simp only [cfqSwitch, hover, hfind, if_true,
          Cfq.write_split haddrs hsplit]
      have haddrs' : ((before ++ { q with dispatched := 0 } :: after).map
          CfqQueue.addr).Nodup := by
        rw [hsplit] at haddrs
        simpa using haddrs
      have hactive := Cfq.active_eq_some
        (c := ⟨_, some q.addr, c.cfqSlice⟩) haddrs'
        (q := { q with dispatched := 0 }) rfl
        (List.mem_append_right _ (List.mem_cons_self ..))
      rw [cfqDispatch_of_switch hswitch haddrs' hactive rfl hqueue]
      simp only [UInt32.zero_add]
      exact .select hover hsplit hempty hqueue

theorem cfqDispatch_dispatches {c : Cfq}
    (haddrs : (c.cfqQueues.map CfqQueue.addr).Nodup) :
    Dispatches c (cfqDispatch c).1 (cfqDispatch c).2 := by
  cases hover : c.sliceOver with
  | false => exact cfqDispatch_of_left haddrs hover
  | true => exact cfqDispatch_of_over haddrs hover

/-- A dispatch that returns `NULL` changes nothing. -/
theorem Dispatches.eq_of_none {c c' : Cfq} (h : Dispatches c none c') :
    c' = c := by
  cases h <;> rfl

/-- One that returns a request takes it off the head of a queue, which is the
active one then. -/
theorem Dispatches.served {c c' : Cfq} {r : CfqRequest}
    (h : Dispatches c (some r) c') :
    ∃ before q after rest dispatched,
      c.cfqQueues = before ++ q :: after ∧ q.queue = r :: rest ∧
      c' =
        { c with
          cfqQueues := before ++
            { q with queue := rest, dispatched := dispatched } :: after
          activeQueue := some q.addr } := by
  cases h with
  | @resume before after q _ rest hactive hleft hsplit hqueue =>
      refine ⟨before, q, after, rest, q.dispatched + r.bytes, hsplit, hqueue, ?_⟩
      rw [(Cfq.active_mem hactive).1]
  | select hover hsplit hbefore hqueue =>
      exact ⟨_, _, _, _, _, hsplit, hqueue, rfl⟩

/-! ## The invariant -/

/-- The requests in all queues. -/
def Cfq.requests (c : Cfq) : List CfqRequest :=
  c.cfqQueues.flatMap CfqQueue.queue

/-- The list of queues is well formed: one queue for a process, each sorted and
with requests of its own process only, and `active_queue` is one of them. -/
structure Cfq.Formed (c : Cfq) : Prop where
  addrs : (c.cfqQueues.map CfqQueue.addr).Nodup
  pids : (c.cfqQueues.map CfqQueue.pid).Nodup
  owner : ∀ q ∈ c.cfqQueues, ∀ r ∈ q.queue, r.pid = q.pid
  sorted : ∀ q ∈ c.cfqQueues,
    q.queue.Pairwise fun a b => Before a.toQueued b.toQueued
  active : ∀ addr, c.activeQueue = some addr →
    ∃ q ∈ c.cfqQueues, q.addr = addr

theorem cfqInit_formed : cfqInit.Formed := by
  constructor <;> simp [cfqInit]

/-- One queue may be exchanged for another of the same process at the same
address, and made the active one. -/
theorem Cfq.Formed.exchange {c : Cfq} (h : c.Formed)
    {before after : List CfqQueue} {q : CfqQueue}
    (hsplit : c.cfqQueues = before ++ q :: after) (q' : CfqQueue)
    (haddr : q'.addr = q.addr)
    (hpid : q'.pid = q.pid) (howner : ∀ r ∈ q'.queue, r.pid = q.pid)
    (hsorted : q'.queue.Pairwise fun a b => Before a.toQueued b.toQueued)
    {active : Option Nat}
    (hactive : active = c.activeQueue ∨ active = some q.addr) :
    Cfq.Formed ⟨before ++ q' :: after, active, c.cfqSlice⟩ := by
  have hmem : ∀ x ∈ before ++ q' :: after, x = q' ∨ x ∈ c.cfqQueues := by
    intro x hx
    rw [hsplit]
    simp only [List.mem_append, List.mem_cons] at hx ⊢
    tauto
  constructor
  · have haddrs := h.addrs
    rw [hsplit] at haddrs
    simpa [haddr] using haddrs
  · have hpids := h.pids
    rw [hsplit] at hpids
    simpa [hpid] using hpids
  · intro x hx
    rcases hmem x hx with rfl | hold
    · rw [hpid]
      exact howner
    · exact h.owner x hold
  · intro x hx
    rcases hmem x hx with rfl | hold
    · exact hsorted
    · exact h.sorted x hold
  · intro addr hsome
    -- The queue `active_queue` points to is there under its address.
    have hat : ∃ x ∈ c.cfqQueues, x.addr = addr := by
      rcases hactive with rfl | rfl
      · exact h.active addr hsome
      · exact ⟨q, by simp [hsplit], Option.some.inj hsome⟩
    obtain ⟨x, hx, rfl⟩ := hat
    rw [hsplit] at hx
    rcases List.mem_append.mp hx with hbefore | hrest
    · exact ⟨x, List.mem_append_left _ hbefore, rfl⟩
    · rcases List.mem_cons.mp hrest with rfl | hafter
      · exact ⟨q', by simp, haddr⟩
      · exact ⟨x, by simp [hafter], rfl⟩

theorem Cfq.mem_requests_of_split {c : Cfq} {before after : List CfqQueue}
    {q : CfqQueue} (hsplit : c.cfqQueues = before ++ q :: after)
    {r : CfqRequest} (hr : r ∈ q.queue) : r ∈ c.requests := by
  rw [Cfq.requests, List.mem_flatMap]
  exact ⟨q, by simp [hsplit], hr⟩

/-- Inserting a request that arrived after those of a sorted queue. -/
theorem cfqInsert_sorted {r : CfqRequest} {l : List CfqRequest}
    (hsorted : l.Pairwise fun a b => Before a.toQueued b.toQueued)
    (harrival : ∀ b ∈ l, b.arrival < r.arrival) :
    (cfqInsert r l).Pairwise fun a b => Before a.toQueued b.toQueued := by
  refine pairwise_orderedInsert
    (R := fun a b : CfqRequest => Before a.toQueued b.toQueued)
    (fun _ _ _ => Before.trans) (fun b _ hlt => Or.inl hlt) ?_ hsorted
  intro b hb hge
  rcases UInt64.lt_or_eq_of_le (UInt64.not_lt.mp hge) with hlt | heq
  · exact Or.inl hlt
  · exact Or.inr ⟨heq, harrival b hb⟩

theorem Cfq.Formed.adds {c c' : Cfq} (h : c.Formed) {r : CfqRequest}
    (hadds : Adds c r c') (harrival : ∀ b ∈ c.requests, b.arrival < r.arrival) :
    c'.Formed := by
  cases hadds with
  | @known before after q hsplit hpid =>
      have hq : q ∈ c.cfqQueues := by simp [hsplit]
      apply h.exchange hsplit { q with queue := cfqInsert r q.queue } rfl rfl
      · intro x hx
        rcases List.mem_cons.mp ((List.perm_orderedInsert _ _ _).subset hx)
          with rfl | hold
        · exact hpid.symm
        · exact h.owner q hq x hold
      · apply cfqInsert_sorted (h.sorted q hq)
        intro b hb
        exact harrival b (Cfq.mem_requests_of_split hsplit hb)
      · exact Or.inl rfl
  | fresh haddr hpid =>
      constructor
      · exact nodup_map_concat h.addrs haddr
      · exact nodup_map_concat h.pids hpid
      · intro q hq
        rcases List.mem_append.mp hq with hold | hnew
        · exact h.owner q hold
        · simp [List.mem_singleton.mp hnew]
      · intro q hq
        rcases List.mem_append.mp hq with hold | hnew
        · exact h.sorted q hold
        · simp [List.mem_singleton.mp hnew]
      · intro addr hsome
        obtain ⟨q, hq, haddr⟩ := h.active addr hsome
        exact ⟨q, List.mem_append_left _ hq, haddr⟩

theorem Cfq.Formed.dispatches {c c' : Cfq} (h : c.Formed)
    {out : Option CfqRequest} (hdispatches : Dispatches c out c') :
    c'.Formed := by
  cases out with
  | none =>
      rw [hdispatches.eq_of_none]
      exact h
  | some r =>
      obtain ⟨before, q, after, rest, dispatched, hsplit, hqueue, rfl⟩ :=
        hdispatches.served
      have hq : q ∈ c.cfqQueues := by simp [hsplit]
      have hsorted := h.sorted q hq
      rw [hqueue, List.pairwise_cons] at hsorted
      apply h.exchange hsplit
        { q with queue := rest, dispatched := dispatched } rfl rfl
      · intro x hx
        exact h.owner q hq x (by simp [hqueue, show x ∈ rest from hx])
      · exact hsorted.2
      · exact Or.inr rfl

/-- Adding a request adds it to the requests in the queues. -/
theorem Adds.requests_perm {c c' : Cfq} {r : CfqRequest} (h : Adds c r c') :
    c'.requests.Perm (r :: c.requests) := by
  cases h with
  | @known before after q hsplit hpid =>
      have hinsert : (cfqInsert r q.queue).Perm (r :: q.queue) :=
        List.perm_orderedInsert _ _ _
      simp only [Cfq.requests, hsplit, List.flatMap_append, List.flatMap_cons]
      have hinner := (hinsert.append_right (after.flatMap CfqQueue.queue))
      exact (hinner.append_left _).trans List.perm_middle
  | fresh haddr hpid =>
      simp only [Cfq.requests, List.flatMap_append, List.flatMap_singleton]
      exact List.perm_append_singleton r _

/-- A dispatch takes the request it returns out of them. -/
theorem Dispatches.requests_perm {c c' : Cfq} {r : CfqRequest}
    (h : Dispatches c (some r) c') : c.requests.Perm (r :: c'.requests) := by
  obtain ⟨before, q, after, rest, dispatched, hsplit, hqueue, rfl⟩ := h.served
  simp only [Cfq.requests, hsplit, List.flatMap_append, List.flatMap_cons,
    hqueue, List.cons_append]
  exact List.perm_middle

/-! ## Runs -/

/-- What one call of a run does. -/
inductive CfqStep (s : CfqRun) : CfqAction → CfqRun → Prop
  | add {pid : Int} {r : Request} {bytes : UInt32} {addr : Nat} {c : Cfq}
      (hadds : Adds s.cfq ⟨⟨r, s.added.length⟩, bytes, pid⟩ c) :
      CfqStep s (.add pid r bytes addr)
        { s with
          cfq := c
          added := s.added ++ [⟨⟨r, s.added.length⟩, bytes, pid⟩] }
  | idle (hnone : Dispatches s.cfq none s.cfq) : CfqStep s .dispatch s
  | serve {r : CfqRequest} {c : Cfq} (hsome : Dispatches s.cfq (some r) c) :
      CfqStep s .dispatch
        { s with
          cfq := c
          returned := s.returned ++ [r]
          turn := if s.cfq.selects then s.turn + 1 else s.turn
          since := fun pid =>
            if s.cfq.hasPending pid && r.pid != pid then
              s.since pid ++
                [(r.pid, if s.cfq.selects then s.turn + 1 else s.turn)]
            else [] }

theorem Dispatches.selects_of_none {c c' : Cfq} (h : Dispatches c none c') :
    c.selects = false := by
  cases h with
  | idle hover hempty =>
      simp only [Cfq.selects, Bool.and_eq_false_iff, List.any_eq_false]
      right
      intro q hq
      simp [hempty q hq]
  | wait hactive hleft hempty =>
      rw [Cfq.selects, Cfq.sliceOver_of_left hactive hleft, Bool.false_and]

theorem cfqStep_cases {s t : CfqRun} {a : CfqAction} (hformed : s.cfq.Formed)
    (hstep : cfqSystem.step s a = some t) : CfqStep s a t := by
  change cfqStep s a = some t at hstep
  cases a with
  | add pid r bytes addr =>
      simp only [cfqStep] at hstep
      split at hstep
      next hguard =>
        obtain rfl := Option.some.inj hstep
        refine .add (cfqAddRequest_adds hformed.addrs _ ?_ ?_)
        · intro a ha
          exact Option.some.inj ha ▸ hguard.2
        · exact fun hnone => absurd hnone (by simp)
      next => contradiction
  | dispatch =>
      have hdispatches := cfqDispatch_dispatches hformed.addrs
      simp only [cfqStep] at hstep
      obtain rfl := Option.some.inj hstep
      revert hdispatches
      generalize cfqDispatch s.cfq = result
      obtain ⟨out, c⟩ := result
      intro hdispatches
      cases out with
      | none =>
          obtain rfl : c = s.cfq := hdispatches.eq_of_none
          simpa [hdispatches.selects_of_none] using
            CfqStep.idle (s := s) hdispatches
      | some r => exact .serve hdispatches

/-- The requests added are those returned and those in the queues; each carries
the number of the call that added it. -/
structure CfqAccounted (s : CfqRun) : Prop where
  formed : s.cfq.Formed
  ledger : Ledger (fun r => r.arrival) s.added s.returned s.cfq.requests

theorem CfqStep.accounted {s t : CfqRun} {a : CfqAction} (hstep : CfqStep s a t)
    (h : CfqAccounted s) : CfqAccounted t := by
  cases hstep with
  | add hadds =>
      exact ⟨h.formed.adds hadds fun b hb => h.ledger.number_lt hb,
        h.ledger.add rfl hadds.requests_perm⟩
  | idle hnone => exact h
  | serve hsome =>
      exact ⟨h.formed.dispatches hsome, h.ledger.take hsome.requests_perm⟩

theorem cfq_accounted {s : CfqRun} (hreach : cfqSystem.Reachable s) :
    CfqAccounted s := by
  refine hreach.invariant (P := CfqAccounted) ?_ ?_
  · rintro s ⟨hcfq, hadded, hreturned, -⟩
    constructor
    · rw [hcfq]
      exact cfqInit_formed
    · rw [hadded, hreturned, hcfq]
      exact Ledger.nil
  · intro s a t _ hs hstep
    exact (cfqStep_cases hs.formed hstep).accounted hs

/-- The queue of a process has the requests of that process. -/
theorem Cfq.Formed.mem_queue_iff {c : Cfq} (h : c.Formed) {q : CfqQueue}
    (hq : q ∈ c.cfqQueues) (r : CfqRequest) :
    r ∈ q.queue ↔ r ∈ c.requests ∧ r.pid = q.pid := by
  constructor
  · intro hr
    exact ⟨List.mem_flatMap.mpr ⟨q, hq, hr⟩, h.owner q hq r hr⟩
  · rintro ⟨hr, hpid⟩
    obtain ⟨q', hq', hr'⟩ := List.mem_flatMap.mp hr
    have hsame : q'.pid = q.pid := (h.owner q' hq' r hr').symm.trans hpid
    rwa [← List.inj_on_of_nodup_map h.pids hq' hq hsame]

/-- What the queues are and which request a dispatch returns. -/
structure CfqConsistent (s : CfqRun) : Prop where
  /-- There is at most one queue for a process. -/
  onePerPid : (s.cfq.cfqQueues.map CfqQueue.pid).Nodup
  /-- A queue holds what its process added and was not returned. -/
  queued : ∀ q ∈ s.cfq.cfqQueues, ∀ r,
    r ∈ q.queue ↔ r ∈ s.added ∧ r ∉ s.returned ∧ r.pid = q.pid
  /-- Every process with such a request has a queue. -/
  covered : ∀ r ∈ s.added, r ∉ s.returned →
    ∃ q ∈ s.cfq.cfqQueues, q.pid = r.pid
  /-- By sector, equal sectors in order of arrival. -/
  sorted : ∀ q ∈ s.cfq.cfqQueues,
    q.queue.Pairwise fun a b => Before a.toQueued b.toQueued
  active : ∀ addr, s.cfq.activeQueue = some addr →
    ∃ q ∈ s.cfq.cfqQueues, q.addr = addr
  /-- No request is returned twice. -/
  once : s.returned.Nodup
  /-- What a dispatch returns is the first of the pending requests of the
  process whose queue is active then. -/
  lowest : ∀ r c, cfqDispatch s.cfq = (some r, c) →
    ∃ q ∈ c.cfqQueues, c.activeQueue = some q.addr ∧
      (r ∈ s.added ∧ r ∉ s.returned ∧ r.pid = q.pid) ∧
      ∀ x ∈ s.added, x ∉ s.returned → x.pid = q.pid → x ≠ r →
        Before r.toQueued x.toQueued

theorem CfqAccounted.lowest {s : CfqRun} (h : CfqAccounted s) {r : CfqRequest}
    {c : Cfq} (hdispatch : cfqDispatch s.cfq = (some r, c)) :
    ∃ q ∈ c.cfqQueues, c.activeQueue = some q.addr ∧
      (r ∈ s.added ∧ r ∉ s.returned ∧ r.pid = q.pid) ∧
      ∀ x ∈ s.added, x ∉ s.returned → x.pid = q.pid → x ≠ r →
        Before r.toQueued x.toQueued := by
  have hdispatches := cfqDispatch_dispatches h.formed.addrs
  rw [hdispatch] at hdispatches
  obtain ⟨before, q, after, rest, dispatched, hsplit, hqueue, rfl⟩ :=
    hdispatches.served
  have hq : q ∈ s.cfq.cfqQueues := by simp [hsplit]
  have hmem : ∀ x, x ∈ q.queue ↔
      (x ∈ s.added ∧ x ∉ s.returned) ∧ x.pid = q.pid := by
    intro x
    rw [h.formed.mem_queue_iff hq, h.ledger.mem_pending_iff]
  have hsorted := h.formed.sorted q hq
  rw [hqueue, List.pairwise_cons] at hsorted
  refine ⟨{ q with queue := rest, dispatched := dispatched }, by simp, rfl,
    ?_, ?_⟩
  · obtain ⟨⟨hadded, hnot⟩, hpid⟩ := (hmem r).mp (by simp [hqueue])
    exact ⟨hadded, hnot, hpid⟩
  · intro x hx hnot hpid hne
    have hqueued : x ∈ q.queue := (hmem x).mpr ⟨⟨hx, hnot⟩, hpid⟩
    rw [hqueue] at hqueued
    rcases List.mem_cons.mp hqueued with heq | hrest
    · exact absurd heq hne
    · exact hsorted.1 x hrest

/-- In every reachable state the queues are sorted, belong to one process each,
and hold what was added and not returned. -/
theorem cfq_consistent {s : CfqRun} (hreach : cfqSystem.Reachable s) :
    CfqConsistent s := by
  have h := cfq_accounted hreach
  exact
    { onePerPid := h.formed.pids
      queued := by
        intro q hq r
        rw [h.formed.mem_queue_iff hq, h.ledger.mem_pending_iff, and_assoc]
      covered := by
        intro r hr hnot
        have hmem := (h.ledger.mem_pending_iff r).mpr ⟨hr, hnot⟩
        obtain ⟨q, hq, hqueued⟩ := List.mem_flatMap.mp hmem
        exact ⟨q, hq, (h.formed.owner q hq r hqueued).symm⟩
      sorted := h.formed.sorted
      active := h.formed.active
      once := h.ledger.returned_nodup
      lowest := fun _ _ hdispatch => h.lowest hdispatch }

/-- Before the first call, with nothing counted yet. -/
def cfqStart : CfqRun :=
  { cfq := cfqInit, added := [], returned := [], turn := 0
    since := fun _ => [] }

theorem cfqStart_reachable : cfqSystem.Reachable cfqStart :=
  .start ⟨rfl, rfl, rfl, rfl⟩

/-- Two processes add requests; the one that came first is served in order of
sectors. -/
theorem cfq_consistent_sample :
    ∃ s : CfqRun, cfqSystem.Reachable s ∧ CfqConsistent s ∧
      s.cfq.cfqQueues.map (fun q => (q.pid, q.queue.map fun r => r.req.sector)) =
        [(7, [50]), (9, [40])] ∧
      s.returned.map (fun r => r.req.sector) = [20] := by
  obtain ⟨s, hrun, hqueues, hreturned⟩ : ∃ s, cfqSystem.run cfqStart
      [.add 7 ⟨1, 50, 0, 0⟩ 512 100, .add 9 ⟨2, 40, 0, 0⟩ 512 200,
        .add 7 ⟨3, 20, 0, 0⟩ 512 300, .dispatch] = some s ∧
      s.cfq.cfqQueues.map (fun q => (q.pid, q.queue.map fun r => r.req.sector)) =
        [(7, [50]), (9, [40])] ∧
      s.returned.map (fun r => r.req.sector) = [20] :=
    ⟨_, rfl, by decide, by decide⟩
  have hreach : cfqSystem.Reachable s :=
    ActionSystem.Reachable.run cfqStart_reachable hrun
  exact ⟨s, hreach, cfq_consistent hreach, hqueues, hreturned⟩

end IoSched
end OsKernel

import OsKernel.IoSched.Model
import OsKernel.Lib.KeyedLists

/-!
# The CFQ I/O scheduler of `demos/iosched/iosched.c`

Each process has a queue of its own, sorted by sector, and the queues form a
list in the order in which the processes first submitted a request.  A dispatch
goes on with the active queue until that has dispatched `cfq_slice` bytes, and
then makes the first queue of the list that is not empty the active one.

As in the model of the deadline scheduler, a list is the list of its nodes from
head to tail.  A queue is known by its address, which `kmalloc` gave it;
`active_queue` is such an address.  Queues are never freed.

Left out are the fields of a queue and of `cfq_data` that no function reads
(`comm`, `last_jiffies`, `weight`, `was_active`, `service_tree`,
`current_jiffies`) and `sched->dispatch`, which the CFQ functions only
initialise.

`CfqRun` keeps ghosts: the requests added and returned so far, the number of
times a queue was selected, and for each process what was served while it had
to wait.  No function reads them.
-/

namespace OsKernel
namespace IoSched

open Lib

/-- A request with the two things only CFQ looks at: `req->bytes`, and
`current->pid` at the time it was added. -/
structure CfqRequest extends Queued where
  bytes : UInt32
  pid : Int
  deriving DecidableEq, Repr

/-- `struct cfq_queue`. -/
structure CfqQueue where
  addr : Nat
  pid : Int
  queue : List CfqRequest
  dispatched : UInt32
  deriving DecidableEq, Repr

/-- `struct cfq_data`. -/
structure Cfq where
  cfqQueues : List CfqQueue
  activeQueue : Option Nat
  cfqSlice : UInt32
  deriving DecidableEq, Repr

/-- `cfq_init`. -/
def cfqInit : Cfq :=
  { cfqQueues := [], activeQueue := none, cfqSlice := 100 }

/-- Write to the queue at an address. -/
def Cfq.write (c : Cfq) (addr : Nat) (f : CfqQueue → CfqQueue) : Cfq :=
  { c with cfqQueues := modifyKey CfqQueue.addr addr f c.cfqQueues }

/-- What `active_queue` points to; `none` if it is `NULL`. -/
def Cfq.active (c : Cfq) : Option CfqQueue :=
  c.activeQueue.bind fun addr => c.cfqQueues.find? fun q => q.addr == addr

/-- `cfq_get_queue`; `kmalloc` is what `kmalloc` returns if it is called. -/
def cfqGetQueue (c : Cfq) (pid : Int) (kmalloc : Option Nat) :
    Cfq × Option Nat :=
  match c.cfqQueues.find? fun q => q.pid == pid with
  | some q => (c, some q.addr)
  | none =>
      match kmalloc with
      | none => (c, none)
      | some addr =>
          let cfqq : CfqQueue :=
            { addr := addr, pid := pid, queue := [], dispatched := 0 }
          ({ c with cfqQueues := c.cfqQueues ++ [cfqq] }, some addr)

/-- The loop of `cfq_add_request`: insert before the first request with a
greater sector, or at the tail. -/
def cfqInsert (r : CfqRequest) (l : List CfqRequest) : List CfqRequest :=
  l.orderedInsert (fun a b => a.req.sector < b.req.sector) r

/-- `cfq_add_request`, called by the process `r.pid`. -/
def cfqAddRequest (c : Cfq) (r : CfqRequest) (kmalloc : Option Nat) : Cfq :=
  match cfqGetQueue c r.pid kmalloc with
  | (c, none) => c
  | (c, some addr) =>
      c.write addr fun q => { q with queue := cfqInsert r q.queue }

/-- The condition of the first `if` of `cfq_dispatch`. -/
def Cfq.sliceOver (c : Cfq) : Bool :=
  match c.active with
  | none => true
  | some q => decide (q.dispatched ≥ c.cfqSlice)

/-- The first `if` of `cfq_dispatch`: at the end of a slice the first queue of
the list that is not empty becomes the active one. -/
def cfqSwitch (c : Cfq) : Cfq :=
  if c.sliceOver then
    match c.cfqQueues.find? fun q => !q.queue.isEmpty with
    | none => c
    | some q =>
        { c.write q.addr fun q => { q with dispatched := 0 } with
          activeQueue := some q.addr }
  else c

/-- `cfq_dispatch`. -/
def cfqDispatch (c : Cfq) : Option CfqRequest × Cfq :=
  let c := cfqSwitch c
  match c.active with
  | none => (none, c)
  | some q =>
      match q.queue with
      | [] => (none, c)
      | r :: rest =>
          (some r,
            c.write q.addr fun q =>
              { q with queue := rest, dispatched := q.dispatched + r.bytes })

/-! ## Runs -/

/-- The process has a request in its queue. -/
def Cfq.hasPending (c : Cfq) (pid : Int) : Bool :=
  c.cfqQueues.any fun q => q.pid == pid && !q.queue.isEmpty

/-- A dispatch now selects a queue. -/
def Cfq.selects (c : Cfq) : Bool :=
  c.sliceOver && c.cfqQueues.any fun q => !q.queue.isEmpty

/-- The scheduler in a run, with ghosts. -/
structure CfqRun where
  cfq : Cfq
  /-- The requests queued so far, oldest first. -/
  added : List CfqRequest
  /-- The requests returned by dispatches so far, oldest first. -/
  returned : List CfqRequest
  /-- The number of times a queue was selected. -/
  turn : Nat
  /-- For a process, what was served while it had a request pending since it
  was itself served last: the processes, each with the turn it was in. -/
  since : Int → List (Int × Nat)

/-- What the users of the scheduler do.  `addr` is where `kmalloc` puts a new
queue if it is called. -/
inductive CfqAction
  | add (pid : Int) (r : Request) (bytes : UInt32) (addr : Nat)
  | dispatch

/-- The request is on no queue. -/
def Cfq.NotQueued (c : Cfq) (r : Request) : Prop :=
  ∀ q ∈ c.cfqQueues, ∀ x ∈ q.queue, x.addr ≠ r.addr

/-- The address is that of no queue. -/
def Cfq.Unused (c : Cfq) (addr : Nat) : Prop :=
  ∀ q ∈ c.cfqQueues, q.addr ≠ addr

instance (c : Cfq) (r : Request) : Decidable (c.NotQueued r) :=
  inferInstanceAs (Decidable (∀ q ∈ c.cfqQueues, _))

instance (c : Cfq) (addr : Nat) : Decidable (c.Unused addr) :=
  inferInstanceAs (Decidable (∀ q ∈ c.cfqQueues, _))

/-- One call.  A request that is queued already may not be added, and
`kmalloc` succeeds with memory that is not in use. -/
def cfqStep (s : CfqRun) : CfqAction → Option CfqRun
  | .add pid r bytes addr =>
      if s.cfq.NotQueued r ∧ s.cfq.Unused addr then
        let r : CfqRequest :=
          { req := r, arrival := s.added.length, bytes := bytes, pid := pid }
        some
          { s with
            cfq := cfqAddRequest s.cfq r (some addr)
            added := s.added ++ [r] }
      else none
  | .dispatch =>
      let turn := if s.cfq.selects then s.turn + 1 else s.turn
      let result := cfqDispatch s.cfq
      some
        { s with
          cfq := result.2
          returned := s.returned ++ result.1.toList
          turn := turn
          since := fun pid =>
            match result.1 with
            | none => s.since pid
            | some r =>
                if s.cfq.hasPending pid && r.pid != pid then
                  s.since pid ++ [(r.pid, turn)]
                else [] }

/-- The runs after `cfq_init`. -/
def cfqSystem : ActionSystem CfqRun CfqAction where
  init s := s.cfq = cfqInit ∧ s.added = [] ∧ s.returned = [] ∧
    s.since = fun _ => []
  step := cfqStep

end IoSched
end OsKernel

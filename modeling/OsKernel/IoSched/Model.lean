import OsKernel.Lib.ActionSystem
import Mathlib.Data.List.Sort

/-!
# The deadline I/O scheduler of `demos/iosched/iosched.c`

Every request sits on two lists at once: on `dispatch`, sorted by sector, and
on one of two FIFOs, by kind of operation.  A dispatch prefers the head of a
FIFO once that head is old enough, and takes the first request in sector order
otherwise.

The list header is not in the repository; the lists are standard circular
intrusive ones.  A list is modelled as the list of its nodes from head to
tail.  A request is known by its address, and `list_del` unlinks the node at
that address from the list it is on.  `get_jiffies` is called once by each of
the two age tests, so a dispatch takes two clock values; `jiffies_to_msecs` is
a parameter.

Of `struct request` the functions here read `sector`, `op` and `jiffies`; the
other fields and the messages printed are left out.

The entries of the lists carry a ghost number, the position of the
`deadline_add_request` call that queued them.  `Run` keeps the requests added
and returned so far and the last clock value; no function reads them.
-/

namespace OsKernel
namespace IoSched

open Lib

/-- `struct request`: its address and the fields the schedulers read. -/
structure Request where
  addr : Nat
  sector : UInt64
  op : UInt16
  jiffies : UInt64
  deriving DecidableEq, Repr

/-- `BIO_OP_READ`. -/
def bioOpRead : UInt16 := 0

/-- A queued request and the number of the call that queued it. -/
structure Queued where
  req : Request
  arrival : Nat
  deriving DecidableEq, Repr

namespace Queued

/-- The request is a read; all other operations are in the write class. -/
def isRead (q : Queued) : Bool :=
  q.req.op == bioOpRead

/-- The address of the request. -/
def addr (q : Queued) : Nat :=
  q.req.addr

end Queued

/-- `struct deadline_data` with the list `sched->dispatch`. -/
structure Deadline where
  dispatch : List Queued
  readFifo : List Queued
  writeFifo : List Queued
  readDeadline : UInt32
  writeDeadline : UInt32
  deriving DecidableEq, Repr

/-- `deadline_init`. -/
def deadlineInit : Deadline :=
  { dispatch := [], readFifo := [], writeFifo := []
    readDeadline := 500, writeDeadline := 5000 }

/-- The loop of `deadline_add_request` over `sched->dispatch`: insert before
the first request with a greater sector, or at the tail. -/
def insertBySector (q : Queued) (l : List Queued) : List Queued :=
  l.orderedInsert (fun a b => a.req.sector < b.req.sector) q

/-- `deadline_add_request`. -/
def deadlineAddRequest (dd : Deadline) (q : Queued) : Deadline :=
  let dd :=
    if q.isRead then { dd with readFifo := dd.readFifo ++ [q] }
    else { dd with writeFifo := dd.writeFifo ++ [q] }
  { dd with dispatch := insertBySector q dd.dispatch }

/-- `list_del`: unlink the node at an address. -/
def listDel (addr : Nat) (l : List Queued) : List Queued :=
  l.filter fun q => q.addr != addr

/-- `list_del(&req->queuelist)`. -/
def Deadline.delQueuelist (dd : Deadline) (q : Queued) : Deadline :=
  { dd with dispatch := listDel q.addr dd.dispatch }

/-- `list_del(&req->fiolist)`; the node is on one of the FIFOs. -/
def Deadline.delFiolist (dd : Deadline) (q : Queued) : Deadline :=
  { dd with
    readFifo := listDel q.addr dd.readFifo
    writeFifo := listDel q.addr dd.writeFifo }

/-- The age of a request in milliseconds at a clock value; the subtraction is
that of `unsigned long`. -/
def age (jiffiesToMsecs : UInt64 → UInt64) (now : UInt64) (q : Queued) :
    UInt64 :=
  jiffiesToMsecs (now - q.req.jiffies)

/-- `deadline_read_expired` and `deadline_write_expired`: the head of a FIFO
is as old as the deadline. -/
def headExpired (jiffiesToMsecs : UInt64 → UInt64) (now : UInt64)
    (deadline : UInt32) : List Queued → Bool
  | [] => false
  | q :: _ => decide (age jiffiesToMsecs now q ≥ deadline.toUInt64)

/-- `deadline_read_expired`. -/
def deadlineReadExpired (jiffiesToMsecs : UInt64 → UInt64) (now : UInt64)
    (dd : Deadline) : Bool :=
  headExpired jiffiesToMsecs now dd.readDeadline dd.readFifo

/-- `deadline_write_expired`. -/
def deadlineWriteExpired (jiffiesToMsecs : UInt64 → UInt64) (now : UInt64)
    (dd : Deadline) : Bool :=
  headExpired jiffiesToMsecs now dd.writeDeadline dd.writeFifo

/-- `deadline_dispatch`; `readNow` and `writeNow` are the clock values of the
two tests. -/
def deadlineDispatch (jiffiesToMsecs : UInt64 → UInt64)
    (readNow writeNow : UInt64) (dd : Deadline) : Option Queued × Deadline :=
  if deadlineReadExpired jiffiesToMsecs readNow dd then
    match dd.readFifo with
    | [] => (none, dd)  -- an empty FIFO has not expired
    | q :: _ => (some q, (dd.delFiolist q).delQueuelist q)
  else if deadlineWriteExpired jiffiesToMsecs writeNow dd then
    match dd.writeFifo with
    | [] => (none, dd)
    | q :: _ => (some q, (dd.delFiolist q).delQueuelist q)
  else
    match dd.dispatch with
    | [] => (none, dd)
    | q :: _ => (some q, (dd.delQueuelist q).delFiolist q)

/-- The scheduler in a run, with ghosts. -/
structure Run where
  dd : Deadline
  /-- The requests queued so far, oldest first. -/
  added : List Queued
  /-- The requests returned by dispatches so far, oldest first. -/
  returned : List Queued
  /-- The latest clock value seen: the stamp of the last request queued, or
  the second clock value of the last dispatch. -/
  clock : UInt64

/-- What a user of the scheduler does. -/
inductive Action
  | add (r : Request)
  | dispatch (readNow writeNow : UInt64)

/-- One call.  A request that is queued already may not be added. -/
def step (jiffiesToMsecs : UInt64 → UInt64) (s : Run) : Action → Option Run
  | .add r =>
      if ∃ q ∈ s.dd.dispatch, q.addr = r.addr then none
      else
        let q : Queued := ⟨r, s.added.length⟩
        some
          { s with
            dd := deadlineAddRequest s.dd q
            added := s.added ++ [q]
            clock := r.jiffies }
  | .dispatch readNow writeNow =>
      let result := deadlineDispatch jiffiesToMsecs readNow writeNow s.dd
      some
        { s with
          dd := result.2
          returned := s.returned ++ result.1.toList
          clock := writeNow }

/-- The runs after `deadline_init`. -/
def system (jiffiesToMsecs : UInt64 → UInt64) : ActionSystem Run Action where
  init s := s.dd = deadlineInit ∧ s.added = [] ∧ s.returned = []
  step := step jiffiesToMsecs

end IoSched
end OsKernel

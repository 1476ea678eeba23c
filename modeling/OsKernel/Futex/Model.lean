import OsKernel.Lib.ActionSystem
import Mathlib.Data.Fintype.Basic
import Mathlib.Logic.Function.Basic
import Mathlib.Tactic.Simps.Basic

/-!
# The futex locks `demos/futex/futex_v3_futex_lock.c` and `futex_v4_final.c`

Threads run the loop of `worker`: `futex_lock`, `counter++`, `futex_unlock`.
Both versions are modelled at once; they differ only in what `futex_lock` does
after its first compare-and-swap has failed (`afterFail`, `afterWait`).

One step is one access to shared memory (a compare-and-swap, a fetch, a load or
a store) or one effect of a system call, and the steps are interleaved in any
order, under sequential consistency.  `FUTEX_WAIT` compares the word and puts
the thread to sleep in one step; `FUTEX_WAKE` wakes one sleeper of the kernel's
choice if there is one; a sleeper may also wake up for no reason.

`counter` is a `long`; it is an `Int` here, as the loops end long before it
could overflow.  `State.increments` is a ghost: the stores to `counter` made so
far.
-/

namespace OsKernel
namespace Futex

open Lib

/-- The two implementations of `futex_lock`. -/
inductive Version
  | v3
  | v4
  deriving DecidableEq, Repr

/-- Where a thread is: the step it makes next. -/
inductive Pc
  /-- The head of the loop of `worker`. -/
  | head
  /-- The first compare-and-swap of `futex_lock`. -/
  | lockCas
  /-- The compare-and-swap inside the loop of `futex_lock`. -/
  | retryCas
  /-- `old = __sync_fetch_and_add(&lock, 0)` (v4). -/
  | fetch
  /-- `futex_wait(&lock, expected)`. -/
  | wait (expected : Int)
  /-- Asleep in the kernel. -/
  | asleep
  /-- The load of `counter++`. -/
  | load
  /-- The store of `counter++`, with the value loaded. -/
  | store (loaded : Int)
  /-- `lock = 0` in `futex_unlock`. -/
  | release
  /-- `futex_wake(&lock, 1)` in `futex_unlock`. -/
  | wake
  /-- The loop of `worker` is over. -/
  | done
  deriving DecidableEq, Repr

/-- The shared words and the threads. -/
structure State (T : Type) where
  lock : Int
  counter : Int
  /-- Ghost: the stores to `counter` made so far. -/
  increments : Nat
  /-- The rounds of its loop a thread has not begun. -/
  rounds : T → Nat
  pc : T → Pc

variable {T : Type} [DecidableEq T]

/-- Thread `t` moves to `pc`. -/
@[simps -fullyApplied]
def State.setPc (s : State T) (t : T) (pc : Pc) : State T :=
  { s with pc := Function.update s.pc t pc }

/-- Where `futex_lock` goes when a compare-and-swap fails: v3 waits for the
value `1`, v4 reads the word again. -/
def afterFail : Version → Pc
  | .v3 => .wait 1
  | .v4 => .fetch

/-- Where `futex_lock` goes when `futex_wait` returns. -/
def afterWait : Version → Pc
  | .v3 => .retryCas
  | .v4 => .fetch

/-- `__sync_bool_compare_and_swap(&lock, 0, 1)` in `futex_lock`. -/
def cas (v : Version) (s : State T) (t : T) : State T :=
  if s.lock = 0 then { s with lock := 1 }.setPc t .load
  else s.setPc t (afterFail v)

/-- The next step of a thread; a sleeper and a thread at `futex_wake` move by
other actions. -/
def advance (v : Version) (s : State T) (t : T) : Option (State T) :=
  match s.pc t with
  | .head =>
      if s.rounds t = 0 then some (s.setPc t .done)
      else
        some ({ s with
          rounds := Function.update s.rounds t (s.rounds t - 1) }.setPc t
            .lockCas)
  | .lockCas => some (cas v s t)
  | .retryCas => some (cas v s t)
  | .fetch =>
      some (s.setPc t (if s.lock ≠ 0 then .wait s.lock else .retryCas))
  | .wait expected =>
      some (s.setPc t (if s.lock = expected then .asleep else afterWait v))
  | .load => some (s.setPc t (.store s.counter))
  | .store loaded =>
      some ({ s with
        counter := loaded + 1
        increments := s.increments + 1 }.setPc t .release)
  | .release => some ({ s with lock := 0 }.setPc t .wake)
  | .asleep | .wake | .done => none

/-- A thread's own step, the effect of `futex_wake(&lock, 1)` with the sleeper
it wakes, or a spurious wakeup. -/
inductive Action (T : Type)
  | advance (t : T)
  | wake (t : T) (sleeper : Option T)
  | spurious (sleeper : T)

variable [Fintype T]

/-- One step. -/
def step (v : Version) (s : State T) : Action T → Option (State T)
  | .advance t => advance v s t
  | .wake t none =>
      if s.pc t = .wake ∧ ∀ u, s.pc u ≠ .asleep then some (s.setPc t .head)
      else none
  | .wake t (some u) =>
      if s.pc t = .wake ∧ s.pc u = .asleep then
        some ((s.setPc u (afterWait v)).setPc t .head)
      else none
  | .spurious u =>
      if s.pc u = .asleep then some (s.setPc u (afterWait v)) else none

/-- All threads are about to run `rounds` rounds of their loops. -/
structure Initial (rounds : T → Nat) (s : State T) : Prop where
  lock : s.lock = 0
  counter : s.counter = 0
  increments : s.increments = 0
  rounds : s.rounds = rounds
  pc : ∀ t, s.pc t = .head

/-- The runs of the threads; `worker` has `100000` rounds. -/
def system (v : Version) (rounds : T → Nat) :
    ActionSystem (State T) (Action T) where
  init := Initial rounds
  step := step v

end Futex
end OsKernel

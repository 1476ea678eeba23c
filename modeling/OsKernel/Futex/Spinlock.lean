import OsKernel.Concurrency.Race

/-!
# The spinlocks `demos/futex/futex_v1_spinlock.c` and
`futex_v2_yield_spinlock.c`

The threads of `race.c` with a lock made of one word and a compare-and-swap that
is repeated until it succeeds.  v2 calls `sched_yield` after more than a thousand
failures in a row.  Both versions are modelled at once; they differ only in what
follows a failure (`afterFail`).

A failed compare-and-swap and `sched_yield` change nothing the other threads
see, so both programs are simulated by the threads of `race.c`, which wait for
their mutex without moving, and by these they count like a tally
(`spinlock_simulates`).  A thread may spin for ever in an execution in which the
owner of the lock does not get to move; in a weakly fair one the owner releases
the lock, and all threads finish (`spinlock_finishes`).
-/

namespace OsKernel
namespace Spinlock

open Lib
open Concurrency (Tally tally)

/-- The two implementations of `spin_lock`. -/
inductive Version
  | v1
  | v2
  deriving DecidableEq, Repr

/-- Where a thread is: the step it makes next. -/
inductive Pc
  /-- The head of the loop of `worker`. -/
  | head
  /-- The compare-and-swap of `spin_lock`, with `spin_count` (v2). -/
  | spin (spinCount : Nat)
  /-- `sched_yield()` (v2). -/
  | yield
  /-- The load of `counter++`. -/
  | load
  /-- The store of `counter++`, with the value loaded. -/
  | store (loaded : Int)
  /-- `atomic_store(&lock, 0)` in `spin_unlock`. -/
  | unlock
  /-- The loop of `worker` is over. -/
  | done
  deriving DecidableEq, Repr

/-- The shared words and the threads. -/
structure State (T : Type) where
  lock : Int
  counter : Int
  /-- The rounds of its loop a thread has not begun. -/
  rounds : T → Nat
  pc : T → Pc

variable {T : Type} [DecidableEq T]

/-- Thread `t` moves to `pc`. -/
@[simps -fullyApplied]
def State.setPc (s : State T) (t : T) (pc : Pc) : State T :=
  { s with pc := Function.update s.pc t pc }

/-- The body of the loop of `spin_lock` after a failed compare-and-swap. -/
def afterFail : Version → Nat → Pc
  | .v1, spinCount => .spin spinCount
  | .v2, spinCount =>
      if spinCount + 1 > 1000 then .yield else .spin (spinCount + 1)

/-- The next step of a thread. -/
def advance (v : Version) (s : State T) (t : T) : Option (State T) :=
  match s.pc t with
  | .head =>
      if s.rounds t = 0 then some (s.setPc t .done)
      else
        some ({ s with
          rounds := Function.update s.rounds t (s.rounds t - 1) }.setPc t
            (.spin 0))
  | .spin spinCount =>
      if s.lock = 0 then some ({ s with lock := 1 }.setPc t .load)
      else some (s.setPc t (afterFail v spinCount))
  | .yield => some (s.setPc t (.spin 0))
  | .load => some (s.setPc t (.store s.counter))
  | .store loaded => some ({ s with counter := loaded + 1 }.setPc t .unlock)
  | .unlock => some ({ s with lock := 0 }.setPc t .head)
  | .done => none

/-- All threads are about to run `rounds` rounds of their loops. -/
structure Initial (rounds : T → Nat) (s : State T) : Prop where
  lock : s.lock = 0
  counter : s.counter = 0
  rounds : s.rounds = rounds
  pc : ∀ t, s.pc t = .head

/-- All interleavings of the threads' steps; `worker` has `1000000` rounds. -/
def system (v : Version) (rounds : T → Nat) : ActionSystem (State T) T where
  init := Initial rounds
  step := advance v

/-! ## The threads of `race.c` -/

/-- A thread that spins waits for the mutex. -/
def Pc.toRace : Pc → Concurrency.Pc
  | .head => .head
  | .spin _ | .yield => .lock
  | .load => .load
  | .store loaded => .store loaded
  | .unlock => .unlock
  | .done => .done

/-- The threads, with a mutex in place of the word. -/
@[simps]
def State.toRace (s : State T) : Concurrency.State T where
  m := decide (s.lock ≠ 0)
  counter := s.counter
  rounds := s.rounds
  pc t := (s.pc t).toRace

theorem afterFail_toRace (v : Version) (spinCount : Nat) :
    (afterFail v spinCount).toRace = .lock := by
  unfold afterFail
  split
  · rfl
  · split <;> rfl

/-- A step is a failed attempt to take the lock, which is taken, or it ends a
call of `sched_yield`, or the threads of `race.c` make it too. -/
theorem advance_cases {v : Version} {s s' : State T} {t : T}
    (hstep : advance v s t = some s') :
    (s'.toRace = s.toRace ∧ s' = s.setPc t (s'.pc t) ∧
      ((∃ n, s.pc t = .spin n ∧ s.lock ≠ 0) ∨
        (s.pc t = .yield ∧ s'.pc t = .spin 0))) ∨
    Concurrency.Step s.toRace t s'.toRace := by
  have hmove : ∀ (x : State T) (pc' : Pc),
      (x.setPc t pc').toRace = x.toRace.setPc t pc'.toRace := fun x pc' =>
    Concurrency.State.reading_update Pc.toRace x.toRace x.pc t pc'
  unfold advance at hstep
  split at hstep
  next hpc =>
    right
    have hhead : s.toRace.pc t = .head :=
      congrArg Pc.toRace hpc
    split at hstep
    next hrounds =>
      obtain rfl := Option.some.inj hstep
      rw [hmove]
      exact .finish hhead hrounds
    next hrounds =>
      obtain rfl := Option.some.inj hstep
      rw [hmove]
      exact .enter hhead hrounds
  next spinCount hpc =>
    have hlock : s.toRace.pc t = .lock :=
      congrArg Pc.toRace hpc
    split at hstep
    next hfree =>
      obtain rfl := Option.some.inj hstep
      right
      rw [hmove]
      exact .acquire hlock (by simp [hfree])
    next htaken =>
      -- a failed compare-and-swap spins on or yields, in `lock` for `race.c` either way
      obtain rfl := Option.some.inj hstep
      refine .inl ⟨?_, by simp, .inl ⟨_, hpc, htaken⟩⟩
      rw [hmove, afterFail_toRace]
      exact Concurrency.State.setPc_of_eq hlock.symm
  next hpc =>
    obtain rfl := Option.some.inj hstep
    refine .inl ⟨?_, by simp, .inr ⟨hpc, by simp⟩⟩
    rw [hmove]
    exact Concurrency.State.setPc_of_eq (congrArg Pc.toRace hpc).symm
  next hpc =>
    obtain rfl := Option.some.inj hstep
    right
    rw [hmove]
    exact .load (congrArg Pc.toRace hpc)
  next loaded hpc =>
    obtain rfl := Option.some.inj hstep
    right
    rw [hmove]
    exact .store (congrArg Pc.toRace hpc)
  next hpc =>
    obtain rfl := Option.some.inj hstep
    right
    rw [hmove]
    exact .release (congrArg Pc.toRace hpc)
  next => cases hstep

theorem simulates_race (v : Version) (rounds : T → Nat) :
    (system v rounds).Simulates (Concurrency.system rounds) State.toRace where
  init s hinit :=
    { m := by simp [hinit.lock]
      counter := hinit.counter
      rounds := hinit.rounds
      pc := fun t => by rw [State.toRace_pc, hinit.pc]; rfl }
  step s t s' _ hstep := by
    rcases advance_cases hstep with ⟨hsame, -⟩ | hrace
    · exact .inl hsame
    · exact .inr ⟨t, Concurrency.worker_eq_some_iff.mpr hrace⟩

/-- The counter, and the stores each thread has still to make. -/
def State.toTally (s : State T) : Tally T := s.toRace.toTally

/-- For any number of threads and in every interleaving of their steps, the
counter and what each thread has still to count change only as if each
`counter++` were one step. -/
theorem spinlock_simulates (v : Version) (rounds : T → Nat) :
    (system v rounds).Simulates (tally rounds) State.toTally :=
  (simulates_race v rounds).comp (Concurrency.worker_simulates rounds)

/-! ## The threads finish -/

theorem toRace_eq_done {pc : Pc} : pc.toRace = .done ↔ pc = .done := by
  cases pc <;> simp [Pc.toRace]

/-- A thread can move unless it is done. -/
theorem enabled_iff {v : Version} {rounds : T → Nat} {s : State T} {t : T} :
    (system v rounds).Enabled some s t ↔ s.pc t ≠ .done := by
  have hadvance : (system v rounds).Enabled some s t ↔
      (advance v s t).isSome = true := by
    constructor
    · rintro ⟨a, hagent, hstep⟩
      obtain rfl := Option.some.inj hagent
      exact hstep
    · exact fun hstep => ⟨t, rfl, hstep⟩
  rw [hadvance]
  unfold advance
  cases hpc : s.pc t <;> simp [apply_ite Option.isSome]

/-- How many steps of a thread that can take the lock or has it are left until
the threads of `race.c` move. -/
def Pc.distance : Pc → Nat
  | .yield => 1
  | _ => 0

theorem spinlock_progress [Fintype T] (v : Version) (rounds : T → Nat) :
    (system v rounds).Progress some (fun s => ∀ t, s.pc t = .done)
      (fun s => s.toRace.rank) (fun s t => s.toRace.Moves t)
      (fun s t => (s.pc t).distance) where
  exists_helper s hreach hleft := by
    obtain ⟨t, ht⟩ := not_forall.mp hleft
    have hrace := (simulates_race v rounds).reachable hreach
    exact (Concurrency.reachable_exclusive hrace).exists_moves
      ⟨t, fun hdone => ht (toRace_eq_done.mp hdone)⟩
  enabled s t _ hmoves := by
    refine enabled_iff.mpr fun hdone => hmoves.1 ?_
    rw [State.toRace_pc, hdone]
    rfl
  rank_le s a s' hreach hstep :=
    Concurrency.rank_le_of_simulates (simulates_race v rounds) hreach hstep
  keeps s a s' t _ hstep hmoves hrank := by
    rcases advance_cases hstep with ⟨hsame, hmoved, hwaits⟩ | hrace
    · refine ⟨by rw [hsame]; exact hmoves, ?_⟩
      by_cases hta : t = a
      · subst hta
        rcases hwaits with ⟨n, hpc, htaken⟩ | ⟨hpc, hpc'⟩
        · -- the lock is taken, but not by a thread that tries to take it
          have howns := hmoves.2 (by simp [htaken])
          rw [State.toRace_pc, hpc] at howns
          exact howns.elim
        · rw [hpc, hpc']
          exact ⟨Nat.zero_le _, fun _ => Nat.one_pos⟩
      · rw [hmoved]
        refine ⟨by simp [hta], fun hagent => ?_⟩
        exact absurd (Option.some.inj hagent).symm hta
    · exact absurd hrank hrace.rank_lt.ne

/-- In every weakly fair execution of any number of threads all threads finish,
and then `counter` is the sum of their rounds. -/
theorem spinlock_finishes [Fintype T] {v : Version} {rounds : T → Nat}
    {e : (system v rounds).Execution} (hfair : e.WeaklyFair some) :
    ∃ n, (∀ t, (e.state n).pc t = .done) ∧
      (e.state n).counter = ((∑ t, rounds t : Nat) : Int) := by
  obtain ⟨n, -, hdone⟩ := (spinlock_progress v rounds).eventually hfair 0
  refine ⟨n, hdone, ?_⟩
  exact Concurrency.counter_of_done
    ((simulates_race v rounds).reachable (e.reachable n))
    fun t => toRace_eq_done.mpr (hdone t)

/-- Two threads before their only round. -/
def twoThreads : State Bool where
  lock := 0
  counter := 0
  rounds := fun _ => 1
  pc := fun _ => .head

theorem twoThreads_initial : Initial (fun _ => 1) twoThreads := by
  constructor <;> simp [twoThreads]

/-- The second thread spins a few times while the first has the lock. -/
def contendedRun : List Bool :=
  [false, false, true, true, true, false, false, false, false, true, true,
    true, true, true]

/-- The execution of `contendedRun` is fair, and it ends with `2`. -/
theorem spinlock_finishes_contended :
    ∃ e : (system .v2 fun _ : Bool => 1).Execution, e.WeaklyFair some ∧
      ∃ n, (∀ t, (e.state n).pc t = .done) ∧ (e.state n).counter = 2 := by
  have hrun : ((system .v2 fun _ => 1).run twoThreads contendedRun).isSome =
      true := rfl
  have hfair := ActionSystem.Execution.weaklyFair_ofRun some
    twoThreads_initial hrun (Option.some_get hrun).symm fun t henabled =>
      enabled_iff.mp henabled (by cases t <;> rfl)
  obtain ⟨n, hdone, hcounter⟩ := spinlock_finishes hfair
  exact ⟨_, hfair, n, hdone, hcounter.trans (by simp)⟩

end Spinlock
end OsKernel

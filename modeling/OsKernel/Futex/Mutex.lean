import OsKernel.Concurrency.Race
import OsKernel.Futex.Model

/-!
# Mutual exclusion of the futex locks

A thread inside `futex_lock`, awake or asleep, waits for the lock, so the
threads of `race.c` with their mutex simulate both futex locks
(`simulates_race`).  What is known of those threads holds here: a thread owns the
lock from the return of its `futex_lock` to the store `lock = 0` of its
`futex_unlock`, and only one does.  The word `lock` is `1` exactly while there is
an owner, and `counter` is the number of increments made
(`futex_mutual_exclusion`).

The number that `main` prints at the end follows as for `race.c`: when all
threads are done, `counter` is the sum of their rounds
(`counter_eq_sum_of_done`).
-/

namespace OsKernel
namespace Futex

open Lib

variable {T : Type} [DecidableEq T] [Fintype T]

namespace Pc

/-- Between the return of `futex_lock` and the store `lock = 0`. -/
def Owns : Pc → Prop
  | .load | .store _ | .release => True
  | _ => False

/-- Awake inside `futex_lock`. -/
def Locking : Pc → Prop
  | .lockCas | .retryCas | .fetch | .wait _ => True
  | _ => False

end Pc

theorem afterWait_locking (v : Version) : (afterWait v).Locking := by
  cases v <;> trivial

/-- What a step can do. -/
inductive Step (v : Version) (s : State T) : State T → Prop
  | finish {t : T} (hpc : s.pc t = .head) (hrounds : s.rounds t = 0) :
      Step v s (s.setPc t .done)
  | enter {t : T} (hpc : s.pc t = .head) (hrounds : s.rounds t ≠ 0) :
      Step v s ({ s with
        rounds := Function.update s.rounds t (s.rounds t - 1) }.setPc t
          .lockCas)
  | acquire {t : T} (hpc : (s.pc t).Locking) (hlock : s.lock = 0) :
      Step v s ({ s with lock := 1 }.setPc t .load)
  /-- A thread goes on inside `futex_lock`, never to wait for the value `0`. -/
  | retry {t : T} {pc' : Pc} (hpc : (s.pc t).Locking) (hpc' : pc'.Locking)
      (hwait : ∀ expected, pc' = .wait expected → expected ≠ 0) :
      Step v s (s.setPc t pc')
  | sleep {t : T} (hpc : s.pc t = .wait s.lock) : Step v s (s.setPc t .asleep)
  | load {t : T} (hpc : s.pc t = .load) :
      Step v s (s.setPc t (.store s.counter))
  | store {t : T} {loaded : Int} (hpc : s.pc t = .store loaded) :
      Step v s ({ s with
        counter := loaded + 1
        increments := s.increments + 1 }.setPc t .release)
  | release {t : T} (hpc : s.pc t = .release) :
      Step v s ({ s with lock := 0 }.setPc t .wake)
  | wakeNone {t : T} (hpc : s.pc t = .wake) (hnone : ∀ u, s.pc u ≠ .asleep) :
      Step v s (s.setPc t .head)
  | wakeOne {t u : T} (hpc : s.pc t = .wake) (hu : s.pc u = .asleep) :
      Step v s ((s.setPc u (afterWait v)).setPc t .head)
  | spurious {u : T} (hu : s.pc u = .asleep) :
      Step v s (s.setPc u (afterWait v))

omit [Fintype T] in
theorem cas_cases (v : Version) {s : State T} {t : T}
    (hpc : (s.pc t).Locking) : Step v s (cas v s t) := by
  unfold cas
  split
  · rename_i hlock
    exact .acquire hpc hlock
  · cases v with
    | v3 => exact .retry hpc trivial (by rintro e ⟨⟩; decide)
    | v4 => exact .retry hpc trivial (by simp [afterFail])

theorem step_cases {v : Version} {rounds : T → Nat} {s s' : State T}
    {a : Action T} (hstep : (system v rounds).step s a = some s') :
    Step v s s' := by
  change step v s a = some s' at hstep
  cases a with
  | advance t =>
      change advance v s t = some s' at hstep
      cases hpc : s.pc t with
      | head =>
          simp only [advance, hpc] at hstep
          split at hstep
          · rename_i hrounds
            obtain rfl := Option.some.inj hstep
            exact .finish hpc hrounds
          · rename_i hrounds
            obtain rfl := Option.some.inj hstep
            exact .enter hpc hrounds
      | lockCas =>
          obtain rfl : cas v s t = s' := by simpa [advance, hpc] using hstep
          exact cas_cases v (by rw [hpc]; trivial)
      | retryCas =>
          obtain rfl : cas v s t = s' := by simpa [advance, hpc] using hstep
          exact cas_cases v (by rw [hpc]; trivial)
      | fetch =>
          -- the value read is the one to wait on, unless the lock is free by now
          simp only [advance, hpc] at hstep
          obtain rfl := Option.some.inj hstep
          have hlocking : (s.pc t).Locking := by rw [hpc]; trivial
          split
          · rename_i hlock
            exact .retry hlocking trivial (by rintro e ⟨⟩; exact hlock)
          · exact .retry hlocking trivial (by simp)
      | wait expected =>
          -- `futex_wait` compares the word again before it puts the thread to sleep
          simp only [advance, hpc] at hstep
          obtain rfl := Option.some.inj hstep
          split
          · rename_i hlock
            exact .sleep (hlock ▸ hpc)
          · refine .retry (by rw [hpc]; trivial) (afterWait_locking v) ?_
            cases v <;> simp [afterWait]
      | load =>
          simp only [advance, hpc] at hstep
          obtain rfl := Option.some.inj hstep
          exact .load hpc
      | store loaded =>
          simp only [advance, hpc] at hstep
          obtain rfl := Option.some.inj hstep
          exact .store hpc
      | release =>
          simp only [advance, hpc] at hstep
          obtain rfl := Option.some.inj hstep
          exact .release hpc
      | _ => simp [advance, hpc] at hstep
  | wake t sleeper =>
      cases sleeper with
      | none =>
          simp only [step] at hstep
          split at hstep
          · rename_i h
            obtain rfl := Option.some.inj hstep
            exact .wakeNone h.1 h.2
          · cases hstep
      | some u =>
          simp only [step] at hstep
          split at hstep
          · rename_i h
            obtain rfl := Option.some.inj hstep
            exact .wakeOne h.1 h.2
          · cases hstep
  | spurious u =>
      simp only [step] at hstep
      split at hstep
      · rename_i hu
        obtain rfl := Option.some.inj hstep
        exact .spurious hu
      · cases hstep

/-! ## The threads of `race.c` -/

/-- A thread inside `futex_lock` waits for the mutex; `futex_wake` comes after
the mutex is free. -/
def Pc.toRace : Pc → Concurrency.Pc
  | .head | .wake => .head
  | .lockCas | .retryCas | .fetch | .wait _ | .asleep => .lock
  | .load => .load
  | .store loaded => .store loaded
  | .release => .unlock
  | .done => .done

/-- The threads, with a mutex in place of the word. -/
@[simps]
def State.toRace (s : State T) : Concurrency.State T where
  m := decide (s.lock ≠ 0)
  counter := s.counter
  rounds := s.rounds
  pc t := (s.pc t).toRace

theorem Pc.Locking.toRace_eq {pc : Pc} (h : pc.Locking) : pc.toRace = .lock := by
  cases pc <;> first | exact h.elim | rfl

omit [Fintype T] in
/-- A step is made inside `futex_lock` or `futex_wake`, or the threads of
`race.c` make it too. -/
theorem Step.toRace {v : Version} {s s' : State T} (hstep : Step v s s') :
    s'.toRace = s.toRace ∨ ∃ t, Concurrency.Step s.toRace t s'.toRace := by
  have hmove : ∀ (x : State T) (t : T) (pc' : Pc),
      (x.setPc t pc').toRace = x.toRace.setPc t pc'.toRace := fun x t pc' =>
    Concurrency.State.reading_update Pc.toRace x.toRace x.pc t pc'
  have hsame : ∀ {x : State T} {t : T} {pc' : Pc},
      pc'.toRace = (x.pc t).toRace → (x.setPc t pc').toRace = x.toRace :=
    fun hpc => (hmove ..).trans (Concurrency.State.setPc_of_eq hpc)
  have hwait : (afterWait v).toRace = .lock := (afterWait_locking v).toRace_eq
  cases hstep with
  | finish hpc hrounds =>
      rw [hmove]
      exact .inr ⟨_, .finish (congrArg Pc.toRace hpc) hrounds⟩
  | enter hpc hrounds =>
      rw [hmove]
      exact .inr ⟨_, .enter (congrArg Pc.toRace hpc) hrounds⟩
  | acquire hpc hlock =>
      rw [hmove]
      exact .inr ⟨_, .acquire hpc.toRace_eq (by simp [hlock])⟩
  | retry hpc hpc' hexpected =>
      exact .inl (hsame (by rw [hpc.toRace_eq, hpc'.toRace_eq]))
  | sleep hpc => exact .inl (hsame (by rw [hpc]; rfl))
  | load hpc =>
      rw [hmove]
      exact .inr ⟨_, .load (congrArg Pc.toRace hpc)⟩
  | store hpc =>
      rw [hmove]
      exact .inr ⟨_, .store (congrArg Pc.toRace hpc)⟩
  | release hpc =>
      rw [hmove]
      exact .inr ⟨_, .release (congrArg Pc.toRace hpc)⟩
  | wakeNone hpc hnone => exact .inl (hsame (by rw [hpc]; rfl))
  | @wakeOne t u hpc hu =>
      -- the only step that moves two threads
      have htu : t ≠ u := by
        rintro rfl
        simp [hpc] at hu
      left
      rw [hsame (by simp [htu, hpc, Pc.toRace]),
        hsame (by rw [hwait, hu]; rfl)]
  | spurious hu => exact .inl (hsame (by rw [hwait, hu]; rfl))

theorem simulates_race (v : Version) (rounds : T → Nat) :
    (system v rounds).Simulates (Concurrency.system rounds) State.toRace where
  init s hinit :=
    { m := by simp [hinit.lock]
      counter := hinit.counter
      rounds := hinit.rounds
      pc := fun t => congrArg Pc.toRace (hinit.pc t) }
  step s a s' _ hstep := by
    rcases (step_cases hstep).toRace with hsame | ⟨t, hrace⟩
    · exact .inl hsame
    · exact .inr ⟨t, Concurrency.worker_eq_some_iff.mpr hrace⟩

/-! ## Mutual exclusion -/

theorem toRace_owns {pc : Pc} : pc.toRace.Owns ↔ pc.Owns := by
  cases pc <;> exact Iff.rfl

omit [Fintype T] in
/-- The word is `0` or `1`, and a store of `counter++` is counted, if what was
loaded is what the counter still is. -/
theorem Step.word_counted {v : Version} {s s' : State T} (hstep : Step v s s')
    (hloaded : ∀ t x, s.pc t = .store x → x = s.counter)
    (hword : s.lock = 0 ∨ s.lock = 1) (hcounted : s.counter = s.increments) :
    (s'.lock = 0 ∨ s'.lock = 1) ∧ s'.counter = s'.increments := by
  cases hstep with
  | acquire hpc hlock => exact ⟨.inr rfl, hcounted⟩
  | release hpc => exact ⟨.inl rfl, hcounted⟩
  | @store t loaded hpc =>
      refine ⟨hword, ?_⟩
      show loaded + 1 = ((s.increments + 1 : Nat) : Int)
      rw [hloaded t loaded hpc, hcounted, Nat.cast_succ]
  | _ => exact ⟨hword, hcounted⟩

/-- The lock word tells whether a thread owns the lock, at most one does, and
`counter` counts the increments. -/
structure Exclusive (s : State T) : Prop where
  one : ∀ t u, (s.pc t).Owns → (s.pc u).Owns → t = u
  word : (s.lock = 1 ∧ ∃ t, (s.pc t).Owns) ∨
    (s.lock = 0 ∧ ∀ t, ¬ (s.pc t).Owns)
  counted : s.counter = s.increments

omit [DecidableEq T] [Fintype T] in
theorem Exclusive.word_of_owns {s : State T} (h : Exclusive s) {t : T}
    (ht : (s.pc t).Owns) : s.lock = 1 := by
  rcases h.word with ⟨hone, -⟩ | ⟨-, hnone⟩
  · exact hone
  · exact absurd ht (hnone t)

/-- The threads of `race.c` have their mutex one at a time. -/
theorem reachable_exclusive {v : Version} {rounds : T → Nat} {s : State T}
    (hreach : (system v rounds).Reachable s) : Exclusive s := by
  have hrace : ∀ s, (system v rounds).Reachable s →
      Concurrency.Exclusive s.toRace := fun s hs =>
    Concurrency.reachable_exclusive ((simulates_race v rounds).reachable hs)
  obtain ⟨hword, hcounted⟩ :
      (s.lock = 0 ∨ s.lock = 1) ∧ s.counter = s.increments := by
    refine hreach.invariant (P := fun s : State T =>
      (s.lock = 0 ∨ s.lock = 1) ∧ s.counter = s.increments) ?_ ?_
    · intro s hinit
      simp [hinit.lock, hinit.counter, hinit.increments]
    · intro s a s' hs h hstep
      refine (step_cases hstep).word_counted (fun t x hpc => ?_) h.1 h.2
      exact (hrace s hs).loaded t x (congrArg Pc.toRace hpc)
  have htaken : s.lock ≠ 0 ↔ ∃ t, (s.pc t).Owns := by
    simpa [toRace_owns] using (hrace s hreach).taken
  refine ⟨by simpa [toRace_owns] using (hrace s hreach).one, ?_, hcounted⟩
  rcases hword with hzero | hone
  · refine .inr ⟨hzero, fun t ht => ?_⟩
    exact htaken.mpr ⟨t, ht⟩ hzero
  · exact .inl ⟨hone, htaken.mp (by rw [hone]; decide)⟩

/-- In every reachable state at most one thread is between the return of
`futex_lock` and the store `lock = 0` of `futex_unlock`, the word is `1`
exactly when there is one, and without one `counter` is the number of
increments made. -/
theorem futex_mutual_exclusion {v : Version} {rounds : T → Nat} {s : State T}
    (hreach : (system v rounds).Reachable s) :
    (∀ t u, (s.pc t).Owns → (s.pc u).Owns → t = u) ∧
      (s.lock = 1 ↔ ∃ t, (s.pc t).Owns) ∧
      ((∀ t, ¬ (s.pc t).Owns) → s.counter = s.increments) := by
  have h := reachable_exclusive hreach
  refine ⟨h.one, ⟨fun hlock => ?_, fun ⟨t, ht⟩ => h.word_of_owns ht⟩,
    fun _ => h.counted⟩
  rcases h.word with ⟨-, howner⟩ | ⟨hzero, -⟩
  · exact howner
  · omega

/-- Two threads before their first round. -/
def twoThreads : State Bool where
  lock := 0
  counter := 0
  increments := 0
  rounds := fun _ => 100000
  pc := fun _ => .head

theorem twoThreads_initial : Initial (fun _ => 100000) twoThreads := by
  constructor <;> simp [twoThreads]

/-- One thread takes the lock of v3, the other finds it taken and sleeps. -/
def contendedRun : List (Action Bool) :=
  [.advance false, .advance false, .advance true, .advance true, .advance true]

/-- A state with an owner and a sleeper. -/
theorem futex_mutual_exclusion_contended :
    ∃ s : State Bool, (system .v3 fun _ => 100000).Reachable s ∧
      (s.pc false).Owns ∧ s.pc true = .asleep ∧
      (∀ t u, (s.pc t).Owns → (s.pc u).Owns → t = u) ∧
      (s.lock = 1 ↔ ∃ t, (s.pc t).Owns) ∧
      ((∀ t, ¬ (s.pc t).Owns) → s.counter = s.increments) := by
  obtain ⟨s, hrun, howns, hasleep⟩ :
      ∃ s, (system .v3 fun _ => 100000).run twoThreads contendedRun = some s ∧
        (s.pc false).Owns ∧ s.pc true = .asleep := ⟨_, rfl, trivial, rfl⟩
  have hreach : (system .v3 fun _ => 100000).Reachable s :=
    ActionSystem.Reachable.run (.start twoThreads_initial) hrun
  exact ⟨s, hreach, howns, hasleep, futex_mutual_exclusion hreach⟩

/-! ## The final count -/

theorem toRace_eq_done {pc : Pc} : pc.toRace = .done ↔ pc = .done := by
  cases pc <;> simp [Pc.toRace]

/-- When all threads are done, `counter` is the number of rounds of all of
them together. -/
theorem counter_eq_sum_of_done {v : Version} {rounds : T → Nat} {s : State T}
    (hreach : (system v rounds).Reachable s) (hdone : ∀ t, s.pc t = .done) :
    s.counter = ((∑ t, rounds t : Nat) : Int) :=
  Concurrency.counter_of_done ((simulates_race v rounds).reachable hreach)
    fun t => toRace_eq_done.mpr (hdone t)

end Futex
end OsKernel

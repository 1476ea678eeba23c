import OsKernel.Concurrency.Race
import OsKernel.Futex.Wakeup

/-!
# The futex locks count and finish

The threads of `race.c` simulate both futex locks, and by them the program
counts like a tally (`futex_simulates`).

In a weakly fair execution all threads finish (`futex_finishes`).  The owner of
the lock releases it.  While there is no owner, some thread that is not done is
awake, as no wakeup is lost; it does not go to sleep before the lock is taken
again, because the value it waits for is not `0`.  Spurious wakeups belong to no
thread and may come at any time, also infinitely often.
-/

namespace OsKernel
namespace Futex

open Lib
open Concurrency (Tally tally)

variable {T : Type} [DecidableEq T] [Fintype T]

/-! ## The program counts like a tally -/

/-- The counter, and the stores each thread has still to make. -/
def State.toTally (s : State T) : Tally T := s.toRace.toTally

/-- For any number of threads and in every interleaving of their steps, with
any wakeups, the counter and what each thread has still to count change only as
if each `counter++` were one step. -/
theorem futex_simulates (v : Version) (rounds : T → Nat) :
    (system v rounds).Simulates (tally rounds) State.toTally :=
  (simulates_race v rounds).comp (Concurrency.worker_simulates rounds)

/-! ## Who moves -/

/-- The thread whose step an action is; a spurious wakeup is nobody's. -/
def Action.agent : Action T → Option T
  | .advance t => some t
  | .wake t _ => some t
  | .spurious _ => none

theorem wake_pc {v : Version} {s s' : State T} {t : T} {sleeper : Option T}
    (hstep : step v s (.wake t sleeper) = some s') :
    s.pc t = .wake ∧ s'.pc t = .head := by
  cases sleeper <;> simp only [step] at hstep <;> split at hstep
  all_goals first
    | (rename_i h; obtain rfl := Option.some.inj hstep; exact ⟨h.1, by simp⟩)
    | cases hstep

/-- A thread that sleeps or is done cannot move, any other can. -/
theorem enabled_iff {v : Version} {rounds : T → Nat} {s : State T} {t : T} :
    (system v rounds).Enabled Action.agent s t ↔
      s.pc t ≠ .done ∧ s.pc t ≠ .asleep := by
  constructor
  · rintro ⟨a, hagent, hstep⟩
    obtain ⟨s', hs'⟩ := Option.isSome_iff_exists.mp hstep
    change step v s a = some s' at hs'
    cases a with
    | advance u =>
        obtain rfl := Option.some.inj hagent
        change advance v s u = some s' at hs'
        constructor <;> intro hpc <;> simp [advance, hpc] at hs'
    | wake u sleeper =>
        obtain rfl := Option.some.inj hagent
        rw [(wake_pc hs').1]
        simp
    | spurious u => cases hagent
  · rintro ⟨hdone, hawake⟩
    by_cases hpc : s.pc t = .wake
    · by_cases hsleeper : ∃ u, s.pc u = .asleep
      · obtain ⟨u, hu⟩ := hsleeper
        refine ⟨.wake t (some u), rfl, ?_⟩
        simp [system, step, hpc, hu]
      · refine ⟨.wake t none, rfl, ?_⟩
        have hnone : ∀ u, s.pc u ≠ .asleep := fun u hu => hsleeper ⟨u, hu⟩
        simp [system, step, hpc, hnone]
    · refine ⟨.advance t, rfl, ?_⟩
      change (advance v s t).isSome = true
      unfold advance
      split <;> first | contradiction | rfl | (split <;> rfl)

section

omit [Fintype T]

theorem cas_pc (v : Version) {s : State T} {t u : T} (hu : u ≠ t) :
    (cas v s t).pc u = s.pc u := by
  unfold cas
  split <;> simp [hu]

theorem advance_pc {v : Version} {s s' : State T} {t u : T}
    (hstep : advance v s t = some s') (hu : u ≠ t) : s'.pc u = s.pc u := by
  unfold advance at hstep
  split at hstep
  case h_1 =>
    split at hstep
    all_goals
      obtain rfl := Option.some.inj hstep
      simp [hu]
  case h_2 | h_3 =>
    obtain rfl := Option.some.inj hstep
    exact cas_pc v hu
  all_goals cases hstep
  all_goals simp [hu]

end

/-- A step leaves the threads alone that do not make it and are awake. -/
theorem step_pc {v : Version} {s s' : State T} {a : Action T} {u : T}
    (hstep : step v s a = some s') (hu : Action.agent a ≠ some u)
    (hawake : s.pc u ≠ .asleep) : s'.pc u = s.pc u := by
  have hwoken : ∀ w, s.pc w = .asleep → u ≠ w := by
    rintro w hw rfl
    exact hawake hw
  cases a with
  | advance t => exact advance_pc hstep fun h => hu (congrArg some h.symm)
  | wake t sleeper =>
      have hut : u ≠ t := fun h => hu (congrArg some h.symm)
      cases sleeper with
      | none =>
          simp only [step] at hstep
          split at hstep
          · obtain rfl := Option.some.inj hstep
            simp [hut]
          · cases hstep
      | some w =>
          simp only [step] at hstep
          split at hstep
          · rename_i h
            obtain rfl := Option.some.inj hstep
            simp [hut, hwoken w h.2]
          · cases hstep
  | spurious w =>
      simp only [step] at hstep
      split at hstep
      · rename_i hw
        obtain rfl := Option.some.inj hstep
        simp [hwoken w hw]
      · cases hstep

/-! ## The threads finish -/

/-- A thread that is sure to move: the owner, and while the lock is free any
thread that is awake and not done. -/
def State.Moves (s : State T) (t : T) : Prop :=
  (s.pc t ≠ .done ∧ s.pc t ≠ .asleep) ∧ (s.lock ≠ 0 → (s.pc t).Owns)

/-- How many steps it makes at most before the threads of `race.c` move. -/
def Pc.distance : Pc → Nat
  | .wait _ => 2
  | .fetch | .wake => 1
  | _ => 0

/-- The steps of such a thread that the threads of `race.c` do not make: it
leaves `futex_wait`, finds the lock free, or returns from `futex_wake`. -/
theorem Moves.step {v : Version} {s s' : State T} {a : Action T} {t : T}
    (hmoves : s.Moves t) (hexpected : ∀ e, s.pc t = .wait e → e ≠ 0)
    (hstep : step v s a = some s') (hagent : Action.agent a = some t)
    (hsame : s'.toRace = s.toRace) :
    s'.pc t ≠ .asleep ∧ (s'.pc t).distance < (s.pc t).distance := by
  have hpc' : (s'.pc t).toRace = (s.pc t).toRace :=
    congrFun (congrArg Concurrency.State.pc hsame) t
  have hfree : ¬ (s.pc t).Owns → s.lock = 0 := by
    intro hnot
    by_contra htaken
    exact hnot (hmoves.2 htaken)
  cases a with
  | spurious u => cases hagent
  | wake u sleeper =>
      obtain rfl := Option.some.inj hagent
      obtain ⟨hwake, hhead⟩ := wake_pc hstep
      rw [hwake, hhead]
      exact ⟨by simp, Nat.one_pos⟩
  | advance u =>
      obtain rfl := Option.some.inj hagent
      change advance v s u = some s' at hstep
      cases hpc : s.pc u with
      | fetch =>
          have hlock := hfree (by simp [hpc, Pc.Owns])
          simp only [advance, hpc, hlock, ne_eq, not_true_eq_false,
            if_false] at hstep
          obtain rfl := Option.some.inj hstep
          simp [Pc.distance]
      | wait e =>
          have hlock := hfree (by simp [hpc, Pc.Owns])
          have hne : ¬ s.lock = e := by
            rw [hlock]
            exact (hexpected e hpc).symm
          simp only [advance, hpc, hne, if_false] at hstep
          obtain rfl := Option.some.inj hstep
          cases v <;> simp [afterWait, Pc.distance]
      | head =>
          -- the other steps are seen
          simp only [advance, hpc] at hstep
          split at hstep
          all_goals
            obtain rfl := Option.some.inj hstep
            simp [hpc, Pc.toRace] at hpc'
      | lockCas | retryCas =>
          have hlock := hfree (by simp [hpc, Pc.Owns])
          simp only [advance, hpc, cas, hlock, if_true] at hstep
          obtain rfl := Option.some.inj hstep
          simp [hpc, Pc.toRace] at hpc'
      | load | store | release =>
          simp only [advance, hpc] at hstep
          obtain rfl := Option.some.inj hstep
          simp [hpc, Pc.toRace] at hpc'
      | asleep | wake | done => simp [advance, hpc] at hstep

theorem futex_progress (v : Version) (rounds : T → Nat) :
    (system v rounds).Progress Action.agent (fun s => ∀ t, s.pc t = .done)
      (fun s => s.toRace.rank) State.Moves (fun s t => (s.pc t).distance) where
  exists_helper s hreach hleft := by
    have hleft := not_forall.mp hleft
    -- the owner moves; if there is none, any thread that is awake
    rcases (reachable_exclusive hreach).word with ⟨-, t, ht⟩ | ⟨hzero, -⟩
    · refine ⟨t, ⟨?_, ?_⟩, fun _ => ht⟩ <;> intro hpc <;> rw [hpc] at ht <;>
        exact ht
    · obtain ⟨t, hdone, hawake⟩ := exists_awake hreach hleft
      exact ⟨t, ⟨hdone, hawake⟩, fun htaken => absurd hzero htaken⟩
  enabled s t _ hmoves := enabled_iff.mpr hmoves.1
  rank_le s a s' hreach hstep :=
    Concurrency.rank_le_of_simulates (simulates_race v rounds) hreach hstep
  keeps s a s' t hreach hstep hmoves hrank := by
    -- a step that leaves the rank is not seen in `race.c`
    have hsame : s'.toRace = s.toRace := by
      rcases Concurrency.rank_lt_of_simulates (simulates_race v rounds) hreach
        hstep with hsame | hlt
      · exact hsame
      · exact absurd hrank hlt.ne
    have hpc' : (s'.pc t).toRace = (s.pc t).toRace :=
      congrFun (congrArg Concurrency.State.pc hsame) t
    have hlock : s'.lock ≠ 0 ↔ s.lock ≠ 0 := by
      simpa [not_iff_not] using congrArg Concurrency.State.m hsame
    by_cases hagent : Action.agent a = some t
    · obtain ⟨hawake, hless⟩ := Moves.step hmoves
        (fun e => (reachable_watched hreach).expected t e) hstep hagent hsame
      refine ⟨⟨⟨fun hdone => ?_, hawake⟩, fun htaken => ?_⟩, hless.le,
        fun _ => hless⟩
      · exact hmoves.1.1
          (toRace_eq_done.mp (hpc'.symm.trans (toRace_eq_done.mpr hdone)))
      · have howns := hmoves.2 (hlock.mp htaken)
        cases hpc : s.pc t <;> simp_all [Pc.Owns, Pc.distance]
    · have hpc := step_pc hstep hagent hmoves.1.2
      refine ⟨⟨by rw [hpc]; exact hmoves.1, fun htaken => ?_⟩, ?_, ?_⟩
      · rw [hpc]
        exact hmoves.2 (hlock.mp htaken)
      · rw [hpc]
      · exact fun hmine => absurd hmine hagent

/-- In every execution of any number of threads in which no thread that can
move waits for ever, all threads finish, and then `counter` is the sum of their
rounds; however many wakeups are spurious. -/
theorem futex_finishes {v : Version} {rounds : T → Nat}
    {e : (system v rounds).Execution} (hfair : e.WeaklyFair Action.agent) :
    ∃ n, (∀ t, (e.state n).pc t = .done) ∧
      (e.state n).counter = ((∑ t, rounds t : Nat) : Int) := by
  obtain ⟨n, -, hdone⟩ := (futex_progress v rounds).eventually hfair 0
  exact ⟨n, hdone, counter_eq_sum_of_done (e.reachable n) hdone⟩

/-- Two threads before their only round. -/
def twoThreadsOnce : State Bool where
  lock := 0
  counter := 0
  increments := 0
  rounds := fun _ => 1
  pc := fun _ => .head

theorem twoThreadsOnce_initial : Initial (fun _ => 1) twoThreadsOnce := by
  constructor <;> simp [twoThreadsOnce]

/-- The second thread sleeps while the first has the lock, wakes up spuriously,
sleeps again and is woken. -/
def sleepingRun : List (Action Bool) :=
  [.advance false, .advance false, .advance true, .advance true, .advance true,
    .spurious true, .advance true, .advance true, .advance false,
    .advance false, .advance false, .wake false (some true), .advance false,
    .advance true, .advance true, .advance true, .advance true,
    .wake true none, .advance true]

/-- The execution of `sleepingRun` is fair, and it ends with `2`. -/
theorem futex_finishes_sleeping :
    ∃ e : (system .v3 fun _ : Bool => 1).Execution,
      e.WeaklyFair Action.agent ∧
      ∃ n, (∀ t, (e.state n).pc t = .done) ∧ (e.state n).counter = 2 := by
  have hrun : ((system .v3 fun _ => 1).run twoThreadsOnce sleepingRun).isSome =
      true := rfl
  have hfair := ActionSystem.Execution.weaklyFair_ofRun Action.agent
    twoThreadsOnce_initial hrun (Option.some_get hrun).symm fun t henabled =>
      (enabled_iff.mp henabled).1 (by cases t <;> rfl)
  obtain ⟨n, hdone, hcounter⟩ := futex_finishes hfair
  exact ⟨_, hfair, n, hdone, hcounter.trans (by simp)⟩

end Futex
end OsKernel

import OsKernel.Futex.Mutex

/-!
# No lost wakeup in the futex locks

`futex_unlock` wakes one sleeper, and only if there is one at that moment.  A
sleeper is nevertheless never left behind: while a thread sleeps, some other
thread is on a path that leads to a `futex_wake` (`Pc.Active`).  It owns the
lock, or it has released it and is about to call `futex_wake`, or it is awake
inside `futex_lock` and will find the lock free or taken by an owner.

The step where this could go wrong is going to sleep.  `FUTEX_WAIT` sleeps only
if the word has the expected value, which is never `0`, so the word is `1` and
has an owner.
-/

namespace OsKernel
namespace Futex

open Lib

variable {T : Type} [DecidableEq T] [Fintype T]

/-- The thread is on a path to a `futex_wake`. -/
def Pc.Active (pc : Pc) : Prop :=
  pc.Owns ∨ pc = .wake ∨ pc.Locking

/-- While a thread sleeps another is active, and no thread waits for `0`. -/
structure Watched (s : State T) : Prop where
  active : (∃ t, s.pc t = .asleep) → ∃ u, (s.pc u).Active
  expected : ∀ t e, s.pc t = .wait e → e ≠ 0

namespace Watched

variable {v : Version} {rounds : T → Nat} {s s' : State T}

omit [DecidableEq T] [Fintype T] in
theorem init (h : Initial rounds s) : Watched s := by
  constructor <;> simp [h.pc]

section

omit [Fintype T]

/-- The mover is active after its step. -/
theorem of_active {t : T} {pc : T → Pc} {pc' : Pc}
    (hpc : s'.pc = Function.update pc t pc') (hactive : pc'.Active)
    (hwait : ∀ e, pc' = .wait e → e ≠ 0)
    (hold : ∀ u e, pc u = .wait e → e ≠ 0) : Watched s' where
  active _ := ⟨t, by rw [hpc, Function.update_self]; exact hactive⟩
  expected u e hu := by
    rw [hpc] at hu
    by_cases hut : u = t
    · subst hut
      exact hwait e (by simpa using hu)
    · exact hold u e (by simpa [hut] using hu)

/-- A thread stops being of use, but another active one remains. -/
theorem of_other (h : Watched s) {t : T} {pc' : Pc}
    (hwait : ∀ e, pc' ≠ .wait e)
    (hother : (∃ u, Function.update s.pc t pc' u = .asleep) →
      ∃ u, u ≠ t ∧ (s.pc u).Active) : Watched (s.setPc t pc') where
  active hasleep := by
    obtain ⟨u, hut, hu⟩ := hother hasleep
    exact ⟨u, by simpa [hut] using hu⟩
  expected u e hu := by
    by_cases hut : u = t
    · subst hut
      exact absurd (by simpa using hu) (hwait e)
    · exact h.expected u e (by simpa [hut] using hu)

theorem step (h : Watched s) (hexclusive : Exclusive s)
    (hstep : Step v s s') : Watched s' := by
  have hwait : ∀ e, afterWait v ≠ .wait e := by
    cases v <;> simp [afterWait]
  have hwoken : (afterWait v).Active := .inr (.inr (afterWait_locking v))
  cases hstep with
  | @finish t hpc hrounds =>
      refine h.of_other (by simp) ?_
      rintro ⟨u, hu⟩
      have hut : u ≠ t := by
        rintro rfl
        simp at hu
      obtain ⟨w, hw⟩ := h.active ⟨u, by simpa [hut] using hu⟩
      refine ⟨w, ?_, hw⟩
      rintro rfl
      simp [hpc, Pc.Active, Pc.Owns, Pc.Locking] at hw
  | enter hpc hrounds =>
      exact of_active rfl (.inr (.inr trivial)) (by simp) h.expected
  | acquire hpc hlock => exact of_active rfl (.inl trivial) (by simp) h.expected
  | retry hpc hpc' hexpected =>
      exact of_active rfl (.inr (.inr hpc')) hexpected h.expected
  | @sleep t hpc =>
      refine h.of_other (by simp) fun _ => ?_
      -- the word has the expected value, which is not `0`: it has an owner
      rcases hexclusive.word with ⟨-, u, hu⟩ | ⟨hzero, -⟩
      · refine ⟨u, ?_, .inl hu⟩
        rintro rfl
        simp [hpc, Pc.Owns] at hu
      · exact absurd hzero (h.expected t s.lock hpc)
  | load hpc => exact of_active rfl (.inl trivial) (by simp) h.expected
  | store hpc => exact of_active rfl (.inl trivial) (by simp) h.expected
  | release hpc => exact of_active rfl (.inr (.inl rfl)) (by simp) h.expected
  | @wakeNone t hpc hnone =>
      refine h.of_other (by simp) ?_
      rintro ⟨u, hu⟩
      by_cases hut : u = t
      · subst hut
        simp at hu
      · exact absurd (by simpa [hut] using hu) (hnone u)
  | @wakeOne t u hpc hu =>
      have hut : u ≠ t := by
        rintro rfl
        simp [hpc] at hu
      have hfirst : Watched (s.setPc u (afterWait v)) :=
        of_active rfl hwoken (fun e he => absurd he (hwait e)) h.expected
      refine hfirst.of_other (by simp) fun _ => ⟨u, hut, ?_⟩
      simpa using hwoken
  | spurious hu =>
      exact of_active rfl hwoken (fun e he => absurd he (hwait e)) h.expected

end

end Watched

theorem reachable_watched {v : Version} {rounds : T → Nat} {s : State T}
    (hreach : (system v rounds).Reachable s) : Watched s := by
  refine hreach.invariant (P := Watched) ?_ ?_
  · intro s hinit
    exact .init hinit
  · intro s a s' hprev h hstep
    exact h.step (reachable_exclusive hprev) (step_cases hstep)

/-- A thread that is neither asleep nor done, if some thread is not done. -/
theorem exists_awake {v : Version} {rounds : T → Nat} {s : State T}
    (hreach : (system v rounds).Reachable s) (hleft : ∃ t, s.pc t ≠ .done) :
    ∃ t, s.pc t ≠ .done ∧ s.pc t ≠ .asleep := by
  obtain ⟨t, ht⟩ := hleft
  by_cases hasleep : s.pc t = .asleep
  · obtain ⟨u, hu⟩ := (reachable_watched hreach).active ⟨t, hasleep⟩
    refine ⟨u, fun hpc => ?_, fun hpc => ?_⟩ <;>
      simp [hpc, Pc.Active, Pc.Owns, Pc.Locking] at hu
  · exact ⟨t, ht, hasleep⟩

/-- In every reachable state with a sleeper the lock is taken and has an owner,
or a thread is between its store `lock = 0` and its `futex_wake`, or a thread
is awake inside `futex_lock`; so the unfinished threads are never all
asleep. -/
theorem no_lost_wakeup {v : Version} {rounds : T → Nat} {s : State T}
    (hreach : (system v rounds).Reachable s) :
    (∀ t, s.pc t = .asleep →
      (s.lock = 1 ∧ ∃ u, (s.pc u).Owns) ∨ (∃ u, s.pc u = .wake) ∨
        ∃ u, (s.pc u).Locking) ∧
      ¬ ((∃ t, s.pc t ≠ .done) ∧ ∀ t, s.pc t ≠ .done → s.pc t = .asleep) := by
  constructor
  · intro t ht
    obtain ⟨u, hu⟩ := (reachable_watched hreach).active ⟨t, ht⟩
    rcases hu with hu | hu | hu
    · exact .inl ⟨(reachable_exclusive hreach).word_of_owns hu, u, hu⟩
    · exact .inr (.inl ⟨u, hu⟩)
    · exact .inr (.inr ⟨u, hu⟩)
  · rintro ⟨hleft, hall⟩
    obtain ⟨t, hdone, hawake⟩ := exists_awake hreach hleft
    exact hawake (hall t hdone)

/-- The second thread sleeps while the first owns the lock. -/
theorem no_lost_wakeup_contended :
    ∃ s : State Bool, (system .v3 fun _ => 100000).Reachable s ∧
      s.pc true = .asleep ∧
      ((s.lock = 1 ∧ ∃ u, (s.pc u).Owns) ∨ (∃ u, s.pc u = .wake) ∨
        ∃ u, (s.pc u).Locking) := by
  obtain ⟨s, hrun, hasleep⟩ :
      ∃ s, (system .v3 fun _ => 100000).run twoThreads contendedRun = some s ∧
        s.pc true = .asleep := ⟨_, rfl, rfl⟩
  have hreach : (system .v3 fun _ => 100000).Reachable s :=
    ActionSystem.Reachable.run (.start twoThreads_initial) hrun
  exact ⟨s, hreach, hasleep, (no_lost_wakeup hreach).1 true hasleep⟩

end Futex
end OsKernel

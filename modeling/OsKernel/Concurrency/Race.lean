import OsKernel.Lib.Fairness
import OsKernel.Lib.Simulation

/-!
# The counter of `demos/concurrency/race.c`

Threads run the loop of `worker`: `pthread_mutex_lock`, `counter++`,
`pthread_mutex_unlock`.  A step is one access to shared memory; the load and the
store of `counter++` are two.  `pthread_mutex_lock` is not enabled while the
mutex is taken.  Which thread moves next is open, and so is how many threads
there are.

What the program is for is a `Tally`: every thread adds one to the counter a
given number of times, each time in one step.  The program is simulated by it
(`worker_simulates`): the mutex keeps the load and the store together.  The same
threads with other locks are in `demos/futex`; they are shown to be simulated by
this program.
-/

namespace OsKernel
namespace Concurrency

open Lib

variable {T : Type} [DecidableEq T]

/-! ## Counting in one step -/

/-- A counter and how often each thread has still to add one. -/
@[ext]
structure Tally (T : Type) where
  counter : Int
  left : T → Nat

/-- Thread `t` adds one. -/
def Tally.add (s : Tally T) (t : T) : Option (Tally T) :=
  if s.left t = 0 then none
  else
    some { counter := s.counter + 1
           left := Function.update s.left t (s.left t - 1) }

/-- The threads add one in any order, as often as `rounds` says. -/
def tally (rounds : T → Nat) : ActionSystem (Tally T) T where
  init s := s = ⟨0, rounds⟩
  step := Tally.add

section
variable [Fintype T]

/-- What was added and what is left make up all rounds. -/
theorem tally_total {rounds : T → Nat} {s : Tally T}
    (hreach : (tally rounds).Reachable s) :
    s.counter + ((∑ t, s.left t : Nat) : Int) = ((∑ t, rounds t : Nat) : Int) := by
  refine hreach.invariant
    (P := fun s => s.counter + ((∑ t, s.left t : Nat) : Int) =
      ((∑ t, rounds t : Nat) : Int)) ?_ ?_
  · rintro s rfl
    simp
  · intro s t s' _ ih hstep
    change s.add t = some s' at hstep
    unfold Tally.add at hstep
    split at hstep
    · cases hstep
    · rename_i hleft
      obtain rfl := Option.some.inj hstep
      rw [← ih, Finset.sum_update_of_mem (Finset.mem_univ t),
        ← Finset.add_sum_erase Finset.univ s.left (Finset.mem_univ t),
        Finset.sdiff_singleton_eq_erase]
      push_cast [Nat.one_le_iff_ne_zero.mpr hleft]
      ring

end

/-! ## The threads -/

/-- Where a thread is: the step it makes next. -/
inductive Pc
  /-- The head of the loop of `worker`. -/
  | head
  /-- `pthread_mutex_lock(&m)`. -/
  | lock
  /-- The load of `counter++`. -/
  | load
  /-- The store of `counter++`, with the value loaded. -/
  | store (loaded : Int)
  /-- `pthread_mutex_unlock(&m)`. -/
  | unlock
  /-- The loop is over. -/
  | done
  deriving DecidableEq, Repr

/-- The shared words and the threads.  `counter` is a `long`; it is an `Int`
here, as the loops end long before it could overflow. -/
@[ext]
structure State (T : Type) where
  /-- The mutex `m` is taken. -/
  m : Bool
  counter : Int
  /-- The rounds of its loop a thread has not begun. -/
  rounds : T → Nat
  pc : T → Pc

/-- Thread `t` moves to `pc`. -/
@[simps -fullyApplied]
def State.setPc (s : State T) (t : T) (pc : Pc) : State T :=
  { s with pc := Function.update s.pc t pc }

theorem State.setPc_of_eq {s : State T} {t : T} {pc : Pc} (hpc : pc = s.pc t) :
    s.setPc t pc = s := by
  subst hpc
  exact State.ext rfl rfl rfl (Function.update_eq_self t _)

/-- Positions of other threads, read as those of `worker`, after one of the
threads has moved. -/
theorem State.reading_update {α : Type} (read : α → Pc) (s : State T)
    (pc : T → α) (t : T) (x : α) :
    ({ s with pc := fun u => read (Function.update pc t x u) } : State T) =
      { s with pc := fun u => read (pc u) }.setPc t (read x) :=
  State.ext rfl rfl rfl
    (funext fun u => Function.apply_update (fun _ => read) pc t x u)

/-- Thread `t` begins a round. -/
@[simps -fullyApplied]
def State.enter (s : State T) (t : T) : State T :=
  { s with rounds := Function.update s.rounds t (s.rounds t - 1) }

/-- The next step of a thread. -/
def worker (s : State T) (t : T) : Option (State T) :=
  match s.pc t with
  | .head =>
      if s.rounds t = 0 then some (s.setPc t .done)
      else some ((s.enter t).setPc t .lock)
  | .lock => if s.m then none else some ({ s with m := true }.setPc t .load)
  | .load => some (s.setPc t (.store s.counter))
  | .store loaded => some ({ s with counter := loaded + 1 }.setPc t .unlock)
  | .unlock => some ({ s with m := false }.setPc t .head)
  | .done => none

/-- All threads are about to run `rounds` rounds; `worker` has `1000000`. -/
structure Initial (rounds : T → Nat) (s : State T) : Prop where
  m : s.m = false
  counter : s.counter = 0
  rounds : s.rounds = rounds
  pc : ∀ t, s.pc t = .head

/-- All interleavings of the threads' steps. -/
def system (rounds : T → Nat) : ActionSystem (State T) T where
  init := Initial rounds
  step := worker

/-- What a step can do. -/
inductive Step (s : State T) (t : T) : State T → Prop
  | finish (hpc : s.pc t = .head) (hrounds : s.rounds t = 0) :
      Step s t (s.setPc t .done)
  | enter (hpc : s.pc t = .head) (hrounds : s.rounds t ≠ 0) :
      Step s t ((s.enter t).setPc t .lock)
  | acquire (hpc : s.pc t = .lock) (hfree : s.m = false) :
      Step s t ({ s with m := true }.setPc t .load)
  | load (hpc : s.pc t = .load) : Step s t (s.setPc t (.store s.counter))
  | store {loaded : Int} (hpc : s.pc t = .store loaded) :
      Step s t ({ s with counter := loaded + 1 }.setPc t .unlock)
  | release (hpc : s.pc t = .unlock) :
      Step s t ({ s with m := false }.setPc t .head)

theorem worker_eq_some_iff {s s' : State T} {t : T} :
    worker s t = some s' ↔ Step s t s' := by
  constructor
  · intro hstep
    unfold worker at hstep
    split at hstep
    next hpc =>
      split at hstep
      next hrounds => exact Option.some.inj hstep ▸ .finish hpc hrounds
      next hrounds => exact Option.some.inj hstep ▸ .enter hpc hrounds
    next hpc =>
      split at hstep
      next => cases hstep
      next hfree =>
        exact Option.some.inj hstep ▸ .acquire hpc (Bool.eq_false_iff.mpr hfree)
    next hpc => exact Option.some.inj hstep ▸ .load hpc
    next hpc => exact Option.some.inj hstep ▸ .store hpc
    next hpc => exact Option.some.inj hstep ▸ .release hpc
    next => cases hstep
  · intro hstep
    cases hstep with
    | finish hpc hrounds => simp [worker, hpc, hrounds]
    | enter hpc hrounds => simp [worker, hpc, hrounds]
    | acquire hpc hfree => simp [worker, hpc, hfree]
    | load hpc => simp [worker, hpc]
    | store hpc => simp [worker, hpc]
    | release hpc => simp [worker, hpc]

/-! ## Mutual exclusion -/

/-- Between `pthread_mutex_lock` and `pthread_mutex_unlock`. -/
def Pc.Owns : Pc → Prop
  | .load | .store _ | .unlock => True
  | _ => False

/-- The mutex is taken exactly while a thread is between the two calls, at most
one is, and what it has loaded is what the counter still is. -/
structure Exclusive (s : State T) : Prop where
  one : ∀ t u, (s.pc t).Owns → (s.pc u).Owns → t = u
  taken : s.m = true ↔ ∃ t, (s.pc t).Owns
  loaded : ∀ t x, s.pc t = .store x → x = s.counter

namespace Exclusive

variable {s : State T} {t : T}

/-- A thread that is not between the two calls, before and after its move. -/
theorem outside (h : Exclusive s) {pc' : Pc} (hold : ¬ (s.pc t).Owns)
    (hnew : ¬ pc'.Owns) : Exclusive (s.setPc t pc') := by
  have howns : ∀ u, ((s.setPc t pc').pc u).Owns = (s.pc u).Owns :=
    apply_update_of_eq Pc.Owns (by simp [hold, hnew])
  constructor
  · simpa only [howns] using h.one
  · simpa only [howns, State.setPc_m] using h.taken
  · intro u x hu
    have hnot : pc' = .store x → s.pc t = .store x := by
      rintro rfl
      exact absurd trivial hnew
    exact h.loaded u x (of_update (Q := fun pc : Pc => pc = .store x) hnot hu)

/-- A thread takes the mutex, or goes on while it has it. -/
theorem inside {pc' : Pc} (hnew : pc'.Owns) {m : Bool} (hm : m = true)
    {counter : Int} (hown : ∀ u, (s.pc u).Owns → u = t)
    (hloaded : ∀ x, pc' = .store x → x = counter) :
    Exclusive ({ s with m := m, counter := counter }.setPc t pc') := by
  have howner : ∀ u, (Function.update s.pc t pc' u).Owns → u = t := by
    intro u hu
    by_contra hut
    rw [Function.update_of_ne hut] at hu
    exact hut (hown u hu)
  constructor
  · intro u w hu hw
    exact (howner u hu).trans (howner w hw).symm
  · exact iff_of_true hm ⟨t, by simpa using hnew⟩
  · intro u x hu
    change Function.update s.pc t pc' u = .store x at hu
    obtain rfl := howner u (by rw [hu]; trivial)
    rw [Function.update_self] at hu
    exact hloaded x hu

theorem release (h : Exclusive s) (hpc : s.pc t = .unlock) :
    Exclusive ({ s with m := false }.setPc t .head) := by
  have howns : (s.pc t).Owns := by rw [hpc]; trivial
  have hnone : ∀ u, ¬ (Function.update s.pc t .head u).Owns := by
    intro u hu
    by_cases hut : u = t
    · subst hut
      rw [Function.update_self] at hu
      exact hu
    · rw [Function.update_of_ne hut] at hu
      exact hut (h.one u t hu howns)
  constructor
  · intro u w hu
    exact absurd hu (hnone u)
  · exact iff_of_false Bool.false_ne_true fun ⟨u, hu⟩ => hnone u hu
  · intro u x hu
    change Function.update s.pc t .head u = .store x at hu
    exact absurd (by rw [hu]; trivial) (hnone u)

theorem step (h : Exclusive s) {s' : State T} (hstep : Step s t s') :
    Exclusive s' := by
  have hmine : (s.pc t).Owns →
      s.m = true ∧ ∀ u, (s.pc u).Owns → u = t := fun ht =>
    ⟨h.taken.mpr ⟨t, ht⟩, fun u hu => h.one u t hu ht⟩
  cases hstep with
  | finish hpc hrounds => exact h.outside (by simp [hpc, Pc.Owns]) id
  | enter hpc hrounds =>
      have hentered : Exclusive (s.enter t) := ⟨h.one, h.taken, h.loaded⟩
      exact hentered.outside (by simp [hpc, Pc.Owns]) id
  | acquire hpc hfree =>
      have hnone : ∀ u, ¬ (s.pc u).Owns := by
        intro u hu
        have htaken := h.taken.mpr ⟨u, hu⟩
        rw [hfree] at htaken
        cases htaken
      show Exclusive ({ s with m := true, counter := s.counter }.setPc t .load)
      exact inside (by trivial) rfl (fun u hu => absurd hu (hnone u)) (by simp)
  | load hpc =>
      obtain ⟨hm, hown⟩ := hmine (by rw [hpc]; trivial)
      show Exclusive ({ s with m := s.m, counter := s.counter }.setPc t _)
      exact inside (by trivial) hm hown (by rintro x ⟨⟩; rfl)
  | @store loaded hpc =>
      obtain ⟨hm, hown⟩ := hmine (by rw [hpc]; trivial)
      show Exclusive ({ s with m := s.m, counter := loaded + 1 }.setPc t _)
      exact inside (by trivial) hm hown (by simp)
  | release hpc => exact h.release hpc

end Exclusive

theorem reachable_exclusive {rounds : T → Nat} {s : State T}
    (hreach : (system rounds).Reachable s) : Exclusive s := by
  refine hreach.invariant (P := Exclusive) ?_ ?_
  · intro s hinit
    constructor
    · simp [hinit.pc, Pc.Owns]
    · simp [hinit.m, hinit.pc, Pc.Owns]
    · simp [hinit.pc]
  · intro s t s' _ h hstep
    exact h.step (worker_eq_some_iff.mp hstep)

/-! ## The program counts like a tally -/

/-- `1` while the store of the round a thread is in is still to come. -/
def Pc.owed : Pc → Nat
  | .lock | .load | .store _ => 1
  | .head | .unlock | .done => 0

/-- The counter, and the stores each thread has still to make. -/
def State.toTally (s : State T) : Tally T where
  counter := s.counter
  left t := s.rounds t + (s.pc t).owed

/-- A move that leaves the thread's own debt as it is. -/
theorem toTally_setPc {s : State T} {t : T} {pc' : Pc}
    (hpc : pc'.owed = (s.pc t).owed) : (s.setPc t pc').toTally = s.toTally := by
  ext u
  · rfl
  · exact congrArg (s.rounds u + ·) (apply_update_of_eq Pc.owed hpc u)

/-- The store is the step that adds one; no other step is seen. -/
theorem Step.toTally {s s' : State T} {t : T} (hstep : Step s t s')
    (hexclusive : Exclusive s) :
    s'.toTally = s.toTally ∨ s.toTally.add t = some s'.toTally := by
  cases hstep with
  | finish hpc hrounds => exact .inl (toTally_setPc (by rw [hpc]; rfl))
  | enter hpc hrounds =>
      -- the round leaves `rounds` and is owed from here on
      left
      ext u
      · rfl
      · by_cases hu : u = t
        · subst hu
          simp only [State.toTally, State.setPc_rounds, State.enter_rounds,
            State.setPc_pc, Function.update_self, hpc, Pc.owed]
          omega
        · simp [State.toTally, hu]
  | acquire hpc hfree =>
      refine .inl (toTally_setPc (s := { s with m := true }) ?_)
      show 1 = (s.pc t).owed
      rw [hpc]
      rfl
  | load hpc => exact .inl (toTally_setPc (by rw [hpc]; rfl))
  | @store loaded hpc =>
      right
      obtain rfl := hexclusive.loaded t loaded hpc
      have hleft : s.toTally.left t = s.rounds t + 1 := by
        simp [State.toTally, hpc, Pc.owed]
      rw [Tally.add, if_neg (by omega), hleft]
      refine congrArg some (Tally.ext rfl (funext fun u => ?_))
      by_cases hu : u = t
      · subst hu
        simp [State.toTally, Pc.owed]
      · simp [State.toTally, hu]
  | release hpc =>
      refine .inl (toTally_setPc (s := { s with m := false }) ?_)
      show 0 = (s.pc t).owed
      rw [hpc]
      rfl

theorem worker_simulates (rounds : T → Nat) :
    ActionSystem.Simulates (system rounds) (tally rounds) State.toTally where
  init s hinit := by
    show s.toTally = ⟨0, rounds⟩
    simp [State.toTally, hinit.counter, hinit.rounds, hinit.pc, Pc.owed]
  step s t s' hreach hstep := by
    have hcases := worker_eq_some_iff.mp hstep
    rcases hcases.toTally (reachable_exclusive hreach) with hsame | hadd
    · exact .inl hsame
    · exact .inr ⟨t, hadd⟩

/-! ## The threads finish -/

/-- The steps a thread has still to make in the round it is in, or before it
finds that no round is left. -/
def Pc.work : Pc → Nat
  | .lock => 5
  | .load => 4
  | .store _ => 3
  | .unlock => 2
  | .head => 1
  | .done => 0

/-- The steps a thread has still to make. -/
def State.work (s : State T) (t : T) : Nat := 5 * s.rounds t + (s.pc t).work

theorem work_setPc {s : State T} {t : T} {pc' : Pc}
    (hpc : pc'.work < (s.pc t).work) :
    (s.setPc t pc').work t < s.work t ∧
      ∀ u, u ≠ t → (s.setPc t pc').work u = s.work u := by
  refine ⟨?_, fun u hu => by simp [State.work, hu]⟩
  simpa [State.work] using hpc

/-- A step is one of the steps its thread has to make. -/
theorem Step.work {s s' : State T} {t : T} (hstep : Step s t s') :
    s'.work t < s.work t ∧ ∀ u, u ≠ t → s'.work u = s.work u := by
  cases hstep with
  | enter hpc hrounds =>
      refine ⟨?_, fun u hu => by simp [State.work, hu]⟩
      simp only [State.work, State.setPc_rounds, State.setPc_pc,
        State.enter_rounds, Function.update_self, hpc, Pc.work]
      omega
  | finish hpc hrounds => exact work_setPc (by simp [hpc, Pc.work])
  | acquire hpc hfree =>
      exact work_setPc (s := { s with m := true }) (by simp [hpc, Pc.work])
  | load hpc => exact work_setPc (by simp [hpc, Pc.work])
  | store hpc =>
      exact work_setPc (s := { s with counter := _ }) (by simp [hpc, Pc.work])
  | release hpc =>
      exact work_setPc (s := { s with m := false }) (by simp [hpc, Pc.work])

section
variable [Fintype T]

/-- The steps all threads have still to make. -/
def State.rank (s : State T) : Nat := ∑ t, s.work t

theorem Step.rank_lt {s s' : State T} {t : T} (hstep : Step s t s') :
    s'.rank < s.rank := by
  obtain ⟨hlt, hother⟩ := hstep.work
  refine Finset.sum_lt_sum (fun u _ => ?_) ⟨t, Finset.mem_univ t, hlt⟩
  by_cases hu : u = t
  · subst hu
    exact hlt.le
  · exact (hother u hu).le

/-- A step of a program that is simulated by the threads is not seen, or it is
one of the steps they have to make. -/
theorem rank_lt_of_simulates {σ : Type} {α : Type} {rounds : T → Nat}
    {C : ActionSystem σ α} {abs : σ → State T}
    (h : C.Simulates (system rounds) abs) {s s' : σ} {a : α}
    (hreach : C.Reachable s) (hstep : C.step s a = some s') :
    abs s' = abs s ∨ (abs s').rank < (abs s).rank := by
  rcases h.step s a s' hreach hstep with hsame | ⟨t, ht⟩
  · exact .inl hsame
  · exact .inr (worker_eq_some_iff.mp ht).rank_lt

theorem rank_le_of_simulates {σ : Type} {α : Type} {rounds : T → Nat}
    {C : ActionSystem σ α} {abs : σ → State T}
    (h : C.Simulates (system rounds) abs) {s s' : σ} {a : α}
    (hreach : C.Reachable s) (hstep : C.step s a = some s') :
    (abs s').rank ≤ (abs s).rank := by
  rcases rank_lt_of_simulates h hreach hstep with hsame | hlt
  · rw [hsame]
  · exact hlt.le

omit [Fintype T] in
/-- A thread that is done has no round left. -/
theorem reachable_done {rounds : T → Nat} {s : State T}
    (hreach : (system rounds).Reachable s) :
    ∀ t, s.pc t = .done → s.rounds t = 0 := by
  refine hreach.invariant
    (P := fun s => ∀ t, s.pc t = .done → s.rounds t = 0) ?_ ?_
  · intro s hinit t ht
    rw [hinit.pc] at ht
    cases ht
  · intro s t s' _ ih hstep u hu
    -- only the step that finishes a thread makes one done
    have hold : ∀ pc', pc' ≠ .done →
        Function.update s.pc t pc' u = .done → u ≠ t ∧ s.rounds u = 0 := by
      intro pc' hne hupdate
      by_cases hut : u = t
      · subst hut
        rw [Function.update_self] at hupdate
        exact absurd hupdate hne
      · rw [Function.update_of_ne hut] at hupdate
        exact ⟨hut, ih u hupdate⟩
    cases worker_eq_some_iff.mp hstep with
    | finish hpc hrounds =>
        by_cases hut : u = t
        · subst hut
          exact hrounds
        · exact ih u (by simpa [hut] using hu)
    | enter hpc hrounds =>
        obtain ⟨hut, hzero⟩ := hold _ (by simp) hu
        simp [hut, hzero]
    | _ => exact (hold _ (by simp) hu).2

/-- When all threads are done, every round has been counted. -/
theorem counter_of_done {rounds : T → Nat} {s : State T}
    (hreach : (system rounds).Reachable s) (hdone : ∀ t, s.pc t = .done) :
    s.counter = ((∑ t, rounds t : Nat) : Int) := by
  have htotal := tally_total ((worker_simulates rounds).reachable hreach)
  have hleft : ∀ t, s.toTally.left t = 0 := fun t => by
    simp [State.toTally, hdone, reachable_done hreach t (hdone t), Pc.owed]
  simp only [hleft, Finset.sum_const_zero, Nat.cast_zero, add_zero] at htotal
  exact htotal

end

/-- A step is enabled unless the thread is done or waits for the mutex. -/
theorem enabled_iff {rounds : T → Nat} {s : State T} {t : T} :
    (system rounds).Enabled some s t ↔
      s.pc t ≠ .done ∧ (s.pc t = .lock → s.m = false) := by
  have hworker : (system rounds).Enabled some s t ↔
      (worker s t).isSome = true := by
    constructor
    · rintro ⟨a, hagent, hstep⟩
      obtain rfl := Option.some.inj hagent
      exact hstep
    · exact fun hstep => ⟨t, rfl, hstep⟩
  rw [hworker]
  unfold worker
  cases hpc : s.pc t with
  | head => simp [apply_ite Option.isSome]
  | lock => cases hm : s.m <;> simp
  | _ => simp

/-- Which thread is sure to move: the owner of the mutex, and while there is
none any thread that is not done. -/
def State.Moves (s : State T) (t : T) : Prop :=
  s.pc t ≠ .done ∧ (s.m = true → (s.pc t).Owns)

omit [DecidableEq T] in
theorem Exclusive.exists_moves {s : State T} (h : Exclusive s)
    (hleft : ∃ t, s.pc t ≠ .done) : ∃ t, s.Moves t := by
  cases hm : s.m with
  | true =>
      obtain ⟨t, ht⟩ := h.taken.mp hm
      refine ⟨t, fun hdone => ?_, fun _ => ht⟩
      rw [hdone] at ht
      exact ht
  | false =>
      obtain ⟨t, ht⟩ := hleft
      exact ⟨t, ht, fun htaken => by rw [hm] at htaken; cases htaken⟩

theorem worker_progress [Fintype T] (rounds : T → Nat) :
    (system rounds).Progress some (fun s => ∀ t, s.pc t = .done) State.rank
      State.Moves (fun _ _ => 0) where
  exists_helper s hreach hleft :=
    (reachable_exclusive hreach).exists_moves (not_forall.mp hleft)
  enabled s t hreach hmoves := by
    refine enabled_iff.mpr ⟨hmoves.1, fun hlock => ?_⟩
    by_contra htaken
    have howns := hmoves.2 (Bool.not_eq_false _ ▸ htaken)
    rw [hlock] at howns
    exact howns
  rank_le s a s' _ hstep := (worker_eq_some_iff.mp hstep).rank_lt.le
  keeps s a s' t _ hstep _ hrank :=
    absurd hrank (worker_eq_some_iff.mp hstep).rank_lt.ne

/-- In every weakly fair execution of any number of threads all threads finish,
and then `counter` is the sum of their rounds. -/
theorem worker_finishes [Fintype T] {rounds : T → Nat}
    {e : (system rounds).Execution} (hfair : e.WeaklyFair some) :
    ∃ n, (∀ t, (e.state n).pc t = .done) ∧
      (e.state n).counter = ((∑ t, rounds t : Nat) : Int) := by
  obtain ⟨n, -, hdone⟩ := (worker_progress rounds).eventually hfair 0
  exact ⟨n, hdone, counter_of_done (e.reachable n) hdone⟩

/-- Two threads before their only round. -/
def twoThreads : State Bool where
  m := false
  counter := 0
  rounds := fun _ => 1
  pc := fun _ => .head

theorem twoThreads_initial : Initial (fun _ => 1) twoThreads := by
  constructor <;> simp [twoThreads]

/-- The second thread waits for the mutex while the first has it. -/
def contendedRun : List Bool :=
  [false, false, true, false, false, false, false, true, true, true, true, true]

/-- The execution of `contendedRun` is fair, and it ends with `2`. -/
theorem worker_finishes_contended :
    ∃ e : (system fun _ : Bool => 1).Execution, e.WeaklyFair some ∧
      ∃ n, (∀ t, (e.state n).pc t = .done) ∧ (e.state n).counter = 2 := by
  have hrun : ((system fun _ => 1).run twoThreads contendedRun).isSome = true :=
    rfl
  have hfair := ActionSystem.Execution.weaklyFair_ofRun some
    twoThreads_initial hrun (Option.some_get hrun).symm fun t henabled =>
      (enabled_iff.mp henabled).1 (by cases t <;> rfl)
  obtain ⟨n, hdone, hcounter⟩ := worker_finishes hfair
  exact ⟨_, hfair, n, hdone, hcounter.trans (by simp)⟩

end Concurrency
end OsKernel

import OsKernel.Lib.ActionSystem
import Mathlib.Tactic

/-!
# Handing out request queues (`demos/bio/bio.c`)

`blk_alloc_queue` searches `global_queues` under a lock for a queue without a
block device, gives the lock back, clears the queue and returns it.  Nothing
marks the queue as taken: that is up to the caller, who sets `q->bdev` at some
later time, and the clearing is outside the lock.  So a queue is handed out again
as long as its owner has not set the device.

Callers run concurrently here: the search, the clearing and the two assignments
of a caller are steps of their own.  A caller is a thread with one allocation.
Nothing gives a queue back.  Of `struct request_queue` the fields `bdev` and
`make_request_fn` are modelled; no function reads the others.
-/

namespace OsKernel
namespace BlockIo
namespace Queues

open Lib

/-- `struct request_queue`. -/
structure Queue (Dev Fn : Type) where
  bdev : Option Dev
  makeRequestFn : Option Fn

/-- `memset(q, 0, sizeof(struct request_queue))`. -/
def Queue.cleared {Dev Fn : Type} : Queue Dev Fn := ⟨none, none⟩

/-- Where a caller is. -/
inductive Pc
  | idle
  /-- The lock is given back, the `memset` of the queue is next. -/
  | clearing (i : Nat)
  /-- `blk_alloc_queue` has returned the queue. -/
  | owning (i : Nat)
  deriving DecidableEq

/-- The queue of a caller. -/
def Pc.queue : Pc → Option Nat
  | .idle => none
  | .clearing i => some i
  | .owning i => some i

/-- `global_queues` and the callers. -/
structure State (T Dev Fn : Type) where
  queues : Nat → Queue Dev Fn
  pc : T → Pc

variable {T Dev Fn : Type}

/-- The loop of `blk_alloc_queue` over an array of the given size. -/
def blkAllocQueue (size : Nat) (queues : Nat → Queue Dev Fn) : Option Nat :=
  (List.range size).find? fun i => (queues i).bdev.isNone

/-- What a caller does. -/
inductive Action (T Dev Fn : Type)
  /-- The locked part of `blk_alloc_queue`. -/
  | find (t : T)
  /-- The rest of it. -/
  | clear (t : T)
  /-- `blk_queue_make_request`. -/
  | makeRequest (t : T) (fn : Fn)
  /-- `q->bdev = dev`. -/
  | attach (t : T) (dev : Dev)

section System

variable [DecidableEq T]

/-- A caller writes to its queue and goes on. -/
@[simps]
def State.write (s : State T Dev Fn) (t : T) (i : Nat) (q : Queue Dev Fn) :
    State T Dev Fn where
  queues := Function.update s.queues i q
  pc := Function.update s.pc t (.owning i)

/-- One step. -/
def step (size : Nat) (s : State T Dev Fn) :
    Action T Dev Fn → Option (State T Dev Fn)
  | .find t =>
      match s.pc t with
      | .idle =>
          match blkAllocQueue size s.queues with
          | none => some s  -- `NULL`
          | some i => some { s with pc := Function.update s.pc t (.clearing i) }
      | _ => none
  | .clear t =>
      match s.pc t with
      | .clearing i => some (s.write t i .cleared)
      | _ => none
  | .makeRequest t fn =>
      match s.pc t with
      | .owning i =>
          some (s.write t i { s.queues i with makeRequestFn := some fn })
      | _ => none
  | .attach t dev =>
      match s.pc t with
      | .owning i => some (s.write t i { s.queues i with bdev := some dev })
      | _ => none

/-- All interleavings of the callers, from the zeros of static memory. -/
def system (size : Nat) : ActionSystem (State T Dev Fn) (Action T Dev Fn) where
  init s := (∀ i, s.queues i = .cleared) ∧ ∀ t, s.pc t = .idle
  step := step size

/-- Some caller has the queue. -/
def State.Held (s : State T Dev Fn) (i : Nat) : Prop :=
  ∃ t, (s.pc t).queue = some i

/-! ## What a step does -/

/-- A caller gets a queue without a device, all before it having one; or writes
to the queue it has. -/
inductive Step (size : Nat) (s : State T Dev Fn) :
    Action T Dev Fn → State T Dev Fn → Prop
  | null {t : T} (hnone : blkAllocQueue size s.queues = none) :
      Step size s (.find t) s
  | find {t : T} {i : Nat} (hidle : s.pc t = .idle)
      (hfound : blkAllocQueue size s.queues = some i) :
      Step size s (.find t)
        { s with pc := Function.update s.pc t (.clearing i) }
  | write {a : Action T Dev Fn} {t : T} {i : Nat} {q : Queue Dev Fn}
      (hown : (s.pc t).queue = some i) : Step size s a (s.write t i q)

theorem step_cases {size : Nat} {s s' : State T Dev Fn} {a : Action T Dev Fn}
    (hstep : (system size).step s a = some s') : Step size s a s' := by
  change step size s a = some s' at hstep
  -- each call is made at one place of the caller's program only
  cases a with
  | find t =>
      cases hpc : s.pc t <;> simp only [step, hpc] at hstep
      case idle =>
        cases hfound : blkAllocQueue size s.queues with
        | none =>
            rw [hfound] at hstep
            obtain rfl := Option.some.inj hstep
            exact .null hfound
        | some i =>
            rw [hfound] at hstep
            obtain rfl := Option.some.inj hstep
            exact .find hpc hfound
      all_goals contradiction
  | clear t =>
      cases hpc : s.pc t <;> simp only [step, hpc] at hstep
      case clearing i =>
        obtain rfl := Option.some.inj hstep
        exact .write (by rw [hpc]; rfl)
      all_goals contradiction
  | makeRequest t fn =>
      cases hpc : s.pc t <;> simp only [step, hpc] at hstep
      case owning i =>
        obtain rfl := Option.some.inj hstep
        exact .write (by rw [hpc]; rfl)
      all_goals contradiction
  | attach t dev =>
      cases hpc : s.pc t <;> simp only [step, hpc] at hstep
      case owning i =>
        obtain rfl := Option.some.inj hstep
        exact .write (by rw [hpc]; rfl)
      all_goals contradiction

/-- The search finds the first queue without a device. -/
theorem blkAllocQueue_eq_some {size i : Nat} {queues : Nat → Queue Dev Fn}
    (hfound : blkAllocQueue size queues = some i) :
    i < size ∧ (queues i).bdev = none ∧
      ∀ j, j < i → (queues j).bdev ≠ none := by
  have hmem := List.mem_range.mp (List.mem_of_find?_eq_some hfound)
  have hnone : (queues i).bdev = none := by
    simpa using List.find?_some hfound
  refine ⟨hmem, hnone, fun j hj => ?_⟩
  have hbefore := (List.find?_range_eq_some.mp hfound).2.2 j hj
  simpa [Option.isSome_iff_ne_none] using hbefore

theorem blkAllocQueue_eq_none {size : Nat} {queues : Nat → Queue Dev Fn}
    (hnone : blkAllocQueue size queues = none) {i : Nat} (hi : i < size) :
    (queues i).bdev ≠ none := by
  have htest := List.find?_eq_none.mp hnone i (List.mem_range.mpr hi)
  simpa using htest

/-! ## Who has a queue -/

/-- Only queues that a caller has have a device, and the queues that callers
have are the first ones. -/
structure Packed (s : State T Dev Fn) : Prop where
  held : ∀ i, (s.queues i).bdev ≠ none → s.Held i
  below : ∀ i j, s.Held j → i < j → s.Held i

/-- Whoever has a queue keeps it. -/
theorem Step.held {size : Nat} {s s' : State T Dev Fn} {a : Action T Dev Fn}
    (hstep : Step size s a s') {i : Nat} (hi : s.Held i) : s'.Held i := by
  obtain ⟨t, ht⟩ := hi
  refine ⟨t, ?_⟩
  cases hstep with
  | null hnone => exact ht
  | @find u j hidle hfound =>
      have hne : t ≠ u := by
        rintro rfl
        simp [hidle, Pc.queue] at ht
      simpa [Function.update_of_ne hne] using ht
  | @write _ u j q hown =>
      by_cases htu : t = u
      · subst htu
        obtain rfl : i = j := Option.some.inj (ht.symm.trans hown)
        simp [Pc.queue]
      · simpa [Function.update_of_ne htu] using ht

/-- And nobody gets one but by a search. -/
theorem Step.held_cases {size : Nat} {s s' : State T Dev Fn}
    {a : Action T Dev Fn} (hstep : Step size s a s') {i : Nat} (hi : s'.Held i) :
    s.Held i ∨ blkAllocQueue size s.queues = some i := by
  obtain ⟨t, ht⟩ := hi
  cases hstep with
  | null hnone => exact Or.inl ⟨t, ht⟩
  | @find u j hidle hfound =>
      by_cases htu : t = u
      · subst htu
        obtain rfl : j = i := by simpa [Pc.queue] using ht
        exact Or.inr hfound
      · exact Or.inl ⟨t, by simpa [Function.update_of_ne htu] using ht⟩
  | @write _ u j q hown =>
      left
      by_cases htu : t = u
      · subst htu
        obtain rfl : j = i := by simpa [Pc.queue] using ht
        exact ⟨t, hown⟩
      · exact ⟨t, by simpa [Function.update_of_ne htu] using ht⟩

theorem Packed.step {size : Nat} {s s' : State T Dev Fn}
    {a : Action T Dev Fn} (h : Packed s) (hstep : Step size s a s') : Packed s' := by
  constructor
  · intro i hdev
    apply hstep.held
    cases hstep with
    | null hnone => exact h.held i hdev
    | find hidle hfound => exact h.held i hdev
    | @write _ t j q hown =>
        by_cases hij : i = j
        · subst hij
          exact ⟨t, hown⟩
        · refine h.held i ?_
          simpa [Function.update_of_ne hij] using hdev
  · intro i j hj hij
    apply hstep.held
    rcases hstep.held_cases hj with hold | hfound
    · exact h.below i j hold hij
    · -- All before the one found have a device, so they have owners.
      exact h.held i ((blkAllocQueue_eq_some hfound).2.2 i hij)

theorem reachable_packed {size : Nat} {s : State T Dev Fn}
    (hreach : (system size).Reachable s) : Packed s := by
  refine hreach.invariant (P := Packed) ?_ ?_
  · rintro s ⟨hcleared, hidle⟩
    constructor
    · intro i hdev
      exact absurd (by rw [hcleared i]; rfl) hdev
    · rintro i j ⟨t, ht⟩ -
      simp [hidle t, Pc.queue] at ht
  · intro s a s' _ h hstep
    exact h.step (step_cases hstep)

omit [DecidableEq T] in
/-- The queue found belongs to somebody exactly if some owner has not set its
device. -/
theorem Packed.held_iff {size i : Nat} {s : State T Dev Fn} (h : Packed s)
    (hfound : blkAllocQueue size s.queues = some i) :
    s.Held i ↔ ∃ j, s.Held j ∧ (s.queues j).bdev = none := by
  obtain ⟨-, hnone, hbefore⟩ := blkAllocQueue_eq_some hfound
  constructor
  · intro hi
    exact ⟨i, hi, hnone⟩
  · rintro ⟨j, hj, hdev⟩
    have hle : i ≤ j := Nat.le_of_not_lt fun hlt => hbefore j hlt hdev
    rcases hle.eq_or_lt with rfl | hlt
    · exact hj
    · exact h.below i j hj hlt

/-- Every owner has set its device when a search is made. -/
def AttachedFirst (s : State T Dev Fn) : Action T Dev Fn → Prop
  | .find _ => ∀ t i, (s.pc t).queue = some i → (s.queues i).bdev ≠ none
  | _ => True

/-- Different callers have different queues. -/
def State.Distinct (s : State T Dev Fn) : Prop :=
  ∀ t u i, (s.pc t).queue = some i → (s.pc u).queue = some i → t = u

theorem State.Distinct.step {size : Nat} {s s' : State T Dev Fn}
    {a : Action T Dev Fn} (h : s.Distinct) (hok : AttachedFirst s a)
    (hstep : Step size s a s') : s'.Distinct := by
  cases hstep with
  | null hnone => exact h
  | @find u i hidle hfound =>
      have hnone := (blkAllocQueue_eq_some hfound).2.1
      -- Nobody has the queue found, since all queues held have a device.
      have hfree : ∀ t, (s.pc t).queue ≠ some i := fun t ht => hok t i ht hnone
      have hcases : ∀ t j,
          ((Function.update s.pc u (.clearing i)) t).queue = some j →
          (t = u ∧ j = i) ∨ (t ≠ u ∧ (s.pc t).queue = some j) := by
        intro t j ht
        by_cases htu : t = u
        · subst htu
          left
          simpa [Pc.queue, eq_comm] using ht
        · right
          exact ⟨htu, by simpa [Function.update_of_ne htu] using ht⟩
      intro t t' j ht ht'
      rcases hcases t j ht with ⟨rfl, rfl⟩ | ⟨-, hold⟩
      · rcases hcases t' j ht' with ⟨rfl, -⟩ | ⟨-, hold'⟩
        · rfl
        · exact absurd hold' (hfree t')
      · rcases hcases t' j ht' with ⟨rfl, rfl⟩ | ⟨-, hold'⟩
        · exact absurd hold (hfree t)
        · exact h t t' j hold hold'
  | @write _ u i q hown =>
      have hsame : ∀ t, ((s.write u i q).pc t).queue = (s.pc t).queue :=
        apply_update_of_eq Pc.queue hown.symm
      intro t t' j ht ht'
      rw [hsame] at ht ht'
      exact h t t' j ht ht'

theorem distinct_of_attachedFirst {size : Nat} {s : State T Dev Fn}
    (hreach : (system size).ReachableWhile AttachedFirst s) : s.Distinct := by
  refine hreach.invariant (P := State.Distinct) ?_ ?_
  · rintro s ⟨-, hidle⟩ t u i ht
    simp [hidle t, Pc.queue] at ht
  · intro s a s' _ h hok hstep
    exact h.step hok (step_cases hstep)

end System

/-- In every interleaving a search finds a queue that already belongs to a
caller exactly if some queue that belongs to one has no device, and finds none
only if every queue belongs to a caller.  If all queues that belong to callers
have a device whenever a search is made, callers have different queues. -/
theorem blkAllocQueue_shared_iff [DecidableEq T] {size : Nat}
    {s : State T Dev Fn} (hreach : (system size).Reachable s) :
    (∀ i, blkAllocQueue size s.queues = some i →
      (s.Held i ↔ ∃ j, s.Held j ∧ (s.queues j).bdev = none)) ∧
    (blkAllocQueue size s.queues = none → ∀ i, i < size → s.Held i) ∧
    ((system size).ReachableWhile AttachedFirst s → s.Distinct) := by
  have hpacked := reachable_packed hreach
  refine ⟨fun i hfound => hpacked.held_iff hfound, ?_, distinct_of_attachedFirst⟩
  intro hnone i hi
  exact hpacked.held i (blkAllocQueue_eq_none hnone hi)

/-- The state of a program start with two callers. -/
def twoCallers : State Bool Unit Unit := ⟨fun _ => .cleared, fun _ => .idle⟩

/-- The first caller has its queue and has set `make_request_fn`, but not the
device: the second one gets the same queue. -/
theorem blkAllocQueue_shared_iff_two_callers :
    ∃ s : State Bool Unit Unit, (system 2).Reachable s ∧
      (s.queues 0).makeRequestFn = some () ∧
      blkAllocQueue 2 s.queues = some 0 ∧ s.Held 0 := by
  obtain ⟨s, hrun, hfn, hfound, hpc, hdev⟩ : ∃ s,
      (system 2).run twoCallers
        [.find false, .clear false, .makeRequest false ()] = some s ∧
      (s.queues 0).makeRequestFn = some () ∧
      blkAllocQueue 2 s.queues = some 0 ∧ (s.pc false).queue = some 0 ∧
      (s.queues 0).bdev = none :=
    ⟨_, rfl, rfl, by decide, rfl, rfl⟩
  have hreach : (system 2).Reachable s :=
    ActionSystem.Reachable.run (.start ⟨fun _ => rfl, fun _ => rfl⟩) hrun
  exact ⟨s, hreach, hfn, hfound,
    ((blkAllocQueue_shared_iff hreach).1 0 hfound).mpr ⟨0, ⟨false, hpc⟩, hdev⟩⟩

end Queues
end BlockIo
end OsKernel

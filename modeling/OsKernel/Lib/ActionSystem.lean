import Mathlib.Logic.Function.Basic

/-!
# Action systems and their runs

An action system has a set of initial states and a partial step function: an
action either is not enabled in a state or leads to exactly one next state.
Nondeterminism (which thread moves, what the environment answers) is put into
the action.

A run may be restricted by a condition on the state before each step and the
action taken there.  The unrestricted runs are the ones whose condition is
always true.  Both kinds share one invariant rule,
`ReachableWhile.invariant`.

The states of systems with many components of one kind (threads, pages) hold a
function, and a step updates it at one place.  The last section says what such
an update leaves as it was.
-/

namespace OsKernel
namespace Lib

universe u v

/-- Initial states and a partial step function. -/
structure ActionSystem (σ : Type u) (α : Type v) where
  init : σ → Prop
  step : σ → α → Option σ

namespace ActionSystem

variable {σ : Type u} {α : Type v} {M : ActionSystem σ α}

/-- States reached by runs all of whose steps meet `ok`, a condition on the
state before the step and on the action. -/
inductive ReachableWhile (M : ActionSystem σ α) (ok : σ → α → Prop) :
    σ → Prop
  | start {s : σ} (hinit : M.init s) : ReachableWhile M ok s
  | next {s t : σ} {a : α} (hreach : ReachableWhile M ok s) (hok : ok s a)
      (hstep : M.step s a = some t) : ReachableWhile M ok t

/-- States reached by any run. -/
def Reachable (M : ActionSystem σ α) (s : σ) : Prop :=
  M.ReachableWhile (fun _ _ => True) s

theorem Reachable.start {s : σ} (hinit : M.init s) : M.Reachable s :=
  ReachableWhile.start hinit

theorem Reachable.next {s t : σ} {a : α} (hreach : M.Reachable s)
    (hstep : M.step s a = some t) : M.Reachable t :=
  ReachableWhile.next hreach trivial hstep

/-- The invariant rule.  The step obligation may use that the state before
the step is itself reachable, so invariants can be proved one on top of
another. -/
theorem ReachableWhile.invariant {ok : σ → α → Prop} {P : σ → Prop}
    (hinit : ∀ s, M.init s → P s)
    (hstep : ∀ s a t, M.ReachableWhile ok s → P s → ok s a →
      M.step s a = some t → P t)
    {s : σ} (hreach : M.ReachableWhile ok s) : P s := by
  induction hreach with
  | start h => exact hinit _ h
  | next hprev hok hnext ih => exact hstep _ _ _ hprev ih hok hnext

/-- The invariant rule for unrestricted runs. -/
theorem Reachable.invariant {P : σ → Prop}
    (hinit : ∀ s, M.init s → P s)
    (hstep : ∀ s a t, M.Reachable s → P s → M.step s a = some t → P t)
    {s : σ} (hreach : M.Reachable s) : P s :=
  ReachableWhile.invariant hinit
    (fun s a t hprev hs _ hnext => hstep s a t hprev hs hnext) hreach

/-- Execute a list of actions from a state; `none` as soon as one of them is
not enabled. -/
def run (M : ActionSystem σ α) : σ → List α → Option σ
  | s, [] => some s
  | s, a :: rest => (M.step s a).bind fun t => M.run t rest

theorem run_append {s : σ} (actions more : List α) :
    M.run s (actions ++ more) =
      (M.run s actions).bind fun t => M.run t more := by
  induction actions generalizing s with
  | nil => rfl
  | cons a rest ih =>
      rw [List.cons_append, run, run]
      cases M.step s a with
      | none => rfl
      | some t => exact ih

/-- The last action of a list of actions. -/
theorem run_concat_eq_some_iff {s t : σ} {actions : List α} {a : α} :
    M.run s (actions ++ [a]) = some t ↔
      ∃ mid, M.run s actions = some mid ∧ M.step mid a = some t := by
  rw [run_append, Option.bind_eq_some_iff]
  refine exists_congr fun mid => and_congr_right fun _ => ?_
  show (M.step mid a).bind some = some t ↔ _
  rw [Option.bind_fun_some]

/-- Every beginning of a list of actions can be executed if the list can. -/
theorem exists_run_of_start {s t : σ} {before actions : List α}
    (hbefore : before <+: actions) (hrun : M.run s actions = some t) :
    ∃ mid, M.run s before = some mid := by
  obtain ⟨rest, rfl⟩ := hbefore
  rw [run_append] at hrun
  obtain ⟨mid, hmid, -⟩ := Option.bind_eq_some_iff.mp hrun
  exact ⟨mid, hmid⟩

/-- An executed list of actions is a run. -/
theorem Reachable.run {s t : σ} {actions : List α} (hreach : M.Reachable s)
    (hrun : M.run s actions = some t) : M.Reachable t := by
  induction actions generalizing s with
  | nil =>
      cases hrun
      exact hreach
  | cons a rest ih =>
      obtain ⟨next, hnext, hrest⟩ := Option.bind_eq_some_iff.mp hrun
      exact ih (hreach.next hnext) hrest

/-- What every step from a reachable state keeps, a run from one keeps. -/
theorem Reachable.of_run {P : σ → Prop}
    (hkeep : ∀ s a t, M.Reachable s → P s → M.step s a = some t → P t)
    {s t : σ} {actions : List α} (hreach : M.Reachable s) (hs : P s)
    (hrun : M.run s actions = some t) : P t := by
  induction actions generalizing s with
  | nil =>
      cases hrun
      exact hs
  | cons a rest ih =>
      obtain ⟨next, hnext, hrest⟩ := Option.bind_eq_some_iff.mp hrun
      exact ih (hreach.next hnext) (hkeep s a next hreach hs hnext) hrest

/-- The end of an executed list of actions. -/
theorem Reachable.get_run {s : σ} {actions : List α} (hinit : M.init s)
    (hrun : (M.run s actions).isSome = true) :
    M.Reachable ((M.run s actions).get hrun) :=
  (Reachable.start hinit).run (Option.some_get hrun).symm

/-- Execute a list of actions that must meet a condition; `none` as soon as one
of them does not or is not enabled. -/
def runWhile (M : ActionSystem σ α) (ok : σ → α → Prop)
    [∀ s a, Decidable (ok s a)] : σ → List α → Option σ
  | s, [] => some s
  | s, a :: rest =>
      if ok s a then (M.step s a).bind fun t => M.runWhile ok t rest else none

theorem ReachableWhile.run {ok : σ → α → Prop} [∀ s a, Decidable (ok s a)]
    {s t : σ} {actions : List α} (hreach : M.ReachableWhile ok s)
    (hrun : M.runWhile ok s actions = some t) : M.ReachableWhile ok t := by
  induction actions generalizing s with
  | nil =>
      cases hrun
      exact hreach
  | cons a rest ih =>
      rw [runWhile] at hrun
      split at hrun
      next hok =>
        obtain ⟨next, hnext, hrest⟩ := Option.bind_eq_some_iff.mp hrun
        exact ih (hreach.next hok hnext) hrest
      next => contradiction

/-- What every step keeps, a restricted run keeps. -/
theorem of_runWhile {ok : σ → α → Prop} [∀ s a, Decidable (ok s a)]
    {P : σ → Prop} (hkeep : ∀ s a t, P s → M.step s a = some t → P t)
    {s t : σ} {actions : List α} (hs : P s)
    (hrun : M.runWhile ok s actions = some t) : P t := by
  induction actions generalizing s with
  | nil =>
      cases hrun
      exact hs
  | cons a rest ih =>
      rw [runWhile] at hrun
      split at hrun
      next hok =>
        obtain ⟨next, hnext, hrest⟩ := Option.bind_eq_some_iff.mp hrun
        exact ih (hkeep s a next hs hnext) hrest
      next => contradiction

/-- A run that meets a condition meets every weaker one. -/
theorem ReachableWhile.mono {ok weaker : σ → α → Prop}
    (hweaker : ∀ s a, ok s a → weaker s a) {s : σ}
    (hreach : M.ReachableWhile ok s) : M.ReachableWhile weaker s := by
  induction hreach with
  | start hinit => exact .start hinit
  | next _ hok hstep ih => exact ih.next (hweaker _ _ hok) hstep

/-- The steps of a restricted run are steps. -/
theorem ReachableWhile.reachable {ok : σ → α → Prop} {s : σ}
    (hreach : M.ReachableWhile ok s) : M.Reachable s :=
  hreach.mono fun _ _ _ => trivial

end ActionSystem

section Update

variable {ι : Type*} {α : Type*} {β : Type*} [DecidableEq ι]
  {g : ι → α} {i : ι} {x : α}

/-- A reading of the components that is the same for the new component as for
the old one. -/
theorem apply_update_of_eq (f : α → β) (hsame : f x = f (g i)) (j : ι) :
    f (Function.update g i x j) = f (g j) := by
  by_cases hj : j = i
  · subst hj
    rw [Function.update_self, hsame]
  · rw [Function.update_of_ne hj]

/-- A property that the new component has only if the old one had it. -/
theorem of_update {Q : α → Prop} (hold : Q x → Q (g i)) {j : ι}
    (hj : Q (Function.update g i x j)) : Q (g j) := by
  by_cases hji : j = i
  · subst hji
    rw [Function.update_self] at hj
    exact hold hj
  · rwa [Function.update_of_ne hji] at hj

end Update
end Lib
end OsKernel

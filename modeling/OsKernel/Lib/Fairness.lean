import OsKernel.Lib.ActionSystem
import Mathlib.Tactic

/-!
# Fair executions

An execution is infinite; at each time there is an action or nothing happens.
Actions belong to agents, or to none.  An execution is weakly fair if no agent
that can act from some time on waits for ever.

`Progress` is a rule for showing that a goal is reached in every weakly fair
execution.  A rank never grows.  Before the goal there is always a helper: an
agent that can act, that stays a helper as long as the rank stays as it is, and
whose own steps bring the next fall of the rank closer.
-/

namespace OsKernel
namespace Lib
namespace ActionSystem

variable {σ α ι : Type*} {M : ActionSystem σ α} {agent : α → Option ι}

/-- The agent has an action that is enabled. -/
def Enabled (M : ActionSystem σ α) (agent : α → Option ι) (s : σ) (t : ι) :
    Prop :=
  ∃ a, agent a = some t ∧ (M.step s a).isSome = true

/-- An infinite run; `none` where nothing happens. -/
structure Execution (M : ActionSystem σ α) where
  state : Nat → σ
  action : Nat → Option α
  init : M.init (state 0)
  next : ∀ n, (action n = none ∧ state (n + 1) = state n) ∨
    ∃ a, action n = some a ∧ M.step (state n) a = some (state (n + 1))

/-- The agent acts at the given time. -/
def Execution.Acts (e : Execution M) (agent : α → Option ι) (t : ι) (n : Nat) :
    Prop :=
  ∃ a, e.action n = some a ∧ agent a = some t

/-- No agent is enabled from some time on without ever acting. -/
def Execution.WeaklyFair (e : Execution M) (agent : α → Option ι) : Prop :=
  ∀ t n, ∃ m ≥ n, ¬ M.Enabled agent (e.state m) t ∨ e.Acts agent t m

theorem Execution.reachable (e : Execution M) (n : Nat) :
    M.Reachable (e.state n) := by
  induction n with
  | zero => exact .start e.init
  | succ n ih =>
      rcases e.next n with ⟨-, hsame⟩ | ⟨a, -, hstep⟩
      · rw [hsame]
        exact ih
      · exact ih.next hstep

/-- What is to be shown of one step for a goal to be reached. -/
structure Progress (M : ActionSystem σ α) (agent : α → Option ι)
    (goal : σ → Prop) (rank : σ → Nat) (helper : σ → ι → Prop)
    (distance : σ → ι → Nat) : Prop where
  exists_helper : ∀ s, M.Reachable s → ¬ goal s → ∃ t, helper s t
  enabled : ∀ s t, M.Reachable s → helper s t → M.Enabled agent s t
  rank_le : ∀ s a s', M.Reachable s → M.step s a = some s' → rank s' ≤ rank s
  keeps : ∀ s a s' t, M.Reachable s → M.step s a = some s' → helper s t →
    rank s' = rank s → helper s' t ∧ distance s' t ≤ distance s t ∧
      (agent a = some t → distance s' t < distance s t)

namespace Progress

variable {goal : σ → Prop} {rank : σ → Nat} {helper : σ → ι → Prop}
  {distance : σ → ι → Nat} {e : Execution M}

/-- The helper stays until the rank falls; while it has not acted it is not
further from the fall. -/
theorem waits (h : Progress M agent goal rank helper distance) {t : ι}
    {n : Nat} (hhelps : helper (e.state n) t) (k : Nat) :
    (∃ m ≥ n, rank (e.state m) < rank (e.state n)) ∨
      (helper (e.state (n + k)) t ∧ rank (e.state (n + k)) = rank (e.state n) ∧
        distance (e.state (n + k)) t ≤ distance (e.state n) t) := by
  induction k with
  | zero => exact .inr ⟨hhelps, rfl, le_refl _⟩
  | succ k ih =>
      rcases ih with hfalls | ⟨hstill, hrank, hdistance⟩
      · exact .inl hfalls
      rcases e.next (n + k) with ⟨-, hsame⟩ | ⟨a, -, hstep⟩
      · right
        rw [← Nat.add_assoc, hsame]
        exact ⟨hstill, hrank, hdistance⟩
      · have hreach := e.reachable (n + k)
        have hle := h.rank_le _ a _ hreach hstep
        rcases Nat.lt_or_eq_of_le hle with hlt | heq
        · exact .inl ⟨n + k + 1, by omega, by omega⟩
        · obtain ⟨hnext, hless, -⟩ := h.keeps _ a _ t hreach hstep hstill heq
          exact .inr ⟨hnext, heq.trans hrank, hless.trans hdistance⟩

/-- A helper makes the rank fall; by induction on its distance. -/
theorem falls (h : Progress M agent goal rank helper distance)
    (hfair : e.WeaklyFair agent) {t : ι} {n : Nat}
    (hhelps : helper (e.state n) t) :
    ∃ m ≥ n, rank (e.state m) < rank (e.state n) := by
  induction hd : distance (e.state n) t using Nat.strong_induction_on
    generalizing n with
  | _ d ih =>
      obtain ⟨m, hm, hacts⟩ := hfair t n
      obtain ⟨k, rfl⟩ := Nat.exists_eq_add_of_le hm
      rcases h.waits hhelps k with hfalls | ⟨hstill, hrank, hdistance⟩
      · exact hfalls
      have hreach := e.reachable (n + k)
      rcases hacts with hdisabled | ⟨a, haction, hagent⟩
      · exact absurd (h.enabled _ t hreach hstill) hdisabled
      rcases e.next (n + k) with ⟨hnone, -⟩ | ⟨b, hb, hstep⟩
      · rw [haction] at hnone
        cases hnone
      -- the helper acts here
      obtain rfl : a = b := by
        rw [haction] at hb
        exact Option.some.inj hb
      have hle := h.rank_le _ a _ hreach hstep
      rcases Nat.lt_or_eq_of_le hle with hlt | heq
      · exact ⟨n + k + 1, by omega, by omega⟩
      · obtain ⟨hnext, -, hless⟩ := h.keeps _ a _ t hreach hstep hstill heq
        obtain ⟨l, hl, hfalls⟩ :=
          ih _ (by have := hless hagent; omega) hnext rfl
        exact ⟨l, by omega, by omega⟩

/-- Every weakly fair execution gets to the goal; by induction on the rank. -/
theorem eventually (h : Progress M agent goal rank helper distance)
    (hfair : e.WeaklyFair agent) (n : Nat) : ∃ m ≥ n, goal (e.state m) := by
  induction hr : rank (e.state n) using Nat.strong_induction_on
    generalizing n with
  | _ r ih =>
      by_cases hgoal : goal (e.state n)
      · exact ⟨n, le_refl n, hgoal⟩
      obtain ⟨t, hhelps⟩ := h.exists_helper _ (e.reachable n) hgoal
      obtain ⟨m, hm, hlt⟩ := h.falls hfair hhelps
      obtain ⟨k, hk, hreached⟩ := ih _ (hr ▸ hlt) m rfl
      exact ⟨k, hm.trans hk, hreached⟩

end Progress

/-! ## Finite runs as executions -/

/-- Every beginning of a run is a run. -/
theorem isSome_run_take {s : σ} {actions : List α}
    (hrun : (M.run s actions).isSome = true) (n : Nat) :
    (M.run s (actions.take n)).isSome = true := by
  obtain ⟨t, ht⟩ := Option.isSome_iff_exists.mp hrun
  exact Option.isSome_iff_exists.mpr
    (exists_run_of_start (List.take_prefix n actions) ht)

/-- The state of a finite run at a time, its last one after the end. -/
def stateAt (M : ActionSystem σ α) (s : σ) (actions : List α) (n : Nat) : σ :=
  (M.run s (actions.take n)).getD s

theorem stateAt_next {s : σ} {actions : List α}
    (hrun : (M.run s actions).isSome = true) (n : Nat) :
    (actions[n]? = none ∧
      M.stateAt s actions (n + 1) = M.stateAt s actions n) ∨
    ∃ a, actions[n]? = some a ∧
      M.step (M.stateAt s actions n) a = some (M.stateAt s actions (n + 1)) := by
  unfold stateAt
  rcases Nat.lt_or_ge n actions.length with hlt | hge
  · refine .inr ⟨actions[n], List.getElem?_eq_getElem hlt, ?_⟩
    have hnext := isSome_run_take hrun (n + 1)
    rw [List.take_add_one, List.getElem?_eq_getElem hlt] at hnext ⊢
    rw [Option.toList_some, run_append] at hnext ⊢
    obtain ⟨t, ht⟩ := Option.isSome_iff_exists.mp (isSome_run_take hrun n)
    rw [ht] at hnext ⊢
    rw [Option.bind_some, run] at hnext ⊢
    obtain ⟨u, hu⟩ := Option.isSome_iff_exists.mp
      (Option.isSome_of_isSome_bind hnext)
    rw [Option.getD_some, hu]
    rfl
  · refine .inl ⟨List.getElem?_eq_none hge, ?_⟩
    rw [List.take_of_length_le hge, List.take_of_length_le (by omega)]

/-- A finite run, after which nothing happens any more. -/
def Execution.ofRun {s : σ} (actions : List α) (hinit : M.init s)
    (hrun : (M.run s actions).isSome = true) : Execution M where
  state := M.stateAt s actions
  action n := actions[n]?
  init := hinit
  next := stateAt_next hrun

/-- A run at whose end no agent is enabled is fair. -/
theorem Execution.weaklyFair_ofRun (agent : α → Option ι) {s t : σ}
    {actions : List α} (hinit : M.init s) (hrun : (M.run s actions).isSome = true)
    (hend : M.run s actions = some t) (hstuck : ∀ i, ¬ M.Enabled agent t i) :
    (Execution.ofRun actions hinit hrun).WeaklyFair agent := by
  intro i n
  refine ⟨max n actions.length, Nat.le_max_left _ _, .inl ?_⟩
  show ¬ M.Enabled agent (M.stateAt s actions _) i
  rw [stateAt, List.take_of_length_le (Nat.le_max_right _ _), hend]
  exact hstuck i

end ActionSystem
end Lib
end OsKernel

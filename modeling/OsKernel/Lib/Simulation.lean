import OsKernel.Lib.ActionSystem

/-!
# Simulations between action systems

A system is simulated by a more abstract one when a reading of its states takes
initial states to initial states and every step to a step or to no change at
all.  The step obligation may use that the state before the step is reachable,
so that invariants of the concrete system are at hand.

What is reachable is then reachable under the reading, every run has an abstract
run that it shows, and simulations compose.
-/

namespace OsKernel
namespace Lib
namespace ActionSystem

universe u v

variable {σ τ ρ : Type u} {α β γ : Type v}

/-- The states of `C`, read by `abs`, behave like those of `A`. -/
structure Simulates (C : ActionSystem σ α) (A : ActionSystem τ β)
    (abs : σ → τ) : Prop where
  init : ∀ s, C.init s → A.init (abs s)
  step : ∀ s a s', C.Reachable s → C.step s a = some s' →
    abs s' = abs s ∨ ∃ b, A.step (abs s) b = some (abs s')

namespace Simulates

variable {C : ActionSystem σ α} {A : ActionSystem τ β} {abs : σ → τ}

theorem reachable (h : Simulates C A abs) {s : σ} (hreach : C.Reachable s) :
    A.Reachable (abs s) := by
  refine hreach.invariant (P := fun s => A.Reachable (abs s)) ?_ ?_
  · intro s hinit
    exact .start (h.init s hinit)
  · intro s a s' hprev ih hstep
    rcases h.step s a s' hprev hstep with hsame | ⟨b, hb⟩
    · rw [hsame]
      exact ih
    · exact ih.next hb

/-- Every run shows an abstract run that is not longer. -/
theorem run (h : Simulates C A abs) {s s' : σ} {actions : List α}
    (hreach : C.Reachable s) (hrun : C.run s actions = some s') :
    ∃ abstract : List β, A.run (abs s) abstract = some (abs s') ∧
      abstract.length ≤ actions.length := by
  induction actions generalizing s with
  | nil =>
      cases hrun
      exact ⟨[], rfl, Nat.le_refl _⟩
  | cons a rest ih =>
      obtain ⟨next, hnext, hrest⟩ := Option.bind_eq_some_iff.mp hrun
      obtain ⟨abstract, habstract, hlength⟩ := ih (hreach.next hnext) hrest
      rcases h.step s a next hreach hnext with hsame | ⟨b, hb⟩
      · refine ⟨abstract, ?_, Nat.le_succ_of_le hlength⟩
        rwa [hsame] at habstract
      · refine ⟨b :: abstract, ?_, Nat.succ_le_succ hlength⟩
        rw [ActionSystem.run, hb]
        exact habstract

/-- A simulation of a simulation. -/
theorem comp {B : ActionSystem ρ γ} {abs' : τ → ρ} (h : Simulates C A abs)
    (h' : Simulates A B abs') : Simulates C B (abs' ∘ abs) where
  init s hinit := h'.init _ (h.init s hinit)
  step s a s' hreach hstep := by
    rcases h.step s a s' hreach hstep with hsame | ⟨b, hb⟩
    · exact .inl (congrArg abs' hsame)
    · exact h'.step _ b _ (h.reachable hreach) hb

end Simulates
end ActionSystem
end Lib
end OsKernel

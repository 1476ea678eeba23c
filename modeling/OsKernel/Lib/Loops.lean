import Mathlib.Data.Finset.Card
import Mathlib.Data.Nat.Find
import Mathlib.Logic.Function.Iterate

/-!
# The turns of a loop

A loop goes on as long as its state meets a condition.  The states of a loop that
ends are all different, since the same state would lead to the same states again:
so it makes at most as many turns as there are states to go through
(`Turns.le_card`).
-/

namespace OsKernel
namespace Lib

universe u

variable {σ : Type u} {go : σ → Prop} {next : σ → σ} {x : σ} {n : Nat}

/-- The loop from `x` makes `n` turns. -/
structure Turns (go : σ → Prop) (next : σ → σ) (x : σ) (n : Nat) : Prop where
  goes : ∀ i < n, go (next^[i] x)
  stops : ¬ go (next^[n] x)

/-- A loop that meets a state in which it does not go on has ended by then. -/
theorem exists_turns (hstops : ¬ go (next^[n] x)) :
    ∃ m ≤ n, Turns go next x m := by
  classical
  have hexists : ∃ m, ¬ go (next^[m] x) := ⟨n, hstops⟩
  refine ⟨Nat.find hexists, Nat.find_min' hexists hstops, ?_, Nat.find_spec hexists⟩
  intro i hi
  exact not_not.mp (Nat.find_min hexists hi)

namespace Turns

/-- No state comes twice.  Otherwise the turns that are left after the second
time would also end the loop after the first time. -/
theorem iterate_ne (h : Turns go next x n) {i j : Nat} (hij : i < j)
    (hj : j < n) : next^[i] x ≠ next^[j] x := by
  intro hsame
  have hlast : next^[(n - j) + i] x = next^[(n - j) + j] x := by
    rw [Function.iterate_add_apply, hsame, ← Function.iterate_add_apply]
  rw [Nat.sub_add_cancel hj.le] at hlast
  have hgoes := h.goes ((n - j) + i) (by omega)
  rw [hlast] at hgoes
  exact h.stops hgoes

/-- A loop through the states of a finite set. -/
theorem le_card (h : Turns go next x n) {states : Finset σ}
    (hstates : ∀ i < n, next^[i] x ∈ states) : n ≤ states.card := by
  have hinj : ∀ i ∈ Finset.range n, ∀ j ∈ Finset.range n,
      next^[i] x = next^[j] x → i = j := by
    intro i hi j hj hsame
    rw [Finset.mem_range] at hi hj
    rcases Nat.lt_trichotomy i j with hlt | heq | hgt
    · exact absurd hsame (h.iterate_ne hlt hj)
    · exact heq
    · exact absurd hsame.symm (h.iterate_ne hgt hi)
  have hcard := Finset.card_le_card_of_injOn (fun i => next^[i] x)
    (s := Finset.range n) (t := states)
    (fun i hi => hstates i (Finset.mem_range.mp hi)) hinj
  rwa [Finset.card_range] at hcard

end Turns
end Lib
end OsKernel

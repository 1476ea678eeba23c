import Mathlib.Data.List.Basic
import Mathlib.Data.List.Nodup
import Mathlib.Tactic

/-!
# Taking turns around a list

Members of a list are served in turn, from one to the next and from the end
back to the front.  Seen from a member that waits at position `p`, the others
come in a fixed order until it is reached: first those after `p`, then those
before it.  `Sooner p x y` is this order of the positions, with `p` itself last.
-/

namespace OsKernel
namespace Lib

/-- Counting up from the position after `p` and around, `x` is met before
`y`. -/
def Sooner (p x y : Nat) : Prop :=
  (p < x ∧ y ≤ p) ∨ (x < y ∧ (y ≤ p ∨ p < x))

theorem Sooner.irrefl {p x : Nat} : ¬ Sooner p x x := by
  unfold Sooner
  omega

theorem Sooner.trans {p x y z : Nat} (hxy : Sooner p x y)
    (hyz : Sooner p y z) : Sooner p x z := by
  unfold Sooner at *
  omega

/-- The turn goes from `x` to a position `y` before `p` without passing `p`:
either around the end, or straight on. -/
theorem sooner_of_lt {p x y : Nat} (hlt : y < p) (hpass : p < x ∨ x < y) :
    Sooner p x y := by
  unfold Sooner
  omega

section Positions

variable {α β : Type*} [DecidableEq β] {key : α → β} {before after : List α}
  {a b : α}

/-- The position of an element by its key. -/
theorem idxOf_split (hkeys : ((before ++ a :: after).map key).Nodup) :
    ((before ++ a :: after).map key).idxOf (key a) = before.length := by
  rw [List.map_append, List.map_cons] at hkeys ⊢
  have hfresh : key a ∉ before.map key := by
    intro hmem
    exact (List.nodup_append.mp hkeys).2.2 _ hmem _ (List.mem_cons_self ..) rfl
  rw [List.idxOf_append_of_notMem hfresh, List.idxOf_cons_self,
    List.length_map, Nat.add_zero]

theorem lt_idxOf_of_mem_after (hkeys : ((before ++ a :: after).map key).Nodup)
    (hmem : b ∈ after) :
    before.length < ((before ++ a :: after).map key).idxOf (key b) := by
  rw [List.map_append, List.map_cons] at hkeys ⊢
  obtain ⟨-, hrest, hdisjoint⟩ := List.nodup_append.mp hkeys
  have hkey : key b ∈ after.map key := List.mem_map_of_mem hmem
  have hfresh : key b ∉ before.map key := by
    intro hin
    exact hdisjoint _ hin _ (List.mem_cons_of_mem _ hkey) rfl
  have hne : key a ≠ key b := by
    intro heq
    exact (List.nodup_cons.mp hrest).1 (heq ▸ hkey)
  rw [List.idxOf_append_of_notMem hfresh, List.idxOf_cons_ne _ hne,
    List.length_map]
  omega

end Positions

end Lib
end OsKernel

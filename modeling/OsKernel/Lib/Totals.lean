import Mathlib.Algebra.BigOperators.Finprod
import Mathlib.Tactic

/-!
# Totals over components

The components of a state are indexed by any type, of which at most finitely
many count for something; `∑ᶠ` adds them up.  When one component changes, the
total changes by as much.  The same is said of the members of a list.
-/

namespace OsKernel
namespace Lib

variable {ι : Type*} [DecidableEq ι] {f : ι → Nat}

theorem finite_support_update (hf : f.support.Finite) (i : ι) (x : Nat) :
    (Function.support (Function.update f i x)).Finite := by
  refine (hf.insert i).subset fun j hj => ?_
  by_cases hji : j = i
  · exact .inl hji
  · rw [Function.mem_support, Function.update_of_ne hji] at hj
    exact .inr hj

/-- The old value goes and the new one comes. -/
theorem finsum_update_add (hf : f.support.Finite) (i : ι) (x : Nat) :
    finsum (Function.update f i x) + f i = ∑ᶠ j, f j + x := by
  have hi : i ∈ insert i hf.toFinset := Finset.mem_insert_self i _
  have hold : ∑ᶠ j, f j = ∑ j ∈ insert i hf.toFinset, f j :=
    finsum_eq_sum_of_support_subset f fun j hj => by simpa using .inr hj
  have hnew : finsum (Function.update f i x) =
      ∑ j ∈ insert i hf.toFinset, Function.update f i x j := by
    refine finsum_eq_sum_of_support_subset _ fun j hj => ?_
    by_cases hji : j = i
    · simp [hji]
    · rw [Function.mem_support, Function.update_of_ne hji] at hj
      simpa using .inr hj
  have hrest : ∑ j ∈ (insert i hf.toFinset).erase i, Function.update f i x j =
      ∑ j ∈ (insert i hf.toFinset).erase i, f j :=
    Finset.sum_congr rfl fun j hj =>
      Function.update_of_ne (Finset.ne_of_mem_erase hj) _ _
  rw [hold, hnew, ← Finset.add_sum_erase _ _ hi, ← Finset.add_sum_erase _ f hi,
    hrest, Function.update_self]
  omega

/-- Of a list's members one goes and another comes in its place. -/
theorem sum_map_set_add {α : Type*} (f : α → Nat) {l : List α} {i : Nat}
    {old : α} (hget : l[i]? = some old) (new : α) :
    ((l.set i new).map f).sum + f old = (l.map f).sum + f new := by
  induction l generalizing i with
  | nil => simp at hget
  | cons a l ih =>
      cases i with
      | zero =>
          obtain rfl : a = old := by simpa using hget
          simp only [List.set_cons_zero, List.map_cons, List.sum_cons]
          omega
      | succ i =>
          have hrest := ih (i := i) (by simpa using hget)
          simp only [List.set_cons_succ, List.map_cons, List.sum_cons]
          omega

end Lib
end OsKernel

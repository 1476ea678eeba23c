import Mathlib.Tactic

/-!
# Owners and the lists they own

A list of owners, each with a list of items, flattens to the list of all owned
items.  Changing one owner's items changes the flattened list only by what
that owner lost or gained, and a relation that holds between any two positions
of the flattened list holds between items of different owners and between
different items of one owner.
-/

namespace OsKernel
namespace Lib

open List

variable {α β : Type*}

/-- When one owner's new items are among its old ones and `gained`, so are all
items. -/
theorem flatMap_set_subperm (items : α → List β) {owners : List α} {i : Nat}
    {old new : α} {gained : List β} (hget : owners[i]? = some old)
    (hnew : items new <+~ items old ++ gained) :
    (owners.set i new).flatMap items <+~ owners.flatMap items ++ gained := by
  induction owners generalizing i with
  | nil => simp at hget
  | cons owner rest ih =>
      cases i with
      | zero =>
          rw [List.getElem?_cons_zero, Option.some.injEq] at hget
          subst hget
          simp only [List.set_cons_zero, List.flatMap_cons]
          have hperm : items owner ++ gained ++ rest.flatMap items ~
              items owner ++ rest.flatMap items ++ gained := by
            rw [List.append_assoc, List.append_assoc]
            exact List.Perm.append_left _ List.perm_append_comm
          exact ((List.subperm_append_right _).mpr hnew).trans hperm.subperm
      | succ i =>
          rw [List.getElem?_cons_succ] at hget
          simp only [List.set_cons_succ, List.flatMap_cons, List.append_assoc]
          exact (List.subperm_append_left _).mpr (ih hget)

/-- Items at different positions are related, whoever owns them. -/
theorem pairwise_flatMap_apart {R : β → β → Prop}
    (hsymm : ∀ {x y}, R x y → R y x) (items : α → List β) {owners : List α}
    (hpairwise : (owners.flatMap items).Pairwise R)
    {a b i j : Nat} {owner other : α} {x y : β}
    (howner : owners[a]? = some owner) (hother : owners[b]? = some other)
    (hx : (items owner)[i]? = some x) (hy : (items other)[j]? = some y)
    (hne : ¬ (a = b ∧ i = j)) : R x y := by
  obtain ⟨hinner, houter⟩ := List.pairwise_flatMap.mp hpairwise
  obtain ⟨ha, rfl⟩ := List.getElem?_eq_some_iff.mp howner
  obtain ⟨hb, rfl⟩ := List.getElem?_eq_some_iff.mp hother
  have hxmem := List.mem_of_getElem? hx
  have hymem := List.mem_of_getElem? hy
  rcases Nat.lt_trichotomy a b with hab | hab | hab
  · exact List.pairwise_iff_getElem.mp houter a b ha hb hab x hxmem y hymem
  · -- One owner: its own items are pairwise related.
    subst hab
    obtain ⟨hi, rfl⟩ := List.getElem?_eq_some_iff.mp hx
    obtain ⟨hj, rfl⟩ := List.getElem?_eq_some_iff.mp hy
    have hown := List.pairwise_iff_getElem.mp
      (hinner owners[a] (List.getElem_mem ha))
    rcases Nat.lt_trichotomy i j with hij | hij | hij
    · exact hown i j hi hj hij
    · exact absurd ⟨rfl, hij⟩ hne
    · exact hsymm (hown j i hj hi hij)
  · exact hsymm
      (List.pairwise_iff_getElem.mp houter b a hb ha hab y hymem x hxmem)

end Lib
end OsKernel

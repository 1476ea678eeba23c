import Mathlib.Data.List.Perm.Basic
import Mathlib.Data.List.Nodup
import Mathlib.Data.List.Range

/-!
# What came in, what went out and what is still there

A store takes things in and gives them out again.  Each thing is numbered when
it comes in, so that two deliveries of the same thing are told apart.  A ledger
balances when the things taken in are those given out and those in store: then
nothing is lost and nothing is given out twice.
-/

namespace OsKernel
namespace Lib

variable {α : Type*} {number : α → Nat} {added returned pending : List α}
  {a : α}

/-- The ledger balances, and what was taken in is numbered in order. -/
structure Ledger (number : α → Nat) (added returned pending : List α) :
    Prop where
  perm : added.Perm (returned ++ pending)
  numbered : added.map number = List.range added.length

namespace Ledger

theorem nil : Ledger number [] [] [] := ⟨List.Perm.refl _, rfl⟩

/-- A thing comes in, with the next number. -/
theorem add (h : Ledger number added returned pending)
    (hnumber : number a = added.length) {pending' : List α}
    (hpending : pending'.Perm (a :: pending)) :
    Ledger number (added ++ [a]) returned pending' where
  perm := by
    have hin : (added ++ [a]).Perm (a :: (returned ++ pending)) :=
      (List.perm_append_singleton a added).trans (h.perm.cons a)
    exact hin.trans
      ((hpending.append_left returned).trans List.perm_middle).symm
  numbered := by
    rw [List.map_append, h.numbered, List.length_append, List.map_singleton,
      hnumber, List.length_singleton, List.range_succ]

/-- A thing that is there goes out. -/
theorem take (h : Ledger number added returned pending) {pending' : List α}
    (hpending : pending.Perm (a :: pending')) :
    Ledger number added (returned ++ [a]) pending' where
  perm := by
    rw [List.append_assoc]
    exact h.perm.trans (hpending.append_left returned)
  numbered := h.numbered

theorem added_nodup (h : Ledger number added returned pending) :
    added.Nodup := by
  refine List.Nodup.of_map number ?_
  rw [h.numbered]
  exact List.nodup_range

theorem returned_nodup (h : Ledger number added returned pending) :
    returned.Nodup :=
  (List.nodup_append.mp (h.perm.nodup_iff.mp h.added_nodup)).1

theorem mem_added (h : Ledger number added returned pending)
    (ha : a ∈ pending) : a ∈ added :=
  h.perm.symm.subset (List.mem_append_right _ ha)

theorem number_lt_of_added (h : Ledger number added returned pending)
    (ha : a ∈ added) : number a < added.length := by
  have hmem : number a ∈ added.map number := List.mem_map_of_mem ha
  rw [h.numbered] at hmem
  exact List.mem_range.mp hmem

theorem number_lt (h : Ledger number added returned pending)
    (ha : a ∈ pending) : number a < added.length :=
  h.number_lt_of_added (h.mem_added ha)

/-- In store is what came in and did not go out. -/
theorem mem_pending_iff (h : Ledger number added returned pending) (a : α) :
    a ∈ pending ↔ a ∈ added ∧ a ∉ returned := by
  obtain ⟨-, -, hdisjoint⟩ :=
    List.nodup_append.mp (h.perm.nodup_iff.mp h.added_nodup)
  rw [h.perm.mem_iff, List.mem_append]
  constructor
  · intro ha
    exact ⟨Or.inr ha, fun hreturned => hdisjoint a hreturned a ha rfl⟩
  · rintro ⟨hreturned | ha, hnot⟩
    · exact absurd hreturned hnot
    · exact ha

/-- The store is empty when all has gone out. -/
theorem pending_eq_nil_iff (h : Ledger number added returned pending) :
    pending = [] ↔ ∀ a ∈ added, a ∈ returned := by
  rw [List.eq_nil_iff_forall_not_mem]
  simp only [h.mem_pending_iff, not_and, not_not]

end Ledger

end Lib
end OsKernel

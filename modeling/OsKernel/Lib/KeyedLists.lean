import Mathlib.Data.List.Sort
import Mathlib.Data.List.Nodup

/-!
# Sorted insertion, and removal and change by key

Queues that are kept in order by inserting each new element at its place, and
from which an element is unlinked by a key that no other element shares.  An
element that others hold a pointer to is changed where it is in the list; its
key is its address.  In a table an element is replaced at its index.
-/

namespace OsKernel
namespace Lib

variable {α β : Type*}

/-- Insertion before the first element that `r` puts after the new one keeps
any transitive order `R` that the new element fits: it comes before the
elements `r` puts after it, and after all the others. -/
theorem pairwise_orderedInsert {r R : α → α → Prop} [DecidableRel r]
    (htrans : ∀ a b c, R a b → R b c → R a c) {a : α} {l : List α}
    (hbefore : ∀ b ∈ l, r a b → R a b) (hafter : ∀ b ∈ l, ¬ r a b → R b a)
    (h : l.Pairwise R) : (l.orderedInsert r a).Pairwise R := by
  induction l with
  | nil => simp
  | cons b rest ih =>
      obtain ⟨hb, hrest⟩ := List.pairwise_cons.mp h
      by_cases hab : r a b
      · rw [List.orderedInsert, if_pos hab]
        refine List.pairwise_cons.mpr ⟨?_, h⟩
        have hRab : R a b := hbefore b (by simp) hab
        intro c hc
        rcases List.mem_cons.mp hc with rfl | hc
        · exact hRab
        · exact htrans a b c hRab (hb c hc)
      · rw [List.orderedInsert, if_neg hab]
        refine List.pairwise_cons.mpr ⟨?_, ih (fun c hc => ?_) (fun c hc => ?_)
          hrest⟩
        · intro c hc
          rcases List.mem_cons.mp ((List.perm_orderedInsert r a rest).subset hc)
            with rfl | hc
          · exact hafter b (by simp) hab
          · exact hb c hc
        · exact hbefore c (List.mem_cons_of_mem b hc)
        · exact hafter c (List.mem_cons_of_mem b hc)

/-- Unlinking by key takes out exactly the element with that key. -/
theorem perm_cons_filter_key [DecidableEq β] {key : α → β} {a : α}
    {l : List α} (hkeys : (l.map key).Nodup) (ha : a ∈ l) :
    l.Perm (a :: l.filter fun b => key b != key a) := by
  induction l with
  | nil => cases ha
  | cons b rest ih =>
      obtain ⟨hb, hrest⟩ := List.nodup_cons.mp hkeys
      rcases List.mem_cons.mp ha with rfl | ha
      · have hkeep : rest.filter (fun b => key b != key a) = rest := by
          refine List.filter_eq_self.mpr fun c hc => ?_
          have hne : key c ≠ key a :=
            fun heq => hb (heq ▸ List.mem_map_of_mem hc)
          simpa using hne
        simp [hkeep]
      · have hne : key b ≠ key a :=
          fun heq => hb (heq ▸ List.mem_map_of_mem ha)
        rw [List.filter_cons_of_pos (by simpa using hne)]
        exact ((ih hrest ha).cons b).trans (List.Perm.swap a b _)

/-- An element with a key of its own may be appended. -/
theorem nodup_map_concat {key : α → β} {l : List α} {a : α}
    (hkeys : (l.map key).Nodup) (ha : ∀ b ∈ l, key b ≠ key a) :
    ((l ++ [a]).map key).Nodup := by
  rw [List.map_append, List.nodup_append]
  refine ⟨hkeys, List.nodup_singleton _, ?_⟩
  intro x hx y hy
  obtain ⟨b, hb, rfl⟩ := List.mem_map.mp hx
  rw [List.mem_singleton.mp hy]
  exact ha b hb

section Modify

variable [DecidableEq β] {key : α → β}

/-- Change the elements with a key, in place. -/
def modifyKey (key : α → β) (k : β) (f : α → α) (l : List α) : List α :=
  l.map fun a => if key a = k then f a else a

/-- Where keys are not shared, one element changes and its neighbours stay. -/
theorem modifyKey_split {before after : List α} {a : α}
    (hkeys : ((before ++ a :: after).map key).Nodup) (f : α → α) :
    modifyKey key (key a) f (before ++ a :: after) =
      before ++ f a :: after := by
  rw [List.map_append, List.map_cons, List.nodup_append] at hkeys
  obtain ⟨-, hafter, hbefore⟩ := hkeys
  have hother : ∀ l : List α, (∀ b ∈ l, key b ≠ key a) →
      modifyKey key (key a) f l = l := by
    intro l hl
    refine (List.map_congr_left fun b hb => ?_).trans (List.map_id l)
    exact if_neg (hl b hb)
  have hleft : modifyKey key (key a) f before = before := by
    apply hother
    intro b hb
    exact hbefore _ (List.mem_map_of_mem hb) _ (List.mem_cons_self ..)
  have hright : modifyKey key (key a) f after = after := by
    apply hother
    intro b hb heq
    exact (List.nodup_cons.mp hafter).1 (heq ▸ List.mem_map_of_mem hb)
  rw [modifyKey, List.map_append, List.map_cons, if_pos rfl]
  exact congrArg₂ (fun l r => l ++ f a :: r) hleft hright

/-- A search by key finds the one element that has it. -/
theorem find?_key_eq_some {l : List α} (hkeys : (l.map key).Nodup) {a : α}
    (ha : a ∈ l) : l.find? (fun b => key b == key a) = some a := by
  obtain ⟨before, after, rfl⟩ := List.append_of_mem ha
  rw [List.map_append, List.map_cons, List.nodup_append] at hkeys
  rw [List.find?_eq_some_iff_append]
  refine ⟨by simp, before, after, rfl, ?_⟩
  intro b hb
  have hne := hkeys.2.2 _ (List.mem_map_of_mem hb) _ (List.mem_cons_self ..)
  simpa using hne

end Modify

section Replace

variable {l : List α} {i : Nat} {old new : α}

/-- Replacing an element by one with the same reading. -/
theorem map_set_of_eq {f : α → β} (hold : l[i]? = some old)
    (hsame : f new = f old) : (l.set i new).map f = l.map f := by
  obtain ⟨hlt, rfl⟩ := List.getElem?_eq_some_iff.mp hold
  rw [List.map_set, hsame]
  apply List.ext_getElem?
  intro j
  by_cases hj : i = j
  · subst hj
    simp [hlt]
  · rw [List.getElem?_set_ne hj]

/-- What the new element keeps of the old one, the table keeps everywhere. -/
theorem exists_getElem?_set {R : α → α → Prop} (hrefl : ∀ a, R a a)
    (hold : l[i]? = some old) (hkept : R old new) {j : Nat} {a : α}
    (ha : l[j]? = some a) : ∃ b, (l.set i new)[j]? = some b ∧ R a b := by
  by_cases hj : i = j
  · subst hj
    obtain rfl := Option.some.inj (hold.symm.trans ha)
    obtain ⟨hlt, -⟩ := List.getElem?_eq_some_iff.mp hold
    exact ⟨new, List.getElem?_set_self hlt, hkept⟩
  · exact ⟨a, (List.getElem?_set_ne hj).trans ha, hrefl a⟩

end Replace

end Lib
end OsKernel

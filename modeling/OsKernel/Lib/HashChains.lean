import Mathlib.Logic.Function.Basic
import Mathlib.Tactic

/-!
# Hash chains

A table of chains distributes the items of one list over buckets.  When every
chain is the part of that list that belongs to the bucket, in the list's order,
a search that can only succeed in one bucket gives the same result on that
bucket's chain as on the whole list.

The items are often the addresses `0, 1, ..` of records in the order they were
made; `newestFirst` lists them from the last one made.
-/

namespace OsKernel
namespace Lib

variable {ι : Type*} {α : Type*} {β : Type*}

/-- Each chain is the part of `all` that belongs to its bucket. -/
def Chained (inBucket : ι → α → Bool) (chains : ι → List α) (all : List α) :
    Prop :=
  ∀ k, chains k = all.filter (inBucket k)

namespace Chained

variable {inBucket : ι → α → Bool} {chains : ι → List α} {all : List α}

theorem empty (inBucket : ι → α → Bool) : Chained inBucket (fun _ => []) [] :=
  fun _ => rfl

/-- A new item at the head of its chain. -/
theorem push [DecidableEq ι] (h : Chained inBucket chains all) {key : ι} {a : α}
    (hkey : ∀ k, inBucket k a = true ↔ k = key) :
    Chained inBucket (Function.update chains key (a :: chains key))
      (a :: all) := by
  intro k
  by_cases hk : k = key
  · subst hk
    rw [Function.update_self, List.filter_cons_of_pos ((hkey k).mpr rfl), h k]
  · rw [Function.update_of_ne hk,
      List.filter_cons_of_neg (fun hmem => hk ((hkey k).mp hmem)), h k]

/-- The buckets of the listed items are all that matters. -/
theorem congr (h : Chained inBucket chains all) {inBucket' : ι → α → Bool}
    (hsame : ∀ k, ∀ a ∈ all, inBucket k a = inBucket' k a) :
    Chained inBucket' chains all := by
  intro k
  rw [h k]
  exact List.filter_congr (hsame k)

/-- A search that fails on every item of the other buckets. -/
theorem findSome?_eq (h : Chained inBucket chains all) {f : α → Option β}
    {k : ι} (hf : ∀ a ∈ all, f a ≠ none → inBucket k a = true) :
    (chains k).findSome? f = all.findSome? f := by
  rw [h k]
  clear h
  induction all with
  | nil => rfl
  | cons a rest ih =>
      have hrest := ih fun b hb => hf b (List.mem_cons_of_mem a hb)
      cases ha : f a with
      | none =>
          rw [List.findSome?_cons, ha, ← hrest, List.filter_cons]
          split
          · rw [List.findSome?_cons, ha]
          · rfl
      | some b =>
          have hbucket : inBucket k a = true :=
            hf a List.mem_cons_self (by simp [ha])
          rw [List.filter_cons_of_pos hbucket, List.findSome?_cons,
            List.findSome?_cons, ha]

end Chained

/-- The addresses below `n`, the last one made first. -/
def newestFirst : Nat → List Nat
  | 0 => []
  | n + 1 => n :: newestFirst n

theorem mem_newestFirst {n a : Nat} : a ∈ newestFirst n ↔ a < n := by
  induction n with
  | zero => simp [newestFirst]
  | succ n ih =>
      rw [newestFirst, List.mem_cons, ih]
      omega

/-- A newest-first search finds nothing if and only if there is nothing. -/
theorem findSome?_newestFirst_eq_none {f : Nat → Option β} {n : Nat} :
    (newestFirst n).findSome? f = none ↔ ∀ a < n, f a = none := by
  simp [List.findSome?_eq_none_iff, mem_newestFirst]

/-- A newest-first search finds the last one made of those it accepts. -/
theorem findSome?_newestFirst_eq_some {f : Nat → Option β} {n : Nat} {b : β}
    (hfound : (newestFirst n).findSome? f = some b) :
    ∃ a < n, f a = some b ∧ ∀ c, a < c → c < n → f c = none := by
  induction n with
  | zero => simp [newestFirst] at hfound
  | succ n ih =>
      rw [newestFirst, List.findSome?_cons] at hfound
      cases hn : f n with
      | some b' =>
          rw [hn] at hfound
          refine ⟨n, Nat.lt_succ_self n, ?_, fun c hlt hle => ?_⟩
          · rw [hn, ← hfound]
          · omega
      | none =>
          rw [hn] at hfound
          obtain ⟨a, ha, hfa, hlater⟩ := ih hfound
          refine ⟨a, by omega, hfa, fun c hlt hle => ?_⟩
          rcases Nat.lt_succ_iff_lt_or_eq.mp hle with hc | hc
          · exact hlater c hlt hc
          · exact hc ▸ hn

/-- A newest-first search looks at the addresses below `n` only. -/
theorem findSome?_newestFirst_congr {f g : Nat → Option β} {n : Nat}
    (hsame : ∀ a < n, g a = f a) :
    (newestFirst n).findSome? g = (newestFirst n).findSome? f := by
  induction n with
  | zero => rfl
  | succ n ih =>
      rw [newestFirst, List.findSome?_cons, List.findSome?_cons,
        hsame n (Nat.lt_succ_self n), ih fun a ha => hsame a (by omega)]

end Lib
end OsKernel

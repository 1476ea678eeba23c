import Mathlib.Tactic

/-!
# Properties of every point of a history

A history is the list of the events so far, oldest first, and its prefixes are
the points it went through.  `HoldsThroughout P l` says that `P` holds at every
point of `l`, and `EachStep Q l` that every event of `l` meets `Q` at the point
where it happens.  When `Q` is exactly what keeps `P` for one more event, the
two are equivalent (`holdsThroughout_iff`).
-/

namespace OsKernel
namespace Lib

universe u

variable {α : Type u}

/-- `P` holds of every prefix of the history, the whole included. -/
def HoldsThroughout (P : List α → Prop) (l : List α) : Prop :=
  ∀ before, before <+: l → P before

/-- Every event of the history meets `Q` together with what came before. -/
def EachStep (Q : List α → α → Prop) (l : List α) : Prop :=
  ∀ before a, before ++ [a] <+: l → Q before a

theorem holdsThroughout_nil_iff {P : List α → Prop} :
    HoldsThroughout P [] ↔ P [] := by
  simp [HoldsThroughout]

/-- The first event apart. -/
theorem holdsThroughout_cons_iff {P : List α → Prop} {a : α} {l : List α} :
    HoldsThroughout P (a :: l) ↔
      P [] ∧ HoldsThroughout (fun before => P (a :: before)) l := by
  constructor
  · intro h
    exact ⟨h [] (List.nil_prefix ..), fun before hprefix =>
      h (a :: before) (List.cons_prefix_cons.mpr ⟨rfl, hprefix⟩)⟩
  · intro ⟨hfirst, hrest⟩ before hprefix
    cases before with
    | nil => exact hfirst
    | cons b before =>
        obtain ⟨rfl, htail⟩ := List.cons_prefix_cons.mp hprefix
        exact hrest before htail

theorem eachStep_nil (Q : List α → α → Prop) : EachStep Q [] := by
  intro before a hprefix
  simp at hprefix

theorem eachStep_cons {Q : List α → α → Prop} {a : α} {l : List α}
    (hfirst : Q [] a) (hrest : EachStep (fun before => Q (a :: before)) l) :
    EachStep Q (a :: l) := by
  intro before b hprefix
  cases before with
  | nil =>
      obtain ⟨rfl, -⟩ := List.cons_prefix_cons.mp hprefix
      exact hfirst
  | cons c before =>
      obtain ⟨rfl, htail⟩ := List.cons_prefix_cons.mp hprefix
      exact hrest before b htail

/-- A property that holds at the start holds throughout exactly when each
event keeps it. -/
theorem holdsThroughout_iff {P : List α → Prop} {Q : List α → α → Prop}
    (hnil : P []) (hstep : ∀ before a, P before → (P (before ++ [a]) ↔ Q before a))
    (l : List α) : HoldsThroughout P l ↔ EachStep Q l := by
  constructor
  · intro hthroughout before a hprefix
    have hbefore : before <+: l := (List.prefix_append _ _).trans hprefix
    exact (hstep before a (hthroughout _ hbefore)).mp (hthroughout _ hprefix)
  · intro heach before
    -- Along the prefixes: the last event of each is one of the history's.
    induction before using List.reverseRecOn with
    | nil => exact fun _ => hnil
    | append_singleton before a ih =>
        intro hprefix
        have hbefore : P before := ih ((List.prefix_append _ _).trans hprefix)
        exact (hstep before a hbefore).mpr (heach before a hprefix)

/-- `a` and later `b` happen in a history with one more event `c`: either both
had happened before, or `c` is the `b`. -/
theorem pair_sublist_concat_iff {a b c : α} {l : List α} :
    List.Sublist [a, b] (l ++ [c]) ↔
      List.Sublist [a, b] l ∨ c = b ∧ a ∈ l := by
  constructor
  · intro hsub
    obtain ⟨first, second, hsplit, hfirst, hsecond⟩ :=
      List.sublist_append_iff.mp hsub
    rcases List.sublist_singleton.mp hsecond with rfl | rfl
    · rw [List.append_nil] at hsplit
      exact Or.inl (hsplit ▸ hfirst)
    · have hsplit : [a] ++ [b] = first ++ [c] := hsplit
      obtain ⟨rfl, hbc⟩ := List.append_inj' hsplit rfl
      exact Or.inr ⟨(List.singleton_inj.mp hbc).symm, by simpa using hfirst⟩
  · rintro (hsub | ⟨rfl, hmem⟩)
    · exact hsub.trans (List.sublist_append_left _ _)
    · exact (List.singleton_sublist.mpr hmem).append (List.Sublist.refl [c])

end Lib
end OsKernel

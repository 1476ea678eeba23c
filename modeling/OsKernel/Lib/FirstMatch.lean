import Mathlib.Tactic

/-!
# Decisions by the first item that settles them

The items of a list are asked one after the other; the first one that settles
the question gives the answer, and a default is the answer if none does.

The answer depends on the items that settle the question only, and on their
order only as far as they disagree: items that settle nothing come and go, two
neighbours may change places unless both settle it and differ, and a list whose
items all agree may be reordered at will.
-/

namespace OsKernel
namespace Lib
namespace FirstMatch

universe u v

variable {α : Type u} {β : Type v} (settles : α → Bool) (value : α → β)

/-- The answer of the first item that settles the question. -/
def decision (default : β) (items : List α) : β :=
  ((items.find? settles).map value).getD default

variable {settles : α → Bool} {value : α → β} {default : β}

theorem decision_cons (item : α) (rest : List α) :
    decision settles value default (item :: rest) =
      if settles item then value item
      else decision settles value default rest := by
  unfold decision
  cases hsettles : settles item with
  | true => simp [hsettles]
  | false => simp [hsettles]

/-- The second part of a list is the default of the first one. -/
theorem decision_append (front back : List α) :
    decision settles value default (front ++ back) =
      decision settles value (decision settles value default back) front := by
  induction front with
  | nil => rfl
  | cons item rest ih => rw [List.cons_append, decision_cons, decision_cons, ih]

/-- An item that settles nothing can be left out. -/
theorem decision_skip {item : α} (hskip : settles item = false)
    (front back : List α) :
    decision settles value default (front ++ item :: back) =
      decision settles value default (front ++ back) := by
  rw [decision_append, decision_append, decision_cons, hskip]
  rfl

/-- Two neighbours that do not both settle the question differently can change
places. -/
theorem decision_swap {left right : α}
    (hagree : settles left = true → settles right = true →
      value left = value right) (front back : List α) :
    decision settles value default (front ++ left :: right :: back) =
      decision settles value default (front ++ right :: left :: back) := by
  rw [decision_append, decision_append]
  congr 1
  rw [decision_cons, decision_cons, decision_cons, decision_cons]
  cases hleft : settles left with
  | false => rfl
  | true =>
      cases hright : settles right with
      | false => rfl
      | true => simpa using hagree hleft hright

/-- If the items that settle the question agree, the answer is theirs. -/
theorem decision_of_agree {answer : β} {items : List α}
    (hagree : ∀ item ∈ items, settles item = true → value item = answer) :
    decision settles value default items =
      if items.any settles then answer else default := by
  induction items with
  | nil => rfl
  | cons item rest ih =>
      have hrest := ih fun other hother =>
        hagree other (List.mem_cons_of_mem item hother)
      rw [decision_cons, List.any_cons]
      cases hsettles : settles item with
      | false => simpa using hrest
      | true => simpa using hagree item List.mem_cons_self hsettles

/-- Items that agree can be reordered. -/
theorem decision_perm {answer : β} {items other : List α}
    (hagree : ∀ item ∈ items, settles item = true → value item = answer)
    (hperm : other.Perm items) :
    decision settles value default other =
      decision settles value default items := by
  rw [decision_of_agree hagree,
    decision_of_agree fun item hitem => hagree item (hperm.mem_iff.mp hitem),
    hperm.any_eq]

theorem find_reverse_eq_none {items : List α} :
    items.reverse.find? settles = none ↔ items.find? settles = none := by
  simp [List.find?_eq_none]

/-- Asking from the other end gives the same answer exactly if the first and
the last item that settle the question agree. -/
theorem decision_reverse_iff {items : List α} :
    decision settles value default items.reverse =
        decision settles value default items ↔
      ∀ first last, items.find? settles = some first →
        items.reverse.find? settles = some last → value first = value last := by
  unfold decision
  cases hfirst : items.find? settles with
  | none => simp [find_reverse_eq_none.mpr hfirst]
  | some first =>
      cases hlast : items.reverse.find? settles with
      | none =>
          rw [find_reverse_eq_none.mp hlast] at hfirst
          cases hfirst
      | some last =>
          simp only [Option.map_some, Option.getD_some, Option.some.injEq]
          constructor
          · rintro hsame _ _ rfl rfl
            exact hsame.symm
          · intro hsame
            exact (hsame first last rfl rfl).symm

end FirstMatch
end Lib
end OsKernel

import Mathlib.Tactic

/-!
# Tilings of an interval

Items with half-open ranges of natural numbers tile an interval if every number
of the interval is in the range of exactly one of them, and no other number is
in any.

Two neighbours can be replaced by one item with both ranges, and as long as
there are two items, there are two neighbours.  So any order of joining
neighbours ends with a single item, whose range is the interval.
-/

namespace OsKernel
namespace Lib

universe u

variable {α : Type u}

/-- The number is in the range of the item. -/
def InRange (start stop : α → Nat) (x : Nat) (i : α) : Bool :=
  decide (start i ≤ x) && decide (x < stop i)

/-- The ranges of the items tile the interval from `s` to `e`. -/
structure Tiles (start stop : α → Nat) (items : List α) (s e : Nat) :
    Prop where
  nonempty : ∀ i ∈ items, start i < stop i
  once : ∀ x, items.countP (InRange start stop x) =
    if s ≤ x ∧ x < e then 1 else 0

variable {start stop : α → Nat} {items : List α} {s e : Nat}

theorem inRange_iff {x : Nat} {i : α} :
    InRange start stop x i = true ↔ start i ≤ x ∧ x < stop i := by
  simp [InRange]

/-- A member of a list and the others. -/
theorem exists_perm_cons {i : α} (hi : i ∈ items) :
    ∃ rest, items.Perm (i :: rest) := by
  obtain ⟨before, after, rfl⟩ := List.append_of_mem hi
  exact ⟨before ++ after, List.perm_middle⟩

namespace Tiles

theorem perm (h : Tiles start stop items s e) {other : List α}
    (hperm : other.Perm items) : Tiles start stop other s e where
  nonempty i hi := h.nonempty i (hperm.mem_iff.mp hi)
  once x := (hperm.countP_eq _).trans (h.once x)

/-- A number in the range of an item is in the interval. -/
theorem inside (h : Tiles start stop items s e) {i : α} (hi : i ∈ items)
    {x : Nat} (hstart : start i ≤ x) (hstop : x < stop i) : s ≤ x ∧ x < e := by
  by_contra houtside
  have honce := h.once x
  rw [if_neg houtside, List.countP_eq_zero] at honce
  exact honce i hi (inRange_iff.mpr ⟨hstart, hstop⟩)

theorem bounds (h : Tiles start stop items s e) {i : α} (hi : i ∈ items) :
    s ≤ start i ∧ stop i ≤ e := by
  have hlt := h.nonempty i hi
  have hfirst := h.inside hi le_rfl hlt
  have hlast := h.inside hi (Nat.le_sub_one_of_lt hlt) (by omega)
  omega

/-- Every number of the interval is in the range of an item. -/
theorem exists_mem (h : Tiles start stop items s e) {x : Nat} (hs : s ≤ x)
    (he : x < e) : ∃ i ∈ items, start i ≤ x ∧ x < stop i := by
  have honce := h.once x
  rw [if_pos ⟨hs, he⟩] at honce
  have hpos : 0 < items.countP (InRange start stop x) := by
    rw [honce]
    exact Nat.one_pos
  obtain ⟨i, hi, hx⟩ := List.countP_pos_iff.mp hpos
  exact ⟨i, hi, inRange_iff.mp hx⟩

/-- The ranges of two items have no number in common. -/
theorem not_both {i j : α} {rest : List α}
    (h : Tiles start stop (i :: j :: rest) s e) {x : Nat}
    (hi : start i ≤ x ∧ x < stop i) (hj : start j ≤ x ∧ x < stop j) : False := by
  have honce := h.once x
  rw [List.countP_cons_of_pos (inRange_iff.mpr hi),
    List.countP_cons_of_pos (inRange_iff.mpr hj)] at honce
  split at honce
  · omega
  · omega

/-- Two neighbours become one item. -/
theorem join {i j k : α} {rest : List α}
    (h : Tiles start stop (i :: j :: rest) s e) (hnext : stop i = start j)
    (hstart : start k = start i) (hstop : stop k = stop j) :
    Tiles start stop (k :: rest) s e := by
  have hi := h.nonempty i List.mem_cons_self
  have hj := h.nonempty j (List.mem_cons_of_mem i List.mem_cons_self)
  constructor
  · intro m hm
    rcases List.mem_cons.mp hm with rfl | hrest
    · omega
    · exact h.nonempty m (List.mem_cons_of_mem i (List.mem_cons_of_mem j hrest))
  · intro x
    rw [← h.once x, List.countP_cons, List.countP_cons, List.countP_cons,
      Nat.add_assoc]
    congr 1
    simp only [inRange_iff, hstart, hstop]
    split_ifs <;> omega

theorem of_singleton {i : α} (h : Tiles start stop [i] s e) :
    start i = s ∧ stop i = e := by
  have hlt := h.nonempty i List.mem_cons_self
  obtain ⟨hlow, hhigh⟩ := h.bounds List.mem_cons_self
  have hfirst := h.exists_mem le_rfl (show s < e by omega)
  have hlast := h.exists_mem (show s ≤ e - 1 by omega) (by omega)
  simp only [List.mem_singleton, exists_eq_left] at hfirst hlast
  omega

/-- An item from the start of the interval on leaves room for the others. -/
theorem stop_lt {i j : α} {rest : List α}
    (h : Tiles start stop (i :: j :: rest) s e) (hfirst : start i ≤ s) :
    stop i < e := by
  have hmem : j ∈ i :: j :: rest := List.mem_cons_of_mem i List.mem_cons_self
  have hlt := h.nonempty j hmem
  have hbounds := h.bounds hmem
  by_contra hreach
  exact h.not_both (x := start j) ⟨by omega, by omega⟩ ⟨le_rfl, hlt⟩

/-- Among two items or more there are two neighbours: one starts where the
first one stops. -/
theorem exists_next (h : Tiles start stop items s e)
    (htwo : 2 ≤ items.length) :
    ∃ i j rest, items.Perm (i :: j :: rest) ∧ stop i = start j := by
  obtain ⟨k, hk⟩ := List.exists_mem_of_length_pos (show 0 < items.length by omega)
  have hse : s < e := by
    have hlt := h.nonempty k hk
    have hbounds := h.bounds hk
    omega
  obtain ⟨i, hi, hfirst, hin⟩ := h.exists_mem le_rfl hse
  obtain ⟨others, hperm⟩ := exists_perm_cons hi
  have htiles := h.perm hperm.symm
  have hend : stop i < e := by
    cases others with
    | nil =>
        have hlength : items.length = 1 := hperm.length_eq
        omega
    | cons j rest => exact htiles.stop_lt hfirst
  -- the item that has the number at which the first one stops
  obtain ⟨j, hj, hstart, hstop⟩ := htiles.exists_mem (by omega) hend
  have hothers : j ∈ others := by
    rcases List.mem_cons.mp hj with rfl | hrest
    · omega
    · exact hrest
  obtain ⟨rest, hrest⟩ := exists_perm_cons hothers
  have hpair := htiles.perm (hrest.symm.cons i)
  refine ⟨i, j, rest, hperm.trans (hrest.cons i), ?_⟩
  by_contra hne
  have hlt := hpair.nonempty i List.mem_cons_self
  exact hpair.not_both (x := stop i - 1) ⟨by omega, by omega⟩
    ⟨by omega, by omega⟩

end Tiles
end Lib
end OsKernel

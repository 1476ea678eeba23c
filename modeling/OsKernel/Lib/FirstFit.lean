import Mathlib.Tactic

/-!
# Runs of free slots

A first-fit allocator looks for the lowest run of `count` consecutive free
slots.  `Scanned` is the invariant of a search from low to high that only
remembers how many free slots it has just seen: the two ways of moving on to
the next slot keep it, and together with a bound on the remembered number it
says where the first run is.
-/

namespace OsKernel
namespace Lib
namespace FirstFit

variable {free : Nat → Prop}

/-- The slots `start, ..., start + count - 1` are free. -/
def FreeRun (free : Nat → Prop) (start count : Nat) : Prop :=
  ∀ slot, start ≤ slot → slot < start + count → free slot

/-- `start` is the lowest start of a run of `count` free slots below `limit`. -/
structure FirstRun (free : Nat → Prop) (limit count start : Nat) : Prop where
  inside : start + count ≤ limit
  run : FreeRun free start count
  lowest : ∀ earlier, earlier < start → ¬ FreeRun free earlier count

/-- What a search for `count` free slots knows when it has looked at the slots
below `i`: the last `found` of them are free, the one before those is not, and
no run of `count` slots ends at or below `i`. -/
structure Scanned (free : Nat → Prop) (count i found : Nat) : Prop where
  le : found ≤ i
  lt : found < count
  run : FreeRun free (i - found) found
  blocked : ∀ slot, slot + found + 1 = i → ¬ free slot
  noRun : ∀ start, start + count ≤ i → ¬ FreeRun free start count

theorem Scanned.zero {count : Nat} (hcount : 0 < count) :
    Scanned free count 0 0 where
  le := le_rfl
  lt := hcount
  run := by
    intro slot _ hlt
    omega
  blocked := by
    intro slot hslot
    omega
  noRun := by
    intro start hstart
    omega

/-- A run whose window contains an occupied slot is not free. -/
theorem not_freeRun_of_blocked {start count slot : Nat}
    (hblocked : ¬ free slot) (hle : start ≤ slot) (hlt : slot < start + count) :
    ¬ FreeRun free start count :=
  fun hrun => hblocked (hrun slot hle hlt)

/-- Moving past a free slot without completing the run. -/
theorem Scanned.next_free {count i found : Nat} (h : Scanned free count i found)
    (hfree : free i) (hlt : found + 1 < count) :
    Scanned free count (i + 1) (found + 1) where
  le := by
    have := h.le
    omega
  lt := hlt
  run := by
    intro slot hle hslot
    have hfound := h.le
    by_cases hi : slot = i
    · rw [hi]
      exact hfree
    · exact h.run slot (by omega) (by omega)
  blocked := by
    intro slot hslot
    exact h.blocked slot (by omega)
  noRun := by
    intro start hstart
    by_cases hi : start + count ≤ i
    · exact h.noRun start hi
    · -- The window ends exactly at `i`, so it reaches below the free tail.
      have hfound := h.le
      have hbefore : ¬ free (i - found - 1) := h.blocked _ (by omega)
      exact not_freeRun_of_blocked hbefore (by omega) (by omega)

/-- Moving past an occupied slot. -/
theorem Scanned.next_blocked {count i found : Nat}
    (h : Scanned free count i found) (hblocked : ¬ free i) :
    Scanned free count (i + 1) 0 where
  le := Nat.zero_le _
  lt := by
    have := h.lt
    omega
  run := by
    intro slot _ hslot
    omega
  blocked := by
    intro slot hslot
    have hi : slot = i := by omega
    rw [hi]
    exact hblocked
  noRun := by
    intro start hstart
    have hcount := h.lt
    by_cases hi : start + count ≤ i
    · exact h.noRun start hi
    · exact not_freeRun_of_blocked hblocked (by omega) (by omega)

/-- Moving past the free slot that completes the run. -/
theorem Scanned.complete {count i found limit : Nat}
    (h : Scanned free count i found) (hfree : free i)
    (hdone : found + 1 = count) (hlimit : i < limit) :
    FirstRun free limit count (i - found) where
  inside := by
    have := h.le
    omega
  run := by
    intro slot hle hslot
    have hfound := h.le
    by_cases hi : slot = i
    · rw [hi]
      exact hfree
    · exact h.run slot hle (by omega)
  lowest := by
    intro earlier hearlier
    have hfound := h.le
    exact h.noRun earlier (by omega)

end FirstFit
end Lib
end OsKernel

import Mathlib.Tactic

/-!
# Bitmaps packed into 64-bit words

Bit `i` of a bitmap is bit `i % 64` of word `i / 64`.  The operations are the
word operations C code uses on such a map: test by a masked word, set by or-ing
a one-bit mask, clear by and-ing its complement.  A bit outside the allocated
words reads as clear and cannot be set.
-/

namespace OsKernel
namespace Lib
namespace Bitmap

/-- `1UL << offset`. -/
def mask (i : Nat) : BitVec 64 := 1#64 <<< (i % 64)

/-- Whether `words[i / 64] & (1UL << i % 64)` is nonzero. -/
def test (words : List (BitVec 64)) (i : Nat) : Bool :=
  words.getD (i / 64) 0 &&& mask i != 0

/-- `words[i / 64] |= 1UL << i % 64`. -/
def set (words : List (BitVec 64)) (i : Nat) : List (BitVec 64) :=
  words.modify (i / 64) (· ||| mask i)

/-- Set the bits `start, ..., start + count - 1`, in this order. -/
def setRange (words : List (BitVec 64)) (start : Nat) :
    Nat → List (BitVec 64)
  | 0 => words
  | count + 1 => set (setRange words start count) (start + count)

/-- `words[i / 64] &= ~(1UL << i % 64)`. -/
def clear (words : List (BitVec 64)) (i : Nat) : List (BitVec 64) :=
  words.modify (i / 64) (· &&& ~~~mask i)

/-- Clear the bits `start, ..., start + count - 1`, in this order. -/
def clearRange (words : List (BitVec 64)) (start : Nat) :
    Nat → List (BitVec 64)
  | 0 => words
  | count + 1 => clear (clearRange words start count) (start + count)

/-- Search the bits `i, ..., i + remaining - 1` for the first that is clear. -/
def firstClear (words : List (BitVec 64)) : Nat → Nat → Option Nat
  | 0, _ => none
  | remaining + 1, i =>
      if test words i = false then some i
      else firstClear words remaining (i + 1)

/-- The mask has exactly one bit. -/
theorem getLsbD_mask (i j : Nat) :
    (mask i).getLsbD j = decide (j = i % 64) := by
  have hi : i % 64 < 64 := Nat.mod_lt _ (by decide)
  simp only [mask, BitVec.getLsbD_shiftLeft, BitVec.getLsbD_one]
  by_cases hj : j = i % 64
  · subst hj
    simp [hi]
  · by_cases hlt : j < i % 64
    · simp [hj, hlt]
    · have hsub : j - i % 64 ≠ 0 := by omega
      simp [hj, hsub]

/-- Masking a word leaves zero exactly when the masked bit is clear. -/
theorem and_mask_ne_zero (word : BitVec 64) (i : Nat) :
    (word &&& mask i != 0) = word.getLsbD (i % 64) := by
  cases hword : word.getLsbD (i % 64) with
  | true =>
      rw [bne_iff_ne]
      intro hzero
      have hbit := congrArg (fun w => w.getLsbD (i % 64)) hzero
      simp [getLsbD_mask, hword] at hbit
  | false =>
      rw [bne_eq_false_iff_eq]
      apply BitVec.eq_of_getLsbD_eq
      intro j _
      rw [BitVec.getLsbD_and, getLsbD_mask]
      by_cases hj : j = i % 64
      · subst hj
        simp [hword]
      · simp [hj]

theorem test_eq_getLsbD (words : List (BitVec 64)) (i : Nat) :
    test words i = (words.getD (i / 64) 0).getLsbD (i % 64) :=
  and_mask_ne_zero _ _

@[simp] theorem test_replicate_zero (length i : Nat) :
    test (List.replicate length 0#64) i = false := by
  rw [test_eq_getLsbD]
  by_cases h : i / 64 < length
  · simp [List.getD_eq_getElem?_getD, h]
  · simp [List.getD_eq_getElem?_getD, h]

@[simp] theorem length_set (words : List (BitVec 64)) (i : Nat) :
    (set words i).length = words.length := by
  simp [set]

@[simp] theorem length_setRange (words : List (BitVec 64))
    (start count : Nat) :
    (setRange words start count).length = words.length := by
  induction count with
  | zero => rfl
  | succ count ih => simp [setRange, ih]

/-- Setting one allocated bit changes that bit and no other. -/
theorem test_set (words : List (BitVec 64)) {i : Nat}
    (hi : i < 64 * words.length) (j : Nat) :
    test (set words i) j = (test words j || decide (j = i)) := by
  have hword : i / 64 < words.length := by omega
  rw [test_eq_getLsbD, test_eq_getLsbD]
  by_cases hsame : i / 64 = j / 64
  · have hget : (set words i).getD (j / 64) 0 =
        words.getD (j / 64) 0 ||| mask i := by
      simp [set, ← hsame, List.getD_eq_getElem?_getD, hword]
    have hiff : j % 64 = i % 64 ↔ j = i := by omega
    rw [hget, BitVec.getLsbD_or, getLsbD_mask]
    simp only [hiff]
  · have hget : (set words i).getD (j / 64) 0 = words.getD (j / 64) 0 := by
      simp [set, List.getD_eq_getElem?_getD, hsame]
    have hne : j ≠ i := by
      rintro rfl
      exact hsame rfl
    rw [hget]
    simp [hne]

/-- A bit outside the allocated words cannot be set. -/
theorem set_of_length_le {words : List (BitVec 64)} {i : Nat}
    (hi : 64 * words.length ≤ i) : set words i = words := by
  have hword : words.length ≤ i / 64 := by omega
  exact List.modify_eq_self hword

/-- Setting a range changes exactly the bits of the range that are
allocated. -/
theorem test_setRange_eq (words : List (BitVec 64)) (start count j : Nat) :
    test (setRange words start count) j =
      (test words j || decide ((start ≤ j ∧ j < start + count) ∧
        j < 64 * words.length)) := by
  induction count with
  | zero =>
      have hempty : ¬ ((start ≤ j ∧ j < start + 0) ∧ j < 64 * words.length) := by
        omega
      rw [setRange, decide_eq_false hempty, Bool.or_false]
  | succ count ih =>
      rw [setRange]
      by_cases hlast : start + count < 64 * words.length
      · have hlast' : start + count <
            64 * (setRange words start count).length := by
          rwa [length_setRange]
        rw [test_set _ hlast', ih, Bool.or_assoc, ← Bool.decide_or]
        congr 2
        apply propext
        omega
      · have hlast' : 64 * (setRange words start count).length ≤
            start + count := by
          rw [length_setRange]
          omega
        rw [set_of_length_le hlast', ih]
        congr 2
        apply propext
        omega

/-- Setting an allocated range changes exactly the bits of the range. -/
theorem test_setRange (words : List (BitVec 64)) {start count : Nat}
    (hrange : start + count ≤ 64 * words.length) (j : Nat) :
    test (setRange words start count) j =
      (test words j || decide (start ≤ j ∧ j < start + count)) := by
  rw [test_setRange_eq]
  congr 2
  apply propext
  omega

@[simp] theorem length_clear (words : List (BitVec 64)) (i : Nat) :
    (clear words i).length = words.length := by
  simp [clear]

@[simp] theorem length_clearRange (words : List (BitVec 64))
    (start count : Nat) :
    (clearRange words start count).length = words.length := by
  induction count with
  | zero => rfl
  | succ count ih => simp [clearRange, ih]

/-- Clearing a bit changes that bit and no other. -/
theorem test_clear (words : List (BitVec 64)) (i j : Nat) :
    test (clear words i) j = (test words j && decide (j ≠ i)) := by
  rw [test_eq_getLsbD, test_eq_getLsbD]
  by_cases hsame : i / 64 = j / 64
  · have hget : (clear words i).getD (j / 64) 0 =
        words.getD (j / 64) 0 &&& ~~~mask i := by
      rw [clear, hsame, List.getD_eq_getElem?_getD, List.getElem?_modify_eq,
        List.getD_eq_getElem?_getD]
      cases words[j / 64]? <;> simp
    have hj : j % 64 < 64 := Nat.mod_lt _ (by decide)
    have hiff : j % 64 = i % 64 ↔ j = i := by omega
    rw [hget, BitVec.getLsbD_and, BitVec.getLsbD_not, getLsbD_mask]
    simp [hj, hiff]
  · have hget : (clear words i).getD (j / 64) 0 = words.getD (j / 64) 0 := by
      simp [clear, List.getD_eq_getElem?_getD, hsame]
    have hne : j ≠ i := by
      rintro rfl
      exact hsame rfl
    rw [hget]
    simp [hne]

/-- Clearing a range changes exactly the bits of the range. -/
theorem test_clearRange (words : List (BitVec 64)) (start count j : Nat) :
    test (clearRange words start count) j =
      (test words j && !decide (start ≤ j ∧ j < start + count)) := by
  induction count with
  | zero =>
      have hempty : ¬ (start ≤ j ∧ j < start + 0) := by omega
      rw [decide_eq_false hempty]
      simp [clearRange]
  | succ count ih =>
      rw [clearRange, test_clear, ih, Bool.and_assoc]
      congr 1
      rw [← decide_not, ← decide_not, ← Bool.decide_and]
      congr 1
      apply propext
      omega

/-- A bit that is found is clear, and those before it are set. -/
theorem firstClear_eq_some {words : List (BitVec 64)} {remaining i j : Nat}
    (hfound : firstClear words remaining i = some j) :
    (i ≤ j ∧ j < i + remaining) ∧ test words j = false ∧
      ∀ k, i ≤ k → k < j → test words k = true := by
  induction remaining generalizing i with
  | zero => contradiction
  | succ remaining ih =>
      unfold firstClear at hfound
      split at hfound
      next hclear =>
        obtain rfl := Option.some.inj hfound
        exact ⟨⟨le_rfl, by omega⟩, hclear, fun k hle hlt => by omega⟩
      next hset =>
        obtain ⟨⟨hle, hlt⟩, hclear, hbefore⟩ := ih hfound
        refine ⟨⟨by omega, by omega⟩, hclear, fun k hle hkj => ?_⟩
        rcases Nat.eq_or_lt_of_le hle with hk | hk
        · rw [← hk]
          exact Bool.eq_true_of_not_eq_false hset
        · exact hbefore k hk hkj

/-- Nothing is found exactly if all bits are set. -/
theorem firstClear_eq_none_iff {words : List (BitVec 64)} {remaining i : Nat} :
    firstClear words remaining i = none ↔
      ∀ k, i ≤ k → k < i + remaining → test words k = true := by
  constructor
  · intro hnone
    induction remaining generalizing i with
    | zero =>
        intro k hle hlt
        omega
    | succ remaining ih =>
        unfold firstClear at hnone
        split at hnone
        next => contradiction
        next hset =>
          intro k hle hlt
          rcases Nat.eq_or_lt_of_le hle with hk | hk
          · rw [← hk]
            exact Bool.eq_true_of_not_eq_false hset
          · exact ih hnone k hk (by omega)
  · intro hset
    cases hfound : firstClear words remaining i with
    | none => rfl
    | some j =>
        obtain ⟨⟨hle, hlt⟩, hclear, -⟩ := firstClear_eq_some hfound
        rw [hset j hle hlt] at hclear
        contradiction

/-- A bitmap is determined by its length and its bits. -/
theorem ext_test {words words' : List (BitVec 64)}
    (hlength : words.length = words'.length)
    (htest : ∀ i, test words i = test words' i) : words = words' := by
  apply List.ext_getElem hlength
  intro k hk hk'
  apply BitVec.eq_of_getLsbD_eq
  intro j hj
  have hbit := htest (64 * k + j)
  have hword : (64 * k + j) / 64 = k := by omega
  have hoffset : (64 * k + j) % 64 = j := by omega
  rw [test_eq_getLsbD, test_eq_getLsbD, hword, hoffset] at hbit
  simpa [List.getD_eq_getElem?_getD, hk, hk'] using hbit

end Bitmap
end Lib
end OsKernel

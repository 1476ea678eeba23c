import Mathlib.Tactic

/-!
# Sums under exclusive or

Words of one width under exclusive or form a group in which every element is
its own inverse.  `xorAll` is the sum of a list in this group.
-/

namespace OsKernel
namespace Lib

variable {w : Nat}

/-- The exclusive or of all words of a list. -/
def xorAll : List (BitVec w) → BitVec w
  | [] => 0
  | x :: rest => x ^^^ xorAll rest

@[simp] theorem xorAll_nil : xorAll ([] : List (BitVec w)) = 0#w := rfl

@[simp] theorem xorAll_cons (x : BitVec w) (rest : List (BitVec w)) :
    xorAll (x :: rest) = x ^^^ xorAll rest := rfl

@[simp] theorem xorAll_append (xs ys : List (BitVec w)) :
    xorAll (xs ++ ys) = xorAll xs ^^^ xorAll ys := by
  induction xs with
  | nil => simp
  | cons x xs ih => simp [ih, BitVec.xor_assoc]

/-- The accumulator loop `acc ^= x` computes the sum. -/
theorem foldl_xor_eq (xs : List (BitVec w)) (acc : BitVec w) :
    xs.foldl (· ^^^ ·) acc = acc ^^^ xorAll xs := by
  induction xs generalizing acc with
  | nil => simp
  | cons x xs ih => simp [ih, BitVec.xor_assoc]

theorem xorAll_perm {xs ys : List (BitVec w)} (h : xs.Perm ys) :
    xorAll xs = xorAll ys := by
  induction h with
  | nil => rfl
  | cons x _ ih => rw [xorAll_cons, xorAll_cons, ih]
  | swap x y rest =>
      simp only [xorAll_cons, ← BitVec.xor_assoc]
      rw [BitVec.xor_comm y x]
  | trans _ _ ih₁ ih₂ => exact ih₁.trans ih₂

/-- A word in place of another. -/
theorem xorAll_set {xs : List (BitVec w)} {j : Nat} {x : BitVec w}
    (hx : xs[j]? = some x) (y : BitVec w) :
    xorAll (xs.set j y) = y ^^^ (x ^^^ xorAll xs) := by
  induction xs generalizing j with
  | nil => cases hx
  | cons z xs ih =>
      cases j with
      | zero =>
          obtain rfl : z = x := Option.some.inj hx
          rw [List.set_cons_zero, xorAll_cons, xorAll_cons, ← BitVec.xor_assoc z,
            BitVec.xor_self, BitVec.zero_xor]
      | succ j =>
          rw [List.set_cons_succ, xorAll_cons, xorAll_cons, ih hx]
          ac_rfl

/-- With the sum in its place, a word is the sum of the list. -/
theorem xorAll_set_xorAll {xs : List (BitVec w)} {j : Nat} {x : BitVec w}
    (hx : xs[j]? = some x) : xorAll (xs.set j (xorAll xs)) = x := by
  rw [xorAll_set hx, BitVec.xor_comm x, ← BitVec.xor_assoc, BitVec.xor_self,
    BitVec.zero_xor]

/-- In a list that sums to zero, an element is the sum of the others. -/
theorem xorAll_eq_of_cons_eq_zero {x : BitVec w} {rest : List (BitVec w)}
    (h : xorAll (x :: rest) = 0) : xorAll rest = x := by
  have hcancel : x ^^^ (x ^^^ xorAll rest) = x ^^^ 0 := congrArg (x ^^^ ·) h
  rwa [← BitVec.xor_assoc, BitVec.xor_self, BitVec.zero_xor,
    BitVec.ofNat_eq_ofNat, BitVec.xor_zero] at hcancel

/-- Adding a word changes nothing exactly when the word is zero. -/
theorem xor_eq_left_iff (x y : BitVec w) : x ^^^ y = x ↔ y = 0 := by
  constructor
  · intro h
    have hcancel : x ^^^ (x ^^^ y) = x ^^^ x := congrArg (x ^^^ ·) h
    rwa [← BitVec.xor_assoc, BitVec.xor_self, BitVec.zero_xor] at hcancel
  · rintro rfl
    exact BitVec.xor_zero

end Lib
end OsKernel

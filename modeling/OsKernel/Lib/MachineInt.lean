import Mathlib.Tactic

/-!
# C integers

A C `int` is an `Int` kept in range by `wrap32` after each operation that can
leave it, and an unsigned 64-bit value is a `Nat` reduced by `toU64`.  Signed
overflow is taken as wrapping.
-/

namespace OsKernel
namespace Lib

/-- The value an `int` holds after a result `x` is stored in it. -/
def wrap32 (x : Int) : Int := x.bmod (2 ^ 32)

/-- The value a `uint64_t` holds after `x` is converted to it. -/
def toU64 (x : Int) : Nat := (x % 2 ^ 64).toNat

/-- The values an `int` can hold. -/
def FitsInt (x : Int) : Prop := -2 ^ 31 ≤ x ∧ x < 2 ^ 31

theorem wrap32_of_fitsInt {x : Int} (h : FitsInt x) : wrap32 x = x := by
  unfold FitsInt at h
  unfold wrap32 Int.bmod
  norm_num at h ⊢
  split <;> omega

/-- A result just above the range of `int`. -/
theorem wrap32_of_overflow {x : Int} (hlow : 2 ^ 31 ≤ x) (hhigh : x < 2 ^ 32) :
    wrap32 x = x - 2 ^ 32 := by
  unfold wrap32 Int.bmod
  norm_num at hlow hhigh ⊢
  omega

theorem fitsInt_wrap32 (x : Int) : FitsInt (wrap32 x) := by
  unfold FitsInt wrap32 Int.bmod
  norm_num
  split <;> omega

theorem toU64_of_nonneg {x : Int} (hpos : 0 ≤ x) (hlt : x < 2 ^ 64) :
    toU64 x = x.toNat := by
  unfold toU64
  rw [Int.emod_eq_of_lt hpos hlt]

theorem toU64_natCast {x : Nat} (hx : x < 2 ^ 64) : toU64 (x : Int) = x := by
  rw [toU64_of_nonneg (by omega) (by exact_mod_cast hx), Int.toNat_natCast]

theorem wrap32_natCast {x : Nat} (hx : x < 2 ^ 31) :
    wrap32 (x : Int) = (x : Int) :=
  wrap32_of_fitsInt ⟨by omega, by exact_mod_cast hx⟩

end Lib
end OsKernel

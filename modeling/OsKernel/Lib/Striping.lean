import Mathlib.Data.Set.Function
import Mathlib.Tactic

/-!
# Striping

A linear address is cut into chunks, and the chunks are dealt out in turn over
a number of columns.  `stripe` gives the column of an address and its address
in the column; whole rows of chunks are laid out one to one
(`bijOn_stripe`).
-/

namespace OsKernel
namespace Lib

/-- The column of an address and the address in the column, for `n` columns
and chunks of `c` addresses. -/
def stripe (c n x : Nat) : Nat × Nat :=
  (x / c % n, x / c / n * c + x % c)

/-- The address that `stripe` sends to a column and an address in it. -/
def unstripe (c n : Nat) (place : Nat × Nat) : Nat :=
  (place.2 / c * n + place.1) * c + place.2 % c

section Stripe

variable {c n : Nat}

/-- Address `offset` of block `block`, with blocks of size `c`. -/
theorem block_div_mod (block : Nat) {offset : Nat} (hoffset : offset < c) :
    (block * c + offset) / c = block ∧ (block * c + offset) % c = offset := by
  have hc : 0 < c := Nat.zero_lt_of_lt hoffset
  rw [Nat.mul_comm block c]
  constructor
  · rw [Nat.mul_add_div hc, Nat.div_eq_of_lt hoffset, Nat.add_zero]
  · rw [Nat.mul_add_mod, Nat.mod_eq_of_lt hoffset]

theorem block_lt {block offset k : Nat} (hblock : block < k)
    (hoffset : offset < c) : block * c + offset < k * c := by
  have hnext : (block + 1) * c ≤ k * c := Nat.mul_le_mul_right c hblock
  rw [Nat.succ_mul] at hnext
  omega

theorem unstripe_stripe (hc : 0 < c) (x : Nat) :
    unstripe c n (stripe c n x) = x := by
  obtain ⟨hrow, hoffset⟩ := block_div_mod (x / c / n) (Nat.mod_lt x hc)
  rw [unstripe, stripe, hrow, hoffset, Nat.div_add_mod', Nat.div_add_mod']

theorem stripe_unstripe (hc : 0 < c) {place : Nat × Nat}
    (hcolumn : place.1 < n) : stripe c n (unstripe c n place) = place := by
  obtain ⟨column, address⟩ := place
  obtain ⟨hchunk, hoffset⟩ :=
    block_div_mod (address / c * n + column) (Nat.mod_lt address hc)
  obtain ⟨hrow, hlast⟩ := block_div_mod (address / c) hcolumn
  rw [unstripe, stripe, hchunk, hoffset, hrow, hlast, Nat.div_add_mod']

/-- `k` rows of chunks are laid out one to one over the columns. -/
theorem bijOn_stripe (hc : 0 < c) (hn : 0 < n) (k : Nat) :
    Set.BijOn (stripe c n) (Set.Iio (k * n * c))
      (Set.Iio n ×ˢ Set.Iio (k * c)) := by
  refine Set.InvOn.bijOn
    ⟨fun x _ => unstripe_stripe hc x, ?_⟩ ?_ ?_
  · intro place hplace
    exact stripe_unstripe hc hplace.1
  · intro x hx
    have hchunk : x / c < k * n := (Nat.div_lt_iff_lt_mul hc).mpr hx
    have hrow : x / c / n < k := (Nat.div_lt_iff_lt_mul hn).mpr hchunk
    exact ⟨Nat.mod_lt _ hn, block_lt hrow (Nat.mod_lt x hc)⟩
  · rintro ⟨column, address⟩ ⟨hcolumn, haddress⟩
    have hrow : address / c < k := (Nat.div_lt_iff_lt_mul hc).mpr haddress
    exact block_lt (block_lt hrow hcolumn) (Nat.mod_lt address hc)

/-- Inside a chunk the next address is the next one in the same column. -/
theorem stripe_succ {x : Nat} (hsame : x % c + 1 < c) :
    stripe c n (x + 1) = ((stripe c n x).1, (stripe c n x).2 + 1) := by
  obtain ⟨hchunk, hoffset⟩ := block_div_mod (x / c) hsame
  rw [← Nat.add_assoc, Nat.div_add_mod'] at hchunk hoffset
  rw [stripe, stripe, hchunk, hoffset, Nat.add_assoc]

end Stripe
end Lib
end OsKernel

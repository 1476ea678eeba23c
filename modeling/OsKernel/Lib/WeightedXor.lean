import OsKernel.Lib.Xor

/-!
# Two check words over one list of words

A plain and a weighted sum under exclusive or: each word is multiplied by its
weight as an integer and cut to the width before it is added.  Such a product
does not distribute over exclusive or, so the weighted sum is not linear.  Still
the two sums determine two unknown words exactly when one of the two weights is
odd and the other even (`two_unknowns_iff`): an even weight moves what is known
of the low bits up by one position, an odd one keeps it in place.
-/

namespace OsKernel
namespace Lib

variable {w : Nat}

/-- A word times its weight, cut to the width. -/
def weighted (weight : Nat) (x : BitVec w) : BitVec w :=
  BitVec.ofNat w (x.toNat * weight)

@[simp] theorem toNat_weighted (weight : Nat) (x : BitVec w) :
    (weighted weight x).toNat = x.toNat * weight % 2 ^ w :=
  BitVec.toNat_ofNat _ _

/-- A loop with two accumulators computes both sums. -/
theorem foldl_xor_pair_eq {α : Type*} (f g : α → BitVec w) (xs : List α)
    (acc : BitVec w × BitVec w) :
    xs.foldl (fun acc x => (acc.1 ^^^ f x, acc.2 ^^^ g x)) acc =
      (acc.1 ^^^ xorAll (xs.map f), acc.2 ^^^ xorAll (xs.map g)) := by
  induction xs generalizing acc with
  | nil => simp
  | cons x xs ih => simp [ih, BitVec.xor_assoc]

/-- Two sums that differ in two summands only are equal exactly when those two
have the same sum. -/
theorem xorAll_map_eq_iff {ι : Type*} [DecidableEq ι] {f g : ι → BitVec w}
    {is : List ι} (hnodup : is.Nodup) {j k : ι} (hj : j ∈ is) (hk : k ∈ is)
    (hne : j ≠ k) (hsame : ∀ i, i ≠ j → i ≠ k → f i = g i) :
    xorAll (is.map f) = xorAll (is.map g) ↔ f j ^^^ f k = g j ^^^ g k := by
  have hk' : k ∈ is.erase j := (List.mem_erase_of_ne hne.symm).mpr hk
  have hperm : is.Perm (j :: k :: (is.erase j).erase k) :=
    (List.perm_cons_erase hj).trans ((List.perm_cons_erase hk').cons j)
  have hrest : ((is.erase j).erase k).map f = ((is.erase j).erase k).map g := by
    refine List.map_congr_left fun i hi => hsame i ?_ ?_
    · rintro rfl
      exact hnodup.not_mem_erase (List.mem_of_mem_erase hi)
    · rintro rfl
      exact (hnodup.erase j).not_mem_erase hi
  rw [xorAll_perm (hperm.map f), xorAll_perm (hperm.map g), List.map_cons,
    List.map_cons, List.map_cons, List.map_cons, hrest]
  simp only [xorAll_cons, ← BitVec.xor_assoc]
  exact BitVec.xor_left_inj _

/-! ## Two unknown words -/

/-- Equal sums and equal low bits of one summand give equal low bits of the
other. -/
theorem mod_eq_of_xor_eq {x y x' y' : BitVec w} {m : Nat}
    (hsum : x ^^^ y = x' ^^^ y') (hx : x.toNat % 2 ^ m = x'.toNat % 2 ^ m) :
    y.toNat % 2 ^ m = y'.toNat % 2 ^ m := by
  have hmod := congrArg (fun z : BitVec w => z.toNat % 2 ^ m) hsum
  simp only [BitVec.toNat_xor, Nat.xor_mod_two_pow, hx] at hmod
  have hcancel := congrArg (x'.toNat % 2 ^ m ^^^ ·) hmod
  simpa only [← Nat.xor_assoc, Nat.xor_self, Nat.zero_xor] using hcancel

/-- An even weight lets one more bit be known. -/
theorem weighted_mod_succ {weight : Nat} (heven : weight % 2 = 0)
    {y y' : BitVec w} {m : Nat} (hlt : m < w)
    (hy : y.toNat % 2 ^ m = y'.toNat % 2 ^ m) :
    (weighted weight y).toNat % 2 ^ (m + 1) =
      (weighted weight y').toNat % 2 ^ (m + 1) := by
  obtain ⟨half, rfl⟩ := Nat.dvd_of_mod_eq_zero heven
  have hdvd : 2 ^ (m + 1) ∣ 2 ^ w := Nat.pow_dvd_pow 2 hlt
  rw [toNat_weighted, toNat_weighted, Nat.mod_mod_of_dvd _ hdvd,
    Nat.mod_mod_of_dvd _ hdvd]
  have hdouble : 2 * y.toNat ≡ 2 * y'.toNat [MOD 2 * 2 ^ m] :=
    Nat.ModEq.mul_left' 2 hy
  rw [← Nat.pow_succ'] at hdouble
  have hmul := hdouble.mul_right half
  calc y.toNat * (2 * half) % 2 ^ (m + 1)
      = 2 * y.toNat * half % 2 ^ (m + 1) := by ring_nf
    _ = 2 * y'.toNat * half % 2 ^ (m + 1) := hmul
    _ = y'.toNat * (2 * half) % 2 ^ (m + 1) := by ring_nf

/-- An odd weight keeps the low bits apart. -/
theorem mod_eq_of_weighted_mod_eq {weight : Nat} (hodd : weight % 2 = 1)
    {x x' : BitVec w} {m : Nat} (hle : m ≤ w)
    (h : (weighted weight x).toNat % 2 ^ m =
      (weighted weight x').toNat % 2 ^ m) :
    x.toNat % 2 ^ m = x'.toNat % 2 ^ m := by
  have hdvd : 2 ^ m ∣ 2 ^ w := Nat.pow_dvd_pow 2 hle
  have hcoprime : Nat.Coprime (2 ^ m) weight :=
    ((Nat.coprime_two_left).mpr (Nat.odd_iff.mpr hodd)).pow_left m
  rw [toNat_weighted, toNat_weighted, Nat.mod_mod_of_dvd _ hdvd,
    Nat.mod_mod_of_dvd _ hdvd] at h
  exact Nat.ModEq.cancel_right_of_coprime hcoprime h

/-- The plain and the weighted sum of two words determine both if the first
weight is odd and the second even. -/
theorem eq_of_sums_eq {a b : Nat} (ha : a % 2 = 1) (hb : b % 2 = 0)
    {x y x' y' : BitVec w} (hsum : x ^^^ y = x' ^^^ y')
    (hweighted : weighted a x ^^^ weighted b y =
      weighted a x' ^^^ weighted b y') : x = x' ∧ y = y' := by
  -- the low bits of both words, from the lowest one up
  have hlow (m : Nat) (hle : m ≤ w) : x.toNat % 2 ^ m = x'.toNat % 2 ^ m := by
    induction m with
    | zero => rw [Nat.pow_zero, Nat.mod_one, Nat.mod_one]
    | succ m ih =>
        have hy := mod_eq_of_xor_eq hsum (ih (by omega))
        have hby := weighted_mod_succ hb hle hy
        rw [BitVec.xor_comm, BitVec.xor_comm (weighted a x')] at hweighted
        exact mod_eq_of_weighted_mod_eq ha hle (mod_eq_of_xor_eq hweighted hby)
  have hword := hlow w le_rfl
  rw [Nat.mod_eq_of_lt x.isLt, Nat.mod_eq_of_lt x'.isLt] at hword
  have hx : x = x' := BitVec.eq_of_toNat_eq hword
  rw [hx] at hsum
  exact ⟨hx, (BitVec.xor_right_inj x').mp hsum⟩

/-- Of the weight of the word `2 ^ v`, the top bit alone, only the parity
matters. -/
theorem weighted_topBit {v a b : Nat} (hparity : a % 2 = b % 2) :
    weighted a (BitVec.twoPow (v + 1) v) =
      weighted b (BitVec.twoPow (v + 1) v) := by
  have hlt : 2 ^ v < 2 ^ (v + 1) := Nat.pow_lt_pow_succ one_lt_two
  apply BitVec.eq_of_toNat_eq
  rw [toNat_weighted, toNat_weighted, BitVec.toNat_twoPow,
    Nat.mod_eq_of_lt hlt, Nat.pow_succ, Nat.mul_mod_mul_left,
    Nat.mul_mod_mul_left, hparity]

/-- The plain and the weighted sum of two words determine both exactly when
the weights differ in parity. -/
theorem two_unknowns_iff (v a b : Nat) :
    (∀ x y x' y' : BitVec (v + 1), x ^^^ y = x' ^^^ y' →
      weighted a x ^^^ weighted b y = weighted a x' ^^^ weighted b y' →
      x = x' ∧ y = y') ↔ a % 2 ≠ b % 2 := by
  constructor
  · -- with equal parity the top bit of both words cancels in both sums
    intro hdetermined hparity
    have hzero : BitVec.twoPow (v + 1) v = 0 := by
      refine (hdetermined _ (BitVec.twoPow (v + 1) v) 0 0 ?_ ?_).1
      · rw [BitVec.xor_self, BitVec.xor_self]
      · rw [weighted_topBit hparity, BitVec.xor_self]
        simp [weighted]
    have hnat := congrArg BitVec.toNat hzero
    rw [BitVec.toNat_twoPow,
      Nat.mod_eq_of_lt (Nat.pow_lt_pow_succ one_lt_two)] at hnat
    exact (Nat.two_pow_pos v).ne' hnat
  · intro hparity x y x' y' hsum hweighted
    rcases Nat.mod_two_eq_zero_or_one a with ha | ha
    · rw [BitVec.xor_comm x, BitVec.xor_comm x'] at hsum
      rw [BitVec.xor_comm (weighted a x), BitVec.xor_comm (weighted a x')]
        at hweighted
      exact (eq_of_sums_eq (by omega) ha hsum hweighted).symm
    · exact eq_of_sums_eq ha (by omega) hsum hweighted

end Lib
end OsKernel

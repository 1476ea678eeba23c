import Mathlib.Data.Nat.ChineseRemainder
import Mathlib.Data.Nat.Periodic
import Mathlib.Tactic

/-!
# Residues in a window

Among `a * b` consecutive numbers, `a` and `b` coprime, each residue modulo `a`
meets each residue modulo `b` exactly once.  A condition that names one residue
modulo `b` for each residue modulo `a` is therefore met by `a` of them, wherever
the window starts.
-/

namespace OsKernel
namespace Lib
namespace ResidueWindow

variable {a b : Nat}

/-- The residue modulo `b` is the one given for the residue modulo `a`. -/
def Meets (a b : Nat) (f : Nat → Nat) (x : Nat) : Prop := x ≡ f (x % a) [MOD b]

instance (f : Nat → Nat) : DecidablePred (Meets a b f) :=
  fun _ => inferInstanceAs (Decidable (_ ≡ _ [MOD b]))

theorem meets_periodic (f : Nat → Nat) :
    Function.Periodic (Meets a b f) (a * b) := by
  intro x
  have ha : (x + a * b) % a = x % a := Nat.add_mul_mod_self_left x a b
  have hb : (x + a * b) % b = x % b := Nat.add_mul_mod_self_right x a b
  simp only [Meets, Nat.ModEq, ha, hb]

/-- From the start of the numbers on, the residue modulo `a` tells the numbers
that meet the condition apart, and every residue has one. -/
theorem count_meets (hcoprime : a.Coprime b) (ha : 0 < a) (hb : 0 < b)
    (f : Nat → Nat) : (a * b).count (Meets a b f) = a := by
  rw [Nat.count_eq_card_filter_range]
  conv_rhs => rw [← Finset.card_range a]
  apply Finset.card_bij fun x _ => x % a
  · intro x _
    exact Finset.mem_range.mpr (Nat.mod_lt x ha)
  · intro x hx y hy hsame
    simp only [Finset.mem_filter, Finset.mem_range] at hx hy
    have hmodb : x ≡ y [MOD b] := by
      refine hx.2.trans ?_
      rw [hsame]
      exact hy.2.symm
    have hmod : x ≡ y [MOD a * b] :=
      (Nat.modEq_and_modEq_iff_modEq_mul hcoprime).mp ⟨hsame, hmodb⟩
    exact hmod.eq_of_lt_of_lt hx.1 hy.1
  · intro r hr
    have hlt := Finset.mem_range.mp hr
    obtain ⟨hmoda, hmodb⟩ := (Nat.chineseRemainder hcoprime r (f r)).prop
    have hres : (Nat.chineseRemainder hcoprime r (f r)).val % a = r :=
      Eq.trans hmoda (Nat.mod_eq_of_lt hlt)
    refine ⟨Nat.chineseRemainder hcoprime r (f r), ?_, hres⟩
    rw [Finset.mem_filter, Finset.mem_range]
    refine ⟨Nat.chineseRemainder_lt_mul hcoprime r (f r) ha.ne' hb.ne', ?_⟩
    rw [Meets, hres]
    exact hmodb

/-- Any window of `a * b` numbers has `a` that meet the condition. -/
theorem card_window_meets (hcoprime : a.Coprime b) (ha : 0 < a) (hb : 0 < b)
    (f : Nat → Nat) (start : Nat) :
    ((Finset.Ico start (start + a * b)).filter (Meets a b f)).card = a := by
  rw [Nat.filter_Ico_card_eq_of_periodic start (a * b) _ (meets_periodic f)]
  exact count_meets hcoprime ha hb f

end ResidueWindow
end Lib
end OsKernel

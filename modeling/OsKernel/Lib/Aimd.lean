import Mathlib.Tactic

/-!
# Additive-increase windows

A sender's window over the natural numbers, with segment size `m`: it grows by
one segment an acknowledgement below a threshold (slow start), by
`m * m / cwnd` above it (avoidance), and is cut on loss.  `Window.Bounded`
collects the bounds that every sequence of events keeps, whatever `m` is, as
long as a few segments fit below `m * m`.
-/

namespace OsKernel
namespace Lib

/-- The two modes of growth. -/
inductive Phase
  | slowStart
  | avoidance
  deriving DecidableEq, Repr

/-- The window and the threshold, in bytes. -/
structure Window where
  cwnd : Nat
  ssthresh : Nat
  phase : Phase
  dupacks : Nat
  deriving DecidableEq, Repr

/-- What the sender reacts to. -/
inductive Signal
  | ack
  | dupack
  | timeout
  deriving DecidableEq, Repr

/-- Half of the window in whole segments, the window rounded up. -/
def halved (m w : Nat) : Nat := (w + m - 1) / m / 2 * m

namespace Window

/-- One segment more in slow start, which ends at the threshold; a share of a
segment more in avoidance. -/
def onAck (m : Nat) (w : Window) : Window :=
  match w.phase with
  | .slowStart =>
      { w with
        cwnd := w.cwnd + m
        phase := if w.ssthresh ≤ w.cwnd + m then .avoidance
          else .slowStart }
  | .avoidance => { w with cwnd := w.cwnd + m * m / w.cwnd }

/-- The third duplicate halves the window. -/
def onDupack (m : Nat) (w : Window) : Window :=
  if w.dupacks + 1 = 3 then
    { cwnd := halved m w.cwnd + 3 * m
      ssthresh := halved m w.cwnd
      phase := .avoidance
      dupacks := 0 }
  else { w with dupacks := w.dupacks + 1 }

/-- A timeout cuts the window to one segment. -/
def onTimeout (m : Nat) (w : Window) : Window :=
  { cwnd := m
    ssthresh := halved m w.cwnd
    phase := .slowStart
    dupacks := 0 }

/-- The reaction to one signal. -/
def react (m : Nat) (w : Window) : Signal → Window
  | .ack => w.onAck m
  | .dupack => w.onDupack m
  | .timeout => w.onTimeout m

/-- The bounds every run keeps.  A window in slow start is below the threshold
or has just been cut to one segment. -/
structure Bounded (m : Nat) (w : Window) : Prop where
  segment_le : m ≤ w.cwnd
  cwnd_le : w.cwnd ≤ m * m + 1
  avoidance : w.phase = .avoidance → 2 * m ≤ w.cwnd
  slowStart : w.phase = .slowStart → w.cwnd < w.ssthresh ∨ w.cwnd = m
  dvd_ssthresh : m ∣ w.ssthresh
  ssthresh_le : w.ssthresh ≤ (m + 1) / 2 * m
  dupacks_lt : w.dupacks < 3

end Window

/-- The map of the avoidance phase is largest at the ends of its range. -/
theorem add_div_le_succ {k x : Nat} (hpos : 0 < x) (hle : x ≤ k + 1) :
    x + k / x ≤ k + 1 := by
  rcases Nat.lt_or_ge k x with hlt | hge
  · rw [Nat.div_eq_of_lt hlt]
    exact hle
  · -- `(x - 1) * (k / x - 1)` is not negative
    have hquot : 1 ≤ k / x := (Nat.one_le_div_iff hpos).mpr hge
    have hmul : x * (k / x) ≤ k := Nat.mul_div_le k x
    nlinarith [Nat.mul_le_mul hpos hquot]

theorem halved_le {m w : Nat} (hm : 0 < m) (hw : w ≤ m * m + 1) :
    halved m w ≤ (m + 1) / 2 * m := by
  have hsegments : (w + m - 1) / m ≤ m + 1 := by
    calc (w + m - 1) / m
        ≤ (m + 1) * m / m := Nat.div_le_div_right (by rw [Nat.add_mul]; omega)
      _ = m + 1 := Nat.mul_div_cancel _ hm
  exact Nat.mul_le_mul_right m (Nat.div_le_div_right hsegments)

theorem dvd_halved (m w : Nat) : m ∣ halved m w := Nat.dvd_mul_left m _

/-- The window rounded up to whole segments. -/
theorem segments_bounds {m : Nat} (hm : 0 < m) (w : Nat) :
    w ≤ (w + m - 1) / m * m ∧ (w + m - 1) / m * m < w + m := by
  have hmod := Nat.mod_lt (w + m - 1) hm
  have hdiv := Nat.div_add_mod (w + m - 1) m
  rw [Nat.mul_comm] at hdiv
  omega

/-- Half of a window has two segments if the window has more than three. -/
theorem two_mul_le_halved_iff {m w : Nat} (hm : 0 < m) :
    2 * m ≤ halved m w ↔ 3 * m < w := by
  obtain ⟨hlow, hhigh⟩ := segments_bounds hm w
  unfold halved
  generalize (w + m - 1) / m = k at *
  rw [Nat.mul_le_mul_right_iff hm]
  constructor
  · intro htwo
    have hfour : 4 * m ≤ k * m := Nat.mul_le_mul_right m (by omega)
    omega
  · intro hlarge
    by_contra hfew
    have hthree : k * m ≤ 3 * m := Nat.mul_le_mul_right m (by omega)
    omega

/-- Half of a window and three segments are no more than the window if it is
exactly five segments, or at least six. -/
theorem halved_add_three_le_iff {m w : Nat} (hm : 0 < m) :
    halved m w + 3 * m ≤ w ↔ w = 5 * m ∨ 6 * m ≤ w := by
  obtain ⟨hlow, hhigh⟩ := segments_bounds hm w
  unfold halved
  generalize (w + m - 1) / m = k at *
  rw [← Nat.add_mul]
  rcases Nat.lt_or_ge k 7 with hfew | hmany
  · interval_cases k <;> omega
  · -- the window has more than `k - 1` segments
    have hhalf : (k / 2 + 3 + 1) * m ≤ k * m :=
      Nat.mul_le_mul_right m (by omega)
    have hseven : 7 * m ≤ k * m := Nat.mul_le_mul_right m hmany
    rw [Nat.succ_mul] at hhalf
    omega

/-- Three segments more than half of the largest window still fit. -/
theorem half_add_three_le {m : Nat} (hm : 7 ≤ m) :
    (m + 1) / 2 * m + 3 * m ≤ m * m := by
  rw [← Nat.add_mul]
  exact Nat.mul_le_mul_right m (by omega)

namespace Window

variable {m : Nat} {w : Window}

theorem Bounded.onAck (hw : Bounded m w) (hm : 7 ≤ m) :
    Bounded m (w.onAck m) := by
  have hfits := half_add_three_le hm
  have hle := hw.segment_le
  unfold Window.onAck
  split
  case h_1 hphase =>
    have hcwnd : w.cwnd + m ≤ m * m + 1 := by
      rcases hw.slowStart hphase with hlt | heq
      · have hthresh := hw.ssthresh_le
        omega
      · omega
    exact {
      segment_le := Nat.le_add_left m _
      cwnd_le := hcwnd
      avoidance := fun _ => by simp only; omega
      slowStart := by
        intro hstays
        simp only at hstays ⊢
        split_ifs at hstays with hreached
        exact .inl (by omega)
      dvd_ssthresh := hw.dvd_ssthresh
      ssthresh_le := hw.ssthresh_le
      dupacks_lt := hw.dupacks_lt }
  case h_2 hphase =>
    have hpos : 0 < w.cwnd := by omega
    exact { hw with
      segment_le := hle.trans (Nat.le_add_right _ _)
      cwnd_le := add_div_le_succ hpos hw.cwnd_le
      avoidance := fun _ => (hw.avoidance hphase).trans (Nat.le_add_right _ _)
      slowStart := fun hslow => by simp [hphase] at hslow }

theorem Bounded.onDupack (hw : Bounded m w) (hm : 7 ≤ m) :
    Bounded m (w.onDupack m) := by
  have hfits := half_add_three_le hm
  have hhalved := halved_le (by omega : 0 < m) hw.cwnd_le
  have hlt := hw.dupacks_lt
  unfold Window.onDupack
  split
  · exact {
      segment_le := by simp only; omega
      cwnd_le := by simp only; omega
      avoidance := fun _ => by simp only; omega
      slowStart := fun hslow => by simp at hslow
      dvd_ssthresh := dvd_halved m _
      ssthresh_le := hhalved
      dupacks_lt := by simp }
  · exact { hw with dupacks_lt := by simp only; omega }

theorem Bounded.onTimeout (hw : Bounded m w) (hm : 7 ≤ m) :
    Bounded m (w.onTimeout m) := by
  have hfits := half_add_three_le hm
  exact {
    segment_le := Nat.le_refl m
    cwnd_le := by simp only [Window.onTimeout]; omega
    avoidance := fun havoid => by simp [Window.onTimeout] at havoid
    slowStart := fun _ => .inr rfl
    dvd_ssthresh := dvd_halved m _
    ssthresh_le := halved_le (by omega) hw.cwnd_le
    dupacks_lt := by simp [Window.onTimeout] }

theorem Bounded.react (hw : Bounded m w) (hm : 7 ≤ m) (signal : Signal) :
    Bounded m (w.react m signal) := by
  cases signal with
  | ack => exact hw.onAck hm
  | dupack => exact hw.onDupack hm
  | timeout => exact hw.onTimeout hm

end Window
end Lib
end OsKernel

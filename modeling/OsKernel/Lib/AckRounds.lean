import OsKernel.Lib.Aimd
import Mathlib.Tactic

/-!
# Rounds of acknowledgements

In a round every segment of the window is acknowledged once, the last one also
if it is not full.  In slow start a round doubles the window, so slow start
ends after as many rounds as the threshold has doublings.  In avoidance an
acknowledgement adds `m * m / cwnd`; the square of the window grows by at most
twice `m * m` and a small rest, which bounds what a round adds.
-/

namespace OsKernel
namespace Lib

/-! ## The map of the avoidance phase -/

section Grow

/-- One acknowledgement in avoidance. -/
def grow (k c : Nat) : Nat := c + k / c

variable {k c : Nat}

theorem grow_iterate_succ (n : Nat) :
    (grow k)^[n + 1] c = (grow k)^[n] c + k / (grow k)^[n] c :=
  Function.iterate_succ_apply' (grow k) n c

theorem le_grow_iterate (n : Nat) : c ≤ (grow k)^[n] c := by
  induction n with
  | zero => exact le_rfl
  | succ n ih =>
      rw [grow_iterate_succ]
      exact ih.trans (Nat.le_add_right _ _)

/-- No later step adds more than the first one. -/
theorem grow_iterate_share (hc : 0 < c) (n : Nat) :
    k / (grow k)^[n] c ≤ k / c :=
  Nat.div_le_div_left (le_grow_iterate n) hc

theorem grow_iterate_le (hc : 0 < c) (n : Nat) :
    (grow k)^[n] c ≤ c + n * (k / c) := by
  induction n with
  | zero => simp
  | succ n ih =>
      have hshare := grow_iterate_share (k := k) hc n
      rw [grow_iterate_succ, Nat.succ_mul]
      omega

/-- The square grows by at most `2 * k` and the square of the first step. -/
theorem grow_iterate_sq_le (hc : 0 < c) (n : Nat) :
    ((grow k)^[n] c) ^ 2 ≤ c ^ 2 + n * (2 * k + (k / c) ^ 2) := by
  induction n with
  | zero => simp
  | succ n ih =>
      rw [grow_iterate_succ]
      generalize hw : (grow k)^[n] c = w at ih
      have hmul : w * (k / w) ≤ k := Nat.mul_div_le k w
      have hshare : (k / w) ^ 2 ≤ (k / c) ^ 2 := by
        rw [← hw]
        exact Nat.pow_le_pow_left (grow_iterate_share hc n) 2
      calc (w + k / w) ^ 2
          = w ^ 2 + 2 * (w * (k / w)) + (k / w) ^ 2 := by ring
        _ ≤ (c ^ 2 + n * (2 * k + (k / c) ^ 2)) + 2 * k + (k / c) ^ 2 := by
            omega
        _ = c ^ 2 + (n + 1) * (2 * k + (k / c) ^ 2) := by ring

/-- The window grows at all exactly if the first step adds something. -/
theorem lt_grow_iterate_iff (hc : 0 < c) {n : Nat} (hn : 0 < n) :
    c < (grow k)^[n] c ↔ c ≤ k := by
  constructor
  · intro hlt
    by_contra hgt
    have hle := grow_iterate_le (k := k) hc n
    rw [Nat.div_eq_of_lt (by omega), Nat.mul_zero] at hle
    omega
  · intro hle
    obtain ⟨n, rfl⟩ := Nat.exists_eq_succ_of_ne_zero hn.ne'
    have hfirst : 1 ≤ k / c := (Nat.one_le_div_iff hc).mpr hle
    calc c < c + k / c := by omega
      _ ≤ (grow k)^[n] (grow k c) := le_grow_iterate n
      _ = (grow k)^[n + 1] c := rfl

/-- The window climbs until it is `k + 1`, where a step adds nothing. -/
theorem exists_grow_iterate_eq (hc : 0 < c) (hle : c ≤ k + 1) :
    ∃ n, (grow k)^[n] c = k + 1 := by
  induction hgap : k + 1 - c using Nat.strong_induction_on generalizing c with
  | _ gap ih =>
      rcases Nat.lt_or_ge k c with htop | hbelow
      · exact ⟨0, by show c = k + 1; omega⟩
      · have hstep : 1 ≤ k / c := (Nat.one_le_div_iff hc).mpr hbelow
        have hnext : grow k c ≤ k + 1 := add_div_le_succ hc hle
        have hgrow : grow k c = c + k / c := rfl
        obtain ⟨n, hn⟩ := ih (k + 1 - grow k c) (by omega) (by omega) hnext rfl
        exact ⟨n + 1, hn⟩

/-- A round of `n` steps adds at most `m` if the squares leave room for it. -/
theorem grow_iterate_le_add {m n : Nat} (hc : 0 < c)
    (hroom : n * (2 * k + (k / c) ^ 2) ≤ 2 * c * m + m ^ 2) :
    (grow k)^[n] c ≤ c + m := by
  have hsq := grow_iterate_sq_le (k := k) hc n
  have hbound : ((grow k)^[n] c) ^ 2 ≤ (c + m) ^ 2 := by
    calc ((grow k)^[n] c) ^ 2
        ≤ c ^ 2 + (2 * c * m + m ^ 2) := by omega
      _ = (c + m) ^ 2 := by ring
  exact (Nat.pow_le_pow_iff_left two_ne_zero).mp hbound

end Grow

namespace Window

/-- The segments of a window, the last one perhaps not full. -/
def segments (m w : Nat) : Nat := (w + m - 1) / m

/-- A number of acknowledgements. -/
def acks (m n : Nat) (w : Window) : Window := (onAck m)^[n] w

/-- Every segment of the window is acknowledged. -/
def round (m : Nat) (w : Window) : Window := w.acks m (segments m w.cwnd)

/-- Rounds until slow start is over, at most the given number. -/
def slowStartLoop (m : Nat) : Nat → Window → Window
  | 0, w => w
  | rounds + 1, w =>
      if w.phase = .slowStart then slowStartLoop m rounds (w.round m) else w

variable {m n : Nat} {w : Window}

theorem segments_pos (hm : 0 < m) {c : Nat} (hc : 0 < c) :
    0 < segments m c :=
  Nat.div_pos (by omega) hm

theorem segments_mul_of_dvd (hm : 0 < m) {c : Nat} (hdvd : m ∣ c) :
    segments m c * m = c := by
  obtain ⟨q, rfl⟩ := hdvd
  have hq : segments m (m * q) = q := by
    unfold segments
    rw [Nat.add_sub_assoc hm, Nat.mul_add_div hm, Nat.div_eq_of_lt (by omega)]
    rfl
  rw [hq, Nat.mul_comm]

theorem acks_succ (n : Nat) (w : Window) :
    w.acks m (n + 1) = (w.acks m n).onAck m :=
  Function.iterate_succ_apply' (onAck m) n w

theorem Bounded.acks (hw : Bounded m w) (hm : 7 ≤ m) (n : Nat) :
    Bounded m (w.acks m n) := by
  induction n with
  | zero => exact hw
  | succ n ih =>
      rw [acks_succ]
      exact ih.onAck hm

@[simp] theorem onAck_ssthresh (m : Nat) (w : Window) :
    (w.onAck m).ssthresh = w.ssthresh := by
  unfold onAck
  split
  · rfl
  · rfl

@[simp] theorem acks_ssthresh (n : Nat) (w : Window) :
    (w.acks m n).ssthresh = w.ssthresh := by
  induction n with
  | zero => rfl
  | succ n ih => rw [acks_succ, onAck_ssthresh, ih]

/-! ## Slow start -/

/-- In slow start the window is a number of whole segments. -/
def Whole (m : Nat) (w : Window) : Prop := w.phase = .slowStart → m ∣ w.cwnd

theorem Whole.react (hw : Whole m w) (signal : Signal) :
    Whole m (w.react m signal) := by
  intro hslow
  cases signal with
  | ack =>
      cases hphase : w.phase with
      | slowStart =>
          simp only [Window.react, onAck, hphase]
          exact Nat.dvd_add_self_right.mpr (hw hphase)
      | avoidance => simp [Window.react, onAck, hphase] at hslow
  | dupack =>
      simp only [Window.react, onDupack] at hslow ⊢
      split at hslow
      · cases hslow
      next hfew =>
          rw [if_neg hfew]
          exact hw hslow
  | timeout => exact dvd_rfl

/-- An acknowledgement that leaves the window in slow start adds a segment and
leaves it below the threshold. -/
theorem slowStart_of_onAck (h : (w.onAck m).phase = .slowStart) :
    w.phase = .slowStart ∧ (w.onAck m).cwnd = w.cwnd + m ∧
      (w.onAck m).cwnd < w.ssthresh := by
  cases hphase : w.phase with
  | avoidance => simp [onAck, hphase] at h
  | slowStart =>
      have hcwnd : (w.onAck m).cwnd = w.cwnd + m := by simp [onAck, hphase]
      simp only [onAck, hphase] at h
      split at h
      · cases h
      next hbelow =>
          rw [hcwnd]
          exact ⟨rfl, rfl, Nat.lt_of_not_le hbelow⟩

theorem slowStart_of_acks (h : (w.acks m n).phase = .slowStart) :
    w.phase = .slowStart ∧ (w.acks m n).cwnd = w.cwnd + n * m := by
  induction n with
  | zero => exact ⟨h, by simp [acks]⟩
  | succ n ih =>
      rw [acks_succ] at h ⊢
      obtain ⟨hbefore, hcwnd, -⟩ := slowStart_of_onAck h
      obtain ⟨hstart, hsum⟩ := ih hbefore
      exact ⟨hstart, by rw [hcwnd, hsum, Nat.succ_mul, Nat.add_assoc]⟩

theorem lt_ssthresh_of_acks (hn : 0 < n)
    (h : (w.acks m n).phase = .slowStart) :
    (w.acks m n).cwnd < w.ssthresh := by
  obtain ⟨n, rfl⟩ := Nat.exists_eq_succ_of_ne_zero hn.ne'
  rw [Nat.succ_eq_add_one, acks_succ] at h ⊢
  obtain ⟨-, -, hbelow⟩ := slowStart_of_onAck h
  rwa [acks_ssthresh] at hbelow

/-- A round that stays in slow start doubles the window, and the window is then
still below the threshold. -/
theorem round_of_slowStart (hm : 0 < m) (hpos : 0 < w.cwnd) (hw : Whole m w)
    (h : (w.round m).phase = .slowStart) :
    (w.round m).cwnd = 2 * w.cwnd ∧ (w.round m).cwnd < w.ssthresh := by
  obtain ⟨hstart, hsum⟩ := slowStart_of_acks h
  constructor
  · rw [round, hsum, segments_mul_of_dvd hm (hw hstart), Nat.two_mul]
  · exact lt_ssthresh_of_acks (segments_pos hm hpos) h

theorem Whole.acks (hw : Whole m w) (n : Nat) : Whole m (w.acks m n) := by
  induction n with
  | zero => exact hw
  | succ n ih =>
      rw [acks_succ]
      exact ih.react .ack

theorem slowStartLoop_of_avoidance (h : w.phase = .avoidance) (rounds : Nat) :
    slowStartLoop m rounds w = w := by
  cases rounds with
  | zero => rfl
  | succ rounds => rw [slowStartLoop, if_neg (by rw [h]; decide)]

/-- Only the windows that a round leaves in slow start are of interest. -/
theorem slowStartLoop_succ {rounds : Nat}
    (hnext : (w.round m).phase = .slowStart →
      (slowStartLoop m rounds (w.round m)).phase = .avoidance) :
    (slowStartLoop m (rounds + 1) w).phase = .avoidance := by
  cases hphase : w.phase with
  | avoidance => rwa [slowStartLoop_of_avoidance hphase]
  | slowStart =>
      rw [slowStartLoop, if_pos hphase]
      cases hround : (w.round m).phase with
      | avoidance => rwa [slowStartLoop_of_avoidance hround]
      | slowStart => exact hnext hround

/-- Slow start is over after as many rounds as the threshold has doublings of
the window. -/
theorem slowStartLoop_avoidance (hm : 0 < m) (rounds : Nat)
    (hpos : 0 < w.cwnd) (hw : Whole m w)
    (hthresh : w.ssthresh ≤ 2 ^ (rounds + 1) * w.cwnd) :
    (slowStartLoop m (rounds + 1) w).phase = .avoidance := by
  induction rounds generalizing w with
  | zero =>
      apply slowStartLoop_succ
      intro hphase
      obtain ⟨hdouble, hbelow⟩ := round_of_slowStart hm hpos hw hphase
      omega
  | succ rounds ih =>
      apply slowStartLoop_succ
      intro hphase
      obtain ⟨hdouble, -⟩ := round_of_slowStart hm hpos hw hphase
      apply ih
      · omega
      · exact hw.acks _
      · rw [hdouble]
        calc (w.round m).ssthresh
            = w.ssthresh := acks_ssthresh _ w
          _ ≤ 2 ^ (rounds + 1 + 1) * w.cwnd := hthresh
          _ = 2 ^ (rounds + 1) * (2 * w.cwnd) := by ring

/-! ## Avoidance -/

theorem acks_of_avoidance (h : w.phase = .avoidance) (n : Nat) :
    (w.acks m n).phase = .avoidance ∧
      (w.acks m n).cwnd = (grow (m * m))^[n] w.cwnd := by
  induction n with
  | zero => exact ⟨h, rfl⟩
  | succ n ih =>
      rw [acks_succ, grow_iterate_succ, ← ih.2]
      simp only [onAck, ih.1, and_self]

/-- A round of avoidance adds at most half a segment more than a segment. -/
theorem round_share_le (hm : 0 < m) {c : Nat} (hc : 2 * m ≤ c) :
    segments m c * (m * m / c) ≤ m + m / 2 := by
  have hsegments : segments m c * m ≤ c + m := by
    calc segments m c * m ≤ c + m - 1 := Nat.div_mul_le_self _ m
      _ ≤ c + m := by omega
  have hshare : c * (m * m / c) ≤ m * m := Nat.mul_div_le _ c
  have hhalf : 2 * (m * m / c) ≤ m := by
    have hmul : 2 * m * (m * m / c) ≤ m * m :=
      (Nat.mul_le_mul_right _ hc).trans hshare
    nlinarith
  have hscaled : m * (2 * (segments m c * (m * m / c))) ≤ m * (3 * m) := by
    calc m * (2 * (segments m c * (m * m / c)))
        = segments m c * m * (2 * (m * m / c)) := by ring
      _ ≤ (c + m) * (2 * (m * m / c)) := Nat.mul_le_mul_right _ hsegments
      _ = 2 * (c * (m * m / c)) + m * (2 * (m * m / c)) := by ring
      _ ≤ 2 * (m * m) + m * m := by
          exact Nat.add_le_add (Nat.mul_le_mul_left 2 hshare)
            (Nat.mul_le_mul_left m hhalf)
      _ = m * (3 * m) := by ring
  have htwice := Nat.le_of_mul_le_mul_left hscaled hm
  omega

end Window
end Lib
end OsKernel

import OsKernel.Lib.AckRounds

/-!
# Two windows under the same signals

Additive increase keeps the distance of two windows or makes it smaller, as the
larger one gets the smaller share; a loss halves it up to a segment.  So two
senders in avoidance that see the same signals come together, whatever the
windows they start with: after `n` losses the distance is at most two segments
more than the `2 ^ n`-th part of the first one.

Without losses every window climbs to `m * m + 1` and stays there.
-/

namespace OsKernel
namespace Lib

section Maps

variable {m k c c' : Nat}

/-- The avoidance phase keeps the order of two windows of at least two
segments. -/
theorem grow_le_grow (hm : 0 < m) (hc : 2 * m ≤ c) (hle : c ≤ c') :
    grow (m * m) c ≤ grow (m * m) c' := by
  obtain ⟨d, rfl⟩ := Nat.exists_eq_add_of_le hle
  -- The larger window's share is less than a segment, so it loses less than
  -- the `d` bytes it is ahead.
  have hshare : m * m / (c + d) ≤ m := by
    calc m * m / (c + d) ≤ m * m / m := Nat.div_le_div_left (by omega) hm
      _ = m := Nat.mul_div_cancel _ hm
  have hlost : m * m / c ≤ m * m / (c + d) + d := by
    apply Nat.le_of_lt_succ
    rw [Nat.div_lt_iff_lt_mul (by omega)]
    have hrest : m * m < (c + d) * (m * m / (c + d) + 1) :=
      Nat.lt_mul_div_succ _ (by omega)
    generalize m * m / (c + d) = q at hrest hshare
    nlinarith [Nat.mul_le_mul_right d (show q + 1 ≤ c by omega)]
  unfold grow
  omega

/-- It does not move them apart. -/
theorem grow_sub_grow_le (hc : 0 < c) (hle : c ≤ c') :
    grow k c' - grow k c ≤ c' - c := by
  have hshare : k / c' ≤ k / c := Nat.div_le_div_left hle hc
  unfold grow
  omega

theorem halved_le_halved (hle : c ≤ c') : halved m c ≤ halved m c' := by
  have hrounded : (c + m - 1) / m ≤ (c' + m - 1) / m :=
    Nat.div_le_div_right (by omega)
  exact Nat.mul_le_mul_right m (Nat.div_le_div_right hrounded)

/-- Halving leaves half of the distance and what is lost by rounding. -/
theorem halved_le_add (hm : 0 < m) {x : Nat} (hx : c' ≤ c + (x + 2 * m)) :
    halved m c' ≤ halved m c + (x / 2 + 2 * m) := by
  obtain ⟨-, hhigh⟩ := segments_bounds hm c'
  obtain ⟨hlow, -⟩ := segments_bounds hm c
  unfold halved
  generalize (c' + m - 1) / m = s' at hhigh ⊢
  generalize (c + m - 1) / m = s at hlow ⊢
  have hhalf' : s' / 2 * m * 2 ≤ s' * m := by
    rw [Nat.mul_right_comm]
    exact Nat.mul_le_mul_right m (Nat.div_mul_le_self s' 2)
  have hhalf : s * m ≤ s / 2 * m * 2 + m := by
    have hround : s ≤ s / 2 * 2 + 1 := by omega
    calc s * m ≤ (s / 2 * 2 + 1) * m := Nat.mul_le_mul_right m hround
      _ = s / 2 * m * 2 + m := by ring
  omega

end Maps

namespace Window

variable {m x : Nat} {w w' : Window}

/-- Both windows are in avoidance with the same count of duplicates; the second
is not smaller and at most `d` larger. -/
structure Gap (w w' : Window) (d : Nat) : Prop where
  phase : w.phase = .avoidance
  phase' : w'.phase = .avoidance
  dupacks : w.dupacks = w'.dupacks
  le : w.cwnd ≤ w'.cwnd
  le_add : w'.cwnd ≤ w.cwnd + d

theorem Gap.onAck {d : Nat} (h : Gap w w' d) (hm : 0 < m)
    (hw : Bounded m w) : Gap (w.onAck m) (w'.onAck m) d := by
  have hlarge := hw.avoidance h.phase
  have horder := grow_le_grow hm hlarge h.le
  have hapart := grow_sub_grow_le (k := m * m) (by omega : 0 < w.cwnd) h.le
  have hd := h.le_add
  simp only [grow] at horder hapart
  constructor
  · simp [Window.onAck, h.phase]
  · simp [Window.onAck, h.phase']
  · simp [Window.onAck, h.phase, h.phase', h.dupacks]
  · simpa [Window.onAck, h.phase, h.phase'] using horder
  · simp only [Window.onAck, h.phase, h.phase']
    omega

/-- A duplicate that does not cut changes no window, one that does halves the
distance. -/
theorem Gap.onDupack (h : Gap w w' (x + 2 * m)) (hm : 0 < m) :
    Gap (w.onDupack m) (w'.onDupack m)
      ((if w.dupacks + 1 = 3 then x / 2 else x) + 2 * m) := by
  unfold Window.onDupack
  rw [← h.dupacks]
  split
  · have horder := halved_le_halved (m := m) h.le
    have hhalf := halved_le_add hm h.le_add
    exact ⟨rfl, rfl, rfl, by simp only; omega, by simp only; omega⟩
  · exact ⟨h.phase, h.phase', by simp only [h.dupacks], h.le, h.le_add⟩

theorem onDupack_dupacks (hlt : w.dupacks < 3) :
    (w.onDupack m).dupacks = (w.dupacks + 1) % 3 := by
  unfold Window.onDupack
  split
  next hthird => simp [hthird]
  next hfew => simp only; omega

@[simp] theorem onAck_dupacks : (w.onAck m).dupacks = w.dupacks := by
  unfold Window.onAck
  split
  · rfl
  · rfl

/-- After a run without timeouts the distance is halved as often as the window
was cut. -/
theorem Gap.run (h : Gap w w' (x + 2 * m)) (hm : 7 ≤ m) (hw : Bounded m w)
    {signals : List Signal} (hnone : .timeout ∉ signals) :
    Gap (signals.foldl (react m) w) (signals.foldl (react m) w')
      (x / 2 ^ ((w.dupacks + signals.count .dupack) / 3) + 2 * m) := by
  induction signals generalizing w w' x with
  | nil =>
      have hlt := hw.dupacks_lt
      rw [List.count_nil, Nat.add_zero, Nat.div_eq_of_lt hlt, pow_zero,
        Nat.div_one]
      exact h
  | cons signal rest ih =>
      have hrest : .timeout ∉ rest := fun hmem =>
        hnone (List.mem_cons_of_mem _ hmem)
      have hnext := hw.react hm signal
      rw [List.foldl_cons, List.foldl_cons]
      cases signal with
      | ack =>
          have hrun := ih (h.onAck (by omega) hw) hnext hrest
          rw [onAck_dupacks] at hrun
          rw [List.count_cons_of_ne (by decide)]
          exact hrun
      | dupack =>
          have hlt := hw.dupacks_lt
          have hrun := ih (h.onDupack (by omega)) hnext hrest
          rw [onDupack_dupacks hlt] at hrun
          rw [List.count_cons_self]
          by_cases hthird : w.dupacks + 1 = 3
          · -- The cut is the first of those counted.
            have hexp : (w.dupacks + (rest.count .dupack + 1)) / 3 =
                ((w.dupacks + 1) % 3 + rest.count .dupack) / 3 + 1 := by
              omega
            rw [if_pos hthird, Nat.div_div_eq_div_mul, ← pow_succ'] at hrun
            rw [hexp]
            exact hrun
          · have hexp : (w.dupacks + (rest.count .dupack + 1)) / 3 =
                ((w.dupacks + 1) % 3 + rest.count .dupack) / 3 := by
              omega
            rw [if_neg hthird] at hrun
            rw [hexp]
            exact hrun
      | timeout => exact absurd (List.mem_cons_self ..) hnone

/-! ## Without losses -/

/-- An acknowledgement adds a byte at least, up to the largest window. -/
theorem Bounded.lt_onAck (hw : Bounded m w) (hm : 0 < m)
    (hle : w.cwnd ≤ m * m) : w.cwnd < (w.onAck m).cwnd := by
  have hpos : 0 < w.cwnd := Nat.lt_of_lt_of_le hm hw.segment_le
  unfold Window.onAck
  split
  · simp only
    omega
  · have hshare : 1 ≤ m * m / w.cwnd := (Nat.one_le_div_iff hpos).mpr hle
    simp only
    omega

theorem Bounded.min_le_acks (hw : Bounded m w) (hm : 7 ≤ m) (n : Nat) :
    min (w.cwnd + n) (m * m + 1) ≤ (w.acks m n).cwnd := by
  induction n with
  | zero => exact Nat.min_le_left _ _
  | succ n ih =>
      rw [acks_succ]
      have hn := hw.acks hm n
      rcases Nat.lt_or_ge (m * m) (w.acks m n).cwnd with htop | hbelow
      · -- At the top nothing is lost.
        have hkeep : (w.acks m n).cwnd ≤ ((w.acks m n).onAck m).cwnd := by
          unfold Window.onAck
          split
          · exact Nat.le_add_right _ _
          · exact Nat.le_add_right _ _
        omega
      · have hlt := hn.lt_onAck (by omega) hbelow
        omega

/-- Slow start ends far below the largest window. -/
theorem Bounded.avoidance_of_top (hw : Bounded m w) (hm : 7 ≤ m)
    (htop : w.cwnd = m * m + 1) : w.phase = .avoidance := by
  cases hphase : w.phase with
  | avoidance => rfl
  | slowStart =>
      have hfits := half_add_three_le hm
      have hthresh := hw.ssthresh_le
      rcases hw.slowStart hphase with hlt | heq
      · omega
      · have hsquare : m * 1 ≤ m * m := Nat.mul_le_mul_left m (by omega)
        omega

/-- So acknowledgements alone lead every window to the largest one. -/
theorem Bounded.acks_top (hw : Bounded m w) (hm : 7 ≤ m) {n : Nat}
    (hn : m * m + 1 ≤ w.cwnd + n) :
    (w.acks m n).cwnd = m * m + 1 ∧ (w.acks m n).phase = .avoidance := by
  have hbounded := hw.acks hm n
  have hmin := hw.min_le_acks hm n
  have htop : (w.acks m n).cwnd = m * m + 1 := by
    have hle := hbounded.cwnd_le
    omega
  exact ⟨htop, hbounded.avoidance_of_top hm htop⟩

end Window
end Lib
end OsKernel

import OsKernel.Congestion.Bounds
import OsKernel.Lib.AckRounds

/-!
# Rounds of slow start and of congestion avoidance

The rounds that the simulations play, by way of the rounds of `Lib.AckRounds`
over the natural numbers.  Slow start doubles the window in every round and is
over after ten rounds.

A round of congestion avoidance has one ACK more than the window has full
segments unless the window is a whole number of them, so it can add more than
one segment; and at `MSS * MSS + 1` it adds nothing.
-/

namespace OsKernel
namespace Congestion

open Lib

section Rounds

variable {cc : CongestionControl}

theorem reachable_acks (hreach : system.Reachable cc) (n : Nat) :
    system.Reachable (ccOnAck^[n] cc) := by
  induction n with
  | zero => exact hreach
  | succ n ih =>
      rw [Function.iterate_succ_apply']
      exact ih.next (a := .onAck) rfl

theorem reachable_ackRounds (hreach : system.Reachable cc) (k : Nat) :
    system.Reachable (ackRound^[k] cc) := by
  induction k with
  | zero => exact hreach
  | succ k ih =>
      rw [Function.iterate_succ_apply']
      exact reachable_acks ih _

theorem toWindow_acks (hb : cc.toWindow.Bounded 1460) (n : Nat) :
    (ccOnAck^[n] cc).toWindow = cc.toWindow.acks 1460 n := by
  induction n with
  | zero => rfl
  | succ n ih =>
      have hbn : (ccOnAck^[n] cc).toWindow.Bounded 1460 := by
        rw [ih]
        exact hb.acks (by decide) n
      rw [Function.iterate_succ_apply', toWindow_ccOnAck hbn, ih,
        Window.acks_succ]

theorem toNat_cwndMss_of_bounded (hb : cc.toWindow.Bounded 1460) :
    (cwndMss cc).toNat = Window.segments 1460 cc.toWindow.cwnd := by
  have hcwnd : cc.cwndBytes.toNat ≤ 1460 * 1460 + 1 := hb.cwnd_le
  exact toNat_cwndMss cc (by omega)

/-- A round is a round over the natural numbers. -/
theorem toWindow_ackRound (hb : cc.toWindow.Bounded 1460) :
    (ackRound cc).toWindow = cc.toWindow.round 1460 := by
  rw [ackRound, toWindow_acks hb, toNat_cwndMss_of_bounded hb]
  rfl

theorem toWindow_slowStart : cc.toWindow.phase = .slowStart ↔ cc.state = .ss := by
  cases hstate : cc.state with
  | ss => simp [CongestionControl.toWindow, TcpState.toPhase, hstate]
  | ca => simp [CongestionControl.toWindow, TcpState.toPhase, hstate]

theorem toWindow_avoidance : cc.toWindow.phase = .avoidance ↔ cc.state = .ca := by
  cases hstate : cc.state with
  | ss => simp [CongestionControl.toWindow, TcpState.toPhase, hstate]
  | ca => simp [CongestionControl.toWindow, TcpState.toPhase, hstate]

/-! ## Slow start -/

theorem reachable_whole (hreach : system.Reachable cc) :
    cc.toWindow.Whole 1460 := by
  have hboth : cc.toWindow.Whole 1460 ∧ cc.toWindow.Bounded 1460 := by
    refine hreach.invariant (P := fun cc =>
      cc.toWindow.Whole 1460 ∧ cc.toWindow.Bounded 1460) ?_ ?_
    · rintro cc rfl
      exact ⟨fun _ => by decide, toWindow_ccInit_bounded⟩
    · rintro cc event next - ⟨hw, hb⟩ hstep
      obtain rfl := Option.some.inj hstep
      rw [toWindow_handle hb]
      exact ⟨hw.react event.toSignal, hb.react (by decide) event.toSignal⟩
  exact hboth.1

theorem cwnd_pos (hb : cc.toWindow.Bounded 1460) : 0 < cc.toWindow.cwnd :=
  Nat.lt_of_lt_of_le (by decide) hb.segment_le

theorem toWindow_slowStartLoop (hb : cc.toWindow.Bounded 1460)
    (rounds : Nat) :
    (slowStartLoop rounds cc).toWindow =
      cc.toWindow.slowStartLoop 1460 rounds := by
  induction rounds generalizing cc with
  | zero => rfl
  | succ rounds ih =>
      rw [slowStartLoop, Window.slowStartLoop]
      by_cases hss : cc.state = .ss
      · have hround := toWindow_ackRound hb
        have hbnext : (ackRound cc).toWindow.Bounded 1460 := by
          rw [hround]
          exact hb.acks (by decide) _
        rw [if_pos hss, if_pos (toWindow_slowStart.mpr hss), ih hbnext, hround]
      · rw [if_neg hss, if_neg (mt toWindow_slowStart.mp hss)]

/-- The loop plays some number of rounds, each of them from a state in slow
start. -/
theorem slowStartLoop_eq_iterate (rounds : Nat) (cc : CongestionControl) :
    ∃ j ≤ rounds, slowStartLoop rounds cc = ackRound^[j] cc ∧
      ∀ i < j, (ackRound^[i] cc).state = .ss := by
  induction rounds generalizing cc with
  | zero => exact ⟨0, le_rfl, rfl, fun i hi => absurd hi i.not_lt_zero⟩
  | succ rounds ih =>
      rw [slowStartLoop]
      by_cases hss : cc.state = .ss
      · obtain ⟨j, hj, hloop, hbefore⟩ := ih (ackRound cc)
        rw [if_pos hss]
        refine ⟨j + 1, Nat.succ_le_succ hj, hloop, fun i hi => ?_⟩
        cases i with
        | zero => exact hss
        | succ i => exact hbefore i (Nat.lt_of_succ_lt_succ hi)
      · rw [if_neg hss]
        exact ⟨0, Nat.zero_le _, rfl, fun i hi => absurd hi i.not_lt_zero⟩

/-- From every reachable state a round that stays in slow start doubles the
window.  `simulate_slow_start` plays at most ten rounds, each of them from a
state in slow start, and the last one ends slow start. -/
theorem slowStart_completes (hreach : system.Reachable cc) :
    (∀ k, (ackRound^[k + 1] cc).state = .ss →
      (ackRound^[k + 1] cc).cwndBytes.toNat =
        2 * (ackRound^[k] cc).cwndBytes.toNat) ∧
    ∃ j ≤ 10, simulateSlowStart cc = ackRound^[j] cc ∧
      (∀ i < j, (ackRound^[i] cc).state = .ss) ∧
      (ackRound^[j] cc).state = .ca := by
  constructor
  · intro k hss
    have hbefore := reachable_ackRounds hreach k
    have hb := reachable_bounded hbefore
    rw [Function.iterate_succ_apply'] at hss ⊢
    have hround := toWindow_ackRound hb
    have hphase : ((ackRound^[k] cc).toWindow.round 1460).phase =
        .slowStart := by
      rw [← hround]
      exact toWindow_slowStart.mpr hss
    have hdouble := (Window.round_of_slowStart (by decide) (cwnd_pos hb)
      (reachable_whole hbefore) hphase).1
    rwa [← hround] at hdouble
  · -- `ssthresh` is below 2^10 segments, and the window is at least one
    have hb := reachable_bounded hreach
    have hthresh : cc.toWindow.ssthresh ≤ 2 ^ 10 * cc.toWindow.cwnd := by
      have hle := hb.ssthresh_le
      have hsegment := hb.segment_le
      omega
    have hends : (slowStartLoop 10 cc).state = .ca := by
      apply toWindow_avoidance.mp
      rw [toWindow_slowStartLoop hb]
      exact Window.slowStartLoop_avoidance (by decide) 9 (cwnd_pos hb)
        (reachable_whole hreach) hthresh
    obtain ⟨j, hj, hloop, hbefore⟩ := slowStartLoop_eq_iterate 10 cc
    rw [hloop] at hends
    exact ⟨j, hj, hloop, hbefore, hends⟩

/-- From `cc_init` four rounds stay in slow start and the fifth ends it. -/
theorem slowStart_completes_ccInit :
    (ackRound^[1] ccInit).cwndBytes.toNat = 2 * ccInit.cwndBytes.toNat ∧
      ∃ j ≤ 10, 4 < j ∧ simulateSlowStart ccInit = ackRound^[j] ccInit ∧
        (ackRound^[j] ccInit).state = .ca := by
  have hstart : system.Reachable ccInit := .start rfl
  obtain ⟨hdouble, j, hj, hloop, hbefore, hends⟩ := slowStart_completes hstart
  refine ⟨hdouble 0 (by decide), j, hj, ?_, hloop, hends⟩
  by_contra hfew
  have hstays : ∀ i < 5, (ackRound^[i] ccInit).state = .ss := by
    decide +kernel
  have hss := hstays j (by omega)
  rw [hends] at hss
  exact absurd hss (by decide)

/-! ## Congestion avoidance -/

/-- A round adds at least one byte and at most one segment. -/
structure AdditiveIncrease (cc : CongestionControl) : Prop where
  grows : cc.cwndBytes.toNat + 1 ≤ (ackRound cc).cwndBytes.toNat
  at_most : (ackRound cc).cwndBytes.toNat ≤ cc.cwndBytes.toNat + 1460

/-- What the first ACK of a round in avoidance adds. -/
def firstShare (cc : CongestionControl) : Nat :=
  1460 * 1460 / cc.cwndBytes.toNat

/-- A round whose ACKs all add as much as the first one adds at most a segment,
or the square of the window has room for the round. -/
def RoundFits (cc : CongestionControl) : Prop :=
  (cwndMss cc).toNat * firstShare cc ≤ 1460 ∨
    (cwndMss cc).toNat * (2 * (1460 * 1460) + firstShare cc ^ 2) ≤
      2 * cc.cwndBytes.toNat * 1460 + 1460 ^ 2

instance (cc : CongestionControl) : Decidable (RoundFits cc) :=
  inferInstanceAs (Decidable (_ ∨ _))

theorem toWindow_acks_of_ca (hb : cc.toWindow.Bounded 1460)
    (hca : cc.state = .ca) (n : Nat) :
    (ccOnAck^[n] cc).state = .ca ∧ (ccOnAck^[n] cc).cwndBytes.toNat =
      (grow (1460 * 1460))^[n] cc.cwndBytes.toNat := by
  have hacks := Window.acks_of_avoidance (m := 1460)
    (toWindow_avoidance.mpr hca) n
  rw [← toWindow_acks hb, toWindow_avoidance] at hacks
  exact hacks

/-- The number of ACKs of a round is not zero. -/
theorem cwndMss_pos (hb : cc.toWindow.Bounded 1460) :
    0 < (cwndMss cc).toNat := by
  rw [toNat_cwndMss_of_bounded hb]
  exact Window.segments_pos (by decide) (cwnd_pos hb)

/-- A round of avoidance adds something exactly up to `MSS * MSS`. -/
theorem lt_ackRound_iff (hb : cc.toWindow.Bounded 1460)
    (hca : cc.state = .ca) :
    cc.cwndBytes.toNat < (ackRound cc).cwndBytes.toNat ↔
      cc.cwndBytes.toNat ≤ 1460 * 1460 := by
  rw [ackRound, (toWindow_acks_of_ca hb hca _).2]
  exact lt_grow_iterate_iff (cwnd_pos hb) (cwndMss_pos hb)

theorem ackRound_of_top (hb : cc.toWindow.Bounded 1460) (hca : cc.state = .ca)
    (htop : 1460 * 1460 < cc.cwndBytes.toNat) :
    (ackRound cc).cwndBytes = cc.cwndBytes := by
  apply UInt32.toNat_inj.mp
  apply le_antisymm
  · exact Nat.le_of_not_lt fun hlt =>
      absurd ((lt_ackRound_iff hb hca).mp hlt) (by omega)
  · rw [ackRound, (toWindow_acks_of_ca hb hca _).2]
    exact le_grow_iterate _

theorem ackRound_le_shares (hb : cc.toWindow.Bounded 1460)
    (hca : cc.state = .ca) :
    (ackRound cc).cwndBytes.toNat ≤
      cc.cwndBytes.toNat + (cwndMss cc).toNat * firstShare cc := by
  rw [ackRound, (toWindow_acks_of_ca hb hca _).2]
  exact grow_iterate_le (cwnd_pos hb) _

theorem RoundFits.ackRound_le (hfits : RoundFits cc)
    (hb : cc.toWindow.Bounded 1460) (hca : cc.state = .ca) :
    (ackRound cc).cwndBytes.toNat ≤ cc.cwndBytes.toNat + 1460 := by
  rcases hfits with hfew | hroom
  · exact (ackRound_le_shares hb hca).trans (Nat.add_le_add_left hfew _)
  · rw [ackRound, (toWindow_acks_of_ca hb hca _).2]
    exact grow_iterate_le_add (cwnd_pos hb) hroom

/-- A round of congestion avoidance is an additive increase as long as the
window is at most `MSS * MSS` and the round fits.  Above, it adds nothing, and
it never adds more than one and a half segments. -/
theorem additiveIncrease_of_fits (hreach : system.Reachable cc)
    (hca : cc.state = .ca) :
    (cc.cwndBytes.toNat ≤ 1460 * 1460 → RoundFits cc → AdditiveIncrease cc) ∧
    (1460 * 1460 < cc.cwndBytes.toNat →
      (ackRound cc).cwndBytes = cc.cwndBytes) ∧
    (ackRound cc).cwndBytes.toNat ≤
      cc.cwndBytes.toNat + (1460 + 1460 / 2) := by
  have hb := reachable_bounded hreach
  refine ⟨?_, ackRound_of_top hb hca, ?_⟩
  · intro hle hfits
    exact ⟨(lt_ackRound_iff hb hca).mpr hle, hfits.ackRound_le hb hca⟩
  · apply (ackRound_le_shares hb hca).trans
    apply Nat.add_le_add_left
    rw [toNat_cwndMss_of_bounded hb]
    exact Window.round_share_le (by decide)
      (hb.avoidance (toWindow_avoidance.mpr hca))

end Rounds

/-- After a fast retransmit from `cc_init` the window is four segments. -/
theorem additiveIncrease_fourSegments :
    AdditiveIncrease (after [.onDupack, .onDupack, .onDupack]) :=
  (additiveIncrease_of_fits (reachable_after _) (by decide)).1 (by decide)
    (by decide)

/-- The largest window is reached by acknowledgements alone. -/
theorem exists_reachable_top : ∃ cc, system.Reachable cc ∧ cc.state = .ca ∧
    cc.cwndBytes.toNat = 1460 * 1460 + 1 := by
  have hreach := reachable_after [.onDupack, .onDupack, .onDupack]
  have hb := reachable_bounded hreach
  obtain ⟨n, hn⟩ := exists_grow_iterate_eq (cwnd_pos hb) hb.cwnd_le
  have hacks := toWindow_acks_of_ca hb (by decide) n
  exact ⟨_, reachable_acks hreach n, hacks.1, hacks.2.trans hn⟩

/-- Five ACKs after a fast retransmit. -/
def fiveAcks : List Event :=
  [.onDupack, .onDupack, .onDupack, .onAck, .onAck, .onAck, .onAck, .onAck]

/-- A round of six ACKs takes the window from 7479 to 9050 bytes, which is more
than a segment; and the largest window does not grow any more. -/
theorem additiveIncrease_fails :
    ((after fiveAcks).state = .ca ∧ (after fiveAcks).cwndBytes = 7479 ∧
      (ackRound (after fiveAcks)).cwndBytes = 9050 ∧
      ¬ AdditiveIncrease (after fiveAcks)) ∧
    ∃ cc, system.Reachable cc ∧ cc.state = .ca ∧
      (ackRound cc).cwndBytes = cc.cwndBytes ∧ ¬ AdditiveIncrease cc := by
  constructor
  · have hbefore : (after fiveAcks).cwndBytes = 7479 := by decide
    have hround : (ackRound (after fiveAcks)).cwndBytes = 9050 := by decide
    refine ⟨by decide, hbefore, hround, ?_⟩
    intro hadditive
    have hle := hadditive.at_most
    rw [hbefore, hround] at hle
    exact absurd hle (by decide)
  · obtain ⟨cc, hreach, hca, htop⟩ := exists_reachable_top
    have hsame := ackRound_of_top (reachable_bounded hreach) hca (by omega)
    refine ⟨cc, hreach, hca, hsame, ?_⟩
    intro hadditive
    have hgrows := hadditive.grows
    rw [hsame] at hgrows
    omega

end Congestion
end OsKernel

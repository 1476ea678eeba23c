import OsKernel.Congestion.Model
import OsKernel.Lib.Aimd
import Mathlib.Tactic

/-!
# Bounds of the congestion window

As long as the bounds of `Lib.Window.Bounded` hold, none of the 32-bit
operations wraps and the handlers compute what `Lib.Window.react` does over the
natural numbers.  The bounds then carry over from there to every run.
-/

namespace OsKernel
namespace Congestion

open Lib

/-- `tcp_state_t` as a mode of growth. -/
def TcpState.toPhase : TcpState → Phase
  | .ss => .slowStart
  | .ca => .avoidance

/-- An event as a signal. -/
def Event.toSignal : Event → Signal
  | .onAck => .ack
  | .onDupack => .dupack
  | .onTimeout => .timeout

/-- The window as natural numbers. -/
def CongestionControl.toWindow (cc : CongestionControl) : Window :=
  { cwnd := cc.cwndBytes.toNat
    ssthresh := cc.ssthreshBytes.toNat
    phase := cc.state.toPhase
    dupacks := cc.dupackCount.toNat }

@[simp] theorem toNat_mss : mss.toNat = 1460 := rfl

/-- The bounds of the window, the threshold and the counter. -/
structure InBounds (cc : CongestionControl) : Prop where
  mss_le : 1460 ≤ cc.cwndBytes.toNat
  cwnd_le : cc.cwndBytes.toNat ≤ 1460 * 1460 + 1
  ca : cc.state = .ca → 2 * 1460 ≤ cc.cwndBytes.toNat
  dvd_ssthresh : 1460 ∣ cc.ssthreshBytes.toNat
  ssthresh_le : cc.ssthreshBytes.toNat ≤ 730 * 1460
  dupack_lt : cc.dupackCount.toNat < 3

/-- No addition that a handler makes in this state wraps, and the division of
`cc_on_ack_ca` has a divisor; each handler computes what its counterpart over
the natural numbers does. -/
structure ArithmeticExact (cc : CongestionControl) : Prop where
  add_mss : cc.cwndBytes.toNat + 1460 < 2 ^ 32
  divisor : cc.state = .ca → cc.cwndBytes ≠ 0
  add_share : cc.state = .ca →
    cc.cwndBytes.toNat + 1460 * 1460 / cc.cwndBytes.toNat < 2 ^ 32
  add_one : cc.dupackCount.toNat + 1 < 2 ^ 32
  add_three : (cwndMss cc / 2 * mss).toNat + 3 * 1460 < 2 ^ 32
  handle : ∀ event, (handle cc event).toWindow =
    cc.toWindow.react 1460 event.toSignal

section Exact

variable {cc : CongestionControl}

/-- A sum in range is the sum of the naturals. -/
theorem toNat_add_of_lt {x y : UInt32} (h : x.toNat + y.toNat < 2 ^ 32) :
    (x + y).toNat = x.toNat + y.toNat := by
  rw [UInt32.toNat_add, Nat.mod_eq_of_lt h]

/-- Rounding up to segments does not wrap. -/
theorem toNat_cwndMss (cc : CongestionControl)
    (hcwnd : cc.cwndBytes.toNat + 1460 < 2 ^ 32) :
    (cwndMss cc).toNat = (cc.cwndBytes.toNat + 1460 - 1) / 1460 := by
  have hadd : (cc.cwndBytes + mss).toNat = cc.cwndBytes.toNat + 1460 :=
    toNat_add_of_lt hcwnd
  have hone : 1 ≤ cc.cwndBytes + mss := by
    rw [UInt32.le_iff_toNat_le, hadd, UInt32.toNat_one]
    omega
  rw [cwndMss, UInt32.toNat_div, UInt32.toNat_sub_of_le _ _ hone, hadd,
    UInt32.toNat_one, toNat_mss]

/-- Halving is the halving of the naturals. -/
theorem toNat_halved (cc : CongestionControl)
    (hcwnd : cc.cwndBytes.toNat + 1460 < 2 ^ 32) :
    (cwndMss cc / 2 * mss).toNat = halved 1460 cc.cwndBytes.toNat := by
  rw [UInt32.toNat_mul, UInt32.toNat_div, toNat_cwndMss cc hcwnd, toNat_mss,
    halved]
  apply Nat.mod_eq_of_lt
  simp only [UInt32.reduceToNat]
  omega

theorem toWindow_ccOnAck (hb : cc.toWindow.Bounded 1460) :
    (ccOnAck cc).toWindow = cc.toWindow.onAck 1460 := by
  have hcwnd : cc.cwndBytes.toNat ≤ 1460 * 1460 + 1 := hb.cwnd_le
  have hpos : 1460 ≤ cc.cwndBytes.toNat := hb.segment_le
  cases hstate : cc.state with
  | ss =>
      have hadd : (cc.cwndBytes + mss).toNat = cc.cwndBytes.toNat + 1460 :=
        toNat_add_of_lt (by rw [toNat_mss]; omega)
      simp only [ccOnAck, hstate, if_true, ccCheckThreshold, ccOnAckSs,
        Window.onAck, CongestionControl.toWindow, TcpState.toPhase, true_and,
        ge_iff_le, UInt32.le_iff_toNat_le, hadd]
      split_ifs <;> simp [hadd]
  | ca =>
      have hshare : cc.cwndBytes.toNat + 1460 * 1460 / cc.cwndBytes.toNat ≤
          1460 * 1460 + 1 := add_div_le_succ (by omega) hcwnd
      have hadd : (cc.cwndBytes + mss * mss / cc.cwndBytes).toNat =
          cc.cwndBytes.toNat + 1460 * 1460 / cc.cwndBytes.toNat := by
        have hquot : (mss * mss / cc.cwndBytes).toNat =
            1460 * 1460 / cc.cwndBytes.toNat := UInt32.toNat_div _ _
        rw [toNat_add_of_lt, hquot]
        rw [hquot]
        omega
      simp [ccOnAck, hstate, ccOnAckCa, Window.onAck,
        CongestionControl.toWindow, TcpState.toPhase, hadd]

theorem toWindow_ccOnDupack (hb : cc.toWindow.Bounded 1460) :
    (ccOnDupack cc).toWindow = cc.toWindow.onDupack 1460 := by
  have hcwnd : cc.cwndBytes.toNat ≤ 1460 * 1460 + 1 := hb.cwnd_le
  have hhalved := halved_le (by decide : 0 < 1460) hcwnd
  have hlt : cc.dupackCount.toNat < 3 := hb.dupacks_lt
  have hcount : (cc.dupackCount + 1).toNat = cc.dupackCount.toNat + 1 :=
    toNat_add_of_lt (by rw [UInt32.toNat_one]; omega)
  have hthird : cc.dupackCount + 1 = 3 ↔ cc.dupackCount.toNat + 1 = 3 := by
    rw [← UInt32.toNat_inj, hcount]
    rfl
  have hthresh := toNat_halved cc (by omega)
  have hadd : (cwndMss cc / 2 * mss + 3 * mss).toNat =
      halved 1460 cc.cwndBytes.toNat + 3 * 1460 := by
    rw [toNat_add_of_lt] <;> rw [hthresh]
    · rfl
    · simp only [mss, UInt32.reduceMul, UInt32.reduceToNat]
      omega
  simp only [ccOnDupack, Window.onDupack, hthird, CongestionControl.toWindow]
  by_cases hcut : cc.dupackCount.toNat + 1 = 3
  · simp only [hcut, if_true, hadd, hthresh]
    rfl
  · simp only [hcut, if_false, hcount]

theorem toWindow_ccOnTimeout (hb : cc.toWindow.Bounded 1460) :
    (ccOnTimeout cc).toWindow = cc.toWindow.onTimeout 1460 := by
  have hcwnd : cc.cwndBytes.toNat ≤ 1460 * 1460 + 1 := hb.cwnd_le
  have hthresh := toNat_halved cc (by omega)
  simp [ccOnTimeout, Window.onTimeout, CongestionControl.toWindow, hthresh,
    TcpState.toPhase]

/-- Within the bounds a handler is the reaction over the natural numbers. -/
theorem toWindow_handle (hb : cc.toWindow.Bounded 1460) (event : Event) :
    (handle cc event).toWindow = cc.toWindow.react 1460 event.toSignal := by
  cases event with
  | onAck => exact toWindow_ccOnAck hb
  | onDupack => exact toWindow_ccOnDupack hb
  | onTimeout => exact toWindow_ccOnTimeout hb

theorem toWindow_ccInit_bounded : ccInit.toWindow.Bounded 1460 where
  segment_le := by decide
  cwnd_le := by decide
  avoidance := by decide
  slowStart := by decide
  dvd_ssthresh := by decide
  ssthresh_le := by decide
  dupacks_lt := by decide

theorem arithmeticExact (hb : cc.toWindow.Bounded 1460) :
    ArithmeticExact cc := by
  have hcwnd : cc.cwndBytes.toNat ≤ 1460 * 1460 + 1 := hb.cwnd_le
  have hpos : 1460 ≤ cc.cwndBytes.toNat := hb.segment_le
  have hlt : cc.dupackCount.toNat < 3 := hb.dupacks_lt
  have hhalved := halved_le (by decide : 0 < 1460) hcwnd
  have hshare := add_div_le_succ (by omega) hcwnd
  exact {
    add_mss := by omega
    divisor := by
      intro _ hzero
      rw [hzero] at hpos
      exact absurd hpos (by decide)
    add_share := fun _ => by omega
    add_one := by omega
    add_three := by
      rw [toNat_halved cc (by omega)]
      omega
    handle := toWindow_handle hb }

end Exact

/-- The bounds over the natural numbers hold in every run. -/
theorem reachable_bounded {cc : CongestionControl}
    (hreach : system.Reachable cc) : cc.toWindow.Bounded 1460 := by
  refine hreach.invariant (P := fun cc => cc.toWindow.Bounded 1460) ?_ ?_
  · rintro cc rfl
    exact toWindow_ccInit_bounded
  · intro cc event next _ hb hstep
    obtain rfl := Option.some.inj hstep
    rw [toWindow_handle hb]
    exact hb.react (by decide) event.toSignal

/-- In every state reached from `cc_init` by any events the window is between
one segment and `MSS * MSS + 1`, and the handlers' arithmetic is exact. -/
theorem window_in_bounds {cc : CongestionControl}
    (hreach : system.Reachable cc) : InBounds cc ∧ ArithmeticExact cc := by
  have hb := reachable_bounded hreach
  refine ⟨?_, arithmeticExact hb⟩
  exact {
    mss_le := hb.segment_le
    cwnd_le := hb.cwnd_le
    ca := fun hca => hb.avoidance (by
      rw [CongestionControl.toWindow, hca]
      rfl)
    dvd_ssthresh := hb.dvd_ssthresh
    ssthresh_le := hb.ssthresh_le
    dupack_lt := hb.dupacks_lt }

/-- After a timeout, an ACK that ends slow start and two in avoidance. -/
theorem window_in_bounds_recovery :
    ∃ cc, system.run ccInit
        [.onTimeout, .onAck, .onAck, .onAck] = some cc ∧
      cc.state = .ca ∧ InBounds cc ∧ ArithmeticExact cc := by
  have hstart : system.Reachable ccInit := .start rfl
  exact ⟨_, rfl, by decide, window_in_bounds
    (hstart.run (show system.run ccInit
      [.onTimeout, .onAck, .onAck, .onAck] = some _ from rfl))⟩

end Congestion
end OsKernel

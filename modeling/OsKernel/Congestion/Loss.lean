import OsKernel.Congestion.FastRetransmit

/-!
# What a loss does to the window

The third duplicate ACK sets the threshold to half of the window and the window
to three segments more.  Three segments are more than the lost half unless the
window has at least five, so for small windows the loss opens the window; and
half of a window of up to three segments is a single one.
-/

namespace OsKernel
namespace Congestion

open Lib

/-- A loss leaves the window no larger than it was, and the threshold at two
segments or more. -/
structure LossShrinks (cc : CongestionControl) : Prop where
  dupack_cwnd : CutsNext cc → (ccOnDupack cc).cwndBytes ≤ cc.cwndBytes
  dupack_ssthresh : CutsNext cc → 2 * mss ≤ (ccOnDupack cc).ssthreshBytes
  timeout_cwnd : (ccOnTimeout cc).cwndBytes ≤ cc.cwndBytes
  timeout_ssthresh : 2 * mss ≤ (ccOnTimeout cc).ssthreshBytes

/-- What the third duplicate ACK leaves. -/
theorem toNat_ccOnDupack_of_cutsNext {cc : CongestionControl}
    (hb : cc.toWindow.Bounded 1460) (hcuts : CutsNext cc) :
    (ccOnDupack cc).cwndBytes.toNat =
        halved 1460 cc.cwndBytes.toNat + 3 * 1460 ∧
      (ccOnDupack cc).ssthreshBytes.toNat = halved 1460 cc.cwndBytes.toNat := by
  have hwindow := toWindow_ccOnDupack hb
  rw [Window.onDupack, if_pos ((cutsNext_iff hb).mp hcuts)] at hwindow
  exact ⟨congrArg Window.cwnd hwindow, congrArg Window.ssthresh hwindow⟩

/-- What a timeout leaves. -/
theorem toNat_ccOnTimeout {cc : CongestionControl}
    (hb : cc.toWindow.Bounded 1460) :
    (ccOnTimeout cc).cwndBytes.toNat = 1460 ∧
      (ccOnTimeout cc).ssthreshBytes.toNat =
        halved 1460 cc.cwndBytes.toNat := by
  have hwindow := toWindow_ccOnTimeout hb
  exact ⟨congrArg Window.cwnd hwindow, congrArg Window.ssthresh hwindow⟩

/-- After any events, a loss leaves the window no larger and the threshold at
two segments exactly if the window has more than three segments and, where the
next duplicate ACK is a third one, five segments or at least six. -/
theorem lossShrinks_iff (events : List Event) :
    LossShrinks (after events) ↔
      3 * 1460 < (after events).cwndBytes.toNat ∧
        (CutsNext (after events) →
          (after events).cwndBytes.toNat = 5 * 1460 ∨
            6 * 1460 ≤ (after events).cwndBytes.toNat) := by
  have hb := reachable_bounded (reachable_after events)
  have htwo : (2 * mss).toNat = 2 * 1460 := rfl
  have hsegment : 1460 ≤ (after events).cwndBytes.toNat := hb.segment_le
  obtain ⟨htimeout, hthreshold⟩ := toNat_ccOnTimeout hb
  have hpos : 0 < 1460 := by decide
  constructor
  · intro hshrinks
    constructor
    · have hlarge := hshrinks.timeout_ssthresh
      rw [UInt32.le_iff_toNat_le, htwo, hthreshold] at hlarge
      exact (two_mul_le_halved_iff hpos).mp hlarge
    · intro hcuts
      have hcut := hshrinks.dupack_cwnd hcuts
      rw [UInt32.le_iff_toNat_le,
        (toNat_ccOnDupack_of_cutsNext hb hcuts).1] at hcut
      exact (halved_add_three_le_iff hpos).mp hcut
  · rintro ⟨hlarge, hfive⟩
    have hhalf := (two_mul_le_halved_iff hpos).mpr hlarge
    constructor
    · intro hcuts
      rw [UInt32.le_iff_toNat_le, (toNat_ccOnDupack_of_cutsNext hb hcuts).1]
      exact (halved_add_three_le_iff hpos).mpr (hfive hcuts)
    · intro hcuts
      rw [UInt32.le_iff_toNat_le, (toNat_ccOnDupack_of_cutsNext hb hcuts).2]
      exact hhalf
    · rw [UInt32.le_iff_toNat_le, htimeout]
      exact hsegment
    · rw [UInt32.le_iff_toNat_le, hthreshold]
      exact hhalf

/-- Three duplicate ACKs right after `cc_init`: the window goes from two
segments to four and the threshold to one. -/
theorem lossShrinks_fails :
    (after [.onDupack, .onDupack]).cwndBytes = 2 * mss ∧
      (after [.onDupack, .onDupack, .onDupack]).cwndBytes = 4 * mss ∧
      (after [.onDupack, .onDupack, .onDupack]).ssthreshBytes = mss ∧
      ¬ LossShrinks (after [.onDupack, .onDupack]) := by
  refine ⟨by decide, by decide, by decide, ?_⟩
  intro hshrinks
  have hcut := hshrinks.dupack_cwnd (by decide)
  exact absurd hcut (by decide)

end Congestion
end OsKernel

import OsKernel.Congestion.Rounds
import OsKernel.Lib.AimdGap

/-!
# What the windows tend to

Two senders that have seen different histories and then see the same events come
to share the line: in congestion avoidance the distance of their windows does
not grow, and every fast retransmit halves it up to a segment.

A sender that sees ACKs only ends with the window `MSS * MSS + 1`, at which the
integer division of `cc_on_ack_ca` gives zero.  The window does not grow by one
`MSS` in each round trip for ever.
-/

namespace OsKernel
namespace Congestion

open Lib

section Convergence

variable {cc cc' : CongestionControl}

/-- The state after further events. -/
def thenAfter (cc : CongestionControl) (events : List Event) :
    CongestionControl :=
  events.foldl handle cc

theorem toWindow_thenAfter (hb : cc.toWindow.Bounded 1460)
    (events : List Event) :
    (thenAfter cc events).toWindow =
      (events.map Event.toSignal).foldl (Window.react 1460) cc.toWindow := by
  induction events generalizing cc with
  | nil => rfl
  | cons event rest ih =>
      have hnext : (handle cc event).toWindow.Bounded 1460 := by
        rw [toWindow_handle hb]
        exact hb.react (by decide) _
      rw [thenAfter, List.foldl_cons, ← thenAfter, ih hnext, toWindow_handle hb]
      rfl

theorem toSignal_injective : Function.Injective Event.toSignal := by
  intro a b hab
  cases a <;> cases b <;> first | rfl | cases hab

/-- Two windows in congestion avoidance keep their order under the same ACKs
and duplicate ACKs, and their distance is halved by every fast retransmit, up to
two segments. -/
theorem windows_converge (hreach : system.Reachable cc)
    (hreach' : system.Reachable cc') (hca : cc.state = .ca)
    (hca' : cc'.state = .ca) (hdup : cc.dupackCount = cc'.dupackCount)
    (hle : cc.cwndBytes ≤ cc'.cwndBytes) {events : List Event}
    (hnone : .onTimeout ∉ events) :
    (thenAfter cc events).cwndBytes ≤ (thenAfter cc' events).cwndBytes ∧
    (thenAfter cc' events).cwndBytes.toNat -
        (thenAfter cc events).cwndBytes.toNat ≤
      (cc'.cwndBytes.toNat - cc.cwndBytes.toNat) /
        2 ^ ((cc.dupackCount.toNat + events.count .onDupack) / 3) +
      2 * 1460 := by
  have hb := reachable_bounded hreach
  have hb' := reachable_bounded hreach'
  have hle' : cc.cwndBytes.toNat ≤ cc'.cwndBytes.toNat :=
    UInt32.le_iff_toNat_le.mp hle
  have hapart : cc'.cwndBytes.toNat ≤ cc.cwndBytes.toNat +
      (cc'.cwndBytes.toNat - cc.cwndBytes.toNat + 2 * 1460) := by
    omega
  have hgap : Window.Gap cc.toWindow cc'.toWindow
      (cc'.cwndBytes.toNat - cc.cwndBytes.toNat + 2 * 1460) :=
    ⟨toWindow_avoidance.mpr hca, toWindow_avoidance.mpr hca',
      congrArg UInt32.toNat hdup, hle', hapart⟩
  have hsignals : Signal.timeout ∉ events.map Event.toSignal := by
    rw [show Signal.timeout = Event.onTimeout.toSignal from rfl,
      List.mem_map_of_injective toSignal_injective]
    exact hnone
  have hrun := hgap.run (by decide) hb hsignals
  rw [← toWindow_thenAfter hb, ← toWindow_thenAfter hb',
    show Signal.dupack = Event.onDupack.toSignal from rfl,
    List.count_map_of_injective _ _ toSignal_injective] at hrun
  constructor
  · exact UInt32.le_iff_toNat_le.mpr hrun.le
  · have hadd : (thenAfter cc' events).cwndBytes.toNat ≤
        (thenAfter cc events).cwndBytes.toNat + _ := hrun.le_add
    exact Nat.sub_le_iff_le_add'.mpr hadd

/-- A fast retransmit after twenty ACKs. -/
def laterRetransmit : List Event :=
  List.replicate 20 .onAck ++ List.replicate 3 .onDupack

/-- One sender starts after a fast retransmit at once, the other after a later
one with ten segments more; four further ones leave at most three. -/
theorem windows_converge_four_losses :
    (after (List.replicate 3 .onDupack)).cwndBytes = 4 * mss ∧
    (after laterRetransmit).cwndBytes = 14 * mss ∧
    (thenAfter (after laterRetransmit)
        (List.replicate 12 .onDupack)).cwndBytes.toNat -
      (thenAfter (after (List.replicate 3 .onDupack))
        (List.replicate 12 .onDupack)).cwndBytes.toNat ≤ 3 * 1460 := by
  have hfirst : (after (List.replicate 3 .onDupack)).cwndBytes = 4 * mss := by
    decide +kernel
  have hsecond : (after laterRetransmit).cwndBytes = 14 * mss := by
    decide +kernel
  have hnone : Event.onTimeout ∉ List.replicate 12 Event.onDupack := by decide
  have hconverge := windows_converge
    (reachable_after (List.replicate 3 .onDupack))
    (reachable_after laterRetransmit) (by decide +kernel) (by decide +kernel)
    (by decide +kernel) (by rw [hfirst, hsecond]; decide) hnone
  refine ⟨hfirst, hsecond, hconverge.2.trans ?_⟩
  decide +kernel

/-- From every reachable state as many ACKs as the window has bytes to the
largest one lead to that one, and it stays. -/
theorem acks_saturate (hreach : system.Reachable cc) {n : Nat}
    (hn : 1460 * 1460 + 1 ≤ cc.cwndBytes.toNat + n) :
    (ccOnAck^[n] cc).cwndBytes.toNat = 1460 * 1460 + 1 ∧
      (ccOnAck^[n] cc).state = .ca := by
  have hb := reachable_bounded hreach
  have htop := hb.acks_top (by decide) hn
  rw [← toWindow_acks hb, toWindow_avoidance] at htop
  exact htop

/-- From the first window. -/
theorem acks_saturate_ccInit :
    (ccOnAck^[1460 * 1460] ccInit).cwndBytes.toNat = 1460 * 1460 + 1 ∧
      (ccOnAck^[1460 * 1460] ccInit).state = .ca :=
  acks_saturate (.start rfl) (by decide)

end Convergence

end Congestion
end OsKernel

import OsKernel.Lib.ActionSystem
import Mathlib.Tactic

/-!
# The congestion window of `demos/tcp-congestion-control/congestion.c`

The four fields of `congestion_control_t` that the event handlers read and
write, in the 32-bit arithmetic of the source, and the three handlers.
`last_cwnd_mss` is set by `cc_init` and never read, and is left out, as is what
is printed.
-/

namespace OsKernel
namespace Congestion

open Lib

/-- `MSS`. -/
def mss : UInt32 := 1460

/-- `INIT_CWND_MSS`. -/
def initCwndMss : UInt32 := 2

/-- `INIT_SSTHRESH`. -/
def initSsthresh : UInt32 := 64

/-- `tcp_state_t`. -/
inductive TcpState
  | ss
  | ca
  deriving DecidableEq, Repr

/-- `congestion_control_t`. -/
structure CongestionControl where
  cwndBytes : UInt32
  ssthreshBytes : UInt32
  state : TcpState
  dupackCount : UInt32
  deriving DecidableEq, Repr

/-- `cc_init`. -/
def ccInit : CongestionControl :=
  { cwndBytes := initCwndMss * mss
    ssthreshBytes := initSsthresh * mss
    state := .ss
    dupackCount := 0 }

/-- `cc_on_ack_ss`. -/
def ccOnAckSs (cc : CongestionControl) : CongestionControl :=
  { cc with cwndBytes := cc.cwndBytes + mss }

/-- `cc_on_ack_ca`. -/
def ccOnAckCa (cc : CongestionControl) : CongestionControl :=
  { cc with cwndBytes := cc.cwndBytes + mss * mss / cc.cwndBytes }

/-- `cc_check_threshold`. -/
def ccCheckThreshold (cc : CongestionControl) : CongestionControl :=
  if cc.state = .ss ∧ cc.cwndBytes ≥ cc.ssthreshBytes then
    { cc with state := .ca }
  else cc

/-- `cc_on_ack`. -/
def ccOnAck (cc : CongestionControl) : CongestionControl :=
  if cc.state = .ss then ccCheckThreshold (ccOnAckSs cc) else ccOnAckCa cc

/-- `cwnd_mss` of `cc_on_dupack` and `cc_on_timeout`; the simulations call it
`acks_needed` and `acks_per_rtt`. -/
def cwndMss (cc : CongestionControl) : UInt32 :=
  (cc.cwndBytes + mss - 1) / mss

/-- `cc_on_dupack`. -/
def ccOnDupack (cc : CongestionControl) : CongestionControl :=
  let dupackCount := cc.dupackCount + 1
  if dupackCount = 3 then
    let newSsthresh := cwndMss cc / 2
    { cwndBytes := newSsthresh * mss + 3 * mss
      ssthreshBytes := newSsthresh * mss
      state := .ca
      dupackCount := 0 }
  else { cc with dupackCount := dupackCount }

/-- `cc_on_timeout`. -/
def ccOnTimeout (cc : CongestionControl) : CongestionControl :=
  { cwndBytes := mss
    ssthreshBytes := cwndMss cc / 2 * mss
    state := .ss
    dupackCount := 0 }

/-- The inner loop of `simulate_slow_start` and `simulate_congestion_avoidance`:
one ACK for each segment of the window. -/
def ackRound (cc : CongestionControl) : CongestionControl :=
  ccOnAck^[(cwndMss cc).toNat] cc

/-- The outer loop of `simulate_slow_start` with the rounds that are left. -/
def slowStartLoop : Nat → CongestionControl → CongestionControl
  | 0, cc => cc
  | rounds + 1, cc =>
      if cc.state = .ss then slowStartLoop rounds (ackRound cc) else cc

/-- `simulate_slow_start`. -/
def simulateSlowStart (cc : CongestionControl) : CongestionControl :=
  slowStartLoop 10 cc

/-- The calls that change the window. -/
inductive Event
  | onAck
  | onDupack
  | onTimeout
  deriving DecidableEq, Repr

/-- The handler of an event. -/
def handle (cc : CongestionControl) : Event → CongestionControl
  | .onAck => ccOnAck cc
  | .onDupack => ccOnDupack cc
  | .onTimeout => ccOnTimeout cc

/-- The state after a history of events. -/
def after (events : List Event) : CongestionControl :=
  events.foldl handle ccInit

/-- Any sequence of events after `cc_init`. -/
def system : ActionSystem CongestionControl Event where
  init cc := cc = ccInit
  step cc event := some (handle cc event)

theorem after_append_singleton (events : List Event) (event : Event) :
    after (events ++ [event]) = handle (after events) event :=
  List.foldl_append

theorem reachable_after (events : List Event) :
    system.Reachable (after events) := by
  induction events using List.reverseRecOn with
  | nil => exact .start rfl
  | append_singleton events event ih =>
      rw [after_append_singleton]
      exact ih.next (a := event) rfl

end Congestion
end OsKernel

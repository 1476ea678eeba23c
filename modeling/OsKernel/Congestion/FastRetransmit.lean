import OsKernel.Congestion.Bounds

/-!
# When the duplicate ACKs are counted together

`cc_on_dupack` counts and the third one cuts the window.  The counter is cleared
by the cut and by a timeout, but `cc_on_ack` leaves it alone; so it is the number
of duplicate ACKs since the last timeout modulo three, however many new ACKs have
come in between.
-/

namespace OsKernel
namespace Congestion

open Lib

/-- The next `cc_on_dupack` takes its branch for the third duplicate. -/
def CutsNext (cc : CongestionControl) : Prop := cc.dupackCount + 1 = 3

instance (cc : CongestionControl) : Decidable (CutsNext cc) :=
  inferInstanceAs (Decidable (_ = _))

theorem cutsNext_iff {cc : CongestionControl} (hb : cc.toWindow.Bounded 1460) :
    CutsNext cc ↔ cc.toWindow.dupacks + 1 = 3 := by
  have hlt : cc.dupackCount.toNat < 3 := hb.dupacks_lt
  have hcount : (cc.dupackCount + 1).toNat = cc.dupackCount.toNat + 1 :=
    toNat_add_of_lt (by rw [UInt32.toNat_one]; omega)
  rw [CutsNext, ← UInt32.toNat_inj, hcount]
  rfl

/-- The duplicate ACKs of a history since its last timeout. -/
def dupacksSinceTimeout (events : List Event) : Nat :=
  (events.reverse.takeWhile (· ≠ .onTimeout)).count .onDupack

theorem dupacksSinceTimeout_append (events : List Event) (event : Event) :
    dupacksSinceTimeout (events ++ [event]) =
      match event with
      | .onAck => dupacksSinceTimeout events
      | .onDupack => dupacksSinceTimeout events + 1
      | .onTimeout => 0 := by
  unfold dupacksSinceTimeout
  cases event with
  | onAck => simp
  | onDupack => simp
  | onTimeout => simp

/-- The counter after one event. -/
theorem toNat_dupackCount_handle {cc : CongestionControl}
    (hb : cc.toWindow.Bounded 1460) (event : Event) :
    (handle cc event).dupackCount.toNat =
      match event with
      | .onAck => cc.dupackCount.toNat
      | .onDupack => (cc.dupackCount.toNat + 1) % 3
      | .onTimeout => 0 := by
  have hlt : cc.dupackCount.toNat < 3 := hb.dupacks_lt
  have hwindow : (handle cc event).dupackCount.toNat =
      (cc.toWindow.react 1460 event.toSignal).dupacks := by
    rw [← toWindow_handle hb]
    rfl
  rw [hwindow]
  cases event with
  | onAck =>
      show (cc.toWindow.onAck 1460).dupacks = cc.toWindow.dupacks
      unfold Window.onAck
      split
      · rfl
      · rfl
  | onDupack =>
      show (cc.toWindow.onDupack 1460).dupacks = (cc.toWindow.dupacks + 1) % 3
      unfold Window.onDupack
      split
      next hthird => rw [hthird]
      next hfew =>
          have hsmall : cc.toWindow.dupacks + 1 < 3 := by
            have hdupacks : cc.toWindow.dupacks < 3 := hlt
            omega
          exact (Nat.mod_eq_of_lt hsmall).symm
  | onTimeout => rfl

/-- The counter does not know about new ACKs. -/
theorem dupackCount_after (events : List Event) :
    (after events).dupackCount.toNat = dupacksSinceTimeout events % 3 := by
  induction events using List.reverseRecOn with
  | nil => rfl
  | append_singleton events event ih =>
      have hb := reachable_bounded (reachable_after events)
      rw [after_append_singleton, toNat_dupackCount_handle hb,
        dupacksSinceTimeout_append]
      cases event with
      | onAck => exact ih
      | onDupack =>
          show ((after events).dupackCount.toNat + 1) % 3 = _
          rw [ih, Nat.mod_add_mod]
      | onTimeout => rfl

theorem cutsNext_after_iff (events : List Event) :
    CutsNext (after events) ↔ dupacksSinceTimeout events % 3 = 2 := by
  rw [cutsNext_iff (reachable_bounded (reachable_after events)),
    ← dupackCount_after]
  show (after events).dupackCount.toNat + 1 = 3 ↔ _
  omega

/-- The last two events of a history are duplicate ACKs. -/
def EndsInTwo (events : List Event) : Prop :=
  [Event.onDupack, .onDupack] <:+ events

instance (events : List Event) : Decidable (EndsInTwo events) :=
  inferInstanceAs (Decidable (_ <:+ _))

/-- Whenever a duplicate ACK of the history cuts the window, the two events
before it are duplicate ACKs. -/
def ThreeInARow (events : List Event) : Prop :=
  ∀ before, before ++ [.onDupack] <+: events →
    CutsNext (after before) → EndsInTwo before

/-- Every third duplicate ACK since a timeout comes directly after the two
before it. -/
def TriplesUnbroken (events : List Event) : Prop :=
  ∀ before, before ++ [.onDupack] <+: events →
    dupacksSinceTimeout before % 3 = 2 → EndsInTwo before

/-- The window is cut by three duplicate ACKs in a row only, exactly if no new
ACK comes among three that are counted together. -/
theorem threeInARow_iff (events : List Event) :
    ThreeInARow events ↔ TriplesUnbroken events := by
  unfold ThreeInARow TriplesUnbroken
  simp only [cutsNext_after_iff]

/-- Two duplicate ACKs, a new ACK and one more duplicate ACK: the window is
cut. -/
theorem threeInARow_fails :
    CutsNext (after [.onDupack, .onDupack, .onAck]) ∧
      (after [.onDupack, .onDupack, .onAck, .onDupack]).ssthreshBytes =
        mss ∧
      ¬ ThreeInARow [.onDupack, .onDupack, .onAck, .onDupack] := by
  refine ⟨by decide, by decide, ?_⟩
  intro hthree
  have htwo := hthree [.onDupack, .onDupack, .onAck] List.prefix_rfl
    (by decide)
  exact absurd htwo (by decide)

end Congestion
end OsKernel

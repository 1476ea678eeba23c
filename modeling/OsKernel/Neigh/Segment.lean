import OsKernel.Lib.ActionSystem
import OsKernel.Neigh.Resolve

/-!
# Address resolution on a segment

Any number of processes run `demos/neigh/neigh_arp.c` on one Ethernet segment,
each with its own addresses and target: it sends one request and then waits for
a reply.  Other stations put frames on the wire as they like.  What a round of
`recv_arp_response` receives is some frame that is on the wire by then, its own
request included; frames may be lost, repeated and reordered.

A request carries the address of its sender, in the place where a reply has it,
and only the operation code tells the two apart.  A process therefore never
learns an address from a request, and what it does learn is what some station
put into a reply (`resolved_by_owner`).
-/

namespace OsKernel
namespace Neigh

open Lib

/-! ## The frames -/

/-- Six bytes. -/
abbrev Mac := { bytes : List (BitVec 8) // bytes.length = 6 }

/-- `htons`, as two bytes in memory. -/
def htons (value : BitVec 16) : List (BitVec 8) :=
  [value.extractLsb' 8 8, value.extractLsb' 0 8]

/-- The four bytes of a `uint32_t` in the memory of a little-endian machine. -/
def ipBytes (ip : BitVec 32) : List (BitVec 8) :=
  [ip.extractLsb' 0 8, ip.extractLsb' 8 8, ip.extractLsb' 16 8,
    ip.extractLsb' 24 8]

/-- `ETH_P_IP`. -/
def ethPIp : BitVec 16 := 0x0800

/-- `ARP_REQUEST`. -/
def arpRequest : BitVec 16 := 1

/-- The 42 bytes of an Ethernet header and an ARP header. -/
def arpPacket (destMac senderMac : Mac) (opcode : BitVec 16)
    (senderIp : BitVec 32) (targetMac : Mac) (targetIp : BitVec 32) :
    List (BitVec 8) :=
  destMac.1 ++ senderMac.1 ++ htons ethPArp ++
    (htons 1 ++ htons ethPIp ++ [6, 4] ++ htons opcode ++ senderMac.1 ++
      ipBytes senderIp ++ targetMac.1 ++ ipBytes targetIp)

/-- `broadcast_mac`. -/
def broadcastMac : Mac := ⟨List.replicate 6 0xff, rfl⟩

/-- `target_mac` of a request. -/
def zeroMac : Mac := ⟨List.replicate 6 0, rfl⟩

/-- A process: what it was started with. -/
structure Host where
  senderMac : Mac
  senderIp : BitVec 32
  targetIp : BitVec 32

/-- The packet `send_arp_request` builds. -/
def Host.request (host : Host) : List (BitVec 8) :=
  arpPacket broadcastMac host.senderMac arpRequest host.senderIp zeroMac
    host.targetIp

theorem Mac.eq_six (mac : Mac) : ∃ a b c d e f, mac.1 = [a, b, c, d, e, f] := by
  obtain ⟨bytes, hlength⟩ := mac
  match bytes, hlength with
  | [a, b, c, d, e, f], _ => exact ⟨a, b, c, d, e, f, rfl⟩

/-- The fields are read from where they were written. -/
theorem arpPacket_fields (destMac senderMac : Mac) (op : BitVec 16)
    (senderIp : BitVec 32) (targetMac : Mac) (targetIp : BitVec 32) :
    let packet := arpPacket destMac senderMac op senderIp targetMac targetIp
    packet.length = 42 ∧ etherType packet = ethPArp ∧ opcode packet = op ∧
      Neigh.senderMac packet = senderMac.1 ∧ respIp packet = senderIp := by
  obtain ⟨a, b, c, d, e, f, hdest⟩ := destMac.eq_six
  obtain ⟨a', b', c', d', e', f', hsender⟩ := senderMac.eq_six
  have htarget := targetMac.2
  have hswap : ∀ value : BitVec 16,
      value.extractLsb' 8 8 ++ value.extractLsb' 0 8 = value := by
    intro value
    grind
  have hip : senderIp.extractLsb' 24 8 ++ senderIp.extractLsb' 16 8 ++
      senderIp.extractLsb' 8 8 ++ senderIp.extractLsb' 0 8 = senderIp := by
    grind
  simp only [arpPacket, hdest, hsender]
  refine ⟨?_, hswap ethPArp, hswap op, rfl, hip⟩
  simp [htons, ipBytes, htarget]

/-- A request is not a reply from anybody. -/
theorem Host.request_not_reply (host : Host) (ip : BitVec 32) :
    ¬ IsReply ip host.request := by
  intro h
  obtain ⟨-, -, hop, -, -⟩ := arpPacket_fields broadcastMac host.senderMac
    arpRequest host.senderIp zeroMac host.targetIp
  have hreply := h.reply
  rw [Host.request, hop] at hreply
  exact absurd hreply (by decide)

/-! ## The segment -/

/-- What a process is at: before its request, in `recv_arp_response`, or
returned from `main` with its exit code and with `resp_mac`, if it was
written. -/
inductive Phase
  | starting
  | waiting
  | exited (code : Int) (respMac : Option (List (BitVec 8)))
  deriving DecidableEq

/-- The processes, and the frames that were put on the wire. -/
structure Segment (ι : Type) where
  phase : ι → Phase
  wire : List (List (BitVec 8))

inductive Action (ι : Type)
  /-- `send_arp_request`; `sent` tells whether `sendto` succeeds. -/
  | send (i : ι) (sent : Bool)
  /-- A round of `recv_arp_response`. -/
  | recv (i : ι) (outcome : Outcome)
  /-- Another station puts a frame on the wire. -/
  | station (bytes : List (BitVec 8))

/-- A frame that is received was put on the wire. -/
def Outcome.From (o : Outcome) (wire : List (List (BitVec 8))) : Prop :=
  ∀ bytes, o = .frame bytes → bytes ∈ wire

instance (o : Outcome) (wire : List (List (BitVec 8))) :
    Decidable (o.From wire) :=
  match o with
  | .frame bytes => decidable_of_iff (bytes ∈ wire)
      ⟨fun h _ heq => by cases heq; exact h, fun h => h bytes rfl⟩
  | .selectFailed _ => .isTrue fun _ heq => nomatch heq
  | .timeout => .isTrue fun _ heq => nomatch heq
  | .recvFailed _ => .isTrue fun _ heq => nomatch heq

variable {ι : Type} [DecidableEq ι]

namespace Segment

/-- A process goes on. -/
def setPhase (s : Segment ι) (i : ι) (phase : Phase) : Segment ι :=
  { s with phase := Function.update s.phase i phase }

/-- A frame is put on the wire. -/
def put (s : Segment ι) (bytes : List (BitVec 8)) : Segment ι :=
  { s with wire := s.wire ++ [bytes] }

/-- One step of `main` of a process, or of another station. -/
def step (hosts : ι → Host) (s : Segment ι) : Action ι → Option (Segment ι)
  | .send i sent =>
      if s.phase i = .starting then
        if sent then some ((s.setPhase i .waiting).put (hosts i).request)
        else some (s.setPhase i (.exited 1 none))
      else none
  | .recv i outcome =>
      if s.phase i = .waiting ∧ outcome.From s.wire then
        match recvRound (hosts i).targetIp outcome with
        | none => some s
        | some result => some (s.setPhase i (.exited result.ret result.outMac))
      else none
  | .station bytes => some (s.put bytes)

/-- All processes are before their requests, and the wire is empty. -/
def system (hosts : ι → Host) : ActionSystem (Segment ι) (Action ι) where
  init s := (∀ i, s.phase i = .starting) ∧ s.wire = []
  step := step hosts

end Segment

/-! ## Who is believed -/

/-- If the frame is a reply, it has the address of the owner of the address it is
from. -/
def Honest (owner : BitVec 32 → Mac) (bytes : List (BitVec 8)) : Prop :=
  IsReply (respIp bytes) bytes → senderMac bytes = (owner (respIp bytes)).1

instance (owner : BitVec 32 → Mac) : DecidablePred (Honest owner) :=
  fun bytes => inferInstanceAs
    (Decidable (IsReply (respIp bytes) bytes → senderMac bytes = _))

/-- The other stations do not send replies in somebody else's name. -/
def Action.Honest (owner : BitVec 32 → Mac) : Action ι → Prop
  | .station bytes => Neigh.Honest owner bytes
  | .send _ _ => True
  | .recv _ _ => True

omit [DecidableEq ι] in
instance (owner : BitVec 32 → Mac) (a : Action ι) :
    Decidable (a.Honest owner) :=
  match a with
  | .station bytes => inferInstanceAs (Decidable (Neigh.Honest owner bytes))
  | .send _ _ => .isTrue trivial
  | .recv _ _ => .isTrue trivial

namespace Segment

variable {hosts : ι → Host} {owner : BitVec 32 → Mac} {s t : Segment ι}

/-- Every frame is honest, and a process that succeeded has the address of its
target's owner from a reply on the wire. -/
structure Ok (hosts : ι → Host) (owner : BitVec 32 → Mac) (s : Segment ι) :
    Prop where
  honest : ∀ bytes ∈ s.wire, Honest owner bytes
  resolved : ∀ i mac, s.phase i = .exited 0 mac →
    mac = some (owner (hosts i).targetIp).1 ∧
    ∃ bytes ∈ s.wire, IsReply (hosts i).targetIp bytes

omit [DecidableEq ι] in
theorem Ok.put (h : s.Ok hosts owner) {bytes : List (BitVec 8)}
    (hbytes : Honest owner bytes) : (s.put bytes).Ok hosts owner where
  honest := by
    intro frame hframe
    rcases List.mem_append.mp hframe with hold | hnew
    · exact h.honest frame hold
    · rw [List.mem_singleton.mp hnew]
      exact hbytes
  resolved := by
    intro i mac hexit
    obtain ⟨hmac, frame, hframe, hreply⟩ := h.resolved i mac hexit
    exact ⟨hmac, frame, List.mem_append_left _ hframe, hreply⟩

/-- A process goes on; if it succeeds, it has what it should have. -/
theorem Ok.setPhase (h : s.Ok hosts owner) {i : ι} {phase : Phase}
    (hphase : ∀ mac, phase = .exited 0 mac →
      mac = some (owner (hosts i).targetIp).1 ∧
      ∃ bytes ∈ s.wire, IsReply (hosts i).targetIp bytes) :
    (s.setPhase i phase).Ok hosts owner where
  honest := h.honest
  resolved := by
    intro j mac hexit
    change Function.update s.phase i phase j = _ at hexit
    by_cases hj : j = i
    · subst hj
      rw [Function.update_self] at hexit
      exact hphase mac hexit
    · rw [Function.update_of_ne hj] at hexit
      exact h.resolved j mac hexit

/-- A round that succeeds has received a reply from the target. -/
theorem Ok.recv (h : s.Ok hosts owner) {i : ι} {outcome : Outcome}
    (hfrom : outcome.From s.wire) {result : RecvResult}
    (hround : recvRound (hosts i).targetIp outcome = some result) :
    (s.setPhase i (.exited result.ret result.outMac)).Ok hosts owner := by
  refine h.setPhase fun mac hexit => ?_
  cases outcome with
  | selectFailed errno =>
      have hfailed : result = ⟨-1, none⟩ := by
        cases errno with
        | eintr => cases hround
        | other => exact (Option.some.inj hround).symm
      rw [hfailed] at hexit
      cases hexit
  | timeout => cases hround
  | recvFailed errno => cases hround
  | frame bytes =>
      rw [recvRound_frame] at hround
      split at hround
      next hreply =>
        cases hround
        cases hexit
        have hframe := hfrom bytes rfl
        have hmac := h.honest bytes hframe
        rw [Neigh.Honest, hreply.sender] at hmac
        exact ⟨congrArg some (hmac hreply), bytes, hframe, hreply⟩
      next => cases hround

theorem Ok.step (h : s.Ok hosts owner) {a : Action ι} (ha : a.Honest owner)
    (hstep : Segment.step hosts s a = some t) : t.Ok hosts owner := by
  cases a with
  | send i sent =>
      simp only [Segment.step] at hstep
      split_ifs at hstep
      · cases hstep
        -- a request is no reply, so it need not be checked
        refine (h.setPhase fun mac hexit => by cases hexit).put fun hreply => ?_
        exact absurd hreply ((hosts i).request_not_reply _)
      · cases hstep
        exact h.setPhase fun mac hexit => by cases hexit
  | recv i outcome =>
      simp only [Segment.step] at hstep
      split at hstep
      next hready =>
        cases hround : recvRound (hosts i).targetIp outcome with
        | none =>
            rw [hround] at hstep
            cases hstep
            exact h
        | some result =>
            rw [hround] at hstep
            cases hstep
            exact h.recv hready.2 hround
      next => cases hstep
  | station bytes =>
      cases hstep
      exact h.put ha

end Segment

/-- On a segment where nobody sends replies in somebody else's name, whatever
the processes and stations do and in whatever order the frames arrive: a process
that succeeds has written the address of the owner of its target, and there was
a reply from the target on the wire, which none of the processes sent.  Processes
that are alone on the segment never resolve each other, although their requests
have what the others wait for. -/
theorem resolved_by_owner {hosts : ι → Host} {owner : BitVec 32 → Mac}
    {s : Segment ι}
    (hreach : (Segment.system hosts).ReachableWhile
      (fun _ a => a.Honest owner) s) {i : ι} {mac : Option (List (BitVec 8))}
    (hexit : s.phase i = .exited 0 mac) :
    mac = some (owner (hosts i).targetIp).1 ∧
      ∃ bytes ∈ s.wire, IsReply (hosts i).targetIp bytes ∧
        ∀ j, bytes ≠ (hosts j).request := by
  have hok : s.Ok hosts owner := by
    refine hreach.invariant (P := fun s => s.Ok hosts owner) ?_ ?_
    · rintro s ⟨hstarting, hwire⟩
      refine ⟨fun bytes hbytes => ?_, fun i mac hexit => ?_⟩
      · rw [hwire] at hbytes
        cases hbytes
      · rw [hstarting i] at hexit
        cases hexit
    · intro s a t _ hok ha hstep
      exact hok.step ha hstep
  obtain ⟨hmac, bytes, hbytes, hreply⟩ := hok.resolved i mac hexit
  refine ⟨hmac, bytes, hbytes, hreply, ?_⟩
  rintro j rfl
  exact (hosts j).request_not_reply _ hreply

/-- Two processes, each of which waits for the other's address. -/
def pair : Bool → Host
  | false => ⟨⟨[2, 0, 0, 0, 0, 1], rfl⟩, 0x0101A8C0, 0x0201A8C0⟩
  | true => ⟨⟨[2, 0, 0, 0, 0, 2], rfl⟩, 0x0201A8C0, 0x0101A8C0⟩

/-- The owner of the two addresses. -/
def pairOwner (ip : BitVec 32) : Mac :=
  if ip = 0x0101A8C0 then (pair false).senderMac else (pair true).senderMac

/-- The reply of the second machine to the first. -/
def pairReply : List (BitVec 8) :=
  arpPacket (pair false).senderMac (pair true).senderMac arpResponse 0x0201A8C0
    (pair false).senderMac 0x0101A8C0

/-- Both send their requests, the first process gets the second one's, which it
passes over, and then a reply of the second machine. -/
theorem resolved_by_owner_pair :
    ∃ s, (Segment.system pair).ReachableWhile
        (fun _ a => a.Honest pairOwner) s ∧
      s.phase false = .exited 0 (some [2, 0, 0, 0, 0, 2]) ∧
      ∃ bytes ∈ s.wire, ∀ j, bytes ≠ (pair j).request := by
  have hstart : (Segment.system pair).ReachableWhile
      (fun _ a => a.Honest pairOwner) ⟨fun _ => .starting, []⟩ :=
    .start ⟨fun _ => rfl, rfl⟩
  have hreach := hstart.run (show (Segment.system pair).runWhile _ _
    [.send false true, .send true true,
      .recv false (.frame (pair true).request), .station pairReply,
      .recv false (.frame pairReply)] = some _ from rfl)
  obtain ⟨-, bytes, hbytes, -, hother⟩ := resolved_by_owner hreach (i := false)
    (show _ = Phase.exited 0 (some [2, 0, 0, 0, 0, 2]) from rfl)
  exact ⟨_, hreach, rfl, bytes, hbytes, hother⟩

end Neigh
end OsKernel

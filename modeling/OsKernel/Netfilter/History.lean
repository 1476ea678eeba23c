import OsKernel.Netfilter.Forward
import OsKernel.Netfilter.Recording

/-!
# What the filter makes of the past

A host receives packets, which go through `process_packet`, and sends packets of
its own, which go through `NF_LOCAL_OUT` and `NF_POST_ROUTING` as in `main`.
Only a packet that is received can enter the connection table, and then its
destination is the host.  A packet that the table lets in therefore comes from an
address of the host, and about packets from outside the filter decides without
the table: the answer to a query of the host's own is dropped like any other
packet to a port that is not open.

All packets are as `packet_create` makes them, so `process_packet` does the
routing itself.
-/

namespace OsKernel
namespace Netfilter

open Lib

/-- `packet_create`. -/
def packetCreate (src dst : UInt32) (proto : UInt8) (sport dport : UInt16) :
    Packet :=
  { srcIp := src
    dstIp := dst
    protocol := proto
    srcPort := sport
    dstPort := dport
    flags := 0
    routed := false
    isLocal := false
    dropped := false }

/-- A packet of `packet_create` with flags set by its caller. -/
def Packet.Fresh (p : Packet) : Prop :=
  p = { packetCreate p.srcIp p.dstIp p.protocol p.srcPort p.dstPort with
    flags := p.flags }

instance (p : Packet) : Decidable p.Fresh :=
  inferInstanceAs (Decidable (_ = _))

theorem Packet.Fresh.routed {p : Packet} (hp : p.Fresh) : p.routed = false := by
  rw [hp]
  rfl

theorem Packet.Fresh.dropped {p : Packet} (hp : p.Fresh) :
    p.dropped = false := by
  rw [hp]
  rfl

/-- The way of the host's own packets in `main`. -/
def sendPacket (rules : List Rule) (conn : List ConnEntry) (p : Packet) :
    Packet :=
  if traverseHooks rules conn p .localOut .localOut = .accept then
    { p with
      dropped := traverseHooks rules conn p .postRouting .postRouting == .drop }
  else p

/-- The filter, and as a ghost the packets the host has sent, as they were
left. -/
structure Host where
  filter : State
  sent : List Packet

/-- What happens at the host. -/
inductive Event
  | receive (p : Packet)
  | send (p : Packet)

/-- The packet of an event. -/
def Event.packet : Event → Packet
  | .receive p => p
  | .send p => p

/-- The host with the built-in rules. -/
def hostSystem : ActionSystem Host Event where
  init h := (system rules).init h.filter ∧ h.sent = []
  step h
    | .receive p =>
        ((system rules).step h.filter p).map fun s => { h with filter := s }
    | .send p =>
        some { h with sent := h.sent ++ [sendPacket rules h.filter.conn p] }

/-- The address is one of the host's, according to `routing_decision`. -/
def OfHost (ip : UInt32) : Prop := ip &&& 0xFF > 100

instance (ip : UInt32) : Decidable (OfHost ip) :=
  inferInstanceAs (Decidable (_ > _))

/-- TCP to a port for which there is a rule. -/
def Packet.Open (p : Packet) : Prop :=
  p.protocol = protocolTcp ∧ p.dstPort ∈ openPorts

instance (p : Packet) : Decidable p.Open :=
  inferInstanceAs (Decidable (_ ∧ _))

/-! ## The decision about one packet -/

/-- No built-in rule is for `POST_ROUTING`. -/
theorem chainVerdict_postRouting (conn : List ConnEntry) (p : Packet) :
    chainVerdict rules conn p Stage.postRouting.num = none := by
  simp [rules, chainVerdict_cons, Stage.num]

/-- What the host sends goes out. -/
theorem sendPacket_dropped (conn : List ConnEntry) {p : Packet}
    (hp : p.dropped = false) : (sendPacket rules conn p).dropped = false := by
  unfold sendPacket
  rw [traverseHooks_postRouting, chainVerdict_postRouting]
  split
  · rfl
  · exact hp

/-- The INPUT chain decides about forwarded packets, too. -/
theorem forwardDropped_eq_false_iff (conn : List ConnEntry) (p : Packet) :
    forwardDropped rules conn p = false ↔
      p.Open ∨ connTrackLookup conn p = true := by
  have hpre := chainVerdict_preRouting conn p
  have hin : chainVerdict rules conn p Stage.localIn.num =
      if p.Open ∨ connTrackLookup conn p = true then some .accept
      else some .drop := chainVerdict_localIn conn p
  unfold forwardDropped
  rw [traverseHooks_postRouting, chainVerdict_postRouting,
    traverseHooks_forward, hpre, hin, Option.getD_none, afterInput]
  by_cases haccepted : p.Open ∨ connTrackLookup conn p = true
  · simp [haccepted]
  · simp [haccepted]

theorem localDropped_eq_false_iff (conn : List ConnEntry) (p : Packet) :
    (traverseHooks rules conn p .preRouting .localIn == .drop) = false ↔
      p.Open ∨ connTrackLookup conn p = true := by
  have hin : traverseHooks rules conn p .preRouting .localIn =
      if p.Open ∨ connTrackLookup conn p = true then .accept
      else .drop := traverseHooks_input conn p
  rw [hin]
  by_cases haccepted : p.Open ∨ connTrackLookup conn p = true
  · simp [haccepted]
  · simp [haccepted]

/-- Wherever it goes, a packet gets through if its port is open or the
connection table has its connection. -/
theorem processPacket_dropped_eq_false_iff (conn : List ConnEntry)
    {p : Packet} (hp : p.routed = false) :
    (processPacket rules conn p).1.dropped = false ↔
      p.Open ∨ connTrackLookup conn p = true := by
  have hroute : route p = routingDecision p := by simp [route, hp]
  unfold processPacket
  rw [hroute]
  by_cases hlocal : (routingDecision p).isLocal = true
  · rw [if_pos hlocal]
    refine Iff.trans ?_ (localDropped_eq_false_iff conn (routingDecision p))
    dsimp only
    split <;> rfl
  · rw [if_neg hlocal]
    exact forwardDropped_eq_false_iff conn (routingDecision p)

theorem lookup_entries_iff (packets : List Packet) (p : Packet) :
    connTrackLookup (packets.map Packet.entry) p = true ↔
      ∃ q ∈ packets, p.Opposite q := by
  unfold connTrackLookup
  rw [List.any_map, List.any_eq_true]
  refine exists_congr fun q => and_congr_right fun _ => ?_
  constructor
  · intro hreverses
    simp only [Function.comp_apply, ConnEntry.reverses, Packet.entry,
      Bool.and_eq_true, beq_iff_eq] at hreverses
    obtain ⟨⟨⟨⟨⟨hsrc, hdst⟩, hsport⟩, hdport⟩, hproto⟩, -⟩ := hreverses
    exact ⟨hdst.symm, hsrc.symm, hdport.symm, hsport.symm, hproto.symm⟩
  · rintro ⟨hsrc, hdst, hsport, hdport, hproto⟩
    simp [ConnEntry.reverses, Packet.entry, hsrc, hdst, hsport, hdport, hproto]

/-! ## Runs of the host -/

/-- What is received is received by the filter, and nothing else is. -/
theorem reachable_filter {h : Host} {ok : Host → Event → Prop}
    (hreach : hostSystem.ReachableWhile ok h) :
    (system rules).Reachable h.filter := by
  refine hreach.invariant (P := fun h => (system rules).Reachable h.filter) ?_ ?_
  · intro h hinit
    exact .start hinit.1
  · intro h e h' _ hfilter _ hstep
    cases e with
    | receive p =>
        cases hstep
        exact hfilter.next (a := p) rfl
    | send p =>
        cases hstep
        exact hfilter

/-- Packets were routed by `routing_decision`, and nothing that was sent was
dropped. -/
structure Host.Ok (h : Host) : Prop where
  routed : ∀ p ∈ h.filter.processed, p.isLocal = true → OfHost p.dstIp
  sent : ∀ p ∈ h.sent, p.dropped = false

theorem processPacket_isLocal (conn : List ConnEntry) {p : Packet}
    (hp : p.routed = false) (hlocal : (processPacket rules conn p).1.isLocal = true) :
    OfHost (processPacket rules conn p).1.dstIp := by
  have hroute : route p = routingDecision p := by simp [route, hp]
  unfold processPacket at hlocal ⊢
  rw [hroute] at hlocal ⊢
  by_cases hhost : (routingDecision p).isLocal = true
  · rw [if_pos hhost]
    have haddress : OfHost p.dstIp := of_decide_eq_true hhost
    dsimp only
    split <;> exact haddress
  · rw [if_neg hhost] at hlocal
    exact absurd hlocal hhost

theorem reachable_host_ok {h : Host}
    (hreach : hostSystem.ReachableWhile (fun _ e => e.packet.Fresh) h) :
    h.Ok := by
  refine hreach.invariant (P := Host.Ok) ?_ ?_
  · rintro h ⟨⟨-, hprocessed⟩, hsent⟩
    constructor
    · intro p hp
      rw [hprocessed] at hp
      exact absurd hp List.not_mem_nil
    · intro p hp
      rw [hsent] at hp
      exact absurd hp List.not_mem_nil
  · intro h e h' _ hok hfresh hstep
    cases e with
    | receive p =>
        cases hstep
        refine ⟨fun q hq => ?_, hok.sent⟩
        rcases List.mem_append.mp hq with hq | hq
        · exact hok.routed q hq
        · rw [List.mem_singleton.mp hq]
          exact processPacket_isLocal h.filter.conn
            (Packet.Fresh.routed hfresh)
    | send p =>
        cases hstep
        refine ⟨hok.routed, fun q hq => ?_⟩
        rcases List.mem_append.mp hq with hq | hq
        · exact hok.sent q hq
        · rw [List.mem_singleton.mp hq]
          exact sendPacket_dropped h.filter.conn (Packet.Fresh.dropped hfresh)

/-- Whatever the host has received and sent: a packet gets through, to the host
or to another one, if its port is open or it answers one of the first `MAX_CONN`
packets the host accepted and recorded.  A packet from outside answers none of
them, so it gets through only if its port is open, also if it answers a packet
that the host has sent; and the host's own packets all went out. -/
theorem decided_by_history {h : Host}
    (hreach : hostSystem.ReachableWhile (fun _ e => e.packet.Fresh) h)
    {p : Packet} (hfresh : p.Fresh) :
    ((processPacket rules h.filter.conn p).1.dropped = false ↔
      p.Open ∨ ∃ q ∈ h.filter.recorded.take maxConn, p.Opposite q) ∧
    (¬ OfHost p.srcIp →
      ((processPacket rules h.filter.conn p).1.dropped = false ↔ p.Open)) ∧
    ∀ q ∈ h.sent, q.dropped = false := by
  have hok := reachable_host_ok hreach
  have hdecision : (processPacket rules h.filter.conn p).1.dropped = false ↔
      p.Open ∨ ∃ q ∈ h.filter.recorded.take maxConn, p.Opposite q := by
    rw [processPacket_dropped_eq_false_iff h.filter.conn hfresh.routed,
      conn_eq_recorded (reachable_filter hreach), lookup_entries_iff]
  refine ⟨hdecision, fun houtside => ?_, hok.sent⟩
  rw [hdecision]
  refine or_iff_left ?_
  -- the destination of a recorded packet is the host
  rintro ⟨q, hq, hopposite⟩
  obtain ⟨hprocessed, hrecorded⟩ :=
    List.mem_filter.mp (List.mem_of_mem_take hq)
  simp only [Packet.recorded, Bool.and_eq_true] at hrecorded
  refine houtside ?_
  rw [hopposite.srcIp]
  exact hok.routed q hprocessed hrecorded.1.1.1

/-- The host gets the ACK of a client and asks a name server. -/
def clientAndQuery : List Event :=
  [.receive { packetCreate 50 200 6 12345 80 with flags := 0x10 },
    .send (packetCreate 200 8 17 53 53)]

/-- The client's ACK is recorded, and the name server's answer is dropped. -/
theorem decided_by_history_query :
    ∃ h, hostSystem.run ⟨⟨[], []⟩, []⟩ clientAndQuery = some h ∧
      h.filter.recorded.length = 1 ∧ h.sent.length = 1 ∧
      ¬ (processPacket rules h.filter.conn
        (packetCreate 8 200 17 53 53)).1.dropped = false := by
  have hstart : hostSystem.ReachableWhile (fun _ e => e.packet.Fresh)
      ⟨⟨[], []⟩, []⟩ := .start ⟨⟨rfl, rfl⟩, rfl⟩
  have hack := hstart.next (a := .receive { packetCreate 50 200 6 12345 80 with
    flags := 0x10 }) (by decide) rfl
  have hquery := hack.next (a := .send (packetCreate 200 8 17 53 53))
    (by decide) rfl
  obtain ⟨-, houtside, -⟩ := decided_by_history hquery
    (show (packetCreate 8 200 17 53 53).Fresh by decide)
  refine ⟨_, rfl, by decide, rfl, fun haccepted => ?_⟩
  exact absurd ((houtside (by decide)).mp haccepted) (by decide)

end Netfilter
end OsKernel

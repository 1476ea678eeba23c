import OsKernel.Netfilter.Input

/-!
# What the connection table remembers

`conn_track_add` appends an entry for every local TCP packet with the ACK flag
that is accepted, also when the table has an entry for the same connection.
The table therefore is the list of the first `MAX_CONN` such packets, and a
connection is remembered exactly if one of its packets is among them.
-/

namespace OsKernel
namespace Netfilter

open Lib

/-- A packet as `process_packet` left it was accepted locally, is TCP and has
the ACK flag. -/
def Packet.recorded (p : Packet) : Bool :=
  p.isLocal && !p.dropped && p.protocol == protocolTcp && p.flags &&& 0x10 != 0

/-- The packets of a run that were accepted and are to be remembered. -/
def State.recorded (s : State) : List Packet :=
  s.processed.filter Packet.recorded

/-- The entry `conn_track_add` makes; it holds the packet's 5-tuple. -/
def Packet.entry (p : Packet) : ConnEntry :=
  ⟨p.srcIp, p.dstIp, p.srcPort, p.dstPort, p.protocol, true⟩

/-- A packet that goes the other way. -/
structure Packet.Opposite (q p : Packet) : Prop where
  srcIp : q.srcIp = p.dstIp
  dstIp : q.dstIp = p.srcIp
  srcPort : q.srcPort = p.dstPort
  dstPort : q.dstPort = p.srcPort
  protocol : q.protocol = p.protocol

/-- Every packet opposite to one that was recorded is found. -/
def Remembers (s : State) : Prop :=
  ∀ p ∈ s.recorded, ∀ q : Packet, q.Opposite p →
    connTrackLookup s.conn q = true

/-! ## The table is the beginning of the record -/

/-- A packet as the INPUT path leaves it. -/
def afterLocalIn (table : List Rule) (conn : List ConnEntry) (p : Packet) :
    Packet :=
  { p with
    dropped := traverseHooks table conn p .preRouting .localIn == .drop }

theorem processPacket_of_local (table : List Rule) (conn : List ConnEntry)
    {p : Packet} (hlocal : (route p).isLocal = true) :
    processPacket table conn p =
      if (afterLocalIn table conn (route p)).recorded then
        (afterLocalIn table conn (route p),
          connTrackAdd conn (afterLocalIn table conn (route p)))
      else (afterLocalIn table conn (route p), conn) := by
  have hrecorded : (afterLocalIn table conn (route p)).recorded =
      (!(afterLocalIn table conn (route p)).dropped &&
        (route p).protocol == protocolTcp && (route p).flags &&& 0x10 != 0) := by
    simp [Packet.recorded, afterLocalIn, hlocal]
  rw [hrecorded]
  unfold processPacket
  rw [if_pos hlocal]
  rfl

/-- `process_packet` changes the table for the recorded packets only. -/
theorem processPacket_conn (table : List Rule) (conn : List ConnEntry)
    (p : Packet) :
    (processPacket table conn p).2 =
      if (processPacket table conn p).1.recorded then
        connTrackAdd conn (processPacket table conn p).1
      else conn := by
  cases hlocal : (route p).isLocal with
  | false => simp [processPacket, Packet.recorded, hlocal]
  | true =>
      rw [processPacket_of_local table conn hlocal]
      cases hrecorded : (afterLocalIn table conn (route p)).recorded with
      | true => simp [hrecorded]
      | false => simp [hrecorded]

/-- A full table stays as it is, and any other grows by the packet's entry. -/
theorem connTrackAdd_take (packets : List Packet) (p : Packet) :
    connTrackAdd ((packets.take maxConn).map Packet.entry) p =
      ((packets ++ [p]).take maxConn).map Packet.entry := by
  unfold connTrackAdd
  rw [List.length_map, List.length_take]
  by_cases hroom : packets.length < maxConn
  · have hshort : min maxConn packets.length < maxConn := by omega
    rw [if_pos hshort, List.take_of_length_le hroom.le,
      List.take_of_length_le (by simpa using hroom), List.map_append]
    rfl
  · have hfull : ¬ min maxConn packets.length < maxConn := by omega
    rw [if_neg hfull, List.take_append_of_le_length (by omega)]

theorem conn_eq_recorded {table : List Rule} {s : State}
    (hreach : (system table).Reachable s) :
    s.conn = (s.recorded.take maxConn).map Packet.entry := by
  refine hreach.invariant
    (P := fun s => s.conn = (s.recorded.take maxConn).map Packet.entry) ?_ ?_
  · rintro s ⟨hconn, hprocessed⟩
    simp [State.recorded, hconn, hprocessed]
  · intro s p s' _ hconn hstep
    obtain rfl := Option.some.inj hstep
    show (processPacket table s.conn p).2 = _
    unfold State.recorded at hconn ⊢
    rw [processPacket_conn, List.filter_append]
    generalize (processPacket table s.conn p).1 = left
    cases hrecorded : left.recorded with
    | true =>
        rw [List.filter_cons_of_pos hrecorded, if_pos rfl, hconn]
        exact connTrackAdd_take _ left
    | false =>
        rw [List.filter_cons_of_neg (by simp [hrecorded]), List.filter_nil,
          List.append_nil]
        exact hconn

/-! ## Which connections are found -/

/-- An entry answers a packet opposite to `p` exactly if it is `p`'s. -/
theorem Packet.Opposite.reverses_iff {q p : Packet} (h : q.Opposite p)
    (r : Packet) : r.entry.reverses q = true ↔ r.entry = p.entry := by
  simp [ConnEntry.reverses, Packet.entry, h.srcIp, h.dstIp, h.srcPort,
    h.dstPort, h.protocol, and_assoc]

theorem Packet.exists_opposite (p : Packet) : ∃ q : Packet, q.Opposite p :=
  ⟨{ p with
    srcIp := p.dstIp
    dstIp := p.srcIp
    srcPort := p.dstPort
    dstPort := p.srcPort }, rfl, rfl, rfl, rfl, rfl⟩

theorem Packet.Opposite.lookup_iff {q p : Packet} (h : q.Opposite p)
    (packets : List Packet) :
    connTrackLookup (packets.map Packet.entry) q = true ↔
      ∃ r ∈ packets, r.entry = p.entry := by
  unfold connTrackLookup
  simp only [List.any_map, List.any_eq_true, Function.comp_apply,
    h.reverses_iff]

/-- The connections of a run are remembered if and only if each has a packet
among the first `MAX_CONN` that were recorded. -/
theorem established_remembered_iff {table : List Rule} {s : State}
    (hreach : (system table).Reachable s) :
    Remembers s ↔
      ∀ p ∈ s.recorded, ∃ r ∈ s.recorded.take maxConn, r.entry = p.entry := by
  unfold Remembers
  rw [conn_eq_recorded hreach]
  constructor
  · intro hremembers p hp
    obtain ⟨q, hq⟩ := p.exists_opposite
    exact (hq.lookup_iff _).mp (hremembers p hp q hq)
  · intro hfirst p hp q hq
    exact (hq.lookup_iff _).mpr (hfirst p hp)

/-- Two packets of one connection are far from filling the table. -/
theorem established_remembered_exchange :
    ∃ s, (system rules).run ⟨[], []⟩ exchange = some s ∧
      s.recorded = exchange ∧ Remembers s := by
  have hstart : (system rules).Reachable ⟨[], []⟩ := .start ⟨rfl, rfl⟩
  have hreach := hstart.run (show (system rules).run _ exchange = some _ from rfl)
  refine ⟨_, rfl, by decide, (established_remembered_iff hreach).mpr ?_⟩
  intro p hp
  exact ⟨p, by rwa [List.take_of_length_le (by decide)], rfl⟩

/-! ## A long connection fills the table -/

/-- An ACK to the local port 80. -/
def ackFrom (srcIp : UInt32) : Packet :=
  ⟨srcIp, 200, protocolTcp, 12345, 80, 0x10, true, true, false⟩

theorem processPacket_ackFrom (conn : List ConnEntry) (srcIp : UInt32) :
    (processPacket rules conn (ackFrom srcIp)).1 = ackFrom srcIp := by
  have hport : (80 : UInt16) ∈ openPorts := by decide
  have hverdict : traverseHooks rules conn (ackFrom srcIp) .preRouting
      .localIn = .accept := by
    rw [traverseHooks_input, if_pos (.inl ⟨rfl, hport⟩)]
  have hleft : afterLocalIn rules conn (ackFrom srcIp) = ackFrom srcIp := by
    unfold afterLocalIn
    rw [hverdict]
    rfl
  have hroute : route (ackFrom srcIp) = ackFrom srcIp := rfl
  rw [processPacket_of_local rules conn rfl, hroute, hleft]
  split <;> rfl

/-- A run over such packets accepts them all. -/
theorem run_ackFrom (sources : List UInt32) (s : State) :
    ∃ t, (system rules).run s (sources.map ackFrom) = some t ∧
      t.processed = s.processed ++ sources.map ackFrom := by
  induction sources generalizing s with
  | nil => exact ⟨s, rfl, by simp⟩
  | cons srcIp rest ih =>
      obtain ⟨t, hrun, hprocessed⟩ := ih
        { conn := (processPacket rules s.conn (ackFrom srcIp)).2
          processed := s.processed ++
            [(processPacket rules s.conn (ackFrom srcIp)).1] }
      refine ⟨t, hrun, ?_⟩
      rw [hprocessed, processPacket_ackFrom, List.map_cons, List.append_assoc]
      rfl

theorem recorded_ackFrom (sources : List UInt32) :
    (sources.map ackFrom).filter Packet.recorded = sources.map ackFrom := by
  rw [List.filter_eq_self]
  intro p hp
  obtain ⟨srcIp, -, rfl⟩ := List.mem_map.mp hp
  simp [Packet.recorded, ackFrom]

/-- Host 50 sends 256 packets, then host 51 sends one. -/
def longThenShort : List UInt32 := List.replicate maxConn 50 ++ [51]

/-- The table is full of the first connection. -/
theorem take_longThenShort :
    (longThenShort.map ackFrom).take maxConn =
      List.replicate maxConn (ackFrom 50) := by
  have hlength : (List.replicate maxConn (ackFrom 50)).length = maxConn :=
    List.length_replicate
  rw [longThenShort, List.map_append, List.map_replicate]
  exact List.take_left' hlength

theorem card_entries_longThenShort :
    ((longThenShort.map ackFrom).map Packet.entry).toFinset.card ≤ maxConn := by
  have hsub : ((longThenShort.map ackFrom).map Packet.entry).toFinset ⊆
      {(ackFrom 50).entry, (ackFrom 51).entry} := by
    intro c hc
    simp only [longThenShort, List.mem_toFinset, List.mem_map, List.mem_append,
      List.mem_replicate, List.mem_singleton] at hc
    obtain ⟨p, ⟨srcIp, hsrc, rfl⟩, rfl⟩ := hc
    rcases hsrc with ⟨-, rfl⟩ | rfl
    · simp
    · simp
  calc
    _ ≤ Finset.card {(ackFrom 50).entry, (ackFrom 51).entry} :=
      Finset.card_le_card hsub
    _ ≤ 2 := Finset.card_le_two
    _ ≤ maxConn := by decide

/-- Both connections are recorded, and the second is not remembered. -/
theorem established_forgotten :
    ∃ s, (system rules).run ⟨[], []⟩ (longThenShort.map ackFrom) = some s ∧
      (s.recorded.map Packet.entry).toFinset.card ≤ maxConn ∧
      ackFrom 51 ∈ s.recorded ∧ ¬ Remembers s := by
  obtain ⟨s, hrun, hprocessed⟩ := run_ackFrom longThenShort ⟨[], []⟩
  have hreach : (system rules).Reachable s :=
    ActionSystem.Reachable.run (.start ⟨rfl, rfl⟩) hrun
  have hrecorded : s.recorded = longThenShort.map ackFrom := by
    unfold State.recorded
    rw [hprocessed, List.nil_append, recorded_ackFrom]
  have hmem : ackFrom 51 ∈ s.recorded := by
    rw [hrecorded]
    exact List.mem_map_of_mem (List.mem_append_right _ List.mem_cons_self)
  refine ⟨s, hrun, hrecorded ▸ card_entries_longThenShort, hmem, fun hall => ?_⟩
  obtain ⟨q, hq⟩ := (ackFrom 51).exists_opposite
  have hfound := hall _ hmem q hq
  rw [conn_eq_recorded hreach, hrecorded, take_longThenShort,
    hq.lookup_iff] at hfound
  obtain ⟨r, hr, hentry⟩ := hfound
  rw [List.eq_of_mem_replicate hr] at hentry
  revert hentry
  decide

end Netfilter
end OsKernel

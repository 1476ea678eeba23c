import OsKernel.Lib.ActionSystem
import Mathlib.Tactic

/-!
# The packet filter `demos/netfilter/netfilter.c`

A packet passes a range of hook points; at each of them the first rule of the
table that is for this point and matches the packet gives the verdict.  A
local TCP packet with the ACK flag that is not dropped is entered into the
connection table, and one rule of the built-in table matches the packets whose
reversed 5-tuple is in it.

The fields only printed (`indev`, `outdev`, `hook_path`, the chain's name and
the counter `matches` of a rule) are left out.  `verdict` is one of the six
values for which `verdict_names` has a text.
-/

namespace OsKernel
namespace Netfilter

open Lib

/-- `nf_hook_stage`. -/
inductive Stage
  | preRouting
  | localIn
  | forward
  | localOut
  | postRouting
  deriving DecidableEq, Repr

/-- The number of a hook point in the enumeration. -/
def Stage.num : Stage → Nat
  | .preRouting => 0
  | .localIn => 1
  | .forward => 2
  | .localOut => 3
  | .postRouting => 4

/-- `nf_verdict`. -/
inductive Verdict
  | drop
  | accept
  | stolen
  | queue
  | repeat
  | stop
  deriving DecidableEq, Repr

/-- `PROTOCOL_TCP`. -/
def protocolTcp : UInt8 := 6

/-- `PROTOCOL_ICMP`. -/
def protocolIcmp : UInt8 := 1

/-- `packet`. -/
structure Packet where
  srcIp : UInt32
  dstIp : UInt32
  protocol : UInt8
  srcPort : UInt16
  dstPort : UInt16
  flags : UInt8
  routed : Bool
  isLocal : Bool
  dropped : Bool
  deriving DecidableEq, Repr

/-- `rule`; a zero matches anything. -/
structure Rule where
  stage : Stage
  protocol : UInt8
  srcPort : UInt16
  dstPort : UInt16
  srcIp : UInt32
  dstIp : UInt32
  verdict : Verdict
  comment : String
  deriving DecidableEq, Repr

/-- The built-in table `rules[]`. -/
def rules : List Rule :=
  [ ⟨.localIn, protocolTcp, 0, 22, 0, 0, .accept, "允许 SSH 入站"⟩,
    ⟨.localIn, protocolTcp, 0, 80, 0, 0, .accept, "允许 HTTP 入站"⟩,
    ⟨.localIn, protocolTcp, 0, 443, 0, 0, .accept, "允许 HTTPS 入站"⟩,
    ⟨.localIn, 0, 0, 0, 0, 0, .accept, "允许已建立连接"⟩,
    ⟨.localIn, protocolIcmp, 0, 0, 0, 0, .drop, "丢弃 ICMP"⟩,
    ⟨.localIn, 0, 0, 0, 0, 0, .drop, "默认拒绝 INPUT"⟩,
    ⟨.localOut, 0, 0, 0, 0, 0, .accept, "允许 OUTPUT"⟩,
    ⟨.forward, 0, 0, 0, 0, 0, .drop, "默认丢弃 FORWARD"⟩ ]

/-! ## Connection tracking -/

/-- `conn_entry`. -/
structure ConnEntry where
  srcIp : UInt32
  dstIp : UInt32
  srcPort : UInt16
  dstPort : UInt16
  protocol : UInt8
  established : Bool
  deriving DecidableEq, Repr

/-- `MAX_CONN`. -/
def maxConn : Nat := 256

/-- `conn_track_add`; the table is the list of its first `conn_count`
entries. -/
def connTrackAdd (conn : List ConnEntry) (p : Packet) : List ConnEntry :=
  if conn.length < maxConn then
    conn ++ [⟨p.srcIp, p.dstIp, p.srcPort, p.dstPort, p.protocol, true⟩]
  else conn

/-- The test of `conn_track_lookup`: the packet goes the other way. -/
def ConnEntry.reverses (c : ConnEntry) (p : Packet) : Bool :=
  c.srcIp == p.dstIp && c.dstIp == p.srcIp && c.srcPort == p.dstPort &&
    c.dstPort == p.srcPort && c.protocol == p.protocol && c.established

/-- `conn_track_lookup`. -/
def connTrackLookup (conn : List ConnEntry) (p : Packet) : Bool :=
  conn.any fun c => c.reverses p

/-! ## Hooks -/

/-- `strstr(haystack, needle) != NULL`. -/
def strstr (haystack needle : String) : Bool :=
  haystack.toList.tails.any fun rest => needle.toList.isPrefixOf rest

/-- A rule does not reach one of the `continue`s after that on its stage. -/
def Rule.hits (r : Rule) (conn : List ConnEntry) (p : Packet) : Bool :=
  !(r.protocol != 0 && r.protocol != p.protocol) &&
  !(r.dstPort != 0 && r.dstPort != p.dstPort) &&
  !(r.srcPort != 0 && r.srcPort != p.srcPort) &&
  !(r.srcIp != 0 && r.srcIp != p.srcIp) &&
  !(r.dstIp != 0 && r.dstIp != p.dstIp) &&
  !(strstr r.comment "已建立连接" && !connTrackLookup conn p)

/-- The inner loop of `traverse_hooks`: the verdict of the first rule that
hits at a hook point. -/
def chainVerdict (rules : List Rule) (conn : List ConnEntry) (p : Packet)
    (stage : Nat) : Option Verdict :=
  (rules.find? fun r => r.stage.num == stage && r.hits conn p).map Rule.verdict

@[simp] theorem chainVerdict_nil (conn : List ConnEntry) (p : Packet)
    (stage : Nat) : chainVerdict [] conn p stage = none := rfl

theorem chainVerdict_cons (r : Rule) (rest : List Rule)
    (conn : List ConnEntry) (p : Packet) (stage : Nat) :
    chainVerdict (r :: rest) conn p stage =
      if r.stage.num = stage ∧ r.hits conn p = true then some r.verdict
      else chainVerdict rest conn p stage := by
  unfold chainVerdict
  by_cases hhit : r.stage.num = stage ∧ r.hits conn p = true
  · rw [if_pos hhit, List.find?_cons_of_pos (by simpa using hhit)]
    rfl
  · rw [if_neg hhit, List.find?_cons_of_neg (by simpa using hhit)]

/-- The outer loop of `traverse_hooks` over the remaining hook points. -/
def traverseFrom (rules : List Rule) (conn : List ConnEntry) (p : Packet) :
    Nat → Nat → Verdict
  | 0, _ => .accept
  | remaining + 1, stage =>
      match chainVerdict rules conn p stage with
      | some verdict => verdict
      | none => traverseFrom rules conn p remaining (stage + 1)

/-- `traverse_hooks`. -/
def traverseHooks (rules : List Rule) (conn : List ConnEntry) (p : Packet)
    (first last : Stage) : Verdict :=
  traverseFrom rules conn p (last.num + 1 - first.num) first.num

/-- `routing_decision`. -/
def routingDecision (p : Packet) : Packet :=
  { p with isLocal := decide (p.dstIp &&& 0xFF > 100), routed := true }

/-- The routing decision of `process_packet`. -/
def route (p : Packet) : Packet :=
  if p.routed then p else routingDecision p

/-- What becomes of a forwarded packet. -/
def forwardDropped (rules : List Rule) (conn : List ConnEntry) (p : Packet) :
    Bool :=
  let v := traverseHooks rules conn p .preRouting .forward
  if v = .accept then
    traverseHooks rules conn p .postRouting .postRouting == .drop
  else v == .drop

/-- `process_packet`: the packet afterwards and the connection table. -/
def processPacket (rules : List Rule) (conn : List ConnEntry) (p : Packet) :
    Packet × List ConnEntry :=
  let p := route p
  if p.isLocal then
    let v := traverseHooks rules conn p .preRouting .localIn
    let p := { p with dropped := v == .drop }
    if !p.dropped && p.protocol == protocolTcp && p.flags &&& 0x10 != 0 then
      (p, connTrackAdd conn p)
    else (p, conn)
  else
    ({ p with dropped := forwardDropped rules conn p }, conn)

/-! ## Runs -/

/-- The connection table and, as a ghost, the packets processed so far, as
they were left. -/
structure State where
  conn : List ConnEntry
  processed : List Packet

/-- `process_packet` on any packet, with a fixed table of rules. -/
def system (rules : List Rule) : ActionSystem State Packet where
  init s := s.conn = [] ∧ s.processed = []
  step s p :=
    let result := processPacket rules s.conn p
    some { conn := result.2, processed := s.processed ++ [result.1] }

end Netfilter
end OsKernel

import OsKernel.Lib.MachineInt
import Mathlib.Tactic

/-!
# The rule chains of `demos/iptables/iptables.c`

A chain is a linked list of rules with a default policy.  `eval_chain` walks the
list and returns the target type of the first rule that matches the packet, but
goes on after a rule whose target is `TARGET_LOG`; `add_rule` puts a new rule at
the head of the list.

The texts that are only printed (the comment of a rule, the prefix of a log
line, the name of a chain) and the links between the chains of a table are left
out.
-/

namespace OsKernel
namespace Iptables

open Lib

/-- `iptables_table`. -/
inductive Table
  | filter
  | nat
  | mangle
  | raw
  deriving DecidableEq, Repr

/-- `target_type`. -/
inductive TargetType
  | accept
  | drop
  | reject
  | log
  | dnat
  | snat
  | masquerade
  | return
  deriving DecidableEq, Repr

/-- `match_t`; a zero stands for anything. -/
structure Match where
  protocol : UInt8 := 0
  dportLo : UInt16 := 0
  dportHi : UInt16 := 0
  sportLo : UInt16 := 0
  sportHi : UInt16 := 0
  srcIp : UInt32 := 0
  srcMask : UInt32 := 0
  dstIp : UInt32 := 0
  dstMask : UInt32 := 0
  established : Bool := false
  newConn : Bool := false
  deriving DecidableEq, Repr

/-- `match_packet`. -/
def matchPacket (m : Match) (proto : UInt8) (sport dport : UInt16)
    (sip dip : UInt32) (tcpFlags : UInt8) (established : Bool) : Bool :=
  if m.protocol != 0 && m.protocol != proto then false
  else if m.dportLo != 0 && (dport < m.dportLo || dport > m.dportHi) then false
  else if m.sportLo != 0 && (sport < m.sportLo || sport > m.sportHi) then false
  else if m.srcIp != 0 && sip &&& m.srcMask != m.srcIp &&& m.srcMask then false
  else if m.dstIp != 0 && dip &&& m.dstMask != m.dstIp &&& m.dstMask then false
  else if m.established && !established then false
  -- only a packet with the SYN flag and no other opens a connection
  else if m.newConn && !(tcpFlags == 0x02) then false
  else true

/-- `target_t`. -/
structure Target where
  type : TargetType
  natIp : UInt32 := 0
  natPort : UInt16 := 0
  deriving DecidableEq, Repr

/-- `rule_t`; the rules of a chain are a list in the order of their links. -/
structure Rule where
  condition : Match
  target : Target
  deriving DecidableEq, Repr

/-- `chain_t`. -/
structure Chain where
  table : Table
  rules : List Rule
  defaultPolicy : Target
  packetCount : Int
  deriving DecidableEq, Repr

/-- `pkt_t`. -/
structure Pkt where
  protocol : UInt8
  sport : UInt16
  dport : UInt16
  sip : UInt32
  dip : UInt32
  tcpFlags : UInt8
  established : Bool
  deriving DecidableEq, Repr

/-- `make_chain`. -/
def makeChain (table : Table) (policy : TargetType) : Chain where
  table := table
  rules := []
  defaultPolicy := { type := policy }
  packetCount := 0

/-- `add_rule`. -/
def addRule (ch : Chain) (r : Rule) : Chain :=
  { ch with rules := r :: ch.rules }

/-- The test of `eval_chain`. -/
def Rule.hits (r : Rule) (p : Pkt) : Bool :=
  matchPacket r.condition p.protocol p.sport p.dport p.sip p.dip p.tcpFlags
    p.established

/-- The loop of `eval_chain`: the verdict and `packet_count` afterwards. -/
def evalRules (policy : TargetType) (p : Pkt) :
    List Rule → Int → TargetType × Int
  | [], count => (policy, count)
  | r :: rest, count =>
      if r.hits p then
        -- a log rule is counted and the walk goes on
        if r.target.type = .log then
          evalRules policy p rest (wrap32 (count + 1))
        else (r.target.type, wrap32 (count + 1))
      else evalRules policy p rest count

/-- `eval_chain`: the verdict and the chain afterwards. -/
def evalChain (ch : Chain) (p : Pkt) : TargetType × Chain :=
  let (verdict, count) :=
    evalRules ch.defaultPolicy.type p ch.rules ch.packetCount
  (verdict, { ch with packetCount := count })

end Iptables
end OsKernel

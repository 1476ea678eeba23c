import OsKernel.Lib.ActionSystem
import OsKernel.Lib.HashChains
import Mathlib.Tactic

/-!
# The connection table of `demos/conntrack/conntrack.c`

Entries live in a heap and have the addresses `0, 1, ..` in the order
`conn_create` makes them; a chain of the table is the list of the addresses
that `next` leads through.  `calloc` is taken to succeed.

Left out are the fields nothing reads (`dir`, `timeout`, the counter
`conn_total`), the argument `flags` of `conn_lookup`, which it does not use,
and the output `dropped` of `tcp_step`, which is always false.
-/

namespace OsKernel
namespace Conntrack

open Lib

/-- `TCP_SYN`. -/
def tcpSyn : UInt8 := 0x02

/-- `TCP_ACK`. -/
def tcpAck : UInt8 := 0x10

/-- `TCP_FIN`. -/
def tcpFin : UInt8 := 0x01

/-- `TCP_RST`. -/
def tcpRst : UInt8 := 0x04

/-- `conn_type`. -/
inductive ConnType
  | tcp
  | udp
  | icmp
  deriving DecidableEq, Repr

/-- `conn_state`. -/
inductive ConnState
  | tcpSynSent
  | tcpSynRecv
  | tcpEstablished
  | tcpFinWait
  | tcpCloseWait
  | tcpLastAck
  | tcpTimeWait
  | udpUnreplied
  | udpReplied
  | icmp
  | none
  deriving DecidableEq, Repr

/-- The arguments `s, d, sp, dp, proto` of a lookup or a creation. -/
structure Tuple where
  s : UInt32
  d : UInt32
  sp : UInt16
  dp : UInt16
  proto : UInt8
  deriving DecidableEq, Repr

/-- The same flow in the other direction. -/
def Tuple.reverse (q : Tuple) : Tuple := ⟨q.d, q.s, q.dp, q.sp, q.proto⟩

/-- `conn_entry`. -/
structure ConnEntry where
  origSrc : UInt32
  origDst : UInt32
  origSport : UInt16
  origDport : UInt16
  protocol : UInt8
  type : ConnType
  state : ConnState
  replySrc : UInt32
  replyDst : UInt32
  replySport : UInt16
  replyDport : UInt16
  deriving DecidableEq, Repr

/-- The tuple an entry was made for. -/
def ConnEntry.orig (e : ConnEntry) : Tuple :=
  ⟨e.origSrc, e.origDst, e.origSport, e.origDport, e.protocol⟩

/-- `MAX_CONN`. -/
def maxConn : UInt32 := 512

/-- `conn_hash_key`. -/
def connHashKey (q : Tuple) : Nat :=
  ((q.s ^^^ q.d ^^^ q.sp.toUInt32 ^^^ q.dp.toUInt32 ^^^ q.proto.toUInt32) *
    0x9e3779b1 % maxConn).toNat

/-- The heap of entries and the heads' chains `conn_hash`. -/
structure State where
  heap : List ConnEntry
  connHash : Nat → List Nat

/-! ## Lookup and creation -/

/-- The two tests of `conn_lookup` on one entry, and `*is_reply`. -/
def ConnEntry.test (e : ConnEntry) (q : Tuple) : Option Bool :=
  if e.origSrc == q.s && e.origDst == q.d && e.origSport == q.sp &&
      e.origDport == q.dp && e.protocol == q.proto then
    some false
  else if e.origSrc == q.d && e.origDst == q.s && e.origSport == q.dp &&
      e.origDport == q.sp && e.protocol == q.proto then
    some true
  else none

/-- One turn of the loop of `conn_lookup`: the entry at an address, and
whether it was met in the reply direction. -/
def State.visit (st : State) (q : Tuple) (addr : Nat) : Option (Nat × Bool) :=
  (st.heap[addr]?).bind fun e => (e.test q).map fun isReply => (addr, isReply)

/-- `conn_lookup`. -/
def connLookup (st : State) (q : Tuple) : Option (Nat × Bool) :=
  (st.connHash (connHashKey q)).findSome? (st.visit q)

/-- The entry `conn_create` fills in. -/
def newEntry (q : Tuple) (t : ConnType) (state : ConnState) : ConnEntry :=
  { origSrc := q.s
    origDst := q.d
    origSport := q.sp
    origDport := q.dp
    protocol := q.proto
    type := t
    state := state
    replySrc := q.d
    replyDst := q.s
    replySport := q.dp
    replyDport := q.sp }

/-- `conn_create`; the entry's address is the length of the heap before. -/
def connCreate (st : State) (q : Tuple) (t : ConnType) (state : ConnState) :
    State :=
  let k := connHashKey q
  { heap := st.heap ++ [newEntry q t state]
    connHash := Function.update st.connHash k
      (st.heap.length :: st.connHash k) }

/-- `conn_update_reply`. -/
def connUpdateReply (rs rd : UInt32) (rsp rdp : UInt16) (e : ConnEntry) :
    ConnEntry :=
  { e with replySrc := rs, replyDst := rd, replySport := rsp, replyDport := rdp }

/-! ## The TCP state machine -/

/-- The state `tcp_step` leads to. -/
def tcpNext (state : ConnState) (flagsIn : UInt8) (isReply : Bool) :
    ConnState :=
  if isReply = false then
    match state with
    | .tcpSynSent =>
        if flagsIn = tcpSyn ||| tcpAck then .tcpSynRecv else state
    | .tcpSynRecv => if flagsIn = tcpAck then .tcpEstablished else state
    | .tcpEstablished =>
        if flagsIn = tcpFin then .tcpFinWait
        else if flagsIn = tcpRst then .tcpSynSent else state
    | .tcpFinWait => if flagsIn = tcpAck then .tcpTimeWait else state
    | _ => state
  else
    match state with
    | .tcpSynSent =>
        if flagsIn = tcpSyn ||| tcpAck then .tcpSynRecv
        else if flagsIn = tcpAck then .tcpEstablished else state
    | .tcpSynRecv => if flagsIn = tcpFin then .tcpCloseWait else state
    | .tcpEstablished => if flagsIn = tcpFin then .tcpCloseWait else state
    | .tcpCloseWait => if flagsIn = tcpFin then .tcpLastAck else state
    | _ => state

/-- `tcp_step`. -/
def tcpStep (flagsIn : UInt8) (isReply : Bool) (e : ConnEntry) : ConnEntry :=
  { e with state := tcpNext e.state flagsIn isReply }

/-- `is_established`; `none` is the null pointer. -/
def isEstablished : Option ConnEntry → Bool
  | none => false
  | some e => e.state == .tcpEstablished || e.state == .udpReplied

/-- The flags and the direction of one packet, as `tcp_step` is given them. -/
structure TcpPacket where
  flagsIn : UInt8
  isReply : Bool
  deriving DecidableEq, Repr

/-- The entry after `tcp_step` was called for each packet, oldest first. -/
def tcpSteps (e : ConnEntry) (packets : List TcpPacket) : ConnEntry :=
  packets.foldl (fun e p => tcpStep p.flagsIn p.isReply e) e

/-! ## Runs -/

/-- Calls on the table; the last two are given the address of an entry. -/
inductive Action
  | create (q : Tuple) (t : ConnType) (state : ConnState)
  | updateReply (addr : Nat) (rs rd : UInt32) (rsp rdp : UInt16)
  | tcpStep (addr : Nat) (flagsIn : UInt8) (isReply : Bool)

/-- Change the entry at an address; not enabled if there is none. -/
def State.modify (st : State) (addr : Nat) (f : ConnEntry → ConnEntry) :
    Option State :=
  (st.heap[addr]?).map fun e => { st with heap := st.heap.set addr (f e) }

def step (st : State) : Action → Option State
  | .create q t state => some (connCreate st q t state)
  | .updateReply addr rs rd rsp rdp =>
      st.modify addr (connUpdateReply rs rd rsp rdp)
  | .tcpStep addr flagsIn isReply => st.modify addr (tcpStep flagsIn isReply)

/-- Any sequence of calls on the empty table. -/
def system : ActionSystem State Action where
  init st := st.heap = [] ∧ st.connHash = fun _ => []
  step := step

end Conntrack
end OsKernel

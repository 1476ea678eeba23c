import OsKernel.Iptables.Order
import OsKernel.Lib.ActionSystem

/-!
# The firewall of `demos/iptables/iptables.c`

`build_iptables` makes the chains of the tables `filter` and `nat`, and `process`
takes a packet through them: the destination port is rewritten at hook 0, one
chain of `filter` decides, and at the hooks 3 and 4 the packets of the local
network get the address of the router.

Which chain decides depends on the hook, and at the hooks other than 1 and 3 on
the last byte of the two addresses.  In each chain of `filter` all rules that do
not log accept, so that the verdict does not depend on their order, nor on the
packets before (`process_decides`).  What the packets before leave behind are the
counters of the chains (`chains_counted`).

A chain is found by its name.  A null chain would be read by `eval_chain`; the
result is `none` then.  A hook is a natural number: of a negative one `process`
would print a name before the table of names.
-/

namespace OsKernel
namespace Iptables

open Lib

/-- The chains of a table, in the order of their links, with their names. -/
abbrev Chains := List (String × Chain)

/-- `filter_chains` and `nat_chains`. -/
structure Firewall where
  filterChains : Chains
  natChains : Chains
  deriving DecidableEq, Repr

/-- `find_chain`. -/
def findChain (chains : Chains) (name : String) : Option Chain :=
  (chains.find? fun c => c.1 == name).map Prod.snd

/-! ## `build_iptables` -/

/-- The rules of `INPUT`, in the order in which they are added. -/
def inputRules : List Rule :=
  [ ⟨{ established := true }, { type := .accept }⟩,
    ⟨{ protocol := 6, dportLo := 22, dportHi := 22, newConn := true },
      { type := .accept }⟩,
    ⟨{ protocol := 6, dportLo := 80, dportHi := 80 }, { type := .accept }⟩,
    ⟨{ protocol := 6, dportLo := 443, dportHi := 443 }, { type := .accept }⟩,
    ⟨{ protocol := 1 }, { type := .accept }⟩,
    ⟨{ protocol := 6, dportLo := 23, dportHi := 23 }, { type := .log }⟩ ]

/-- The rules of `FORWARD`, in the order in which they are added. -/
def forwardRules : List Rule :=
  [ ⟨{ established := true }, { type := .accept }⟩,
    ⟨{ protocol := 6, dportLo := 80, dportHi := 80 }, { type := .accept }⟩,
    ⟨{ protocol := 6, dportLo := 443, dportHi := 443 }, { type := .accept }⟩ ]

/-- The rule of `PREROUTING` and of the chain `OUTPUT` of `nat`. -/
def dnatRules : List Rule :=
  [ ⟨{ protocol := 6, dportLo := 8080, dportHi := 8080 },
      { type := .dnat, natPort := 80 }⟩ ]

/-- `lan_net`. -/
def lanNet : UInt32 :=
  (192 : UInt32) <<< 24 ||| (168 : UInt32) <<< 16 ||| (1 : UInt32) <<< 8

/-- The rule of `POSTROUTING`. -/
def masqueradeRules : List Rule :=
  [ ⟨{ srcIp := lanNet, srcMask := 0xFFFFFF00 }, { type := .masquerade }⟩ ]

/-- The chains of `nat`. -/
def builtNat : Chains :=
  [ ("PREROUTING", chainOf .nat .accept dnatRules),
    ("POSTROUTING", chainOf .nat .accept masqueradeRules),
    ("OUTPUT", chainOf .nat .accept dnatRules) ]

/-- `build_iptables`. -/
def buildIptables : Firewall where
  filterChains :=
    [ ("INPUT", chainOf .filter .drop inputRules),
      ("OUTPUT", chainOf .filter .accept []),
      ("FORWARD", chainOf .filter .drop forwardRules) ]
  natChains := builtNat

/-! ## `process` -/

/-- Which chain of `filter` decides. -/
inductive Path
  | input
  | output
  | forward
  deriving DecidableEq, Repr

/-- The name the chain is looked for by. -/
def Path.chainName : Path → String
  | .input => "INPUT"
  | .output => "OUTPUT"
  | .forward => "FORWARD"

/-- `to_local`. -/
def toLocal (p : Pkt) : Bool := p.dip >>> 0 &&& 0xFF > 100

/-- `from_local`. -/
def fromLocal (p : Pkt) : Bool := p.sip >>> 0 &&& 0xFF > 100

/-- The path of a packet. -/
def pathOf (p : Pkt) (hook : Nat) : Path :=
  if hook = 1 then .input
  else if hook = 3 then .output
  else if toLocal p then .input
  else if fromLocal p then .output
  else .forward

/-- The loop over the rules of `PREROUTING`. -/
def dnat (rules : List Rule) (p : Pkt) : Pkt :=
  match rules.find? fun r => r.target.type == .dnat && r.hits p with
  | some r => { p with dport := r.target.natPort }
  | none => p

/-- The loop over the rules of `POSTROUTING`: whether one of them applies. -/
def masquerade (rules : List Rule) (p : Pkt) : Bool :=
  rules.any fun r => r.target.type == .masquerade && r.hits p

/-- `eval_chain(find_chain(chains, name), p)`, and the chains afterwards. -/
def evalFound (name : String) (p : Pkt) : Chains → Option (TargetType × Chains)
  | [] => none
  | (n, ch) :: rest =>
      if n == name then
        let (verdict, ch) := evalChain ch p
        some (verdict, (n, ch) :: rest)
      else (evalFound name p rest).map fun (verdict, rest) =>
        (verdict, (n, ch) :: rest)

/-- What `process` leaves behind and prints. -/
structure Outcome where
  firewall : Firewall
  packet : Pkt
  verdict : TargetType
  masqueraded : Bool

/-- `process`. -/
def process (fw : Firewall) (p : Pkt) (hook : Nat) : Option Outcome :=
  let path := pathOf p hook
  let p :=
    if hook = 0 then
      match findChain fw.natChains "PREROUTING" with
      | some pr => dnat pr.rules p
      | none => p
    else p
  (evalFound path.chainName p fw.filterChains).map fun (verdict, chains) =>
    { firewall := { fw with filterChains := chains }
      packet := p
      verdict := verdict
      masqueraded :=
        if hook = 4 ∨ hook = 3 then
          match findChain fw.natChains "POSTROUTING" with
          | some po => masquerade po.rules p
          | none => false
        else false }

/-- The firewall and, as a ghost, the calls of `process` so far. -/
structure FirewallRun where
  firewall : Firewall
  calls : List (Pkt × Nat)

/-- Any packets at any hooks, after `build_iptables`. -/
def firewallSystem : ActionSystem FirewallRun (Pkt × Nat) where
  init s := s = ⟨buildIptables, []⟩
  step s call := (process s.firewall call.1 call.2).map fun o =>
    { firewall := o.firewall, calls := s.calls ++ [call] }

/-! ## Which packets a rule is for -/

theorem port_range (dport port : UInt16) :
    (decide (dport < port) || decide (dport > port)) = (dport != port) := by
  rw [Bool.eq_iff_iff]
  simp only [Bool.or_eq_true, decide_eq_true_eq, bne_iff_ne, ne_eq, gt_iff_lt,
    UInt16.lt_iff_toNat_lt, ← UInt16.toNat_inj]
  omega

@[simp] theorem hits_established (t : Target) (p : Pkt) :
    Rule.hits ⟨{ established := true }, t⟩ p = p.established := by
  cases hp : p.established <;> simp [Rule.hits, matchPacket, hp]

theorem hits_protocol (proto : UInt8) (hproto : proto ≠ 0) (t : Target)
    (p : Pkt) :
    Rule.hits ⟨{ protocol := proto }, t⟩ p = (p.protocol == proto) := by
  by_cases hp : p.protocol = proto
  · simp [Rule.hits, matchPacket, hp]
  · have hbeq : (p.protocol == proto) = false := beq_eq_false_iff_ne.mpr hp
    simp [Rule.hits, matchPacket, hproto, hbeq, Ne.symm hp]

/-- A rule for one port, with or without the condition that the packet opens a
connection. -/
theorem hits_port {proto : UInt8} (port : UInt16) (hproto : proto ≠ 0)
    (hport : port ≠ 0) (newConn : Bool) (t : Target) (p : Pkt) :
    Rule.hits ⟨{ protocol := proto, dportLo := port, dportHi := port
                 newConn := newConn }, t⟩ p =
      (p.protocol == proto && p.dport == port &&
        (!newConn || p.tcpFlags == 2)) := by
  by_cases hp : p.protocol = proto
  · by_cases hd : p.dport = port
    · have hsyn : decide (p.tcpFlags = 2) = (p.tcpFlags == 2) := rfl
      cases newConn <;> simp [Rule.hits, matchPacket, hp, hd, hsyn]
    · have hbeq : (p.dport == port) = false := beq_eq_false_iff_ne.mpr hd
      simp [Rule.hits, matchPacket, port_range, hp, hd, hport, hbeq]
  · have hbeq : (p.protocol == proto) = false := beq_eq_false_iff_ne.mpr hp
    simp [Rule.hits, matchPacket, hproto, hbeq, Ne.symm hp]

theorem hits_source (ip mask : UInt32) (hip : ip ≠ 0) (t : Target) (p : Pkt) :
    Rule.hits ⟨{ srcIp := ip, srcMask := mask }, t⟩ p =
      (p.sip &&& mask == ip &&& mask) := by
  by_cases hp : p.sip &&& mask = ip &&& mask
  · simp [Rule.hits, matchPacket, hp]
  · have hbeq : (p.sip &&& mask == ip &&& mask) = false :=
      beq_eq_false_iff_ne.mpr hp
    simp [Rule.hits, matchPacket, hip, hp, hbeq]

/-! ## The counter of a chain -/

/-- The rules that `eval_chain` counts for a packet: those that log before the
one that settles it, and that one. -/
def marks (p : Pkt) : List Rule → Nat
  | [] => 0
  | r :: rest =>
      if r.hits p then
        if r.target.type = .log then marks p rest + 1 else 1
      else marks p rest

theorem wrap32_add (x y : Int) : wrap32 (wrap32 x + y) = wrap32 (x + y) :=
  Int.bmod_add_bmod

theorem evalRules_count (policy : TargetType) (p : Pkt) (rules : List Rule)
    (count : Int) :
    (evalRules policy p rules (wrap32 count)).2 =
      wrap32 (count + marks p rules) := by
  induction rules generalizing count with
  | nil => simp [evalRules, marks]
  | cons r rest ih =>
      rw [evalRules, marks]
      split
      · split
        · rw [wrap32_add, ih, Nat.cast_succ, add_assoc, add_comm (1 : Int)]
        · rw [wrap32_add]
          rfl
      · exact ih count

theorem evalChain_count (ch : Chain) (p : Pkt) {count : Int}
    (hcount : ch.packetCount = wrap32 count) :
    (evalChain ch p).2 =
      { ch with packetCount := wrap32 (count + marks p ch.rules) } := by
  have h := evalRules_count ch.defaultPolicy.type p ch.rules count
  rw [← hcount] at h
  unfold evalChain
  rw [← h]

/-! ## The firewall -/

/-- The packet after `PREROUTING`. -/
def portForwarded (p : Pkt) (hook : Nat) : Pkt :=
  if hook = 0 ∧ p.protocol = 6 ∧ p.dport = 8080 then { p with dport := 80 }
  else p

/-- What the chain of a path lets through. -/
def Path.accepts : Path → Pkt → Bool
  | .input, p =>
      p.established || p.protocol == 1 ||
        (p.protocol == 6 && (p.dport == 80 || p.dport == 443 ||
          (p.dport == 22 && p.tcpFlags == 2)))
  | .output, _ => true
  | .forward, p =>
      p.established || (p.protocol == 6 && (p.dport == 80 || p.dport == 443))

/-- How much a packet adds to the counter of the chain of its path: one if it is
logged, one if it is accepted by a rule. -/
def Path.counts : Path → Pkt → Nat
  | .input, p =>
      (p.protocol == 6 && p.dport == 23).toNat + (Path.accepts .input p).toNat
  | .output, _ => 0
  | .forward, p => (Path.accepts .forward p).toNat

/-- How much a call of `process` adds to the counter of a chain. -/
def counted (path : Path) (call : Pkt × Nat) : Nat :=
  if pathOf call.1 call.2 = path then
    path.counts (portForwarded call.1 call.2)
  else 0

/-- The chains that were built, with other counters. -/
def builtWith (count : Path → Int) : Firewall where
  filterChains :=
    [ ("INPUT", { chainOf .filter .drop inputRules with
        packetCount := count .input }),
      ("OUTPUT", { chainOf .filter .accept [] with
        packetCount := count .output }),
      ("FORWARD", { chainOf .filter .drop forwardRules with
        packetCount := count .forward }) ]
  natChains := builtNat

/-- The chain of a path, as it was built. -/
def Path.chain : Path → Chain
  | .input => chainOf .filter .drop inputRules
  | .output => chainOf .filter .accept []
  | .forward => chainOf .filter .drop forwardRules

/-- The chain of a path is found, and its evaluation changes no other. -/
theorem evalFound_builtWith (path : Path) (p : Pkt) (count : Path → Int) :
    evalFound path.chainName p (builtWith count).filterChains =
      let result := evalChain { path.chain with packetCount := count path } p
      some (result.1, (builtWith (Function.update count path
        result.2.packetCount)).filterChains) := by
  cases path <;> rfl

/-- A rule that accepts settles the packets it is for. -/
theorem settles_of_accept {r : Rule} (haccept : r.target.type = .accept)
    (p : Pkt) : r.settles p = r.hits p := by
  rw [Rule.settles, haccept]
  exact Bool.and_true _

/-- The rules of `FORWARD` accept what the chain lets through. -/
theorem any_hits_forward (p : Pkt) :
    forwardRules.any (fun r => r.hits p) = Path.accepts .forward p := by
  simp only [forwardRules, List.any_cons, List.any_nil, hits_established,
    Path.accepts]
  rw [hits_port 80 (by decide) (by decide) false,
    hits_port 443 (by decide) (by decide) false]
  cases p.established <;> cases p.protocol == 6 <;> simp

/-- The first five rules of `INPUT` accept what the chain lets through. -/
theorem any_hits_input (p : Pkt) :
    (inputRules.take 5).any (fun r => r.hits p) = Path.accepts .input p := by
  simp only [inputRules, List.take, List.any_cons, List.any_nil,
    hits_established, hits_protocol 1 (by decide), Path.accepts]
  rw [hits_port 22 (by decide) (by decide) true,
    hits_port 80 (by decide) (by decide) false,
    hits_port 443 (by decide) (by decide) false]
  cases p.established <;> cases p.protocol == 6 <;> cases p.protocol == 1 <;>
    cases p.dport == 80 <;> cases p.dport == 443 <;> simp

/-- The verdict about a packet and what is counted for it, where all rules
accept. -/
theorem walk_of_accept (rules : List Rule)
    (haccept : ∀ r ∈ rules, r.target.type = .accept) (p : Pkt) :
    firstTarget .drop p rules =
        (if rules.any (fun r => r.hits p) then .accept else .drop) ∧
      marks p rules = (rules.any fun r => r.hits p).toNat := by
  induction rules with
  | nil => exact ⟨rfl, rfl⟩
  | cons r rest ih =>
      obtain ⟨hverdict, hmarks⟩ := ih fun q hq => haccept q (.tail r hq)
      have hr := haccept r List.mem_cons_self
      rw [firstTarget, FirstMatch.decision_cons, settles_of_accept hr, marks, hr,
        List.any_cons, if_neg (show TargetType.accept ≠ .log by decide)]
      cases r.hits p with
      | true => exact ⟨rfl, rfl⟩
      | false => exact ⟨hverdict, hmarks⟩

/-- A walk that begins with a rule that logs. -/
theorem walk_of_log {r : Rule} (hlog : r.target.type = .log) (rules : List Rule)
    (p : Pkt) :
    firstTarget .drop p (r :: rules) = firstTarget .drop p rules ∧
      marks p (r :: rules) = (r.hits p).toNat + marks p rules := by
  constructor
  · exact FirstMatch.decision_skip (Rule.settles_of_log hlog p) [] rules
  · rw [marks, if_pos hlog]
    cases r.hits p with
    | true => exact Nat.add_comm _ _
    | false => exact (Nat.zero_add _).symm

/-- What the chain of a path does with a packet. -/
theorem walk_path (path : Path) (p : Pkt) :
    firstTarget path.chain.defaultPolicy.type p path.chain.rules =
        (if path.accepts p then .accept else .drop) ∧
      marks p path.chain.rules = path.counts p := by
  cases path with
  | input =>
      -- the rule that logs was added last and comes first
      obtain ⟨hverdict, hmarks⟩ := walk_of_log (r :=
        ⟨{ protocol := 6, dportLo := 23, dportHi := 23 }, { type := .log }⟩) rfl
        (inputRules.take 5).reverse p
      obtain ⟨hrest, hcount⟩ := walk_of_accept
        (inputRules.take 5).reverse (by decide) p
      rw [List.any_reverse, any_hits_input] at hrest hcount
      rw [hits_port 23 (by decide) (by decide) false, hcount] at hmarks
      refine ⟨hverdict.trans hrest, hmarks.trans ?_⟩
      simp [Path.counts]
  | output => exact ⟨rfl, rfl⟩
  | forward =>
      obtain ⟨hverdict, hcount⟩ := walk_of_accept
        forwardRules.reverse (by decide) p
      rw [List.any_reverse, any_hits_forward] at hverdict hcount
      exact ⟨hverdict, hcount⟩

theorem evalChain_path (path : Path) (p : Pkt) (count : Int) :
    evalChain { path.chain with packetCount := wrap32 count } p =
      (if path.accepts p then .accept else .drop,
        { path.chain with packetCount := wrap32 (count + path.counts p) }) := by
  obtain ⟨hverdict, hmarks⟩ := walk_path path p
  refine Prod.ext ?_ ?_
  · rw [evalChain_verdict]
    exact hverdict
  · rw [evalChain_count _ p rfl]
    exact congrArg (fun n : Nat =>
      { path.chain with packetCount := wrap32 (count + n) }) hmarks

theorem dnat_prerouting (p : Pkt) :
    dnat (chainOf .nat .accept dnatRules).rules p =
      if p.protocol = 6 ∧ p.dport = 8080 then { p with dport := 80 } else p := by
  have hhits := hits_port 8080 (show (6 : UInt8) ≠ 0 by decide) (by decide)
    false { type := .dnat, natPort := 80 } p
  rw [chainOf_rules]
  by_cases h : p.protocol = 6 ∧ p.dport = 8080
  · have htrue : Rule.hits ⟨{ protocol := 6, dportLo := 8080, dportHi := 8080 },
        { type := .dnat, natPort := 80 }⟩ p = true := by
      rw [hhits, h.1, h.2]
      rfl
    simp [dnat, dnatRules, htrue, h]
  · have hfalse : Rule.hits ⟨{ protocol := 6, dportLo := 8080, dportHi := 8080 },
        { type := .dnat, natPort := 80 }⟩ p = false := by
      rw [hhits, Bool.eq_false_iff]
      simpa using h
    simp [dnat, dnatRules, hfalse, h]

theorem masquerade_postrouting (p : Pkt) :
    masquerade (chainOf .nat .accept masqueradeRules).rules p =
      (p.sip &&& 0xFFFFFF00 == 0xC0A80100) := by
  have hhits := hits_source lanNet 0xFFFFFF00 (by decide)
    { type := .masquerade } p
  have hnet : lanNet &&& 0xFFFFFF00 = 0xC0A80100 := by decide
  rw [hnet] at hhits
  rw [chainOf_rules, ← hhits]
  simp [masquerade, masqueradeRules]

/-- What `process` does with the chains that were built. -/
theorem process_builtWith (count : Path → Int) (p : Pkt) (hook : Nat) :
    process (builtWith fun path => wrap32 (count path)) p hook = some
      { firewall := builtWith fun path =>
          wrap32 (count path + counted path (p, hook))
        packet := portForwarded p hook
        verdict :=
          if (pathOf p hook).accepts (portForwarded p hook) then .accept
          else .drop
        masqueraded := if hook = 4 ∨ hook = 3 then
            (portForwarded p hook).sip &&& 0xFFFFFF00 == 0xC0A80100
          else false } := by
  have hpre : findChain (builtWith fun path => wrap32 (count path)).natChains
      "PREROUTING" = some (chainOf .nat .accept dnatRules) := rfl
  have hpost : findChain (builtWith fun path => wrap32 (count path)).natChains
      "POSTROUTING" = some (chainOf .nat .accept masqueradeRules) := rfl
  have hpacket : (if hook = 0 then dnat (chainOf .nat .accept dnatRules).rules p
      else p) = portForwarded p hook := by
    rw [dnat_prerouting, portForwarded]
    by_cases hhook : hook = 0 <;> simp [hhook]
  have hresult := evalChain_path (pathOf p hook) (portForwarded p hook)
    (count (pathOf p hook))
  have hcounts : Function.update (fun path => wrap32 (count path))
      (pathOf p hook) (wrap32 (count (pathOf p hook) +
        (pathOf p hook).counts (portForwarded p hook))) =
      fun path => wrap32 (count path + counted path (p, hook)) := by
    funext path
    by_cases hpath : path = pathOf p hook
    · subst hpath
      simp [counted]
    · simp [counted, hpath, Ne.symm hpath]
  simp only [process, hpre, hpost, hpacket, masquerade_postrouting,
    evalFound_builtWith, Option.map_some, hresult, hcounts]
  rfl

/-- Every packet so far has been counted. -/
theorem reachable_builtWith {s : FirewallRun}
    (hreach : firewallSystem.Reachable s) :
    s.firewall = builtWith fun path =>
      wrap32 ((s.calls.map (counted path)).sum : Nat) := by
  refine hreach.invariant (P := fun s => s.firewall = builtWith fun path =>
    wrap32 ((s.calls.map (counted path)).sum : Nat)) ?_ ?_
  · rintro s rfl
    rfl
  · intro s call s' _ ih hstep
    change (process s.firewall call.1 call.2).map _ = some s' at hstep
    rw [ih, process_builtWith] at hstep
    obtain rfl := Option.some.inj hstep
    simp

/-- After any packets at any hooks, what becomes of the next one depends on it
and its hook only: a TCP packet to port 8080 at hook 0 goes on to port 80, and
the packet is let through exactly if its chain accepts it. -/
theorem process_decides {s : FirewallRun} (hreach : firewallSystem.Reachable s)
    (p : Pkt) (hook : Nat) :
    ∃ o, process s.firewall p hook = some o ∧
      o.packet = portForwarded p hook ∧
      o.verdict = (if (pathOf p hook).accepts (portForwarded p hook) then
        TargetType.accept else .drop) ∧
      (o.masqueraded = true ↔
        (hook = 4 ∨ hook = 3) ∧ p.sip &&& 0xFFFFFF00 = 0xC0A80100) := by
  have hsip : (portForwarded p hook).sip = p.sip := by
    unfold portForwarded
    split <;> rfl
  rw [reachable_builtWith hreach, process_builtWith]
  refine ⟨_, rfl, rfl, rfl, ?_⟩
  rw [hsip]
  by_cases hhook : hook = 4 ∨ hook = 3 <;> simp [hhook]

/-- The same connection attempt to port 8080 comes through at hook 0 and is
dropped at hook 1, also after other packets. -/
theorem process_decides_portForwarding :
    ∃ s, firewallSystem.Reachable s ∧ s.calls = [(telnetSyn, 1)] ∧
      (∃ o, process s.firewall { telnetSyn with dport := 8080, dip := 0xC0A801C8 }
        0 = some o ∧ o.verdict = .accept ∧ o.packet.dport = 80) ∧
      ∃ o, process s.firewall { telnetSyn with dport := 8080, dip := 0xC0A801C8 }
        1 = some o ∧ o.verdict ≠ .accept := by
  have hstart : firewallSystem.Reachable ⟨buildIptables, []⟩ := .start rfl
  have hreach := hstart.next (a := (telnetSyn, 1)) rfl
  refine ⟨_, hreach, rfl, ?_, ?_⟩
  · obtain ⟨o, ho, hpacket, hverdict, -⟩ := process_decides hreach
      { telnetSyn with dport := 8080, dip := 0xC0A801C8 } 0
    refine ⟨o, ho, hverdict.trans (by decide), ?_⟩
    rw [hpacket]
    decide
  · obtain ⟨o, ho, -, hverdict, -⟩ := process_decides hreach
      { telnetSyn with dport := 8080, dip := 0xC0A801C8 } 1
    refine ⟨o, ho, ?_⟩
    rw [hverdict]
    decide

/-- After any packets at any hooks, the chains of both tables are those that
were built but for the counters, and these are, as an `int`, the number of times
a packet was logged or accepted by a rule of the chain. -/
theorem chains_counted {s : FirewallRun}
    (hreach : firewallSystem.Reachable s) :
    s.firewall.natChains = buildIptables.natChains ∧
    ∀ path : Path, ∃ ch, findChain s.firewall.filterChains path.chainName =
        some ch ∧
      ch = { path.chain with
        packetCount := wrap32 ((s.calls.map (counted path)).sum : Nat) } := by
  rw [reachable_builtWith hreach]
  refine ⟨rfl, fun path => ⟨_, ?_, rfl⟩⟩
  cases path <;> rfl

/-- A packet that is logged and accepted is counted twice. -/
theorem chains_counted_telnet :
    ∃ s, firewallSystem.Reachable s ∧
      ∃ ch, findChain s.firewall.filterChains "INPUT" = some ch ∧
        ch.packetCount = 2 := by
  have hstart : firewallSystem.Reachable ⟨buildIptables, []⟩ := .start rfl
  have hreach := hstart.next
    (a := ({ telnetSyn with established := true }, 1)) rfl
  obtain ⟨ch, hfound, hch⟩ := (chains_counted hreach).2 .input
  refine ⟨_, hreach, ch, hfound, ?_⟩
  rw [hch]
  decide

end Iptables
end OsKernel

import OsKernel.Netfilter.Model

/-!
# The INPUT policy of the built-in rules

The connection table opens the INPUT chain for any port, and the packets it
lets in may enter it.  Every entry nevertheless is a TCP connection with one
of the open ports at one end, because a packet that reverses an entry has the
entry's two ports.
-/

namespace OsKernel
namespace Netfilter

open Lib

/-- The ports the built-in rules accept: SSH, HTTP and HTTPS. -/
def openPorts : List UInt16 := [22, 80, 443]

/-- A TCP packet from or to an open port. -/
def Packet.Permitted (p : Packet) : Prop :=
  p.protocol = protocolTcp ∧
    (p.srcPort ∈ openPorts ∨ p.dstPort ∈ openPorts)

/-- An entry of the connection table for such packets. -/
def ConnEntry.Permitted (c : ConnEntry) : Prop :=
  c.protocol = protocolTcp ∧
    (c.srcPort ∈ openPorts ∨ c.dstPort ∈ openPorts)

/-- No built-in rule is for `PRE_ROUTING`. -/
theorem chainVerdict_preRouting (conn : List ConnEntry) (p : Packet) :
    chainVerdict rules conn p Stage.preRouting.num = none := by
  simp [rules, chainVerdict_cons, Stage.num]

/-- A rule for one TCP port. -/
theorem hits_tcp_port (conn : List ConnEntry) (p : Packet) {port : UInt16}
    {comment : String} (hport : port ≠ 0)
    (hcomment : strstr comment "已建立连接" = false) (verdict : Verdict) :
    Rule.hits ⟨.localIn, protocolTcp, 0, port, 0, 0, verdict, comment⟩ conn p =
      decide (p.protocol = protocolTcp ∧ p.dstPort = port) := by
  have htcp : protocolTcp ≠ 0 := by decide
  rw [Bool.eq_iff_iff, decide_eq_true_iff]
  simp [Rule.hits, htcp, hport, hcomment, @eq_comm _ protocolTcp,
    @eq_comm _ port]

/-- The rule for the packets of known connections. -/
theorem hits_established (conn : List ConnEntry) (p : Packet)
    (verdict : Verdict) :
    Rule.hits ⟨.localIn, 0, 0, 0, 0, 0, verdict, "允许已建立连接"⟩ conn p =
      connTrackLookup conn p := by
  have hcomment : strstr "允许已建立连接" "已建立连接" = true := by decide
  simp [Rule.hits, hcomment]

/-- The last rule of the chain matches everything. -/
theorem hits_default (conn : List ConnEntry) (p : Packet) (verdict : Verdict) :
    Rule.hits ⟨.localIn, 0, 0, 0, 0, 0, verdict, "默认拒绝 INPUT"⟩ conn p =
      true := by
  have hcomment : strstr "默认拒绝 INPUT" "已建立连接" = false := by decide
  simp [Rule.hits, hcomment]

/-- The INPUT chain: the three ports, then the connection table, then nothing
more. -/
theorem chainVerdict_localIn (conn : List ConnEntry) (p : Packet) :
    chainVerdict rules conn p Stage.localIn.num =
      if p.protocol = protocolTcp ∧ p.dstPort ∈ openPorts ∨
          connTrackLookup conn p = true then some .accept
      else some .drop := by
  have hssh : strstr "允许 SSH 入站" "已建立连接" = false := by decide
  have hhttp : strstr "允许 HTTP 入站" "已建立连接" = false := by decide
  have hhttps : strstr "允许 HTTPS 入站" "已建立连接" = false := by decide
  simp only [rules, chainVerdict_cons, true_and, hits_established,
    hits_default, hits_tcp_port conn p (show (22 : UInt16) ≠ 0 by decide) hssh,
    hits_tcp_port conn p (show (80 : UInt16) ≠ 0 by decide) hhttp,
    hits_tcp_port conn p (show (443 : UInt16) ≠ 0 by decide) hhttps,
    decide_eq_true_eq, if_true, openPorts, List.mem_cons, List.not_mem_nil,
    or_false]
  -- the ICMP rule drops, and so does the default
  by_cases hproto : p.protocol = protocolTcp
  · simp only [hproto, true_and]
    split_ifs <;> simp_all
  · simp only [hproto, false_and, if_false, false_or]
    split_ifs <;> rfl

theorem traverseHooks_input (conn : List ConnEntry) (p : Packet) :
    traverseHooks rules conn p .preRouting .localIn =
      if p.protocol = protocolTcp ∧ p.dstPort ∈ openPorts ∨
          connTrackLookup conn p = true then .accept
      else .drop := by
  have hpre := chainVerdict_preRouting conn p
  have hin := chainVerdict_localIn conn p
  simp only [Stage.num] at hpre hin
  simp only [traverseHooks, Stage.num, traverseFrom, hpre, hin]
  split_ifs <;> rfl

/-- A packet that reverses a permitted entry is permitted. -/
theorem permitted_of_lookup {conn : List ConnEntry} {p : Packet}
    (hconn : ∀ c ∈ conn, c.Permitted) (hlookup : connTrackLookup conn p = true) :
    p.Permitted := by
  obtain ⟨c, hc, hreverses⟩ := List.any_eq_true.mp hlookup
  obtain ⟨hproto, hports⟩ := hconn c hc
  simp only [ConnEntry.reverses, Bool.and_eq_true, beq_iff_eq] at hreverses
  obtain ⟨⟨⟨⟨-, hsrc⟩, hdst⟩, hsame⟩, -⟩ := hreverses
  exact ⟨hsame ▸ hproto, hports.symm.imp (hdst ▸ ·) (hsrc ▸ ·)⟩

/-- A packet the INPUT chain lets through. -/
theorem permitted_of_accepted {conn : List ConnEntry} {p : Packet}
    (hconn : ∀ c ∈ conn, c.Permitted)
    (haccepted : traverseHooks rules conn p .preRouting .localIn ≠ .drop) :
    p.Permitted := by
  rw [traverseHooks_input] at haccepted
  split_ifs at haccepted with hcases
  · rcases hcases with ⟨hproto, hport⟩ | hlookup
    · exact ⟨hproto, .inr hport⟩
    · exact permitted_of_lookup hconn hlookup
  · exact absurd rfl haccepted

/-- An accepted packet is permitted, and what it enters into the table is. -/
theorem processPacket_permitted {conn : List ConnEntry}
    (hconn : ∀ c ∈ conn, c.Permitted) (p : Packet) :
    ((processPacket rules conn p).1.isLocal = true →
      (processPacket rules conn p).1.dropped = false →
      (processPacket rules conn p).1.Permitted) ∧
    ∀ c ∈ (processPacket rules conn p).2, c.Permitted := by
  unfold processPacket
  by_cases hlocal : (route p).isLocal = true
  · simp only [hlocal, if_true]
    generalize hverdict :
      traverseHooks rules conn (route p) .preRouting .localIn = verdict
    have hpermitted : verdict ≠ .drop → (route p).Permitted := by
      rw [← hverdict]
      exact permitted_of_accepted hconn
    split
    · rename_i hack
      have haccepted : verdict ≠ .drop := by
        rintro rfl
        simp at hack
      refine ⟨fun _ _ => hpermitted haccepted, fun c hc => ?_⟩
      simp only [connTrackAdd] at hc
      split at hc
      · rcases List.mem_append.mp hc with hc | hc
        · exact hconn c hc
        · -- the new entry has the packet's protocol and ports
          rw [List.mem_singleton.mp hc]
          exact hpermitted haccepted
      · exact hconn c hc
    · refine ⟨fun _ hdropped => hpermitted ?_, hconn⟩
      rintro rfl
      simp at hdropped
  · simp [hlocal]
    exact hconn

/-- In every run of the built-in rules from an empty connection table, a
packet that is accepted locally is TCP from or to an open port. -/
theorem input_policy {s : State} (hreach : (system rules).Reachable s) :
    ∀ p ∈ s.processed, p.isLocal = true → p.dropped = false → p.Permitted := by
  have hinv := hreach.invariant
    (P := fun s => (∀ c ∈ s.conn, c.Permitted) ∧
      ∀ p ∈ s.processed, p.isLocal = true → p.dropped = false → p.Permitted)
    ?_ ?_
  · exact hinv.2
  · rintro s ⟨hconn, hprocessed⟩
    simp [hconn, hprocessed]
  · rintro s p s' - ⟨hconn, hprocessed⟩ hstep
    obtain rfl := Option.some.inj hstep
    obtain ⟨hpacket, htable⟩ := processPacket_permitted hconn p
    refine ⟨htable, fun q hq => ?_⟩
    rcases List.mem_append.mp hq with hq | hq
    · exact hprocessed q hq
    · rw [List.mem_singleton.mp hq]
      exact hpacket

/-- A client's ACK to port 80 and the server's answer, both local. -/
def exchange : List Packet :=
  [⟨50, 200, 6, 12345, 80, 0x10, true, true, false⟩,
    ⟨200, 50, 6, 80, 12345, 0x10, true, true, false⟩]

/-- The answer goes to port 12345 and is let in by the connection table. -/
theorem input_policy_answer :
    ∃ s, (system rules).run ⟨[], []⟩ exchange = some s ∧
      s.processed.length = 2 ∧
      (∀ p ∈ s.processed, p.isLocal = true ∧ p.dropped = false) ∧
      ∀ p ∈ s.processed, p.isLocal = true → p.dropped = false →
        p.Permitted := by
  have hstart : (system rules).Reachable ⟨[], []⟩ := .start ⟨rfl, rfl⟩
  exact ⟨_, rfl, rfl, by decide, input_policy
    (hstart.run (show (system rules).run _ exchange = some _ from rfl))⟩

end Netfilter
end OsKernel

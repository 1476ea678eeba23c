import OsKernel.Conntrack.Flows
import OsKernel.Conntrack.TcpState

/-!
# What `-m state` sees of a connection

`match_state` tells a firewall rule the state of the connection a packet belongs
to.  An entry that `conn_create` makes for a SYN is never `NEW` to it: it is
`RELATED` up to the end of the handshake and after a reset, and `ESTABLISHED` in
between.  `NEW` is what is left for the states of the teardown.  No packet leads
out of these, so a connection that was ended by a FIN is `NEW` for ever
(`new_iff_ended`), although its entry stays in the table and is still found.

`ESTABLISHED` can be trusted as far as the connection's own packets go: whatever
happens to other entries, it is given only after a handshake exactly if the
connection's own packets are orderly (`established_after_own_handshake_iff`).
-/

namespace OsKernel
namespace Conntrack

open Lib

/-- `match_state`; `none` is the null pointer.  It does not look at
`is_reply`. -/
def matchState : Option ConnEntry → String
  | none => "UNKNOWN"
  | some e =>
      match e.state with
      | .tcpEstablished => "ESTABLISHED"
      | .udpReplied => "ESTABLISHED"
      | .tcpSynSent | .tcpSynRecv => "RELATED"
      | _ => "NEW"

/-- The packets that `tcp_step` was given for an entry. -/
def ownPackets (addr : Nat) (actions : List Action) : List TcpPacket :=
  actions.filterMap fun a => match a with
    | .tcpStep at' flagsIn isReply =>
        if at' = addr then some ⟨flagsIn, isReply⟩ else none
    | _ => none

/-- A FIN that `tcp_step` takes for the end of the connection. -/
def Ends (state : ConnState) (p : TcpPacket) : Prop :=
  p.flagsIn = tcpFin ∧
    (state = .tcpEstablished ∨ state = .tcpSynRecv ∧ p.isReply = true)

/-- One of the packets ended the connection. -/
def EndedBy (e : ConnEntry) (packets : List TcpPacket) : Prop :=
  ∃ before p after, packets = before ++ p :: after ∧
    Ends (tcpSteps e before).state p

/-! ## One entry -/

/-- A packet leads into the teardown only if it ends the connection, and none
leads out of it. -/
theorem tcpNext_isClosing_iff {state : ConnState} (hstate : state.IsTcp)
    (p : TcpPacket) :
    (tcpNext state p.flagsIn p.isReply).IsClosing ↔
      state.IsClosing ∨ Ends state p := by
  obtain ⟨flagsIn, isReply⟩ := p
  by_cases hclosed : state.IsClosing
  · exact iff_of_true (tcpNext_isClosing hclosed flagsIn isReply) (.inl hclosed)
  · rw [or_iff_right hclosed]
    unfold tcpNext Ends
    cases state with
    | tcpSynSent | tcpSynRecv | tcpEstablished =>
        cases isReply <;> split_ifs <;> simp_all [ConnState.IsClosing]
    | tcpFinWait | tcpCloseWait | tcpLastAck | tcpTimeWait =>
        exact absurd trivial hclosed
    | udpUnreplied | udpReplied | icmp | none => exact hstate.elim

theorem endedBy_concat_iff (e : ConnEntry) (packets : List TcpPacket)
    (p : TcpPacket) :
    EndedBy e (packets ++ [p]) ↔
      EndedBy e packets ∨ Ends (tcpSteps e packets).state p := by
  constructor
  · rintro ⟨before, q, after, heq, hends⟩
    rcases List.eq_nil_or_concat after with rfl | ⟨after, last, rfl⟩
    · obtain ⟨rfl, hq⟩ := List.append_inj' heq rfl
      rw [List.singleton_inj.mp hq]
      exact .inr hends
    · left
      rw [List.concat_eq_append, ← List.cons_append, ← List.append_assoc] at heq
      exact ⟨before, q, after, (List.append_inj' heq rfl).1, hends⟩
  · rintro (⟨before, q, after, rfl, hends⟩ | hends)
    · exact ⟨before, q, after ++ [p], by simp, hends⟩
    · exact ⟨packets, p, [], rfl, hends⟩

/-- The state is one of the teardown if and only if a packet ended the
connection. -/
theorem isClosing_iff_endedBy {e : ConnEntry} (htcp : e.state.IsTcp)
    (hopen : ¬ e.state.IsClosing) (packets : List TcpPacket) :
    (tcpSteps e packets).state.IsClosing ↔ EndedBy e packets := by
  induction packets using List.reverseRecOn with
  | nil =>
      refine iff_of_false hopen ?_
      rintro ⟨before, p, after, heq, -⟩
      simp at heq
  | append_singleton packets p ih =>
      rw [tcpSteps_concat_state, tcpNext_isClosing_iff (tcpSteps_isTcp htcp packets),
        endedBy_concat_iff, ih]

theorem EndedBy.append {e : ConnEntry} {packets : List TcpPacket}
    (h : EndedBy e packets) (more : List TcpPacket) :
    EndedBy e (packets ++ more) := by
  obtain ⟨before, p, after, rfl, hends⟩ := h
  exact ⟨before, p, after ++ more, by simp, hends⟩

theorem matchState_eq_new_iff {e : ConnEntry} (htcp : e.state.IsTcp) :
    matchState (some e) = "NEW" ↔ e.state.IsClosing := by
  obtain ⟨_, _, _, _, _, _, state, _, _, _, _⟩ := e
  cases state <;> simp_all [matchState, ConnState.IsTcp, ConnState.IsClosing]

theorem matchState_eq_established_iff (e : Option ConnEntry) :
    matchState e = "ESTABLISHED" ↔ isEstablished e = true := by
  cases e with
  | none => simp [matchState, isEstablished]
  | some e =>
      obtain ⟨_, _, _, _, _, _, state, _, _, _, _⟩ := e
      cases state <;> simp [matchState, isEstablished]

/-! ## The table -/

theorem ownPackets_append (addr : Nat) (actions more : List Action) :
    ownPackets addr (actions ++ more) =
      ownPackets addr actions ++ ownPackets addr more :=
  List.filterMap_append

/-- What was created at an address stays what was created there. -/
theorem creation_of_start {before actions : List Action}
    (hbefore : before <+: actions) {addr : Nat} {e : ConnEntry}
    (he : (before.filterMap Action.creation)[addr]? = some e) :
    (actions.filterMap Action.creation)[addr]? = some e := by
  obtain ⟨hlt, rfl⟩ := List.getElem?_eq_some_iff.mp he
  exact List.prefix_iff_getElem?.mp (hbefore.filterMap _) addr hlt

/-- Of the calls for an entry only those of `tcp_step` change its state. -/
theorem afterOwnCalls_state (addr : Nat) (actions : List Action)
    (e : ConnEntry) :
    (afterOwnCalls addr actions e).state =
      (tcpSteps e (ownPackets addr actions)).state := by
  induction actions using List.reverseRecOn with
  | nil => rfl
  | append_singleton actions a ih =>
      rw [afterOwnCalls_concat, ownPackets_append]
      cases a with
      | create q t state =>
          rw [show ownPackets addr [.create q t state] = [] from rfl,
            List.append_nil]
          exact ih
      | updateReply at' rs rd rsp rdp =>
          rw [show ownPackets addr [.updateReply at' rs rd rsp rdp] = [] from rfl,
            List.append_nil, ← ih]
          by_cases hat : at' = addr
          · simp [Action.changeAt, hat, connUpdateReply]
          · simp [Action.changeAt, hat]
      | tcpStep at' flagsIn isReply =>
          by_cases hat : at' = addr
          · have hown : ownPackets addr [.tcpStep at' flagsIn isReply] =
                [⟨flagsIn, isReply⟩] := by simp [ownPackets, hat]
            rw [hown, tcpSteps_concat_state, ← ih]
            simp [Action.changeAt, hat, tcpStep]
          · have hown : ownPackets addr [.tcpStep at' flagsIn isReply] = [] := by
              simp [ownPackets, hat]
            rw [hown, List.append_nil, ← ih]
            simp [Action.changeAt, hat]

/-- The entry of a connection, as a firewall rule sees it. -/
theorem matchState_entry {actions : List Action} {st : State}
    (hrun : system.run emptyTable actions = some st) {addr : Nat} {q : Tuple}
    (hcreated : (actions.filterMap Action.creation)[addr]? =
      some (newEntry q .tcp .tcpSynSent)) :
    matchState st.heap[addr]? = "NEW" ↔
      EndedBy (newEntry q .tcp .tcpSynSent) (ownPackets addr actions) := by
  have hsent : (newEntry q .tcp .tcpSynSent).state = .tcpSynSent := rfl
  have htcp : (newEntry q .tcp .tcpSynSent).state.IsTcp := trivial
  have hnow := afterOwnCalls_state addr actions (newEntry q .tcp .tcpSynSent)
  rw [(recorded_of_run hrun).entry, hcreated, Option.map_some,
    matchState_eq_new_iff (by rw [hnow]; exact tcpSteps_isTcp htcp _), hnow]
  exact isClosing_iff_endedBy htcp (by rw [hsent]; exact not_false) _

/-- For an entry made for a SYN, whatever happens to the other entries: it is
`NEW` to a firewall rule if and only if one of its own packets was a FIN that
ended the connection, and then for ever; it is `ESTABLISHED` exactly while
`is_established` holds. -/
theorem new_iff_ended {actions : List Action} {st : State}
    (hrun : system.run emptyTable actions = some st) {addr : Nat} {q : Tuple}
    (hcreated : (actions.filterMap Action.creation)[addr]? =
      some (newEntry q .tcp .tcpSynSent)) :
    (matchState st.heap[addr]? = "NEW" ↔
      EndedBy (newEntry q .tcp .tcpSynSent) (ownPackets addr actions)) ∧
    (matchState st.heap[addr]? = "ESTABLISHED" ↔
      isEstablished st.heap[addr]? = true) ∧
    ∀ more st', system.run st more = some st' →
      matchState st.heap[addr]? = "NEW" → matchState st'.heap[addr]? = "NEW" := by
  have hnew := matchState_entry hrun hcreated
  refine ⟨hnew, matchState_eq_established_iff _, fun more st' hmore hold => ?_⟩
  have hrun' : system.run emptyTable (actions ++ more) = some st' := by
    rw [ActionSystem.run_append, hrun]
    exact hmore
  have hcreated' := creation_of_start (List.prefix_append actions more) hcreated
  rw [matchState_entry hrun' hcreated', ownPackets_append]
  exact (hnew.mp hold).append _

/-- A handshake and a FIN; then the client tries to connect again. -/
theorem new_iff_ended_reconnect :
    ∃ st st', system.run emptyTable
        [.create ⟨50, 100, 12345, 80, 6⟩ .tcp .tcpSynSent,
          .tcpStep 0 0x12 true, .tcpStep 0 0x10 false, .tcpStep 0 0x01 true] =
          some st ∧
      system.run st [.tcpStep 0 0x02 false, .tcpStep 0 0x12 true,
        .tcpStep 0 0x10 false] = some st' ∧
      matchState st'.heap[0]? = "NEW" := by
  have hcreated : (List.filterMap Action.creation
      [.create ⟨50, 100, 12345, 80, 6⟩ .tcp .tcpSynSent, .tcpStep 0 0x12 true,
        .tcpStep 0 0x10 false, .tcpStep 0 0x01 true])[0]? =
      some (newEntry ⟨50, 100, 12345, 80, 6⟩ .tcp .tcpSynSent) := rfl
  obtain ⟨hnew, -, hstays⟩ := new_iff_ended
    (show system.run emptyTable _ = some _ from rfl) hcreated
  refine ⟨_, _, rfl, rfl, hstays [.tcpStep 0 0x02 false, .tcpStep 0 0x12 true,
    .tcpStep 0 0x10 false] _ rfl (hnew.mpr ?_)⟩
  exact ⟨[⟨0x12, true⟩, ⟨0x10, false⟩], ⟨0x01, true⟩, [], rfl, rfl, .inl rfl⟩

/-! ## What `ESTABLISHED` promises -/

/-- No packet is given to an entry that does not exist yet. -/
theorem ownPackets_eq_nil_of_run {actions : List Action} {st : State}
    (hrun : system.run emptyTable actions = some st) {addr : Nat}
    (hfree : st.heap.length ≤ addr) : ownPackets addr actions = [] := by
  induction actions using List.reverseRecOn generalizing st with
  | nil => rfl
  | append_singleton actions a ih =>
      obtain ⟨mid, hmid, hstep⟩ := ActionSystem.run_concat_eq_some_iff.mp hrun
      rw [ownPackets_append]
      cases a with
      | create q t state =>
          obtain rfl := Option.some.inj hstep
          have hlength : mid.heap.length + 1 ≤ addr := by
            simpa [connCreate] using hfree
          rw [ih hmid (Nat.le_of_succ_le hlength)]
          rfl
      | updateReply at' rs rd rsp rdp =>
          obtain ⟨e, he, rfl⟩ := Option.map_eq_some_iff.mp hstep
          rw [ih hmid (by simpa using hfree)]
          rfl
      | tcpStep at' flagsIn isReply =>
          obtain ⟨e, he, rfl⟩ := Option.map_eq_some_iff.mp hstep
          have hlength : mid.heap.length ≤ addr := by simpa using hfree
          have hat : at' ≠ addr :=
            Nat.ne_of_lt (Nat.lt_of_lt_of_le
              (List.getElem?_eq_some_iff.mp he).1 hlength)
          rw [ih hmid hlength]
          simp [ownPackets, hat]

theorem matchState_established_iff {actions : List Action} {st : State}
    (hrun : system.run emptyTable actions = some st) {addr : Nat} {q : Tuple}
    (hcreated : (actions.filterMap Action.creation)[addr]? =
      some (newEntry q .tcp .tcpSynSent)) :
    matchState st.heap[addr]? = "ESTABLISHED" ↔
      (tcpSteps (newEntry q .tcp .tcpSynSent) (ownPackets addr actions)).state =
        .tcpEstablished := by
  have hnow := afterOwnCalls_state addr actions (newEntry q .tcp .tcpSynSent)
  have htcp : (newEntry q .tcp .tcpSynSent).state.IsTcp := trivial
  rw [matchState_eq_established_iff, (recorded_of_run hrun).entry, hcreated,
    Option.map_some,
    isEstablished_iff (by rw [hnow]; exact tcpSteps_isTcp htcp _), hnow]

/-- For an entry made for a SYN, whatever happens to the other entries: at every
point of a run it is `ESTABLISHED` to a firewall rule only after a handshake of
its own, if and only if its own packets are orderly. -/
theorem established_after_own_handshake_iff {actions : List Action} {st : State}
    (hrun : system.run emptyTable actions = some st) {addr : Nat} {q : Tuple}
    (hcreated : (actions.filterMap Action.creation)[addr]? =
      some (newEntry q .tcp .tcpSynSent)) :
    (∀ before st', before <+: actions → system.run emptyTable before = some st' →
      matchState st'.heap[addr]? = "ESTABLISHED" →
      Handshake (ownPackets addr before)) ↔
      Orderly (ownPackets addr actions) := by
  have hsame : ∀ {before e}, before <+: actions →
      (before.filterMap Action.creation)[addr]? = some e →
      e = newEntry q .tcp .tcpSynSent := fun hbefore he =>
    Option.some.inj ((creation_of_start hbefore he).symm.trans hcreated)
  rw [← handshake_throughout_iff (e := newEntry q .tcp .tcpSynSent) rfl]
  constructor
  · intro hall seen hseen hopen
    obtain ⟨before, hbefore, rfl⟩ := List.prefix_filterMap_iff.mp hseen
    obtain ⟨st', hmid⟩ := ActionSystem.exists_run_of_start hbefore hrun
    cases hentry : (before.filterMap Action.creation)[addr]? with
    | none =>
        -- before its creation there are no packets
        have hfree : st'.heap.length ≤ addr := by
          rw [(recorded_of_run hmid).length]
          exact List.getElem?_eq_none_iff.mp hentry
        have hnone : ownPackets addr before = [] :=
          ownPackets_eq_nil_of_run hmid hfree
        rw [show List.filterMap _ before = ownPackets addr before from rfl,
          hnone] at hopen
        cases hopen
    | some e =>
        obtain rfl := hsame hbefore hentry
        exact hall before st' hbefore hmid
          ((matchState_established_iff hmid hentry).mpr hopen)
  · intro hthroughout before st' hbefore hmid hestablished
    have hsome : st'.heap[addr]? ≠ none := by
      intro hnone
      rw [hnone] at hestablished
      exact absurd hestablished (by decide)
    rw [(recorded_of_run hmid).entry] at hsome
    obtain ⟨e, hentry⟩ :=
      Option.ne_none_iff_exists'.mp (mt (congrArg (Option.map _)) hsome)
    obtain rfl := hsame hbefore hentry
    exact hthroughout _ (hbefore.filterMap _)
      ((matchState_established_iff hmid hentry).mp hestablished)

/-- Two handshakes, interleaved. -/
def interleavedHandshakes : List Action :=
  [.create ⟨50, 100, 12345, 80, 6⟩ .tcp .tcpSynSent,
    .create ⟨51, 100, 12345, 80, 6⟩ .tcp .tcpSynSent,
    .tcpStep 0 0x12 true, .tcpStep 1 0x10 true, .tcpStep 0 0x10 false]

/-- The first entry is open after its own handshake; the second one is open after
a reply-direction ACK alone. -/
theorem established_after_own_handshake_interleaved :
    (∀ before st', before <+: interleavedHandshakes →
      system.run emptyTable before = some st' →
      matchState st'.heap[0]? = "ESTABLISHED" →
      Handshake (ownPackets 0 before)) ∧
    ¬ ∀ before st', before <+: interleavedHandshakes →
      system.run emptyTable before = some st' →
      matchState st'.heap[1]? = "ESTABLISHED" →
      Handshake (ownPackets 1 before) := by
  obtain ⟨st, hrun⟩ : ∃ st, system.run emptyTable interleavedHandshakes = some st :=
    ⟨_, rfl⟩
  constructor
  · refine (established_after_own_handshake_iff hrun
      (q := ⟨50, 100, 12345, 80, 6⟩) rfl).mpr ?_
    decide
  · rw [established_after_own_handshake_iff hrun
      (q := ⟨51, 100, 12345, 80, 6⟩) rfl]
    decide

end Conntrack
end OsKernel

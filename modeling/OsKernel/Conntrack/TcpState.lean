import OsKernel.Conntrack.Model
import OsKernel.Lib.Histories
import Mathlib.Data.List.TakeWhile
import Mathlib.Tactic

/-!
# What the state `CT_TCP_ESTABLISHED` says about the packets seen

`tcp_step` compares the flag byte as a whole and keeps no record of what came
before, so the state alone cannot tell a connection with a full handshake from
one a single reply-direction ACK opened, and it stays `CT_TCP_ESTABLISHED` when
a FIN or RST comes together with another flag.

Both questions are put to whole packet sequences.  An entry is established only
after a handshake exactly when the packets before the first SYN|ACK of the other
side do not open it (`established_only_after_handshake_iff`).  A closing packet
is missed exactly when it comes to an established entry with another flag
(`established_has_no_closing_iff`).
-/

namespace OsKernel
namespace Conntrack

open Lib

/-! ## Single steps -/

theorem tcpSteps_concat (e : ConnEntry) (packets : List TcpPacket)
    (p : TcpPacket) :
    tcpSteps e (packets ++ [p]) =
      tcpStep p.flagsIn p.isReply (tcpSteps e packets) := by
  simp [tcpSteps]

theorem tcpSteps_concat_state (e : ConnEntry) (packets : List TcpPacket)
    (p : TcpPacket) :
    (tcpSteps e (packets ++ [p])).state =
      tcpNext (tcpSteps e packets).state p.flagsIn p.isReply := by
  rw [tcpSteps_concat]
  rfl

/-- The ways into `CT_TCP_ESTABLISHED`, and the packets that leave it. -/
theorem tcpNext_eq_established_iff {state : ConnState} {flagsIn : UInt8}
    {isReply : Bool} :
    tcpNext state flagsIn isReply = .tcpEstablished ↔
      (state = .tcpSynRecv ∧ flagsIn = tcpAck ∧ isReply = false) ∨
      (state = .tcpSynSent ∧ flagsIn = tcpAck ∧ isReply = true) ∨
      (state = .tcpEstablished ∧
        ¬ (flagsIn = tcpFin ∨ flagsIn = tcpRst ∧ isReply = false)) := by
  have hother : tcpAck ≠ tcpSyn ||| tcpAck := by decide
  unfold tcpNext
  cases isReply <;> cases state <;> simp <;> grind

/-- The states of a TCP entry. -/
def ConnState.IsTcp : ConnState → Prop
  | .tcpSynSent | .tcpSynRecv | .tcpEstablished | .tcpFinWait
  | .tcpCloseWait | .tcpLastAck | .tcpTimeWait => True
  | .udpUnreplied | .udpReplied | .icmp | .none => False

theorem tcpNext_isTcp {state : ConnState} (hstate : state.IsTcp)
    (flagsIn : UInt8) (isReply : Bool) :
    (tcpNext state flagsIn isReply).IsTcp := by
  unfold tcpNext
  cases isReply <;> cases state <;> simp <;> grind [ConnState.IsTcp]

theorem tcpSteps_isTcp {e : ConnEntry} (he : e.state.IsTcp)
    (packets : List TcpPacket) : (tcpSteps e packets).state.IsTcp := by
  induction packets using List.reverseRecOn with
  | nil => exact he
  | append_singleton packets p ih =>
      rw [tcpSteps_concat_state]
      exact tcpNext_isTcp ih _ _

/-! ## The handshake -/

/-- A reply-direction SYN|ACK. -/
def replySynAck : TcpPacket := ⟨tcpSyn ||| tcpAck, true⟩

/-- An original-direction ACK. -/
def originalAck : TcpPacket := ⟨tcpAck, false⟩

/-- The packets contain a reply-direction SYN|ACK and, later, an
original-direction ACK. -/
def Handshake (packets : List TcpPacket) : Prop :=
  List.Sublist [replySynAck, originalAck] packets

instance (packets : List TcpPacket) : Decidable (Handshake packets) :=
  inferInstanceAs (Decidable (List.Sublist _ _))

theorem handshake_concat_iff {packets : List TcpPacket} {p : TcpPacket} :
    Handshake (packets ++ [p]) ↔
      Handshake packets ∨ p = originalAck ∧ replySynAck ∈ packets :=
  pair_sublist_concat_iff

/-- A reply-direction ACK. -/
def replyAck : TcpPacket := ⟨tcpAck, true⟩

/-- A SYN|ACK in the original direction, which `tcp_step` takes for one of the
other side. -/
def originalSynAck : TcpPacket := ⟨tcpSyn ||| tcpAck, false⟩

/-- A reply-direction FIN. -/
def replyFin : TcpPacket := ⟨tcpFin, true⟩

theorem tcpNext_synSent (p : TcpPacket) :
    tcpNext .tcpSynSent p.flagsIn p.isReply =
      if p = originalSynAck ∨ p = replySynAck then .tcpSynRecv
      else if p = replyAck then .tcpEstablished else .tcpSynSent := by
  obtain ⟨flagsIn, isReply⟩ := p
  unfold tcpNext
  cases isReply <;> simp [originalSynAck, replySynAck, replyAck]

theorem tcpNext_synRecv (p : TcpPacket) :
    tcpNext .tcpSynRecv p.flagsIn p.isReply =
      if p = originalAck then .tcpEstablished
      else if p = replyFin then .tcpCloseWait else .tcpSynRecv := by
  obtain ⟨flagsIn, isReply⟩ := p
  unfold tcpNext
  cases isReply <;> simp [originalAck, replyFin]

/-- The states of the teardown. -/
def ConnState.IsClosing : ConnState → Prop
  | .tcpFinWait | .tcpCloseWait | .tcpLastAck | .tcpTimeWait => True
  | _ => False

/-- No packet leads out of the teardown. -/
theorem tcpNext_isClosing {state : ConnState} (hclosed : state.IsClosing)
    (flagsIn : UInt8) (isReply : Bool) :
    (tcpNext state flagsIn isReply).IsClosing := by
  unfold tcpNext
  cases isReply <;> cases state <;> simp <;> grind [ConnState.IsClosing]

/-- An entry that is at no point of a sequence `CT_TCP_ESTABLISHED`. -/
def NeverOpens (e : ConnEntry) (packets : List TcpPacket) : Prop :=
  HoldsThroughout (fun seen => (tcpSteps e seen).state ≠ .tcpEstablished) packets

theorem neverOpens_nil_iff {e : ConnEntry} :
    NeverOpens e [] ↔ e.state ≠ .tcpEstablished :=
  holdsThroughout_nil_iff

theorem neverOpens_cons_iff {e : ConnEntry} {p : TcpPacket}
    {packets : List TcpPacket} :
    NeverOpens e (p :: packets) ↔
      e.state ≠ .tcpEstablished ∧
        NeverOpens (tcpStep p.flagsIn p.isReply e) packets :=
  holdsThroughout_cons_iff

theorem neverOpens_of_closed {e : ConnEntry} (hclosed : e.state.IsClosing)
    (packets : List TcpPacket) : NeverOpens e packets := by
  have hopen : e.state ≠ .tcpEstablished := by
    intro hstate
    rw [hstate] at hclosed
    exact hclosed
  induction packets generalizing e with
  | nil => exact neverOpens_nil_iff.mpr hopen
  | cons p packets ih =>
      have hnext := tcpNext_isClosing hclosed p.flagsIn p.isReply
      refine neverOpens_cons_iff.mpr ⟨hopen, ih hnext ?_⟩
      intro hstate
      rw [show tcpNext e.state p.flagsIn p.isReply = _ from hstate] at hnext
      exact hnext

theorem not_neverOpens {e : ConnEntry} (hstate : e.state = .tcpEstablished)
    (packets : List TcpPacket) : ¬ NeverOpens e packets :=
  fun hnever => hnever [] (List.nil_prefix ..) hstate

/-- A half-open entry stays closed unless an original-direction ACK comes before
a reply-direction FIN. -/
theorem neverOpens_synRecv_iff {e : ConnEntry} (hstate : e.state = .tcpSynRecv)
    (packets : List TcpPacket) :
    NeverOpens e packets ↔
      originalAck ∉ packets.takeWhile (· ≠ replyFin) := by
  have hfin : originalAck ≠ replyFin := by decide
  induction packets generalizing e with
  | nil => simp [neverOpens_nil_iff, hstate]
  | cons p packets ih =>
      have hnext : (tcpStep p.flagsIn p.isReply e).state = _ :=
        (congrArg (tcpNext · _ _) hstate).trans (tcpNext_synRecv p)
      rw [neverOpens_cons_iff, and_iff_right (by simp [hstate])]
      -- the ACK opens the connection, the FIN closes it, anything else is ignored
      by_cases hack : p = originalAck
      · rw [if_pos hack] at hnext
        refine iff_of_false (not_neverOpens hnext packets) ?_
        simp [hack, hfin]
      · rw [if_neg hack] at hnext
        by_cases hclose : p = replyFin
        · rw [if_pos hclose] at hnext
          refine iff_of_true (neverOpens_of_closed ?_ packets) ?_
          · rw [hnext]
            trivial
          · simp [hclose]
        · rw [if_neg hclose] at hnext
          refine (ih hnext).trans ?_
          simp [hclose, Ne.symm hack]

/-- The packets before the first reply-direction SYN|ACK do not open the
connection: no reply-direction ACK comes before an original-direction SYN|ACK,
and no original-direction ACK after one, unless a reply-direction FIN is
between. -/
def Orderly (packets : List TcpPacket) : Prop :=
  let early := packets.takeWhile (· ≠ replySynAck)
  replyAck ∉ early.takeWhile (· ≠ originalSynAck) ∧
    originalAck ∉ (early.dropWhile (· ≠ originalSynAck)).takeWhile (· ≠ replyFin)

instance (packets : List TcpPacket) : Decidable (Orderly packets) :=
  inferInstanceAs (Decidable (_ ∧ _))

theorem neverOpens_synSent_iff {e : ConnEntry} (hstate : e.state = .tcpSynSent)
    {packets : List TcpPacket} (hnone : replySynAck ∉ packets) :
    NeverOpens e packets ↔
      replyAck ∉ packets.takeWhile (· ≠ originalSynAck) ∧
        originalAck ∉
          (packets.dropWhile (· ≠ originalSynAck)).takeWhile (· ≠ replyFin) := by
  have hsyn : replyAck ≠ originalSynAck := by decide
  have hfin : originalSynAck ≠ replyFin := by decide
  have hack : originalAck ≠ originalSynAck := by decide
  induction packets generalizing e with
  | nil => simp [neverOpens_nil_iff, hstate]
  | cons p packets ih =>
      obtain ⟨hp, hrest⟩ := not_or.mp (mt List.mem_cons.mpr hnone)
      have hnext : (tcpStep p.flagsIn p.isReply e).state = _ :=
        (congrArg (tcpNext · _ _) hstate).trans (tcpNext_synSent p)
      rw [neverOpens_cons_iff, and_iff_right (by simp [hstate])]
      by_cases hfirst : p = originalSynAck
      · -- half-open from here on
        rw [if_pos (.inl hfirst)] at hnext
        refine (neverOpens_synRecv_iff hnext packets).trans ?_
        simp [hfirst, hack, hfin]
      · rw [if_neg (not_or.mpr ⟨hfirst, Ne.symm hp⟩)] at hnext
        by_cases hopens : p = replyAck
        · rw [if_pos hopens] at hnext
          refine iff_of_false (not_neverOpens hnext packets) ?_
          simp [hopens, hsyn]
        · rw [if_neg hopens] at hnext
          refine (ih hnext hrest).trans ?_
          simp [hfirst, Ne.symm hopens]

theorem tcpNext_replySynAck {state : ConnState} (hstate : state.IsTcp)
    (hopen : state ≠ .tcpEstablished) :
    tcpNext state replySynAck.flagsIn replySynAck.isReply = .tcpSynRecv ∨
      (tcpNext state replySynAck.flagsIn replySynAck.isReply).IsClosing := by
  cases state with
  | tcpSynSent => exact .inl rfl
  | tcpSynRecv => exact .inl rfl
  | tcpEstablished => exact absurd rfl hopen
  | tcpFinWait => exact .inr trivial
  | tcpCloseWait => exact .inr trivial
  | tcpLastAck => exact .inr trivial
  | tcpTimeWait => exact .inr trivial
  | udpUnreplied => exact hstate.elim
  | udpReplied => exact hstate.elim
  | icmp => exact hstate.elim
  | none => exact hstate.elim

/-- A point of a sequence before its first reply-direction SYN|ACK. -/
theorem prefix_beforeSynAck {seen packets : List TcpPacket}
    (hseen : seen <+: packets) (hmem : replySynAck ∉ seen) :
    seen <+: packets.takeWhile (· ≠ replySynAck) := by
  obtain ⟨rest, rfl⟩ := hseen
  rw [List.takeWhile_append_of_pos]
  · exact List.prefix_append _ _
  · intro p hp
    have hne : p ≠ replySynAck := fun heq => hmem (heq ▸ hp)
    exact decide_eq_true hne

/-- Once the other side's SYN|ACK was seen, an entry that was not open before is
half-open or closed until the handshake is complete. -/
theorem handshake_or_halfOpen {e : ConnEntry} (hstate : e.state.IsTcp)
    {packets : List TcpPacket}
    (hearly : NeverOpens e (packets.takeWhile (· ≠ replySynAck)))
    {seen : List TcpPacket} (hseen : seen <+: packets)
    (hmem : replySynAck ∈ seen) :
    Handshake seen ∨ (tcpSteps e seen).state = .tcpSynRecv ∨
      (tcpSteps e seen).state.IsClosing := by
  induction seen using List.reverseRecOn with
  | nil => exact absurd hmem List.not_mem_nil
  | append_singleton before p ih =>
      have hbefore := (List.prefix_append _ _).trans hseen
      rw [tcpSteps_concat_state, handshake_concat_iff]
      by_cases hold : replySynAck ∈ before
      · rcases ih hbefore hold with hshake | hrecv | hclosed
        · exact .inl (.inl hshake)
        · rw [hrecv, tcpNext_synRecv]
          split_ifs with hack hfin
          · exact .inl (.inr ⟨hack, hold⟩)
          · exact .inr (.inr trivial)
          · exact .inr (.inl rfl)
        · exact .inr (.inr (tcpNext_isClosing hclosed _ _))
      · -- this is the first one
        obtain rfl : replySynAck = p := by
          simpa [hold] using hmem
        have hopen := hearly before (prefix_beforeSynAck hbefore hold)
        exact .inr (tcpNext_replySynAck (tcpSteps_isTcp hstate before) hopen)

/-- A new entry is, throughout a packet sequence, open only after a handshake
exactly when the packets before the first reply-direction SYN|ACK are orderly. -/
theorem handshake_throughout_iff {e : ConnEntry} (hstate : e.state = .tcpSynSent)
    (packets : List TcpPacket) :
    HoldsThroughout
        (fun seen => (tcpSteps e seen).state = .tcpEstablished → Handshake seen)
        packets ↔
      Orderly packets := by
  have hnone : replySynAck ∉ packets.takeWhile (· ≠ replySynAck) := by
    intro hmem
    simpa using List.mem_takeWhile_imp hmem
  have hearly := neverOpens_synSent_iff hstate hnone
  have htcp : e.state.IsTcp := by
    rw [hstate]
    trivial
  constructor
  · intro hthroughout
    refine hearly.mp fun seen hseen hopen => hnone (hseen.subset ?_)
    have hshake := hthroughout seen (hseen.trans (List.takeWhile_prefix _)) hopen
    exact hshake.subset (List.mem_cons_self ..)
  · -- before the first SYN|ACK the entry is not open at all
    intro horderly seen hseen hopen
    have hnever := hearly.mpr horderly
    by_cases hmem : replySynAck ∈ seen
    · rcases handshake_or_halfOpen htcp hnever hseen hmem with
        hshake | hrecv | hclosed
      · exact hshake
      · rw [hopen] at hrecv
        cases hrecv
      · rw [hopen] at hclosed
        exact hclosed.elim
    · exact absurd hopen (hnever seen (prefix_beforeSynAck hseen hmem))

/-- An entry that `conn_create` makes in `CT_TCP_SYN_SENT` is, throughout a
packet sequence, `CT_TCP_ESTABLISHED` only after a handshake exactly when the
packets before the first reply-direction SYN|ACK are orderly. -/
theorem established_only_after_handshake_iff (q : Tuple) (t : ConnType)
    (packets : List TcpPacket) :
    HoldsThroughout
        (fun seen =>
          (tcpSteps (newEntry q t .tcpSynSent) seen).state = .tcpEstablished →
            Handshake seen) packets ↔
      Orderly packets :=
  handshake_throughout_iff rfl packets

/-- One reply-direction ACK opens the connection: no SYN|ACK was ever seen. -/
theorem established_by_reply_ack :
    (tcpSteps (newEntry ⟨1, 2, 3, 4, 6⟩ .tcp .tcpSynSent)
        [⟨tcpAck, true⟩]).state = .tcpEstablished ∧
      ¬ Handshake [⟨tcpAck, true⟩] := by
  decide

/-! ## Teardown -/

/-- The FIN or the RST bit is set. -/
def TcpPacket.Closing (p : TcpPacket) : Prop :=
  p.flagsIn &&& tcpFin ≠ 0 ∨ p.flagsIn &&& tcpRst ≠ 0

instance (p : TcpPacket) : Decidable p.Closing :=
  inferInstanceAs (Decidable (_ ∨ _))

/-- The flag bytes on which `tcp_step` leaves `CT_TCP_ESTABLISHED`: a FIN
alone, and in the original direction an RST alone. -/
def TcpPacket.Bare (p : TcpPacket) : Prop :=
  p.flagsIn = tcpFin ∨ p.flagsIn = tcpRst ∧ p.isReply = false

instance (p : TcpPacket) : Decidable p.Bare :=
  inferInstanceAs (Decidable (_ ∨ _))

/-- An entry together with the packets since it last entered
`CT_TCP_ESTABLISHED`; before the first time, since the start. -/
structure Watched where
  entry : ConnEntry
  since : List TcpPacket

/-- One packet: the record starts anew when the entry gets established. -/
def Watched.step (w : Watched) (p : TcpPacket) : Watched :=
  let next := tcpStep p.flagsIn p.isReply w.entry
  { entry := next
    since :=
      if w.entry.state ≠ .tcpEstablished ∧ next.state = .tcpEstablished then []
      else w.since ++ [p] }

/-- The packets of a sequence since the entry last got established. -/
def sinceEstablished (e : ConnEntry) (packets : List TcpPacket) :
    List TcpPacket :=
  (packets.foldl Watched.step ⟨e, []⟩).since

theorem watched_entry (e : ConnEntry) (packets : List TcpPacket) :
    (packets.foldl Watched.step ⟨e, []⟩).entry = tcpSteps e packets := by
  induction packets using List.reverseRecOn with
  | nil => rfl
  | append_singleton packets p ih =>
      rw [tcpSteps_concat, ← ih, List.foldl_concat]
      rfl

theorem sinceEstablished_concat (e : ConnEntry) (packets : List TcpPacket)
    (p : TcpPacket) :
    sinceEstablished e (packets ++ [p]) =
      if (tcpSteps e packets).state ≠ .tcpEstablished ∧
          (tcpSteps e (packets ++ [p])).state = .tcpEstablished then []
      else sinceEstablished e packets ++ [p] := by
  simp only [sinceEstablished, List.foldl_concat, Watched.step, watched_entry,
    tcpSteps_concat]

theorem isEstablished_iff {e : ConnEntry} (he : e.state.IsTcp) :
    isEstablished (some e) = true ↔ e.state = .tcpEstablished := by
  have hudp : e.state ≠ .udpReplied := by
    intro hstate
    rw [hstate] at he
    exact he
  simp [isEstablished, hudp]

/-- One packet: an established entry that had seen no FIN and no RST since it
got established still has seen none exactly when the packet, if it is one, has
a flag byte that `tcp_step` acts on. -/
theorem established_open_concat_iff {e : ConnEntry}
    (before : List TcpPacket) (p : TcpPacket)
    (hbefore : (tcpSteps e before).state = .tcpEstablished →
      ∀ seen ∈ sinceEstablished e before, ¬ seen.Closing) :
    ((tcpSteps e (before ++ [p])).state = .tcpEstablished →
        ∀ seen ∈ sinceEstablished e (before ++ [p]), ¬ seen.Closing) ↔
      ((tcpSteps e before).state = .tcpEstablished → p.Closing → p.Bare) := by
  rw [sinceEstablished_concat, tcpSteps_concat_state]
  by_cases hstate : (tcpSteps e before).state = .tcpEstablished
  · -- The entry is established before the packet: the record goes on.
    have hstays : tcpNext (tcpSteps e before).state p.flagsIn p.isReply =
        .tcpEstablished ↔ ¬ p.Bare := by
      rw [tcpNext_eq_established_iff]
      simp [hstate, TcpPacket.Bare]
    rw [if_neg (fun h => h.1 hstate), hstays]
    constructor
    · intro hkept _ hclosing
      by_contra hbare
      exact hkept hbare p (by simp) hclosing
    · intro hacted hbare seen hseen
      rcases List.mem_append.mp hseen with hold | hnew
      · exact hbefore hstate seen hold
      · obtain rfl := List.mem_singleton.mp hnew
        exact fun hclosing => hbare (hacted hstate hclosing)
  · -- It is not: if the packet establishes it, the record starts anew.
    constructor
    · exact fun _ h => absurd h hstate
    · intro _ hnext
      rw [if_pos ⟨hstate, hnext⟩]
      exact fun _ hseen => absurd hseen (List.not_mem_nil)

/-- Throughout a packet sequence on a TCP entry, `is_established` means that no
FIN and no RST came since the entry last got established, exactly when every
packet with one of these bits that comes to an established entry is a FIN alone
or an original-direction RST alone. -/
theorem established_has_no_closing_iff (e : ConnEntry) (he : e.state.IsTcp)
    (packets : List TcpPacket) :
    HoldsThroughout
        (fun seen => isEstablished (some (tcpSteps e seen)) = true →
          ∀ p ∈ sinceEstablished e seen, ¬ p.Closing) packets ↔
      EachStep
        (fun before p => (tcpSteps e before).state = .tcpEstablished →
          p.Closing → p.Bare) packets := by
  simp only [fun seen => isEstablished_iff (tcpSteps_isTcp he seen)]
  apply holdsThroughout_iff
  · intro _ p hp
    exact absurd hp (List.not_mem_nil)
  · exact established_open_concat_iff

/-- An established entry through a FIN in the original direction and its
acknowledgement. -/
theorem established_has_no_closing_fin :
    HoldsThroughout
      (fun seen =>
        isEstablished (some (tcpSteps
          (newEntry ⟨1, 2, 3, 4, 6⟩ .tcp .tcpEstablished) seen)) = true →
        ∀ p ∈ sinceEstablished
          (newEntry ⟨1, 2, 3, 4, 6⟩ .tcp .tcpEstablished) seen, ¬ p.Closing)
      [⟨tcpFin, false⟩, ⟨tcpAck, true⟩] := by
  apply (established_has_no_closing_iff
    (newEntry ⟨1, 2, 3, 4, 6⟩ .tcp .tcpEstablished) trivial _).mpr
  exact eachStep_cons (by decide) (eachStep_cons (by decide) (eachStep_nil _))

/-- A FIN that also carries PSH and ACK (`0x19`), in the reply direction and
after it an RST with ACK (`0x14`): the entry stays established. -/
theorem established_after_fin_psh_ack :
    isEstablished (some (tcpSteps
        (newEntry ⟨1, 2, 3, 4, 6⟩ .tcp .tcpEstablished)
        [⟨0x19, true⟩, ⟨0x14, false⟩])) = true ∧
      sinceEstablished (newEntry ⟨1, 2, 3, 4, 6⟩ .tcp .tcpEstablished)
        [⟨0x19, true⟩, ⟨0x14, false⟩] = [⟨0x19, true⟩, ⟨0x14, false⟩] ∧
      TcpPacket.Closing ⟨0x19, true⟩ ∧ TcpPacket.Closing ⟨0x14, false⟩ := by
  decide

end Conntrack
end OsKernel

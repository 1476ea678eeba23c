import Mathlib.Tactic

/-!
# Waiting for an ARP reply, `demos/neigh/neigh_arp.c`

`recv_arp_response` waits in `select` for a second at a time and looks at one
frame after each wait that ends with one.  Frames that are too short, are not
ARP, are not replies or come from another address are passed over.

The alarm that `main` sets is meant to end the wait.  Its handler does nothing,
and a wait that it interrupts is taken up again, so the loop does not notice it:
it ends with the first reply or the first other error of `select`, whenever
these come (`returns_iff`).

One outcome stands for what `select`, and `recvfrom` after it, give in one round
of the loop.  A round is taken from a stream of outcomes, and `fuel` bounds the
number of rounds.  Nothing but the end of the function itself sets
`got_response`.
-/

namespace OsKernel
namespace Neigh

/-- The `errno` of a failed call. -/
inductive Errno
  | eintr
  | other
  deriving DecidableEq, Repr

/-- What one round of the loop gets: an error of `select`, no frame within a
second, an error of `recvfrom`, or a frame. -/
inductive Outcome
  | selectFailed (errno : Errno)
  | timeout
  | recvFailed (errno : Errno)
  | frame (bytes : List (BitVec 8))
  deriving DecidableEq, Repr

/-- What `recv_arp_response` returns and what it copies to `out_mac`. -/
structure RecvResult where
  ret : Int
  outMac : Option (List (BitVec 8))
  deriving DecidableEq, Repr

/-- `sizeof(buf)`. -/
def bufSize : Nat := 1024

/-- `sizeof(struct eth_frame)`. -/
def ethFrameSize : Nat := 14

/-- `sizeof(struct arp_header)`. -/
def arpHeaderSize : Nat := 28

/-- `ETH_P_ARP`. -/
def ethPArp : BitVec 16 := 0x0806

/-- `ARP_RESPONSE`. -/
def arpResponse : BitVec 16 := 2

/-- `ntohs` of the two bytes at an offset. -/
def ntohsAt (buf : List (BitVec 8)) (offset : Nat) : BitVec 16 :=
  buf.getD offset 0 ++ buf.getD (offset + 1) 0

/-- `ntohs(eth->ether_type)`. -/
def etherType (buf : List (BitVec 8)) : BitVec 16 := ntohsAt buf 12

/-- `ntohs(arp->opcode)`. -/
def opcode (buf : List (BitVec 8)) : BitVec 16 :=
  ntohsAt buf (ethFrameSize + 6)

/-- `arp->sender_mac`. -/
def senderMac (buf : List (BitVec 8)) : List (BitVec 8) :=
  (List.range 6).map fun i => buf.getD (ethFrameSize + 8 + i) 0

/-- `resp_ip`, the bytes of `arp->sender_ip` in the memory of a little-endian
machine. -/
def respIp (buf : List (BitVec 8)) : BitVec 32 :=
  buf.getD (ethFrameSize + 17) 0 ++ buf.getD (ethFrameSize + 16) 0 ++
    buf.getD (ethFrameSize + 15) 0 ++ buf.getD (ethFrameSize + 14) 0

/-- One round of the loop of `recv_arp_response`; `none` to continue.  Of a
frame `recvfrom` gives as much as the buffer has room for. -/
def recvRound (expectedIp : BitVec 32) : Outcome → Option RecvResult
  | .selectFailed errno =>
      if errno = .eintr then none else some ⟨-1, none⟩
  | .timeout => none
  -- `len` is -1
  | .recvFailed _ => none
  | .frame bytes =>
      let buf := bytes.take bufSize
      if buf.length < ethFrameSize + arpHeaderSize then none
      else if etherType buf ≠ ethPArp then none
      else if opcode buf ≠ arpResponse then none
      else if respIp buf ≠ expectedIp then none
      else some ⟨0, some (senderMac buf)⟩

/-- `recv_arp_response` from the given round on, for at most `fuel` rounds;
`none` while it has not returned. -/
def recvArpResponse (expectedIp : BitVec 32) (gotResponse : Bool)
    (stream : Nat → Outcome) : Nat → Nat → Option RecvResult
  | 0, _ => none
  | fuel + 1, i =>
      if gotResponse then some ⟨-1, none⟩
      else
        match recvRound expectedIp (stream i) with
        | some result => some result
        | none => recvArpResponse expectedIp gotResponse stream fuel (i + 1)

/-- The call of `main`, with `got_response` clear, returns. -/
def Returns (expectedIp : BitVec 32) (stream : Nat → Outcome)
    (result : RecvResult) : Prop :=
  ∃ fuel, recvArpResponse expectedIp false stream fuel 0 = some result

/-! ## What is to be achieved -/

/-- An ARP reply from the expected address. -/
structure IsReply (expectedIp : BitVec 32) (bytes : List (BitVec 8)) :
    Prop where
  long : 42 ≤ bytes.length
  arp : etherType bytes = ethPArp
  reply : opcode bytes = arpResponse
  sender : respIp bytes = expectedIp

/-- The alarm interrupts the round. -/
def Outcome.Alarm (o : Outcome) : Prop :=
  o = .selectFailed .eintr ∨ o = .recvFailed .eintr

/-- A round without a reply and without another error of `select`. -/
structure Quiet (expectedIp : BitVec 32) (o : Outcome) : Prop where
  noReply : ∀ bytes, o = .frame bytes → ¬ IsReply expectedIp bytes
  noFailure : o ≠ .selectFailed .other

/-- The first reply is returned if it comes before the alarm, and the round that
the alarm interrupts is the last one of the wait for it. -/
structure AnswersOrTimesOut (expectedIp : BitVec 32)
    (stream : Nat → Outcome) : Prop where
  answers : ∀ i bytes, stream i = .frame bytes → IsReply expectedIp bytes →
    (∀ k < i, Quiet expectedIp (stream k) ∧ ¬ (stream k).Alarm) →
    Returns expectedIp stream ⟨0, some (senderMac bytes)⟩
  timesOut : ∀ j, (stream j).Alarm →
    (∀ k < j, Quiet expectedIp (stream k)) →
    recvArpResponse expectedIp false stream (j + 1) 0 = some ⟨-1, none⟩

/-- The round ends the wait: a reply has come, or another error of `select`. -/
def Outcome.Ending (expectedIp : BitVec 32) (o : Outcome) : Prop :=
  o = .selectFailed .other ∨ ∃ bytes, o = .frame bytes ∧ IsReply expectedIp bytes

/-! ## One round -/

section
variable {expectedIp : BitVec 32} {stream : Nat → Outcome}

/-- The fields of a frame are in the part of it that fits the buffer. -/
theorem getD_take_bufSize (bytes : List (BitVec 8)) {i : Nat} (hi : i < 42) :
    (bytes.take bufSize).getD i 0 = bytes.getD i 0 := by
  have hlt : i < bufSize := lt_trans hi (by decide)
  rw [List.getD_eq_getElem?_getD, List.getD_eq_getElem?_getD,
    List.getElem?_take_of_lt hlt]

theorem etherType_take (bytes : List (BitVec 8)) :
    etherType (bytes.take bufSize) = etherType bytes := by
  unfold etherType ntohsAt
  rw [getD_take_bufSize _ (by decide), getD_take_bufSize _ (by decide)]

theorem opcode_take (bytes : List (BitVec 8)) :
    opcode (bytes.take bufSize) = opcode bytes := by
  unfold opcode ntohsAt
  rw [getD_take_bufSize _ (by decide), getD_take_bufSize _ (by decide)]

theorem respIp_take (bytes : List (BitVec 8)) :
    respIp (bytes.take bufSize) = respIp bytes := by
  unfold respIp
  rw [getD_take_bufSize _ (by decide), getD_take_bufSize _ (by decide),
    getD_take_bufSize _ (by decide), getD_take_bufSize _ (by decide)]

theorem senderMac_take (bytes : List (BitVec 8)) :
    senderMac (bytes.take bufSize) = senderMac bytes := by
  refine List.map_congr_left fun i hi => getD_take_bufSize _ ?_
  have hlt := List.mem_range.mp hi
  unfold ethFrameSize
  omega

theorem isReply_iff {bytes : List (BitVec 8)} :
    IsReply expectedIp bytes ↔
      42 ≤ bytes.length ∧ etherType bytes = ethPArp ∧
        opcode bytes = arpResponse ∧ respIp bytes = expectedIp :=
  ⟨fun h => ⟨h.long, h.arp, h.reply, h.sender⟩,
    fun h => ⟨h.1, h.2.1, h.2.2.1, h.2.2.2⟩⟩

instance (expectedIp : BitVec 32) : DecidablePred (IsReply expectedIp) :=
  fun _ => decidable_of_iff _ isReply_iff.symm

/-- A frame ends the loop exactly when it is a reply. -/
theorem recvRound_frame (expectedIp : BitVec 32) (bytes : List (BitVec 8)) :
    recvRound expectedIp (.frame bytes) =
      if IsReply expectedIp bytes then some ⟨0, some (senderMac bytes)⟩
      else none := by
  have hlength : (bytes.take bufSize).length < ethFrameSize + arpHeaderSize ↔
      ¬ 42 ≤ bytes.length := by
    rw [List.length_take]
    unfold bufSize ethFrameSize arpHeaderSize
    omega
  -- the four tests in turn are the four parts of a reply
  simp only [recvRound, etherType_take, opcode_take, respIp_take,
    senderMac_take, hlength, isReply_iff, ne_eq, ite_not, ite_and]

theorem recvRound_frame_of_isReply {bytes : List (BitVec 8)}
    (h : IsReply expectedIp bytes) :
    recvRound expectedIp (.frame bytes) =
      some ⟨0, some (senderMac bytes)⟩ := by
  rw [recvRound_frame, if_pos h]

/-- The rounds after which the loop goes on. -/
theorem recvRound_eq_none_iff {o : Outcome} :
    recvRound expectedIp o = none ↔ Quiet expectedIp o := by
  constructor
  · intro h
    constructor
    · rintro bytes rfl hreply
      rw [recvRound_frame_of_isReply hreply] at h
      cases h
    · rintro rfl
      cases h
  · intro h
    cases o with
    | selectFailed errno =>
        cases errno with
        | eintr => rfl
        | other => exact absurd rfl h.noFailure
    | timeout => rfl
    | recvFailed errno => rfl
    | frame bytes => rw [recvRound_frame, if_neg (h.noReply bytes rfl)]

theorem not_quiet_iff {o : Outcome} :
    ¬ Quiet expectedIp o ↔ o.Ending expectedIp := by
  constructor
  · intro hloud
    by_contra hending
    obtain ⟨hfailed, hframe⟩ := not_or.mp hending
    refine hloud ⟨fun bytes ho hreply => ?_, hfailed⟩
    exact hframe ⟨bytes, ho, hreply⟩
  · rintro (hfailed | ⟨bytes, ho, hreply⟩) hquiet
    · exact hquiet.noFailure hfailed
    · exact hquiet.noReply bytes ho hreply

/-- A round the alarm interrupts is one the loop goes on after. -/
theorem Outcome.Alarm.quiet {o : Outcome} (h : o.Alarm) :
    Quiet expectedIp o := by
  refine recvRound_eq_none_iff.mp ?_
  rcases h with rfl | rfl
  · rfl
  · rfl

/-! ## The loop -/

/-- The loop returns what the first round that ends it gives. -/
theorem recvArpResponse_eq_some_iff {fuel i : Nat} {result : RecvResult} :
    recvArpResponse expectedIp false stream fuel i = some result ↔
      ∃ n < fuel, recvRound expectedIp (stream (i + n)) = some result ∧
        ∀ k < n, Quiet expectedIp (stream (i + k)) := by
  induction fuel generalizing i with
  | zero => simp [recvArpResponse]
  | succ fuel ih =>
      -- either the first round ends the loop, or it is quiet and a later one does
      rw [recvArpResponse, if_neg Bool.false_ne_true, Nat.exists_lt_succ_left]
      simp only [Nat.forall_lt_succ_left, Nat.add_zero]
      cases hround : recvRound expectedIp (stream i) with
      | some first =>
          have hloud : ¬ Quiet expectedIp (stream i) := by
            rw [← recvRound_eq_none_iff, hround]
            exact Option.some_ne_none first
          simp [hloud]
      | none =>
          have hquiet := recvRound_eq_none_iff.mp hround
          have hshift : ∀ n, i + 1 + n = i + (n + 1) := fun n => by omega
          show recvArpResponse expectedIp false stream fuel (i + 1) = _ ↔ _
          simp [ih, hshift, hquiet]

/-- The call returns exactly when a round ends the loop, and then what the first
such round gives. -/
theorem returns_iff {result : RecvResult} :
    Returns expectedIp stream result ↔
      ∃ i, recvRound expectedIp (stream i) = some result ∧
        ∀ k < i, Quiet expectedIp (stream k) := by
  unfold Returns
  simp only [recvArpResponse_eq_some_iff, Nat.zero_add]
  constructor
  · rintro ⟨fuel, i, -, hresult, hquiet⟩
    exact ⟨i, hresult, hquiet⟩
  · rintro ⟨i, hresult, hquiet⟩
    exact ⟨i + 1, i, Nat.lt_succ_self i, hresult, hquiet⟩

end

/-- A reply that comes first is always returned, but no alarm ever ends the wait:
the two parts hold exactly for the streams in which every interrupted round comes
after the first reply or the first other error of `select`. -/
theorem answersOrTimesOut_iff (expectedIp : BitVec 32)
    (stream : Nat → Outcome) :
    AnswersOrTimesOut expectedIp stream ↔
      ∀ j, (stream j).Alarm → ∃ k < j, (stream k).Ending expectedIp := by
  constructor
  · intro h j halarm
    by_contra hnone
    have hquiet : ∀ k < j, Quiet expectedIp (stream k) := by
      intro k hk
      by_contra hloud
      exact hnone ⟨k, hk, not_quiet_iff.mp hloud⟩
    -- the rounds up to the alarm's are all quiet
    obtain ⟨i, hi, hresult, -⟩ :=
      recvArpResponse_eq_some_iff.mp (h.timesOut j halarm hquiet)
    rw [Nat.zero_add] at hresult
    have hround : Quiet expectedIp (stream i) := by
      rcases Nat.lt_or_eq_of_le (Nat.le_of_lt_succ hi) with hlt | rfl
      · exact hquiet i hlt
      · exact halarm.quiet
    rw [recvRound_eq_none_iff.mpr hround] at hresult
    cases hresult
  · intro h
    constructor
    · intro i bytes hframe hreply hbefore
      refine returns_iff.mpr ⟨i, ?_, fun k hk => (hbefore k hk).1⟩
      rw [hframe]
      exact recvRound_frame_of_isReply hreply
    · intro j halarm hquiet
      obtain ⟨k, hk, hending⟩ := h j halarm
      exact absurd (hquiet k hk) (not_quiet_iff.mpr hending)

/-- The alarm in the fifth second of a wait in which nothing arrives. -/
def silence (i : Nat) : Outcome :=
  if i = 4 then .selectFailed .eintr else .timeout

/-- In silence the call never returns, although the alarm goes off. -/
theorem answersOrTimesOut_fails :
    ¬ AnswersOrTimesOut 0x0101A8C0 silence ∧
      ∀ result, ¬ Returns 0x0101A8C0 silence result := by
  have hsilent : ∀ i, recvRound 0x0101A8C0 (silence i) = none := by
    intro i
    unfold silence
    split
    · rfl
    · rfl
  have hnever : ∀ fuel result,
      recvArpResponse 0x0101A8C0 false silence fuel 0 ≠ some result := by
    intro fuel result hreturns
    obtain ⟨i, -, hresult, -⟩ := recvArpResponse_eq_some_iff.mp hreturns
    rw [hsilent] at hresult
    cases hresult
  constructor
  · intro h
    refine hnever 5 _ (h.timesOut 4 (.inl rfl) fun k _ => ?_)
    exact recvRound_eq_none_iff.mp (hsilent k)
  · rintro result ⟨fuel, hreturns⟩
    exact hnever fuel result hreturns

end Neigh
end OsKernel

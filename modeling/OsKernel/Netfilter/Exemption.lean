import OsKernel.Netfilter.Forward

/-!
# Hook points a packet is let past

`traverse_hooks` returns at the first rule that hits, whatever its verdict, and
so a rule that accepts a packet at one hook point keeps the later hook points of
the range from being asked.  What each hook point says about a packet is the
verdict of its first rule that hits.  These verdicts tell whether a hook point
of the packet's path that would drop it is passed over
(`drops_respected_iff`).
-/

namespace OsKernel
namespace Netfilter

/-- What a hook point says about a packet: the verdict of its first rule that
hits. -/
def firstHit (rules : List Rule) (conn : List ConnEntry) (p : Packet)
    (stage : Stage) : Option Verdict :=
  chainVerdict rules conn p stage.num

/-- The hook points of a routed packet's path, as `process_packet` prints
them. -/
def hookPath (p : Packet) : List Stage :=
  if p.isLocal then [.preRouting, .localIn]
  else [.preRouting, .forward, .postRouting]

/-- The packet gets through only if no hook point of its path drops it. -/
def DropsRespected (rules : List Rule) (conn : List ConnEntry) (p : Packet) :
    Prop :=
  (processPacket rules conn p).1.dropped = false →
    ∀ h ∈ hookPath (route p), firstHit rules conn (route p) h ≠ some .drop

instance (rules : List Rule) (conn : List ConnEntry) (p : Packet) :
    Decidable (DropsRespected rules conn p) :=
  inferInstanceAs (Decidable (_ → _))

/-- A local packet is asked about at `NF_LOCAL_IN` unless a rule of
`NF_PRE_ROUTING` hits. -/
theorem processPacket_local_dropped (rules : List Rule) (conn : List ConnEntry)
    {p : Packet} (hlocal : (route p).isLocal = true) :
    (processPacket rules conn p).1.dropped = true ↔
      (firstHit rules conn (route p) .preRouting).or
        (firstHit rules conn (route p) .localIn) = some .drop := by
  have hdropped : (processPacket rules conn p).1.dropped =
      (traverseHooks rules conn (route p) .preRouting .localIn == .drop) := by
    unfold processPacket
    simp only [hlocal, if_true]
    split <;> rfl
  rw [hdropped, beq_iff_eq, traverseHooks_localIn]
  unfold firstHit
  cases chainVerdict rules conn (route p) Stage.preRouting.num <;>
    cases chainVerdict rules conn (route p) Stage.localIn.num <;> simp

/-- A forwarded packet is dropped by the first rule that hits up to
`NF_FORWARD`, or at `NF_POST_ROUTING` if that rule accepts it or there is
none. -/
theorem processPacket_forward_dropped (rules : List Rule)
    (conn : List ConnEntry) {p : Packet} (hforward : (route p).isLocal = false) :
    (processPacket rules conn p).1.dropped = true ↔
      let first := ((firstHit rules conn (route p) .preRouting).or
        (firstHit rules conn (route p) .localIn)).or
        (firstHit rules conn (route p) .forward)
      first = some .drop ∨ first.getD .accept = .accept ∧
        firstHit rules conn (route p) .postRouting = some .drop := by
  have hdropped : (processPacket rules conn p).1.dropped =
      forwardDropped rules conn (route p) := by
    simp [processPacket, hforward]
  rw [hdropped, forwardDropped, traverseHooks_forward,
    traverseHooks_postRouting, afterInput]
  unfold firstHit
  -- which hook points have a verdict decides which of them comes first
  cases chainVerdict rules conn (route p) Stage.preRouting.num <;>
    cases chainVerdict rules conn (route p) Stage.localIn.num <;>
    cases chainVerdict rules conn (route p) Stage.forward.num <;>
    cases chainVerdict rules conn (route p) Stage.postRouting.num <;>
    simp <;> grind

/-- By the verdicts of the hook points, none that drops a packet is passed over.
For a local packet: if `NF_LOCAL_IN` drops it, `NF_PRE_ROUTING` says nothing or
drops it, too.  A forwarded packet is also asked about at `NF_LOCAL_IN`: if
`NF_FORWARD` drops it, the two hook points before say nothing or drop it, or
accept it when `NF_POST_ROUTING` drops it; and if `NF_POST_ROUTING` drops it, the
first verdict before is none, or to accept or to drop it. -/
def NoneExempted (verdict : Stage → Option Verdict) (isLocal : Bool) : Prop :=
  let early := (verdict .preRouting).or (verdict .localIn)
  if isLocal then
    verdict .localIn = some .drop →
      verdict .preRouting = none ∨ verdict .preRouting = some .drop
  else
    (verdict .forward = some .drop →
      early = none ∨ early = some .drop ∨
        early = some .accept ∧ verdict .postRouting = some .drop) ∧
    (verdict .postRouting = some .drop →
      early.or (verdict .forward) = none ∨
        early.or (verdict .forward) = some .accept ∨
        early.or (verdict .forward) = some .drop)

/-- The hook points of a packet's path have their say about it if and only if
their verdicts are such that none is passed over. -/
theorem drops_respected_iff (rules : List Rule) (conn : List ConnEntry)
    (p : Packet) :
    DropsRespected rules conn p ↔
      NoneExempted (firstHit rules conn (route p)) (route p).isLocal := by
  unfold DropsRespected
  rw [← Bool.not_eq_true]
  cases hlocal : (route p).isLocal with
  | true =>
      rw [processPacket_local_dropped rules conn hlocal]
      simp only [hookPath, hlocal, NoneExempted, if_true, List.forall_mem_cons]
      generalize firstHit rules conn (route p) = verdict
      cases verdict .preRouting <;> grind
  | false =>
      rw [processPacket_forward_dropped rules conn hlocal]
      simp only [hookPath, hlocal, NoneExempted, Bool.false_eq_true, if_false,
        List.forall_mem_cons]
      generalize firstHit rules conn (route p) = verdict
      cases verdict .preRouting <;> cases verdict .localIn <;>
        cases verdict .forward <;> grind

/-- One rule that accepts everything at `NF_PRE_ROUTING` takes all packets past
the INPUT chain, which drops them. -/
theorem accept_exempts_from_input :
    ¬ DropsRespected
        [⟨.preRouting, 0, 0, 0, 0, 0, .accept, "PREROUTING"⟩,
          ⟨.localIn, 0, 0, 0, 0, 0, .drop, "INPUT"⟩]
        [] ⟨50, 200, 6, 40000, 23, 0, true, true, false⟩ := by
  decide

end Netfilter
end OsKernel

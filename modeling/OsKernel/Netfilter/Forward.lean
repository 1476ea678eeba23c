import OsKernel.Netfilter.Model
import Mathlib.Tactic

/-!
# Forwarded packets and the INPUT chain

`process_packet` sends a forwarded packet through the hook points from
`NF_PRE_ROUTING` to `NF_FORWARD` by number, and `NF_LOCAL_IN` lies between the
two.  The rules for local packets therefore decide about forwarded ones too,
unless a rule of `NF_PRE_ROUTING` has decided before.
-/

namespace OsKernel
namespace Netfilter

/-- Two tables that differ only in rules of `NF_LOCAL_IN`. -/
def SameOutsideInput (rules rules' : List Rule) : Prop :=
  rules.filter (fun r => r.stage ≠ .localIn) =
    rules'.filter fun r => r.stage ≠ .localIn

instance (rules rules' : List Rule) :
    Decidable (SameOutsideInput rules rules') :=
  inferInstanceAs (Decidable (_ = _))

theorem Stage.num_ne_localIn {s : Stage} (hs : s.num ≠ Stage.localIn.num) :
    s ≠ .localIn := by
  rintro rfl
  exact hs rfl

/-- The chains of the other hook points do not see the INPUT rules. -/
theorem chainVerdict_filter (rules : List Rule) (conn : List ConnEntry)
    (p : Packet) {stage : Nat} (hstage : stage ≠ Stage.localIn.num) :
    chainVerdict (rules.filter fun r => r.stage ≠ .localIn) conn p stage =
      chainVerdict rules conn p stage := by
  unfold chainVerdict
  rw [List.find?_filter]
  congr 2
  ext r
  by_cases hr : r.stage.num = stage
  · have hne : r.stage ≠ .localIn := Stage.num_ne_localIn (hr ▸ hstage)
    simp [hne, hr]
  · simp [hr]

theorem SameOutsideInput.chainVerdict_eq {rules rules' : List Rule}
    (hsame : SameOutsideInput rules rules') (conn : List ConnEntry)
    (p : Packet) {stage : Nat} (hstage : stage ≠ Stage.localIn.num) :
    chainVerdict rules conn p stage = chainVerdict rules' conn p stage := by
  rw [← chainVerdict_filter rules conn p hstage, hsame,
    chainVerdict_filter rules' conn p hstage]

/-- The chain of a hook point has no verdict exactly if no rule of it hits. -/
theorem chainVerdict_eq_none_iff (rules : List Rule) (conn : List ConnEntry)
    (p : Packet) (stage : Stage) :
    chainVerdict rules conn p stage.num = none ↔
      ¬ ∃ r ∈ rules, r.stage = stage ∧ r.hits conn p = true := by
  have hnum : ∀ s : Stage, s.num = stage.num ↔ s = stage := by
    intro s
    cases s <;> cases stage <;> decide
  simp [chainVerdict, hnum]

/-- One hook point of the outer loop. -/
theorem traverseFrom_succ (rules : List Rule) (conn : List ConnEntry)
    (p : Packet) (remaining stage : Nat) :
    traverseFrom rules conn p (remaining + 1) stage =
      (chainVerdict rules conn p stage).getD
        (traverseFrom rules conn p remaining (stage + 1)) := by
  rw [traverseFrom]
  cases chainVerdict rules conn p stage <;> rfl

/-- The verdict with which the hook points after `NF_PRE_ROUTING` leave a
forwarded packet, given what the INPUT chain says. -/
def afterInput (rules : List Rule) (conn : List ConnEntry) (p : Packet)
    (input : Option Verdict) : Verdict :=
  input.getD ((chainVerdict rules conn p Stage.forward.num).getD .accept)

/-- The three chains of the forward path, in the order they are asked. -/
theorem traverseHooks_forward (rules : List Rule) (conn : List ConnEntry)
    (p : Packet) :
    traverseHooks rules conn p .preRouting .forward =
      (chainVerdict rules conn p Stage.preRouting.num).getD
        (afterInput rules conn p
          (chainVerdict rules conn p Stage.localIn.num)) := by
  simp only [traverseHooks, afterInput, Stage.num, traverseFrom_succ]
  rfl

theorem traverseHooks_localIn (rules : List Rule) (conn : List ConnEntry)
    (p : Packet) :
    traverseHooks rules conn p .preRouting .localIn =
      (chainVerdict rules conn p Stage.preRouting.num).getD
        ((chainVerdict rules conn p Stage.localIn.num).getD .accept) := by
  simp only [traverseHooks, Stage.num, traverseFrom_succ]
  rfl

theorem traverseHooks_postRouting (rules : List Rule) (conn : List ConnEntry)
    (p : Packet) :
    traverseHooks rules conn p .postRouting .postRouting =
      (chainVerdict rules conn p Stage.postRouting.num).getD .accept := by
  simp only [traverseHooks, Stage.num, traverseFrom_succ]
  rfl

/-- The tables agree about a forwarded packet as soon as their verdicts up to
`NF_FORWARD` agree. -/
theorem SameOutsideInput.forwardDropped_eq {rules rules' : List Rule}
    (hsame : SameOutsideInput rules rules') {conn : List ConnEntry}
    {p : Packet}
    (hverdict : traverseHooks rules conn p .preRouting .forward =
      traverseHooks rules' conn p .preRouting .forward) :
    forwardDropped rules conn p = forwardDropped rules' conn p := by
  unfold forwardDropped
  rw [hverdict, traverseHooks_postRouting, traverseHooks_postRouting,
    hsame.chainVerdict_eq conn p (by decide)]

/-- A rule of `NF_PRE_ROUTING` that hits settles the matter before the INPUT
chain is asked. -/
theorem SameOutsideInput.forwardDropped_of_preRouting
    {rules rules' : List Rule} (hsame : SameOutsideInput rules rules')
    {conn : List ConnEntry} {p : Packet}
    (hhit : ∃ r ∈ rules, r.stage = .preRouting ∧ r.hits conn p = true) :
    forwardDropped rules conn p = forwardDropped rules' conn p := by
  apply hsame.forwardDropped_eq
  have hsome : chainVerdict rules conn p Stage.preRouting.num ≠ none :=
    fun hnone =>
      (chainVerdict_eq_none_iff rules conn p .preRouting).mp hnone hhit
  obtain ⟨verdict, hverdict⟩ := Option.ne_none_iff_exists'.mp hsome
  rw [traverseHooks_forward, traverseHooks_forward,
    ← hsame.chainVerdict_eq conn p (by decide), hverdict]
  rfl

/-- Where no INPUT rule of either table hits, the tables agree. -/
theorem SameOutsideInput.forwardDropped_of_no_input
    {rules rules' : List Rule} (hsame : SameOutsideInput rules rules')
    {conn : List ConnEntry} {p : Packet}
    (hrules : ¬ ∃ r ∈ rules, r.stage = .localIn ∧ r.hits conn p = true)
    (hrules' : ¬ ∃ r ∈ rules', r.stage = .localIn ∧ r.hits conn p = true) :
    forwardDropped rules conn p = forwardDropped rules' conn p := by
  apply hsame.forwardDropped_eq
  have hnone : chainVerdict rules conn p Stage.localIn.num = none :=
    (chainVerdict_eq_none_iff rules conn p .localIn).mpr hrules
  have hnone' : chainVerdict rules' conn p Stage.localIn.num = none :=
    (chainVerdict_eq_none_iff rules' conn p .localIn).mpr hrules'
  rw [traverseHooks_forward, traverseHooks_forward, hnone, hnone',
    afterInput, afterInput, hsame.chainVerdict_eq conn p (by decide),
    hsame.chainVerdict_eq conn p (by decide)]

/-! ## One INPUT rule decides about forwarded packets -/

/-- An INPUT rule for every packet. -/
def inputRule (verdict : Verdict) : Rule :=
  ⟨.localIn, 0, 0, 0, 0, 0, verdict, ""⟩

/-- A table whose INPUT chain is one rule for every packet. -/
def withInput (verdict : Verdict) (rules : List Rule) : List Rule :=
  inputRule verdict :: rules.filter fun r => r.stage ≠ .localIn

theorem inputRule_hits (verdict : Verdict) (conn : List ConnEntry)
    (p : Packet) : (inputRule verdict).hits conn p = true := by
  have hcomment : strstr "" "已建立连接" = false := by decide
  simp [inputRule, Rule.hits, hcomment]

theorem sameOutsideInput_withInput (verdict : Verdict) (rules : List Rule) :
    SameOutsideInput rules (withInput verdict rules) := by
  simp [SameOutsideInput, withInput, inputRule]

/-- The one INPUT rule is the verdict on every packet that no rule of
`NF_PRE_ROUTING` stops. -/
theorem traverseHooks_withInput (verdict : Verdict) {rules : List Rule}
    {conn : List ConnEntry} {p : Packet}
    (hpre : chainVerdict rules conn p Stage.preRouting.num = none) :
    traverseHooks (withInput verdict rules) conn p .preRouting .forward =
      verdict := by
  have hsame := sameOutsideInput_withInput verdict rules
  have hinput : chainVerdict (withInput verdict rules) conn p Stage.localIn.num =
      some verdict := by
    rw [withInput, chainVerdict_cons,
      if_pos ⟨rfl, inputRule_hits verdict conn p⟩]
    rfl
  rw [traverseHooks_forward, ← hsame.chainVerdict_eq conn p (by decide), hpre,
    hinput]
  rfl

/-- A forwarded packet's fate does not depend on the INPUT rules exactly if a
rule of `NF_PRE_ROUTING` hits the packet. -/
theorem forward_independent_iff (rules : List Rule) (conn : List ConnEntry)
    (p : Packet) (hforward : (route p).isLocal = false) :
    (∀ rules', SameOutsideInput rules rules' →
      (processPacket rules conn p).1.dropped =
        (processPacket rules' conn p).1.dropped) ↔
    ∃ r ∈ rules, r.stage = .preRouting ∧ r.hits conn (route p) = true := by
  have hdropped : ∀ table : List Rule, (processPacket table conn p).1.dropped =
      forwardDropped table conn (route p) := by
    intro table
    simp [processPacket, hforward]
  simp only [hdropped]
  constructor
  · intro hindependent
    by_contra hmiss
    have hpre := (chainVerdict_eq_none_iff rules conn (route p) .preRouting).mpr
      hmiss
    -- `NF_DROP` loses the packet and `NF_STOLEN` does not
    have hdrop := hindependent _ (sameOutsideInput_withInput .drop rules)
    have hstolen := hindependent _ (sameOutsideInput_withInput .stolen rules)
    rw [hdrop] at hstolen
    simp [forwardDropped, traverseHooks_withInput _ hpre] at hstolen
  · intro hhit rules' hsame
    exact hsame.forwardDropped_of_preRouting hhit

/-- The built-in table with a PRE_ROUTING rule that drops telnet. -/
def rulesWithoutTelnet : List Rule :=
  ⟨.preRouting, protocolTcp, 0, 23, 0, 0, .drop, "telnet"⟩ :: rules

/-- A forwarded telnet packet is dropped with and without the INPUT rules. -/
theorem forward_independent_telnet :
    (processPacket rulesWithoutTelnet []
      ⟨50, 10, 6, 40000, 23, 0, true, false, false⟩).1.dropped =
    (processPacket (rulesWithoutTelnet.filter fun r => r.stage ≠ .localIn) []
      ⟨50, 10, 6, 40000, 23, 0, true, false, false⟩).1.dropped :=
  (forward_independent_iff rulesWithoutTelnet [] _ rfl).mpr
    ⟨_, List.mem_cons_self, rfl, by decide⟩ _ (by decide)

/-- The built-in table forwards a packet to port 80, because the INPUT rule
for HTTP accepts it before the FORWARD rule is asked; without the INPUT rules
it is dropped. -/
theorem forward_depends_on_input :
    SameOutsideInput rules (rules.filter fun r => r.stage ≠ .localIn) ∧
    (processPacket rules []
      ⟨50, 10, 6, 40000, 80, 0, true, false, false⟩).1.dropped = false ∧
    (processPacket (rules.filter fun r => r.stage ≠ .localIn) []
      ⟨50, 10, 6, 40000, 80, 0, true, false, false⟩).1.dropped = true := by
  decide

end Netfilter
end OsKernel

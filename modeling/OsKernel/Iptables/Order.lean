import OsKernel.Iptables.Model
import OsKernel.Lib.FirstMatch

/-!
# What the order of the rules means

`eval_chain` decides by the first rule of the list that matches the packet and
does not log.  The list begins with the rule added last, so among rules that
disagree about a packet the latest one wins, not the earliest.

A chain may be rewritten as the decision allows: log rules come and go, and two
neighbours change places if they have one target or if no packet matches both.
-/

namespace OsKernel
namespace Iptables

open Lib

/-- The rule ends the walk of `eval_chain` for the packet. -/
def Rule.settles (p : Pkt) (r : Rule) : Bool :=
  r.hits p && r.target.type != .log

theorem Rule.settles_of_log {r : Rule} (hlog : r.target.type = .log) (p : Pkt) :
    r.settles p = false := by
  simp [settles, hlog]

theorem Rule.hits_of_settles {r : Rule} {p : Pkt} (h : r.settles p = true) :
    r.hits p = true ∧ r.target.type ≠ .log := by
  simpa [settles] using h

/-- The target type of the first rule of a list that settles the packet. -/
def firstTarget (policy : TargetType) (p : Pkt) (rules : List Rule) :
    TargetType :=
  FirstMatch.decision (Rule.settles p) (fun r => r.target.type) policy rules

/-- The walk decides by the first rule that settles the packet, whatever it has
counted. -/
theorem evalRules_verdict (policy : TargetType) (p : Pkt) (rules : List Rule)
    (count : Int) :
    (evalRules policy p rules count).1 = firstTarget policy p rules := by
  induction rules generalizing count with
  | nil => rfl
  | cons r rest ih =>
      unfold firstTarget at ih ⊢
      rw [FirstMatch.decision_cons, evalRules]
      by_cases hhits : r.hits p = true
      · by_cases hlog : r.target.type = .log
        · rw [if_pos hhits, if_pos hlog, Rule.settles_of_log hlog, ih]
          rfl
        · have hsettles : r.settles p = true := by
            simp [Rule.settles, hhits, hlog]
          rw [if_pos hhits, if_neg hlog, if_pos hsettles]
      · have hsettles : ¬ r.settles p = true := by
          simp [Rule.settles, hhits]
        rw [if_neg hhits, if_neg hsettles, ih]

theorem evalChain_verdict (ch : Chain) (p : Pkt) :
    (evalChain ch p).1 = firstTarget ch.defaultPolicy.type p ch.rules :=
  evalRules_verdict ch.defaultPolicy.type p ch.rules ch.packetCount

/-! ## The order of addition -/

/-- A chain with the given rules, added one after the other. -/
def chainOf (table : Table) (policy : TargetType) (added : List Rule) : Chain :=
  added.foldl addRule (makeChain table policy)

theorem foldl_addRule (ch : Chain) (added : List Rule) :
    added.foldl addRule ch = { ch with rules := added.reverse ++ ch.rules } := by
  induction added generalizing ch with
  | nil => rfl
  | cons r rest ih =>
      rw [List.foldl_cons, ih]
      simp [addRule]

/-- The list of the rules begins with the one added last. -/
theorem chainOf_rules (table : Table) (policy : TargetType)
    (added : List Rule) : (chainOf table policy added).rules = added.reverse := by
  rw [chainOf, foldl_addRule]
  exact List.append_nil _

theorem chainOf_defaultPolicy (table : Table) (policy : TargetType)
    (added : List Rule) :
    (chainOf table policy added).defaultPolicy.type = policy := by
  rw [chainOf, foldl_addRule]
  rfl

/-- The verdict is the target of the earliest-added rule that matches the
packet and does not log, or the default policy. -/
def EarliestWins (table : Table) (policy : TargetType) (added : List Rule)
    (p : Pkt) : Prop :=
  (evalChain (chainOf table policy added) p).1 = firstTarget policy p added

/-- The earliest and the latest of the added rules that match the packet and do
not log have the same target. -/
def EndsAgree (added : List Rule) (p : Pkt) : Prop :=
  ∀ earliest latest, added.find? (Rule.settles p) = some earliest →
    added.reverse.find? (Rule.settles p) = some latest →
    earliest.target.type = latest.target.type

/-- The rules of a chain speak in the order in which they were added exactly
for the packets on which the earliest and the latest agree. -/
theorem earliestWins_iff (table : Table) (policy : TargetType)
    (added : List Rule) (p : Pkt) :
    EarliestWins table policy added p ↔ EndsAgree added p := by
  unfold EarliestWins EndsAgree
  rw [evalChain_verdict, chainOf_rules, chainOf_defaultPolicy]
  exact FirstMatch.decision_reverse_iff

/-- A rule for every packet. -/
def Rule.catchAll (type : TargetType) : Rule where
  condition := {}
  target := { type := type }

/-- A packet to the telnet port. -/
def telnetSyn : Pkt := ⟨6, 20000, 23, 0xC0A80132, 0xC0A80164, 0x02, false⟩

/-- First everything is dropped, then everything is accepted: the packet is
accepted. -/
theorem earliestWins_fails :
    (evalChain (chainOf .filter .drop
        [Rule.catchAll .drop, Rule.catchAll .accept]) telnetSyn).1 = .accept ∧
      ¬ EarliestWins .filter .drop
        [Rule.catchAll .drop, Rule.catchAll .accept] telnetSyn := by
  constructor
  · rfl
  · intro hwins
    have hverdict : TargetType.accept = .drop := hwins
    cases hverdict

/-! ## Rewriting a chain -/

/-- One change of the list of rules that is allowed. -/
inductive Rewrite : List Rule → List Rule → Prop
  | insertLog (front back : List Rule) {r : Rule}
      (hlog : r.target.type = .log) :
      Rewrite (front ++ back) (front ++ r :: back)
  | deleteLog (front back : List Rule) {r : Rule}
      (hlog : r.target.type = .log) :
      Rewrite (front ++ r :: back) (front ++ back)
  | swapSame (front back : List Rule) {r s : Rule}
      (hsame : r.target.type = s.target.type) :
      Rewrite (front ++ r :: s :: back) (front ++ s :: r :: back)
  | swapDisjoint (front back : List Rule) {r s : Rule}
      (hdisjoint : ∀ p, ¬ (r.hits p = true ∧ s.hits p = true)) :
      Rewrite (front ++ r :: s :: back) (front ++ s :: r :: back)

theorem Rewrite.firstTarget_eq {rules rules' : List Rule}
    (h : Rewrite rules rules') (policy : TargetType) (p : Pkt) :
    firstTarget policy p rules' = firstTarget policy p rules := by
  cases h with
  | insertLog front back hlog =>
      exact FirstMatch.decision_skip (Rule.settles_of_log hlog p) front back
  | deleteLog front back hlog =>
      exact (FirstMatch.decision_skip (Rule.settles_of_log hlog p)
        front back).symm
  | swapSame front back hsame =>
      apply FirstMatch.decision_swap
      intro _ _
      exact hsame.symm
  | swapDisjoint front back hdisjoint =>
      apply FirstMatch.decision_swap
      intro hs hr
      exact (hdisjoint p
        ⟨(Rule.hits_of_settles hr).1, (Rule.hits_of_settles hs).1⟩).elim

/-- A run of rewrites leaves the decision as it is. -/
theorem firstTarget_of_rewrites {rules rules' : List Rule}
    (h : Relation.ReflTransGen Rewrite rules rules') (policy : TargetType)
    (p : Pkt) : firstTarget policy p rules' = firstTarget policy p rules := by
  induction h with
  | refl => rfl
  | tail _ hlast ih => rw [hlast.firstTarget_eq, ih]

/-- Rules that all have one target, log rules apart, can be reordered. -/
theorem firstTarget_perm {rules rules' : List Rule} {target : TargetType}
    (hone : ∀ r ∈ rules, r.target.type ≠ .log → r.target.type = target)
    (hperm : rules'.Perm rules) (policy : TargetType) (p : Pkt) :
    firstTarget policy p rules' = firstTarget policy p rules :=
  FirstMatch.decision_perm
    (fun r hr hsettles => hone r hr (Rule.hits_of_settles hsettles).2) hperm

/-- The verdict about a packet is the same after any number of allowed changes,
and in any order of the rules if all that do not log have one target. -/
theorem verdict_of_rewrites (ch : Chain) (p : Pkt) :
    (∀ rules, Relation.ReflTransGen Rewrite ch.rules rules →
      (evalChain { ch with rules := rules } p).1 = (evalChain ch p).1) ∧
    ∀ rules target,
      (∀ r ∈ ch.rules, r.target.type ≠ .log → r.target.type = target) →
      rules.Perm ch.rules →
      (evalChain { ch with rules := rules } p).1 = (evalChain ch p).1 := by
  constructor
  · intro rules hrewrites
    rw [evalChain_verdict, evalChain_verdict]
    exact firstTarget_of_rewrites hrewrites ch.defaultPolicy.type p
  · intro rules target hone hperm
    rw [evalChain_verdict, evalChain_verdict]
    exact firstTarget_perm hone hperm ch.defaultPolicy.type p

/-- A log rule before a rule that drops, and the two in the other order. -/
theorem verdict_of_rewrites_log_drop :
    (evalChain (chainOf .filter .accept
        [Rule.catchAll .log, Rule.catchAll .drop]) telnetSyn).1 = .drop ∧
      (evalChain (chainOf .filter .accept
        [Rule.catchAll .drop, Rule.catchAll .log]) telnetSyn).1 = .drop := by
  have hdrop : (evalChain (chainOf .filter .accept
      [Rule.catchAll .drop, Rule.catchAll .log]) telnetSyn).1 = .drop := rfl
  have hswap := (verdict_of_rewrites (chainOf .filter .accept
    [Rule.catchAll .drop, Rule.catchAll .log]) telnetSyn).2
    [Rule.catchAll .drop, Rule.catchAll .log] .drop
    (by decide) (List.Perm.swap _ _ _)
  exact ⟨hswap.trans hdrop, hdrop⟩

end Iptables
end OsKernel

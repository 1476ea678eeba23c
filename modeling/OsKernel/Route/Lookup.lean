import OsKernel.Route.Model
import OsKernel.Lib.PrefixMask
import Mathlib.Data.List.MinMax

/-!
# Longest-prefix match

The walk of `lookup_route` computes the first entry of maximal prefix length
among those that match.  If the masks are contiguous, two entries that match
one address with equally long prefixes are routes to one network; so the order
of a table without duplicate networks does not matter.
-/

namespace OsKernel
namespace Route

open Lib

/-! ## The length of a prefix -/

theorem prefixLenLoop_eq (rounds : Nat) (m : BitVec 32) (len : Nat) :
    prefixLenLoop rounds m len = len + PrefixMask.onesBelow m rounds := by
  induction rounds generalizing m len with
  | zero => rfl
  | succ rounds ih =>
      rw [prefixLenLoop]
      by_cases hzero : m = 0
      · rw [if_pos hzero, hzero, PrefixMask.onesBelow_zero, Nat.add_zero]
      · have hlow : (m &&& 1).toNat = (m.getLsbD 0).toNat := by
          rw [BitVec.toNat_and, BitVec.getLsbD, Nat.testBit_zero]
          show m.toNat &&& 1 = _
          rw [Nat.and_one_is_mod]
          rcases Nat.mod_two_eq_zero_or_one m.toNat with heven | hodd
          · rw [heven]
            rfl
          · rw [hodd]
            rfl
        rw [if_neg hzero, ih, PrefixMask.onesBelow_succ, hlow, Nat.add_assoc]

/-- `prefix_len` counts the ones of the mask, and more rounds would not change
it. -/
theorem prefixLen_eq (mask : BitVec 32) :
    prefixLen mask = PrefixMask.onesBelow mask 32 ∧
      ∀ rounds, 32 ≤ rounds → prefixLenLoop rounds mask 0 = prefixLen mask := by
  have hones : prefixLen mask = PrefixMask.onesBelow mask 32 := by
    rw [prefixLen, prefixLenLoop_eq, Nat.zero_add]
  constructor
  · exact hones
  · intro rounds hle
    rw [hones, prefixLenLoop_eq, Nat.zero_add, PrefixMask.onesBelow_of_le _ hle]

/-! ## The walk over the table -/

/-- The entry matches the address. -/
def RouteEntry.Matches (dstIp : BitVec 32) (r : RouteEntry) : Prop :=
  routeMatches r.dst r.mask dstIp = true

instance (dstIp : BitVec 32) : DecidablePred (RouteEntry.Matches dstIp) :=
  fun _ => inferInstanceAs (Decidable (_ = true))

theorem RouteEntry.matches_iff {dstIp : BitVec 32} {r : RouteEntry} :
    r.Matches dstIp ↔ dstIp &&& r.mask = r.dst &&& r.mask := by
  simp [Matches, routeMatches]

/-- The result that reports an entry, or none. -/
def RouteResult.report : Option RouteEntry → RouteResult
  | some r => ⟨some r, prefixLen r.mask⟩
  | none => ⟨none, -1⟩

@[simp] theorem RouteResult.report_entry (found : Option RouteEntry) :
    (report found).entry = found := by
  cases found with
  | some r => rfl
  | none => rfl

/-- The first of the matching entries with the longest prefix. -/
def longest (table : List RouteEntry) (dstIp : BitVec 32) :
    Option RouteEntry :=
  (table.filter (RouteEntry.Matches dstIp)).argmax fun r => prefixLen r.mask

theorem longest_concat_of_not_matches {table : List RouteEntry}
    {dstIp : BitVec 32} {r : RouteEntry} (hmiss : ¬ r.Matches dstIp) :
    longest (table ++ [r]) dstIp = longest table dstIp := by
  simp [longest, hmiss]

theorem longest_concat_of_matches {table : List RouteEntry}
    {dstIp : BitVec 32} {r : RouteEntry} (hmatches : r.Matches dstIp) :
    longest (table ++ [r]) dstIp =
      Option.casesOn (longest table dstIp) (some r) fun best =>
        if prefixLen best.mask < prefixLen r.mask then some r
        else some best := by
  have hfilter : (table ++ [r]).filter (RouteEntry.Matches dstIp) =
      table.filter (RouteEntry.Matches dstIp) ++ [r] := by
    simp [hmatches]
  rw [longest, hfilter, List.argmax_concat]
  rfl

theorem lookupStep_report (dstIp : BitVec 32) (table : List RouteEntry)
    (r : RouteEntry) :
    lookupStep dstIp (.report (longest table dstIp)) r =
      .report (longest (table ++ [r]) dstIp) := by
  by_cases hmatches : r.Matches dstIp
  · have htest : routeMatches r.dst r.mask dstIp = true := hmatches
    rw [longest_concat_of_matches hmatches, lookupStep, if_pos htest]
    cases longest table dstIp with
    | none =>
        show (if (prefixLen r.mask : Int) > -1 then _ else _) = _
        rw [if_pos (by omega)]
        rfl
    | some best =>
        show (if (prefixLen r.mask : Int) > prefixLen best.mask then _ else _) =
          RouteResult.report (if prefixLen best.mask < prefixLen r.mask
            then some r else some best)
        by_cases hlonger : prefixLen best.mask < prefixLen r.mask
        · rw [if_pos hlonger, if_pos (by exact_mod_cast hlonger)]
          rfl
        · rw [if_neg hlonger, if_neg (by exact_mod_cast hlonger)]
  · have htest : ¬ routeMatches r.dst r.mask dstIp = true := hmatches
    rw [longest_concat_of_not_matches hmatches, lookupStep, if_neg htest]

/-- The walk reports the first matching entry with the longest prefix. -/
theorem lookupRoute_eq (table : List RouteEntry) (dstIp : BitVec 32) :
    lookupRoute table dstIp = .report (longest table dstIp) := by
  induction table using List.reverseRecOn with
  | nil => rfl
  | append_singleton table r ih =>
      rw [lookupRoute, List.foldl_append, ← lookupRoute, ih]
      exact lookupStep_report dstIp table r

/-! ## What is found -/

theorem longest_eq_none {table : List RouteEntry} {dstIp : BitVec 32} :
    longest table dstIp = none ↔ ∀ r ∈ table, ¬ r.Matches dstIp := by
  rw [longest, List.argmax_eq_none, List.filter_eq_nil_iff]
  simp only [decide_eq_true_eq]

/-- An entry of the table that matches with a prefix of maximal length. -/
structure IsLongest (table : List RouteEntry) (dstIp : BitVec 32)
    (r : RouteEntry) : Prop where
  mem : r ∈ table
  hits : r.Matches dstIp
  maximal : ∀ s ∈ table, s.Matches dstIp → prefixLen s.mask ≤ prefixLen r.mask

theorem isLongest_of_longest {table : List RouteEntry} {dstIp : BitVec 32}
    {r : RouteEntry} (h : longest table dstIp = some r) :
    IsLongest table dstIp r := by
  have hmem := List.mem_filter.mp (List.argmax_mem h)
  constructor
  · exact hmem.1
  · simpa using hmem.2
  · intro s hs hmatches
    have hcandidate : s ∈ table.filter (RouteEntry.Matches dstIp) :=
      List.mem_filter.mpr ⟨hs, by simpa using hmatches⟩
    exact List.le_of_mem_argmax (f := fun r => prefixLen r.mask) hcandidate h

theorem IsLongest.perm {table table' : List RouteEntry} {dstIp : BitVec 32}
    {r : RouteEntry} (h : IsLongest table dstIp r)
    (hperm : table'.Perm table) : IsLongest table' dstIp r where
  mem := hperm.mem_iff.mpr h.mem
  hits := h.hits
  maximal := fun s hs => h.maximal s (hperm.mem_iff.mp hs)

/-- Two entries do not lead to the same network. -/
def Apart (r s : RouteEntry) : Prop :=
  ¬ (r.mask = s.mask ∧ r.dst &&& r.mask = s.dst &&& s.mask)

instance (r s : RouteEntry) : Decidable (Apart r s) :=
  inferInstanceAs (Decidable (¬ _))

theorem Apart.symm {r s : RouteEntry} (h : Apart r s) : Apart s r :=
  fun hsame => h ⟨hsame.1.symm, hsame.2.symm⟩

instance : Std.Symm Apart := ⟨fun _ _ => Apart.symm⟩

/-- Contiguous masks of one length are equal, and what they leave of the
address is the network of both entries. -/
theorem IsLongest.unique {table : List RouteEntry} {dstIp : BitVec 32}
    {r s : RouteEntry} (hr : IsLongest table dstIp r)
    (hs : IsLongest table dstIp s)
    (hmasks : ∀ e ∈ table, PrefixMask.Contiguous e.mask)
    (hapart : table.Pairwise Apart) : r = s := by
  by_contra hne
  have hlen : prefixLen r.mask = prefixLen s.mask :=
    le_antisymm (hs.maximal r hr.mem hr.hits) (hr.maximal s hs.mem hs.hits)
  rw [(prefixLen_eq _).1, (prefixLen_eq _).1] at hlen
  have hmask : r.mask = s.mask :=
    (hmasks r hr.mem).eq_of_ones (hmasks s hs.mem) hlen
  have hdst : r.dst &&& r.mask = s.dst &&& s.mask := by
    rw [← RouteEntry.matches_iff.mp hr.hits,
      ← RouteEntry.matches_iff.mp hs.hits, hmask]
  exact hapart.forall hr.mem hs.mem hne ⟨hmask, hdst⟩

theorem longest_perm {table table' : List RouteEntry} {dstIp : BitVec 32}
    (hmasks : ∀ e ∈ table, PrefixMask.Contiguous e.mask)
    (hapart : table.Pairwise Apart) (hperm : table'.Perm table) :
    longest table' dstIp = longest table dstIp := by
  cases hfound : longest table dstIp with
  | none =>
      rw [longest_eq_none] at hfound ⊢
      exact fun r hr => hfound r (hperm.mem_iff.mp hr)
  | some r =>
      have hr := isLongest_of_longest hfound
      cases hother : longest table' dstIp with
      | none =>
          exact (longest_eq_none.mp hother r (hperm.mem_iff.mpr hr.mem)
            hr.hits).elim
      | some s =>
          have hs := (isLongest_of_longest hother).perm hperm.symm
          rw [hs.unique hr hmasks hapart]

/-- `lookup_route` finds nothing only if nothing matches, and otherwise a
matching entry with the longest prefix.  Which one does not depend on the order
of the table if the masks are contiguous and the networks different. -/
theorem lookupRoute_longestPrefix (table : List RouteEntry)
    (dstIp : BitVec 32) :
    ((lookupRoute table dstIp).entry = none ↔
      ∀ r ∈ table, ¬ r.Matches dstIp) ∧
    (∀ r, (lookupRoute table dstIp).entry = some r →
      IsLongest table dstIp r ∧
        (lookupRoute table dstIp).matchLen = prefixLen r.mask) ∧
    ((∀ r ∈ table, PrefixMask.Contiguous r.mask) → table.Pairwise Apart →
      ∀ table', table'.Perm table →
        (lookupRoute table' dstIp).entry = (lookupRoute table dstIp).entry) := by
  simp only [lookupRoute_eq, RouteResult.report_entry]
  refine ⟨longest_eq_none, ?_, ?_⟩
  · intro r hfound
    rw [hfound]
    exact ⟨isLongest_of_longest hfound, rfl⟩
  · intro hmasks hapart table' hperm
    exact longest_perm hmasks hapart hperm

/-- The built-in table in the opposite order gives the same route to
`10.5.1.1`. -/
theorem lookupRoute_kernelRoutes :
    (lookupRoute kernelRoutes.reverse 0x0A050101).entry = kernelRoutes[1]? := by
  have hfound : (lookupRoute kernelRoutes 0x0A050101).entry =
      kernelRoutes[1]? := by decide
  rw [← hfound]
  exact (lookupRoute_longestPrefix kernelRoutes 0x0A050101).2.2 (by decide)
    (by decide) _ (List.reverse_perm _)

end Route
end OsKernel

import OsKernel.Route.Lookup

/-!
# Ties between routes

`lookup_route` compares prefix lengths only, and with `>`.  Among matching
entries of maximal length it keeps the one that stands first in the table; the
metric, of which a smaller value is to be preferred, is not read.
-/

namespace OsKernel
namespace Route

instance (table : List RouteEntry) (dstIp : BitVec 32) :
    DecidablePred (IsLongest table dstIp) := fun r =>
  decidable_of_iff
    (r ∈ table ∧ r.Matches dstIp ∧
      ∀ s ∈ table, s.Matches dstIp → prefixLen s.mask ≤ prefixLen r.mask)
    ⟨fun h => ⟨h.1, h.2.1, h.2.2⟩, fun h => ⟨h.mem, h.hits, h.maximal⟩⟩

/-- The selected entry has the smallest metric among the matching entries of
maximal prefix length. -/
def MetricBreaksTies (table : List RouteEntry) (dstIp : BitVec 32) : Prop :=
  ∀ r, (lookupRoute table dstIp).entry = some r →
    ∀ s, IsLongest table dstIp s → r.metric ≤ s.metric

/-- The first of the matching entries of maximal prefix length has the smallest
metric of them. -/
def FirstIsCheapest (table : List RouteEntry) (dstIp : BitVec 32) : Prop :=
  ∀ before r after, table = before ++ r :: after →
    IsLongest table dstIp r → (∀ b ∈ before, ¬ IsLongest table dstIp b) →
    ∀ s, IsLongest table dstIp s → r.metric ≤ s.metric

/-- The matching entries of maximal prefix length have one metric. -/
def EqualMetrics (table : List RouteEntry) (dstIp : BitVec 32) : Prop :=
  ∀ r s, IsLongest table dstIp r → IsLongest table dstIp s →
    r.metric = s.metric

section
variable {table : List RouteEntry} {dstIp : BitVec 32} {r : RouteEntry}

/-- Nothing of maximal length stands before the entry that is found. -/
theorem not_isLongest_of_before {before after : List RouteEntry}
    (hfound : longest (before ++ r :: after) dstIp = some r)
    (hfresh : r ∉ before) :
    ∀ b ∈ before, ¬ IsLongest (before ++ r :: after) dstIp b := by
  intro b hb hlongest
  have hr := isLongest_of_longest hfound
  have hbefore : b ∈ before.filter (RouteEntry.Matches dstIp) :=
    List.mem_filter.mpr ⟨hb, decide_eq_true hlongest.hits⟩
  have hfresh' : r ∉ before.filter (RouteEntry.Matches dstIp) :=
    fun hmem => hfresh (List.mem_of_mem_filter hmem)
  -- `argmax` gives the position of the first maximum
  have hindex := List.index_of_argmax hfound
    (List.mem_filter.mpr ⟨hlongest.mem, decide_eq_true hlongest.hits⟩)
    (hlongest.maximal r hr.mem hr.hits)
  rw [List.filter_append, List.idxOf_append_of_notMem hfresh',
    List.idxOf_append_of_mem hbefore] at hindex
  have hlt := List.idxOf_lt_length_iff.mpr hbefore
  omega

/-- The walk finds the first entry of maximal prefix length. -/
theorem longest_eq_find (table : List RouteEntry) (dstIp : BitVec 32) :
    longest table dstIp = table.find? (IsLongest table dstIp) := by
  symm
  cases hfound : longest table dstIp with
  | none =>
      refine List.find?_eq_none.mpr fun r hr => ?_
      have hmiss := longest_eq_none.mp hfound r hr
      exact fun hlongest => hmiss (of_decide_eq_true hlongest).hits
  | some r =>
      have hr := isLongest_of_longest hfound
      obtain ⟨before, after, rfl, hfresh⟩ := List.eq_append_cons_of_mem hr.mem
      refine List.find?_eq_some_iff_append.mpr
        ⟨decide_eq_true hr, before, after, rfl, fun b hb => ?_⟩
      have hnot := not_isLongest_of_before hfound hfresh b hb
      simpa using hnot

/-- What the walk finds, by its place in the table. -/
theorem lookupRoute_entry_eq_some_iff :
    (lookupRoute table dstIp).entry = some r ↔
      IsLongest table dstIp r ∧ ∃ before after,
        table = before ++ r :: after ∧
        ∀ b ∈ before, ¬ IsLongest table dstIp b := by
  rw [lookupRoute_eq, RouteResult.report_entry, longest_eq_find,
    List.find?_eq_some_iff_append]
  simp only [decide_eq_true_eq, Bool.not_eq_true', decide_eq_false_iff_not]

theorem metricBreaksTies_iff_first :
    MetricBreaksTies table dstIp ↔ FirstIsCheapest table dstIp := by
  constructor
  · intro h before r after hsplit hr hbefore
    exact h r (lookupRoute_entry_eq_some_iff.mpr
      ⟨hr, before, after, hsplit, hbefore⟩)
  · intro h r hfound
    obtain ⟨hr, before, after, hsplit, hbefore⟩ :=
      lookupRoute_entry_eq_some_iff.mp hfound
    exact h before r after hsplit hr hbefore

/-- An entry of maximal length is found when the table starts with it. -/
theorem exists_perm_lookupRoute (hr : IsLongest table dstIp r) :
    ∃ table', table'.Perm table ∧
      (lookupRoute table' dstIp).entry = some r := by
  obtain ⟨before, after, rfl⟩ := List.append_of_mem hr.mem
  have hperm : (r :: (before ++ after)).Perm (before ++ r :: after) :=
    List.perm_middle.symm
  refine ⟨_, hperm, lookupRoute_entry_eq_some_iff.mpr
    ⟨hr.perm hperm, [], before ++ after, rfl, ?_⟩⟩
  exact fun b hb => absurd hb List.not_mem_nil

theorem metricBreaksTies_perm_iff :
    (∀ table', table'.Perm table → MetricBreaksTies table' dstIp) ↔
      EqualMetrics table dstIp := by
  constructor
  · intro h r s hr hs
    have hle : ∀ a b, IsLongest table dstIp a → IsLongest table dstIp b →
        a.metric ≤ b.metric := by
      intro a b ha hb
      obtain ⟨table', hperm, hfound⟩ := exists_perm_lookupRoute ha
      exact h table' hperm a hfound b (hb.perm hperm)
    exact le_antisymm (hle r s hr hs) (hle s r hs hr)
  · intro h table' hperm r hfound s hs
    have hr := (lookupRoute_entry_eq_some_iff.mp hfound).1
    exact (h r s (hr.perm hperm.symm) (hs.perm hperm.symm)).le

end

/-- For one table, the metric decides between equally long prefixes when the
first of these entries happens to have the smallest metric.  Whatever the order
of the table, it does so only when there is nothing to decide. -/
theorem metricBreaksTies_iff (table : List RouteEntry) (dstIp : BitVec 32) :
    (MetricBreaksTies table dstIp ↔ FirstIsCheapest table dstIp) ∧
    ((∀ table', table'.Perm table → MetricBreaksTies table' dstIp) ↔
      EqualMetrics table dstIp) :=
  ⟨metricBreaksTies_iff_first, metricBreaksTies_perm_iff⟩

/-- Of two default routes, the expensive one is selected when it stands
first. -/
theorem metricBreaksTies_fails :
    ¬ MetricBreaksTies
      [⟨0, 0, 0xC0A80101, 0xC0A80101, 100⟩, ⟨0, 0, 0x0A000001, 0x0A00000A, 0⟩]
      0x08080808 := by
  intro h
  have hcheaper : IsLongest
      [⟨0, 0, 0xC0A80101, 0xC0A80101, 100⟩, ⟨0, 0, 0x0A000001, 0x0A00000A, 0⟩]
      0x08080808 ⟨0, 0, 0x0A000001, 0x0A00000A, 0⟩ := by decide
  exact absurd (h ⟨0, 0, 0xC0A80101, 0xC0A80101, 100⟩ (by decide) _ hcheaper)
    (by decide)

end Route
end OsKernel

import OsKernel.Lib.OwnedLists
import OsKernel.Lvm.Allocator

/-!
# Logical volumes and the extents they own

`lv_create` and `lv_extend` append what their allocation loop took to the table of
their volume.  `lv_extend` has its table reallocated first; where the new LE count
is not an `int` it loses the table (`lvExtend_cases`).

A logical volume is complete when `lv_create` found room for all of its LEs and
no `lv_extend` lost its table.  The table then maps every LE to a PE of its own:
the LEs of all complete volumes are, each once, among the extents handed out
(`reachable_owned_subperm`), and none is on or behind a physical volume without a
bitmap (`reachable_mappedUpTo`).
-/

namespace OsKernel
namespace Lvm

open Lib

/-- The extent of one LE. -/
def LeMap.extent (le : LeMap) : Extent := ⟨le.pvIndex, le.peStart, 1⟩

/-- The extents of the LEs of a complete volume. -/
def Handle.owned (h : Handle) : List Extent :=
  if h.complete then (h.lv.leMap.take h.lv.leCount.toNat).map LeMap.extent
  else []

/-- The extents of the LEs of all complete volumes. -/
def State.owned (s : State) : List Extent := s.lvs.flatMap Handle.owned

/-! ## Where the LEs of complete volumes come from -/

theorem allocLes_history (remaining : Nat) (g : Vg) :
    (allocLes remaining g).1.history =
      g.history ++ (allocLes remaining g).2.map LeMap.extent := by
  induction remaining generalizing g with
  | zero => simp [allocLes]
  | succ remaining ih =>
      simp only [allocLes]
      split
      next => simp
      next g' index start halloc =>
        obtain ⟨_, _, _, _, rfl⟩ := vgAllocPe_some halloc
        rw [ih, List.map_cons, List.append_assoc]
        rfl

/-- A volume made without shortage owns what was allocated for it, and one
made with shortage owns nothing. -/
theorem lvCreate_owned_subperm (g : Vg) (leCount : Int) :
    (Handle.owned ⟨(lvCreate g leCount).2.1,
      (lvCreate g leCount).2.2.isNone⟩).Subperm
      ((allocLes leCount.toNat g).2.map LeMap.extent) := by
  simp only [lvCreate]
  by_cases hshort : (allocLes leCount.toNat g).2.length < leCount.toNat
  · simp [Handle.owned, hshort]
  · -- No shortage: the table is exactly the list of outputs.
    simp only [Handle.owned, hshort, if_false, Option.isNone_none, if_true]
    rw [Nat.sub_eq_zero_of_le (by omega), List.replicate_zero, List.append_nil]
    exact (List.Sublist.map _ (List.take_sublist _ _)).subperm

/-! ## Extending a volume -/

/-- The numbers of LEs a call can ask for. -/
def LeNumber (n : Int) : Prop := 0 ≤ n ∧ n < 2 ^ 31

theorem length_reallocKept (leMap : List LeMap) (count : Int) :
    (reallocKept leMap count).length = count.toNat := by
  simp only [reallocKept, List.length_append, List.length_take,
    List.length_replicate]
  omega

/-- A table with all its entries keeps them. -/
theorem reallocKept_of_covered {leMap : List LeMap} {count : Int}
    (hcovered : count ≤ leMap.length) :
    reallocKept leMap count = leMap.take count.toNat := by
  have hnone : count.toNat - leMap.length = 0 := by omega
  rw [reallocKept, hnone, List.replicate_zero, List.append_nil]

section Extend

variable {l l' : Lv} {g g' : Vg} {additionalLe : Int} {ok : Bool}

/-- `lv_extend` where the sum of the LE counts is an `int`. -/
theorem lvExtend_of_fits (hcount : 0 ≤ l.leCount) (hadd : 0 ≤ additionalLe)
    (hfits : l.leCount + additionalLe < 2 ^ 31) :
    lvExtend l g additionalLe = some
      ({ l with
          leMap := reallocKept l.leMap l.leCount ++
            (allocLes additionalLe.toNat g).2
          leCount :=
            if (allocLes additionalLe.toNat g).2.length < additionalLe.toNat
            then l.leCount else l.leCount + additionalLe },
        (allocLes additionalLe.toNat g).1,
        decide (additionalLe.toNat ≤ (allocLes additionalLe.toNat g).2.length)) := by
  have hsum : wrap32 (l.leCount + additionalLe) = l.leCount + additionalLe :=
    wrap32_of_fitsInt ⟨by omega, hfits⟩
  have hentries : ¬ l.leCount + additionalLe < 0 := by omega
  have hold : ¬ l.leCount < 0 := by omega
  have hgrow : ¬ additionalLe < 0 := by omega
  simp only [lvExtend, hsum, hentries, hold, hgrow, or_self, and_false, if_false]
  split
  next hshort =>
    have hless : ¬ additionalLe.toNat ≤ (allocLes additionalLe.toNat g).2.length := by
      omega
    rw [decide_eq_false hless]
  next henough =>
    have hle : additionalLe.toNat ≤ (allocLes additionalLe.toNat g).2.length := by
      omega
    rw [decide_eq_true hle]

/-- Where it is not, `realloc` fails: the table is lost, and a PE that is found
cannot be stored. -/
theorem lvExtend_of_overflow (hcount : LeNumber l.leCount)
    (hadd : LeNumber additionalLe)
    (hover : 2 ^ 31 ≤ l.leCount + additionalLe) :
    lvExtend l g additionalLe =
      if (allocLes additionalLe.toNat g).2 = [] then
        some ({ l with leMap := [] }, (allocLes additionalLe.toNat g).1, false)
      else none := by
  obtain ⟨hlow, hhigh⟩ := hcount
  obtain ⟨hlow', hhigh'⟩ := hadd
  have hentries : wrap32 (l.leCount + additionalLe) < 0 := by
    rw [wrap32_of_overflow hover (by omega)]
    omega
  simp only [lvExtend, hentries, true_or, and_true, if_true]
  by_cases hnone : (allocLes additionalLe.toNat g).2 = []
  · have hshort : 0 < additionalLe := by omega
    simp [hnone, hshort]
  · simp [hnone]

/-- What an `lv_extend` that returns does to the table and the LE count: it
appends what was allocated, or loses the table. -/
theorem lvExtend_cases (hcount : LeNumber l.leCount)
    (hadd : LeNumber additionalLe)
    (h : lvExtend l g additionalLe = some (l', g', ok)) :
    l'.leMap = reallocKept l.leMap l.leCount ++
        (allocLes additionalLe.toNat g).2 ∧
      LeNumber l'.leCount ∧ l.leCount ≤ l'.leCount ∧
        l'.leCount ≤ l'.leMap.length ∨
    l'.leMap = [] ∧ l'.leCount = l.leCount ∧ 1 ≤ l.leCount ∧
      (allocLes additionalLe.toNat g).2 = [] ∧ ok = false := by
  obtain ⟨hlow, hhigh⟩ := hcount
  obtain ⟨hlow', hhigh'⟩ := hadd
  rcases Int.lt_or_le (l.leCount + additionalLe) (2 ^ 31) with hfits | hover
  · rw [lvExtend_of_fits hlow hlow' hfits] at h
    cases h
    have hgrown : ∀ short : Prop, [Decidable short] →
        l.leCount ≤ (if short then l.leCount else l.leCount + additionalLe) ∧
          (if short then l.leCount else l.leCount + additionalLe) < 2 ^ 31 := by
      intro short _
      split <;> omega
    obtain ⟨hle, hlt⟩ := hgrown
      ((allocLes additionalLe.toNat g).2.length < additionalLe.toNat)
    refine Or.inl ⟨rfl, ⟨hlow.trans hle, hlt⟩, hle, ?_⟩
    simp only [List.length_append, length_reallocKept]
    split <;> omega
  · -- `realloc` has returned `NULL`, and no entry was stored through it
    rw [lvExtend_of_overflow ⟨hlow, hhigh⟩ ⟨hlow', hhigh'⟩ hover] at h
    split at h
    next hnone =>
      cases h
      exact Or.inr ⟨rfl, rfl, by omega, hnone, rfl⟩
    next => contradiction

end Extend

/-! ## The volumes of a run -/

/-- The table of a volume has an entry for every LE below `le_count`. -/
structure Lv.Tabled (l : Lv) : Prop where
  count : LeNumber l.leCount
  covered : l.leCount ≤ l.leMap.length

/-- The LE count of a volume is not negative, and the table of a complete volume
covers it. -/
structure Handle.Ok (h : Handle) : Prop where
  count : LeNumber h.lv.leCount
  covered : h.complete = true → h.lv.leCount ≤ h.lv.leMap.length

theorem Handle.Ok.tabled {h : Handle} (hok : h.Ok)
    (hcomplete : h.complete = true) : h.lv.Tabled :=
  ⟨hok.count, hok.covered hcomplete⟩

theorem State.getElem?_of_lv {s : State} {handle : Nat} {l : Lv}
    (hget : s.lv handle = some l) :
    ∃ h, s.lvs[handle]? = some h ∧ h.lv = l :=
  Option.map_eq_some_iff.mp hget

theorem State.after_extended {s : State} {handle : Nat} {h : Handle}
    (hget : s.lvs[handle]? = some h) (g : Vg) (l : Lv) :
    s.after g (.extended handle l) =
      { vg := g
        lvs := s.lvs.set handle
          ⟨l, h.complete && decide (l.leCount ≤ l.leMap.length)⟩ } := by
  simp [State.after, List.modify_eq_set_getElem?, hget]

theorem Performed.ok {s : State} {call : Call} {g : Vg} {outcome : Outcome}
    (h : Performed s.vg s.lv call g outcome) (hrange : call.InRange)
    (hs : ∀ h ∈ s.lvs, h.Ok) : ∀ h ∈ (s.after g outcome).lvs, h.Ok := by
  have happend : ∀ k : Handle, k.Ok → ∀ h ∈ s.lvs ++ [k], h.Ok := by
    intro k hk h hmem
    rcases List.mem_append.mp hmem with hold | hnew
    · exact hs h hold
    · rw [List.mem_singleton.mp hnew]
      exact hk
  cases h with
  | nothing => exact hs
  | addPv => exact hs
  | create leCount =>
      refine happend _ ⟨hrange, fun _ => ?_⟩
      simp only [lvCreate, List.length_append, List.length_replicate]
      omega
  | @extend handle l l' _ ok additionalLe hget _ hextend =>
      obtain ⟨old, hold, rfl⟩ := State.getElem?_of_lv hget
      rw [State.after_extended hold]
      intro k hk
      rcases List.mem_or_eq_of_mem_set hk with hother | rfl
      · exact hs k hother
      · have hcount := (hs old (List.mem_of_getElem? hold)).count
        constructor
        · rcases lvExtend_cases hcount hrange hextend with
            ⟨-, hnumber, -⟩ | ⟨-, hsame, -⟩
          · exact hnumber
          · exact hsame ▸ hcount
        · intro hcomplete
          exact of_decide_eq_true (Bool.and_eq_true _ _ ▸ hcomplete).2
  | createSnapshot cowPeCount hget =>
      obtain ⟨origin, horigin, rfl⟩ := State.getElem?_of_lv hget
      exact happend _ ⟨(hs origin (List.mem_of_getElem? horigin)).count,
        fun hcomplete => absurd hcomplete Bool.false_ne_true⟩

theorem reachable_ok {s : State} (hreach : system.Reachable s) :
    ∀ h ∈ s.lvs, h.Ok := by
  refine hreach.invariant (P := fun s => ∀ h ∈ s.lvs, h.Ok) ?_ ?_
  · rintro s rfl h hmem
    exact absurd hmem List.not_mem_nil
  · intro s call t _ hs hstep
    obtain ⟨g, outcome, hrange, hperformed, rfl⟩ := step_performed hstep
    exact hperformed.ok hrange hs

/-- Extending a volume adds at most what was allocated for it. -/
theorem lvExtend_owned_subperm {h : Handle} (hok : h.Ok) {g g' : Vg} {l' : Lv}
    {additionalLe : Int} {ok : Bool} (hadd : LeNumber additionalLe)
    (hextend : lvExtend h.lv g additionalLe = some (l', g', ok)) :
    (Handle.owned
      ⟨l', h.complete && decide (l'.leCount ≤ l'.leMap.length)⟩).Subperm
      (h.owned ++ (allocLes additionalLe.toNat g).2.map LeMap.extent) := by
  cases hcomplete : h.complete with
  | false => simp [Handle.owned]
  | true =>
      rcases lvExtend_cases hok.count hadd hextend with
        ⟨hmap, -, -, hcovered⟩ | ⟨hmap, hsame, hpos, -⟩
      · simp only [Handle.owned, hcomplete, hcovered, decide_true, Bool.and_self,
          if_true, ← List.map_append]
        rw [hmap, reallocKept_of_covered (hok.covered hcomplete)]
        exact (List.Sublist.map _ (List.take_sublist _ _)).subperm
      · -- the table is lost, and the volume not complete any more
        have hlost : ¬ l'.leCount ≤ l'.leMap.length := by
          rw [hmap, hsame, List.length_nil]
          omega
        simp [Handle.owned, hlost]

/-- The LEs a call gives to complete volumes are among those its allocation loop
took from the group. -/
theorem Performed.gained {s : State} {call : Call} {g : Vg} {outcome : Outcome}
    (h : Performed s.vg s.lv call g outcome) (hrange : call.InRange)
    (hok : ∀ h ∈ s.lvs, h.Ok) :
    ∃ les : List LeMap,
      (s.after g outcome).owned.Subperm (s.owned ++ les.map LeMap.extent) ∧
      s.vg.history ++ les.map LeMap.extent <+: g.history ∧
      (les = [] ∨ ∃ n, allocLesSafe n s.vg = true ∧ allocLes n s.vg = (g, les)) := by
  cases h with
  | nothing =>
      refine ⟨[], ?_, by simp, Or.inl rfl⟩
      rw [List.map_nil, List.append_nil]
      exact List.Subperm.refl _
  | addPv sizeSectors hadd =>
      obtain ⟨-, hhistory, -, -⟩ := vgAddPv_some hadd
      refine ⟨[], ?_, by simp [hhistory], Or.inl rfl⟩
      rw [List.map_nil, List.append_nil]
      exact List.Subperm.refl _
  | create leCount hsafe =>
      refine ⟨_, ?_, ?_, Or.inr ⟨_, hsafe, rfl⟩⟩
      · rw [State.after, State.owned, List.flatMap_append, List.flatMap_singleton]
        exact List.Subperm.append (List.Subperm.refl _)
          (lvCreate_owned_subperm _ _)
      · rw [lvCreate_vg, allocLes_history]
  | extend additionalLe hget hsafe hextend =>
      obtain ⟨old, hold, rfl⟩ := State.getElem?_of_lv hget
      have hgain := lvExtend_owned_subperm (hok old (List.mem_of_getElem? hold))
        hrange hextend
      obtain ⟨rfl, -⟩ := lvExtend_some hextend
      refine ⟨_, ?_, ?_, Or.inr ⟨_, hsafe, rfl⟩⟩
      · rw [State.after_extended hold]
        exact flatMap_set_subperm Handle.owned hold hgain
      · rw [allocLes_history]
  | createSnapshot cowPeCount _ _ halloc =>
      -- the COW area is in the history, but no volume maps LEs to it
      obtain ⟨_, _, _, _, rfl⟩ := vgAllocPe_some halloc
      refine ⟨[], ?_, by simp, Or.inl rfl⟩
      rw [State.after, State.owned, List.flatMap_append, List.flatMap_singleton]
      exact List.Subperm.append (List.Subperm.refl _) (by simp [Handle.owned])

theorem reachable_owned_subperm {s : State} (hreach : system.Reachable s) :
    s.owned.Subperm s.vg.history := by
  refine hreach.invariant (P := fun s => s.owned.Subperm s.vg.history) ?_ ?_
  · rintro s rfl
    exact List.Subperm.refl []
  · intro s call t hprev hs hstep
    obtain ⟨g, outcome, hrange, hperformed, rfl⟩ := step_performed hstep
    obtain ⟨les, hgained, hhistory, -⟩ :=
      hperformed.gained hrange (reachable_ok hprev)
    rw [State.after_vg]
    exact hgained.trans (((List.subperm_append_right _).mpr hs).trans
      hhistory.sublist.subperm)

/-! ## The physical volumes with LEs -/

/-- A volume from which nothing can be allocated counts free PEs. -/
def Vg.UnmappedFree (g : Vg) : Prop := ∀ p ∈ g.pvs, ¬ p.Mapped → 1 ≤ p.freePe

/-- There is a volume with index `n`, and it and those before it have their
bitmaps. -/
def Vg.MappedUpTo (g : Vg) (n : Nat) : Prop :=
  n < g.pvs.length ∧ ∀ q ∈ g.pvs.take (n + 1), q.Mapped

theorem pvAlloc_mapped {p changed : Pv} {count start : Int}
    (halloc : pvAlloc p count = some (changed, start)) (hp : p.Mapped) :
    changed.Mapped := by
  simp only [pvAlloc] at halloc
  split at halloc
  · contradiction
  · cases halloc
    rw [Pv.Mapped, Bitmap.length_setRange]
    exact hp

theorem VgChange.unmappedFree {g g' : Vg} (h : VgChange g g')
    (hg : g.UnmappedFree) : g'.UnmappedFree := by
  cases h with
  | addPv sizeSectors hadd =>
      intro p hp hunmapped
      rw [(vgAddPv_some hadd).1, List.mem_append, List.mem_singleton] at hp
      rcases hp with hold | rfl
      · exact hg p hold hunmapped
      · rw [mapped_pvCreate_iff] at hunmapped
        show 1 ≤ (pvCreate sizeSectors).peCount
        omega
  | allocPe count hcount hsafe halloc =>
      obtain ⟨p, changed, hp, hpv, rfl⟩ := vgAllocPe_some halloc
      intro q hq hunmapped
      rcases List.mem_or_eq_of_mem_set hq with hold | rfl
      · exact hg q hold hunmapped
      · exact absurd (pvAlloc_mapped hpv (vgAllocPe_mapped hsafe halloc hp))
          hunmapped

theorem VgChange.mappedUpTo {g g' : Vg} (h : VgChange g g') {n : Nat}
    (hg : g.MappedUpTo n) : g'.MappedUpTo n := by
  obtain ⟨hlength, hmapped⟩ := hg
  cases h with
  | addPv sizeSectors hadd =>
      rw [Vg.MappedUpTo, (vgAddPv_some hadd).1, List.length_append,
        List.take_append_of_le_length hlength]
      exact ⟨by omega, hmapped⟩
  | allocPe count hcount hsafe halloc =>
      obtain ⟨p, changed, hp, hpv, rfl⟩ := vgAllocPe_some halloc
      refine ⟨by simpa using hlength, fun q hq => ?_⟩
      rw [List.take_set] at hq
      rcases List.mem_or_eq_of_mem_set hq with hold | rfl
      · exact hmapped q hold
      · exact pvAlloc_mapped hpv (vgAllocPe_mapped hsafe halloc hp)

theorem VgChanges.mappedUpTo {g g' : Vg} (h : VgChanges g g') {n : Nat}
    (hg : g.MappedUpTo n) : g'.MappedUpTo n := by
  induction h with
  | refl => exact hg
  | tail _ hlast ih => exact hlast.mappedUpTo ih

/-- A PE is never found on or behind a volume without a bitmap: such a volume has
free PEs by its counter, so that the search would have come to it. -/
theorem vgAllocPe_mappedUpTo {g g' : Vg} {index : Nat} {start : Int}
    (hsafe : vgAllocSafe 1 g.pvs = true)
    (halloc : vgAllocPe g 1 = some (g', index, start)) (hg : g.UnmappedFree) :
    g.MappedUpTo index := by
  obtain ⟨p, -, hp, -⟩ := vgAllocPe_some halloc
  refine ⟨(List.getElem?_eq_some_iff.mp hp).1, fun q hq => ?_⟩
  obtain ⟨⟨pvs, index', start'⟩, hpvs, heq⟩ := Option.map_eq_some_iff.mp halloc
  simp only [Prod.mk.injEq] at heq
  obtain ⟨-, rfl, -⟩ := heq
  obtain ⟨j, hj⟩ := List.getElem?_of_mem hq
  rw [List.getElem?_take] at hj
  split at hj
  next hlt =>
    by_contra hunmapped
    have hfree := hg q (List.mem_of_getElem? hj) hunmapped
    exact hunmapped
      ((vgAllocPvs_safe hsafe hpvs).2 j (Nat.le_of_lt_succ hlt) q hj hfree)
  next => contradiction

theorem allocLes_mappedUpTo {remaining : Nat} {g : Vg}
    (hsafe : allocLesSafe remaining g = true) (hg : g.UnmappedFree) :
    ∀ le ∈ (allocLes remaining g).2,
      (allocLes remaining g).1.MappedUpTo le.pvIndex := by
  induction remaining generalizing g with
  | zero =>
      intro le hle
      exact absurd hle List.not_mem_nil
  | succ remaining ih =>
      have hchanges := allocLes_vgChanges hsafe
      simp only [allocLesSafe, Bool.and_eq_true] at hsafe
      intro le hle
      simp only [allocLes] at hle hchanges ⊢
      split at hle
      next => exact absurd hle List.not_mem_nil
      next g' index start halloc =>
        rw [halloc] at hsafe hchanges
        rcases List.mem_cons.mp hle with rfl | hlater
        · -- what is taken later leaves the bitmaps where they are
          exact VgChanges.mappedUpTo hchanges
            (vgAllocPe_mappedUpTo hsafe.1 halloc hg)
        · exact ih hsafe.2
            ((VgChange.allocPe 1 Nat.one_pos hsafe.1 halloc).unmappedFree hg)
            le hlater

theorem reachable_mappedUpTo {s : State} (hreach : system.Reachable s) :
    ∀ e ∈ s.owned, s.vg.MappedUpTo e.pv := by
  refine hreach.invariant (P := fun s => ∀ e ∈ s.owned, s.vg.MappedUpTo e.pv) ?_ ?_
  · rintro s rfl e he
    exact absurd he List.not_mem_nil
  · intro s call t hprev hs hstep e he
    obtain ⟨g, outcome, hrange, hperformed, rfl⟩ := step_performed hstep
    obtain ⟨les, hgained, -, hles⟩ :=
      hperformed.gained hrange (reachable_ok hprev)
    have hfree : s.vg.UnmappedFree :=
      reachable_of_vgChange (fun p hp => absurd hp List.not_mem_nil)
        (fun _ _ h => h.unmappedFree) hprev
    rw [State.after_vg]
    rcases List.mem_append.mp (hgained.subset he) with hold | hnew
    · exact VgChanges.mappedUpTo (hperformed.vgChanges hrange) (hs e hold)
    · obtain ⟨le, hle, rfl⟩ := List.mem_map.mp hnew
      rcases hles with rfl | ⟨n, hsafe, halloc⟩
      · exact absurd hle List.not_mem_nil
      · have hupTo := allocLes_mappedUpTo hsafe hfree
        rw [halloc] at hupTo
        exact hupTo le hle

end Lvm
end OsKernel

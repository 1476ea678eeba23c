import Mathlib.Logic.Relation
import OsKernel.Lib.KeyedLists
import OsKernel.Lvm.PvAlloc

/-!
# The allocator of a volume group

Every call of a run changes the group by adding physical volumes and by
successful `vg_alloc_pe` calls, nothing else (`Performed.vgChanges`).  So the
invariant of the group, `Vg.Consistent`, is proved for these two changes and
carried over whole runs: the extents handed out so far are disjoint, lie
inside their volumes, and are what the bitmaps record.

A volume that is too large has no bitmap.  A call that would use it crashes, so
that nothing is ever allocated from such a volume; but there is no bit for its
PEs (`reachable_allocationSound_iff`).
-/

namespace OsKernel
namespace Lvm

open Lib
open Lib.FirstFit

/-! ## What a call can do to the group -/

/-- A successful search over the volumes: the volume with the returned index
is replaced by what `pv_alloc` made of it. -/
theorem vgAllocPvs_some {count : Int} {pvs pvs' : List Pv} {index : Nat}
    {start : Int} (h : vgAllocPvs count pvs = some (pvs', index, start)) :
    ∃ p changed, pvs[index]? = some p ∧
      pvAlloc p count = some (changed, start) ∧
      pvs' = pvs.set index changed := by
  induction pvs generalizing pvs' index with
  | nil => simp [vgAllocPvs] at h
  | cons p rest ih =>
      simp only [vgAllocPvs] at h
      split at h
      next changed first hfound =>
        simp only [Option.some.injEq, Prod.mk.injEq] at h
        obtain ⟨rfl, rfl, rfl⟩ := h
        have halloc : pvAlloc p count = some (changed, first) := by
          split at hfound
          · exact hfound
          · contradiction
        exact ⟨p, changed, rfl, halloc, rfl⟩
      next =>
        obtain ⟨⟨pvs'', index', start'⟩, hrest, heq⟩ :=
          Option.map_eq_some_iff.mp h
        simp only [Prod.mk.injEq] at heq
        obtain ⟨rfl, rfl, rfl⟩ := heq
        obtain ⟨q, changed, hq, halloc, rfl⟩ := ih hrest
        exact ⟨q, changed, hq, halloc, rfl⟩

/-- A failed search: no volume with enough free PEs had a run. -/
theorem vgAllocPvs_none {count : Int} {pvs : List Pv}
    (h : vgAllocPvs count pvs = none) :
    ∀ p ∈ pvs, count ≤ p.freePe → pvAlloc p count = none := by
  induction pvs with
  | nil => simp
  | cons p rest ih =>
      simp only [vgAllocPvs] at h
      split at h
      next => contradiction
      next hnone =>
        intro q hq hfree
        rcases List.mem_cons.mp hq with rfl | hrest
        · rwa [if_pos hfree] at hnone
        · exact ih (Option.map_eq_none_iff.mp h) q hrest hfree

/-- A search that does not crash: the volume it takes has its bitmap, and so has
every volume before it with enough free PEs. -/
theorem vgAllocPvs_safe {count : Int} {pvs pvs' : List Pv} {index : Nat}
    {start : Int} (hsafe : vgAllocSafe count pvs = true)
    (h : vgAllocPvs count pvs = some (pvs', index, start)) :
    (∃ p, pvs[index]? = some p ∧ p.Mapped) ∧
      ∀ j ≤ index, ∀ q, pvs[j]? = some q → count ≤ q.freePe → q.Mapped := by
  induction pvs generalizing pvs' index with
  | nil => simp [vgAllocPvs] at h
  | cons p rest ih =>
      simp only [vgAllocPvs] at h
      simp only [vgAllocSafe] at hsafe
      split at h
      next changed first hfound =>
        simp only [Option.some.injEq, Prod.mk.injEq] at h
        obtain ⟨-, rfl, -⟩ := h
        split at hfound
        · next henough =>
            rw [if_pos henough, Bool.and_eq_true, decide_eq_true_eq] at hsafe
            refine ⟨⟨p, rfl, hsafe.1⟩, fun j hj q hq _ => ?_⟩
            obtain rfl : j = 0 := by omega
            obtain rfl : p = q := Option.some.inj hq
            exact hsafe.1
        · contradiction
      next hnone =>
        obtain ⟨⟨pvs'', index', start'⟩, hrest, heq⟩ :=
          Option.map_eq_some_iff.mp h
        simp only [Prod.mk.injEq] at heq
        obtain ⟨rfl, rfl, rfl⟩ := heq
        -- the first volume was not asked, or it was and has no run
        have hsplit : (count ≤ p.freePe → p.Mapped) ∧
            vgAllocSafe count rest = true := by
          split at hsafe
          · next henough =>
              rw [if_pos henough] at hnone
              simpa [hnone, henough] using hsafe
          · next hless => exact ⟨fun hle => absurd hle hless, hsafe⟩
        obtain ⟨hchosen, hbefore⟩ := ih hsplit.2 hrest
        refine ⟨hchosen, fun j hj q hq hle => ?_⟩
        cases j with
        | zero =>
            obtain rfl : p = q := Option.some.inj hq
            exact hsplit.1 hle
        | succ j => exact hbefore j (by omega) q hq hle

/-- The two ways a volume group changes. -/
inductive VgChange : Vg → Vg → Prop
  | addPv {g g' : Vg} (sizeSectors : Nat)
      (hadd : vgAddPv g (pvCreate sizeSectors) = some g') : VgChange g g'
  | allocPe {g g' : Vg} {index : Nat} {start : Int} (count : Nat)
      (hcount : 0 < count) (hsafe : vgAllocSafe count g.pvs = true)
      (halloc : vgAllocPe g count = some (g', index, start)) : VgChange g g'

/-- Any number of changes. -/
abbrev VgChanges : Vg → Vg → Prop := Relation.ReflTransGen VgChange

theorem allocLes_vgChanges {remaining : Nat} {g : Vg}
    (hsafe : allocLesSafe remaining g = true) :
    VgChanges g (allocLes remaining g).1 := by
  induction remaining generalizing g with
  | zero => exact Relation.ReflTransGen.refl
  | succ remaining ih =>
      simp only [allocLesSafe, Bool.and_eq_true] at hsafe
      simp only [allocLes]
      split
      next => exact Relation.ReflTransGen.refl
      next g' index start halloc =>
        rw [halloc] at hsafe
        exact Relation.ReflTransGen.head
          (VgChange.allocPe 1 Nat.one_pos hsafe.1 halloc) (ih hsafe.2)

/-- What a call does.  A failed `vg_add_pv` or `lv_create_snapshot` does nothing;
a failed `lv_create` or `lv_extend` is a case of its own. -/
inductive Performed (g : Vg) (lv : Nat → Option Lv) : Call → Vg → Outcome → Prop
  | nothing (call : Call) : Performed g lv call g .noVolume
  | addPv {g' : Vg} (sizeSectors : Nat)
      (hadd : vgAddPv g (pvCreate sizeSectors) = some g') :
      Performed g lv (.addPv sizeSectors) g' .noVolume
  | create (leCount : Int) (hsafe : allocLesSafe leCount.toNat g = true) :
      Performed g lv (.create leCount) (lvCreate g leCount).1
        (.created (lvCreate g leCount).2.1 (lvCreate g leCount).2.2.isNone)
  | extend {handle : Nat} {l l' : Lv} {g' : Vg} {ok : Bool} (additionalLe : Int)
      (hget : lv handle = some l)
      (hsafe : allocLesSafe additionalLe.toNat g = true)
      (hextend : lvExtend l g additionalLe = some (l', g', ok)) :
      Performed g lv (.extend handle additionalLe) g' (.extended handle l')
  | createSnapshot {handle index : Nat} {origin : Lv} {g' : Vg} {start : Int}
      (cowPeCount : Int) (hget : lv handle = some origin)
      (hsafe : vgAllocSafe cowPeCount g.pvs = true)
      (halloc : vgAllocPe g cowPeCount = some (g', index, start)) :
      Performed g lv (.createSnapshot handle cowPeCount) g'
        (.snapshot (snapshotOf handle origin start cowPeCount)
          ⟨index, start, cowPeCount⟩)

theorem perform_some {g g' : Vg} {lv : Nat → Option Lv} {call : Call}
    {outcome : Outcome} (h : perform g lv call = some (g', outcome)) :
    Performed g lv call g' outcome := by
  cases call with
  | addPv sizeSectors =>
      simp only [perform, Option.some.injEq, Prod.mk.injEq] at h
      obtain ⟨rfl, rfl⟩ := h
      cases hadd : vgAddPv g (pvCreate sizeSectors) with
      | none => exact .nothing _
      | some g' => exact .addPv sizeSectors hadd
  | create leCount =>
      simp only [perform] at h
      split at h
      next hsafe =>
        cases h
        exact .create leCount hsafe
      next => contradiction
  | extend handle additionalLe =>
      obtain ⟨l, hget, h⟩ := Option.bind_eq_some_iff.mp h
      split at h
      next hsafe =>
        obtain ⟨⟨l', g', ok⟩, hextend, heq⟩ := Option.map_eq_some_iff.mp h
        cases heq
        exact .extend additionalLe hget hsafe hextend
      next => contradiction
  | createSnapshot handle cowPeCount =>
      obtain ⟨origin, hget, h⟩ := Option.bind_eq_some_iff.mp h
      split at h
      next hsafe =>
        cases halloc : vgAllocPe g cowPeCount with
        | none =>
            rw [halloc] at h
            cases h
            exact .nothing _
        | some result =>
            obtain ⟨g'', index, start⟩ := result
            simp only [lvCreateSnapshot, halloc, Option.map_some] at h
            cases h
            exact .createSnapshot cowPeCount hget hsafe halloc
      next => contradiction

theorem step_performed {s t : State} {call : Call}
    (hstep : step s call = some t) :
    ∃ g outcome, call.InRange ∧ Performed s.vg s.lv call g outcome ∧
      t = s.after g outcome := by
  unfold step at hstep
  split at hstep
  next hrange =>
    obtain ⟨⟨g, outcome⟩, hperform, rfl⟩ := Option.map_eq_some_iff.mp hstep
    exact ⟨g, outcome, hrange, perform_some hperform, rfl⟩
  next => contradiction

@[simp] theorem lvCreate_vg (g : Vg) (leCount : Int) :
    (lvCreate g leCount).1 = (allocLes leCount.toNat g).1 := rfl

@[simp] theorem State.after_vg (s : State) (g : Vg) (outcome : Outcome) :
    (s.after g outcome).vg = g := by
  cases outcome <;> rfl

/-- What `lv_extend` does when it returns: the volume it was given, with a table
and an LE count. -/
theorem lvExtend_some {l l' : Lv} {g g' : Vg} {additionalLe : Int} {ok : Bool}
    (h : lvExtend l g additionalLe = some (l', g', ok)) :
    g' = (allocLes additionalLe.toNat g).1 ∧
      ∃ leMap, l' = { l with
        leMap := leMap
        leCount := if ok then wrap32 (l.leCount + additionalLe) else l.leCount } := by
  simp only [lvExtend] at h
  split at h
  next => contradiction
  next =>
    split at h
    next =>
      cases h
      exact ⟨rfl, _, rfl⟩
    next =>
      cases h
      exact ⟨rfl, _, rfl⟩

/-- Every call of a run changes the group only by added volumes and
successful `vg_alloc_pe` calls. -/
theorem Performed.vgChanges {g g' : Vg} {lv : Nat → Option Lv} {call : Call}
    {outcome : Outcome} (h : Performed g lv call g' outcome)
    (hrange : call.InRange) : VgChanges g g' := by
  cases h with
  | nothing => exact Relation.ReflTransGen.refl
  | addPv sizeSectors hadd =>
      exact Relation.ReflTransGen.single (VgChange.addPv sizeSectors hadd)
  | create leCount hsafe => exact allocLes_vgChanges hsafe
  | extend additionalLe _ hsafe hextend =>
      rw [(lvExtend_some hextend).1]
      exact allocLes_vgChanges hsafe
  | createSnapshot cowPeCount _ hsafe halloc =>
      obtain ⟨count, rfl⟩ := Int.eq_ofNat_of_zero_le
        (show (0 : Int) ≤ cowPeCount by have := hrange.1; omega)
      have hcount : 0 < count := by
        have := hrange.1
        omega
      exact Relation.ReflTransGen.single
        (VgChange.allocPe count hcount hsafe halloc)

theorem step_vgChanges {s t : State} {call : Call}
    (hstep : step s call = some t) : VgChanges s.vg t.vg := by
  obtain ⟨g, outcome, hrange, hperformed, rfl⟩ := step_performed hstep
  rw [State.after_vg]
  exact hperformed.vgChanges hrange

/-- What no change of the group can break holds in every state of a run. -/
theorem reachable_of_vgChange {P : Vg → Prop} (hinit : P vgCreate)
    (hchange : ∀ g g', VgChange g g' → P g → P g') {s : State}
    (hreach : system.Reachable s) : P s.vg := by
  refine hreach.invariant (P := fun s => P s.vg) ?_ ?_
  · rintro s rfl
    exact hinit
  · intro s call t _ hs hstep
    have hkept : ∀ g g', VgChanges g g' → P g → P g' := by
      intro g g' hchanges hg
      induction hchanges with
      | refl => exact hg
      | tail _ hlast ih => exact hchange _ _ hlast ih
    exact hkept _ _ (step_vgChanges hstep) hs

/-! ## The invariant of the group -/

/-- PE `pe` of the PV with index `pv` belongs to the extent. -/
def Extent.Covers (e : Extent) (pv pe : Nat) : Prop :=
  e.pv = pv ∧ e.start ≤ pe ∧ (pe : Int) < e.start + e.count

/-- No PE belongs to both extents. -/
def Extent.Disjoint (e f : Extent) : Prop :=
  ∀ pv pe, e.Covers pv pe → ¬ f.Covers pv pe

/-- The PE count of every volume of the group fits in an `int`. -/
def Vg.SizesFit (g : Vg) : Prop :=
  ∀ p ∈ g.pvs, p.size / peSizeSectors < 2 ^ 31

/-- The group's volumes are valid and its bitmaps record exactly the extents
handed out, which are disjoint. -/
structure Vg.Consistent (g : Vg) : Prop where
  valid : ∀ p ∈ g.pvs, p.Valid
  disjoint : g.history.Pairwise Extent.Disjoint
  inside : ∀ e ∈ g.history, 0 ≤ e.start ∧ 0 < e.count ∧
    ∃ p, g.pvs[e.pv]? = some p ∧ e.start + e.count ≤ p.peCount
  recorded : ∀ index p, g.pvs[index]? = some p → ∀ pe,
    (Bitmap.test p.peBitmap pe = true ↔
      ∃ e ∈ g.history, e.Covers index pe)

theorem vgCreate_consistent : vgCreate.Consistent where
  valid := by simp [vgCreate]
  disjoint := by simp [vgCreate]
  inside := by simp [vgCreate]
  recorded := by simp [vgCreate]

theorem vgAddPv_some {g g' : Vg} {p : Pv} (hadd : vgAddPv g p = some g') :
    g'.pvs = g.pvs ++ [p] ∧ g'.history = g.history ∧
      g'.totalPe = wrap32 (g.totalPe + p.peCount) ∧
      g'.freePe = wrap32 (g.freePe + p.freePe) := by
  unfold vgAddPv at hadd
  split at hadd
  · contradiction
  · cases hadd
    exact ⟨rfl, rfl, rfl, rfl⟩

theorem vgAllocPe_some {g g' : Vg} {count : Int} {index : Nat} {start : Int}
    (halloc : vgAllocPe g count = some (g', index, start)) :
    ∃ p changed, g.pvs[index]? = some p ∧
      pvAlloc p count = some (changed, start) ∧
      g' = { g with
        pvs := g.pvs.set index changed
        freePe := wrap32 (g.freePe - count)
        history := g.history ++ [⟨index, start, count⟩] } := by
  obtain ⟨⟨pvs, index', start'⟩, hpvs, heq⟩ := Option.map_eq_some_iff.mp halloc
  simp only [Prod.mk.injEq] at heq
  obtain ⟨rfl, rfl, rfl⟩ := heq
  obtain ⟨p, changed, hp, hpv, rfl⟩ := vgAllocPvs_some hpvs
  exact ⟨p, changed, hp, hpv, rfl⟩

/-- Adding a fresh volume keeps the invariant: its bitmap is clear and no
extent names it yet. -/
theorem vgAddPv_consistent {g g' : Vg} {sizeSectors : Nat}
    (hfits : sizeSectors / peSizeSectors < 2 ^ 31)
    (hadd : vgAddPv g (pvCreate sizeSectors) = some g')
    (hg : g.Consistent) : g'.Consistent := by
  obtain ⟨hpvs, hhistory, -, -⟩ := vgAddPv_some hadd
  constructor
  · intro p hp
    rw [hpvs, List.mem_append, List.mem_singleton] at hp
    rcases hp with hold | rfl
    · exact hg.valid p hold
    · exact pvCreate_valid hfits
  · rw [hhistory]
    exact hg.disjoint
  · intro e he
    rw [hhistory] at he
    obtain ⟨hstart, hcount, p, hp, hend⟩ := hg.inside e he
    refine ⟨hstart, hcount, p, ?_, hend⟩
    rw [hpvs, List.getElem?_append_left (List.getElem?_eq_some_iff.mp hp).1]
    exact hp
  · intro index p hp pe
    rw [hhistory]
    rw [hpvs] at hp
    by_cases hindex : index < g.pvs.length
    · rw [List.getElem?_append_left hindex] at hp
      exact hg.recorded index p hp pe
    · -- The new volume: its bits are clear and no extent names its index.
      rw [List.getElem?_append_right (by omega)] at hp
      obtain rfl := List.mem_singleton.mp (List.mem_of_getElem? hp)
      rw [test_pvCreate]
      refine iff_of_false (by decide) ?_
      rintro ⟨e, he, rfl, -⟩
      obtain ⟨-, -, q, hq, -⟩ := hg.inside e he
      exact hindex (List.getElem?_eq_some_iff.mp hq).1

/-- The volume an extent is taken from has its bitmap. -/
theorem vgAllocPe_mapped {g g' : Vg} {count : Int} {index : Nat} {start : Int}
    (hsafe : vgAllocSafe count g.pvs = true)
    (halloc : vgAllocPe g count = some (g', index, start)) {p : Pv}
    (hp : g.pvs[index]? = some p) : p.Mapped := by
  obtain ⟨⟨pvs, index', start'⟩, hpvs, heq⟩ := Option.map_eq_some_iff.mp halloc
  simp only [Prod.mk.injEq] at heq
  obtain ⟨-, rfl, -⟩ := heq
  obtain ⟨⟨q, hq, hmapped⟩, -⟩ := vgAllocPvs_safe hsafe hpvs
  rw [hp] at hq
  exact Option.some.inj hq ▸ hmapped

/-- PEs that were free are in no extent handed out earlier, as the PEs of those
are marked. -/
theorem Extent.disjoint_of_free {history : List Extent} {index : Nat}
    {bitmap : List (BitVec 64)} {start count : Int}
    (hmarked : ∀ e ∈ history, ∀ pe, e.Covers index pe →
      Bitmap.test bitmap pe = true)
    (hfree : ∀ pe : Nat, start ≤ pe → (pe : Int) < start + count →
      Bitmap.test bitmap pe = false) :
    ∀ e ∈ history, e.Disjoint ⟨index, start, count⟩ := by
  intro e he pv pe hcovers ⟨hpv, hle, hlt⟩
  obtain rfl : index = pv := hpv
  have hset := hmarked e he pe hcovers
  rw [hfree pe hle hlt] at hset
  contradiction

/-- A successful `vg_alloc_pe` on a consistent group: the extent is new, and
it is all that changes. -/
theorem vgAllocPe_consistent {g g' : Vg} {count index : Nat} {start : Int}
    (hcount : 0 < count) (hsafe : vgAllocSafe count g.pvs = true)
    (halloc : vgAllocPe g count = some (g', index, start))
    (hg : g.Consistent) : g'.Consistent := by
  obtain ⟨p, changed, hp, hpv, rfl⟩ := vgAllocPe_some halloc
  have hvalid := hg.valid p (List.mem_of_getElem? hp)
  have hmapped := vgAllocPe_mapped hsafe halloc hp
  obtain ⟨first, rfl, -, hdone, hchanged⟩ :=
    pvAlloc_some hcount hvalid hmapped hpv
  have hindex : index < g.pvs.length := (List.getElem?_eq_some_iff.mp hp).1
  -- the bits of the run were clear, and a PE of an earlier extent has its bit set
  have hfresh : ∀ e ∈ g.history, e.Disjoint ⟨index, first, count⟩ :=
    Extent.disjoint_of_free
      (fun e he pe hcovers => (hg.recorded _ p hp pe).mpr ⟨e, he, hcovers⟩)
      (fun pe hle hlt => hdone.was_free pe (by omega) (by omega))
  constructor
  · intro q hq
    rcases List.mem_or_eq_of_mem_set hq with hold | rfl
    · exact hg.valid q hold
    · exact hchanged
  · refine List.pairwise_append.mpr ⟨hg.disjoint, List.pairwise_singleton _ _, ?_⟩
    intro e he f hf
    rw [List.mem_singleton.mp hf]
    exact hfresh e he
  · intro e he
    rcases List.mem_append.mp he with hold | hnew
    · obtain ⟨hstart, hpos, q, hq, hend⟩ := hg.inside e hold
      obtain ⟨q', hq', hsame⟩ := exists_getElem?_set
        (R := fun p q => q.peCount = p.peCount) (fun _ => rfl) hp
        hdone.peCount_eq hq
      exact ⟨hstart, hpos, q', hq', hsame ▸ hend⟩
    · rw [List.mem_singleton.mp hnew]
      have hend := hdone.inside
      refine ⟨by simp, Int.natCast_pos.mpr hcount, changed, by simp [hindex], ?_⟩
      rw [hdone.peCount_eq]
      exact hend
  · intro i q hq pe
    simp only [List.mem_append, List.mem_singleton, or_and_right, exists_or,
      exists_eq_left]
    -- only the volume of the new extent has a new bitmap
    by_cases hsame : index = i
    · subst hsame
      rw [List.getElem?_set_self hindex] at hq
      obtain rfl := Option.some.inj hq
      rw [hdone.test_eq, Bool.or_eq_true, decide_eq_true_eq,
        hg.recorded _ p hp pe]
      refine or_congr_right ?_
      simp only [Extent.Covers, true_and]
      omega
    · rw [List.getElem?_set_ne hsame] at hq
      rw [hg.recorded i q hq pe]
      simp [Extent.Covers, hsame]

/-! ## Whole runs -/

/-- A change only ever appends to the sizes of the group's volumes. -/
theorem VgChange.sizes {g g' : Vg} (h : VgChange g g') :
    ∃ added, g'.pvs.map Pv.size = g.pvs.map Pv.size ++ added := by
  cases h with
  | addPv sizeSectors hadd =>
      obtain ⟨hpvs, -, -, -⟩ := vgAddPv_some hadd
      exact ⟨[(pvCreate sizeSectors).size], by simp [hpvs]⟩
  | @allocPe index start count hcount hsafe halloc =>
      obtain ⟨p, changed, hp, hpv, rfl⟩ := vgAllocPe_some halloc
      have hsize : changed.size = p.size := by
        obtain ⟨_, _, _, rfl⟩ := pvAlloc_eq_some hcount hpv
        rfl
      refine ⟨[], ?_⟩
      rw [List.append_nil]
      exact map_set_of_eq hp hsize

theorem VgChange.sizesFit {g g' : Vg} (h : VgChange g g')
    (hfits : g'.SizesFit) : g.SizesFit := by
  obtain ⟨added, hsizes⟩ := h.sizes
  have hiff : ∀ k : Vg, k.SizesFit ↔
      ∀ size ∈ k.pvs.map Pv.size, size / peSizeSectors < 2 ^ 31 := by
    intro k
    simp [Vg.SizesFit]
  rw [hiff] at hfits ⊢
  intro size hsize
  apply hfits size
  rw [hsizes]
  exact List.mem_append_left _ hsize

theorem VgChange.consistent {g g' : Vg} (h : VgChange g g')
    (hfits : g'.SizesFit) (hg : g.Consistent) : g'.Consistent := by
  cases h with
  | addPv sizeSectors hadd =>
      obtain ⟨hpvs, -, -, -⟩ := vgAddPv_some hadd
      have hnew : pvCreate sizeSectors ∈ g'.pvs := by simp [hpvs]
      exact vgAddPv_consistent (hfits _ hnew) hadd hg
  | allocPe count hcount hsafe halloc =>
      exact vgAllocPe_consistent hcount hsafe halloc hg

/-- The group of every reachable state is consistent, as long as every
volume's PE count fits in an `int`. -/
theorem reachable_consistent {s : State} (hreach : system.Reachable s)
    (hfits : s.vg.SizesFit) : s.vg.Consistent := by
  revert hfits
  refine reachable_of_vgChange (P := fun g => g.SizesFit → g.Consistent)
    (fun _ => vgCreate_consistent) ?_ hreach
  intro g g' hchange ih hfits
  exact hchange.consistent hfits (ih (hchange.sizesFit hfits))

/-! ## The counters of the group -/

/-- The PEs of all volumes of the group together fit in an `int`. -/
def Vg.TotalFits (g : Vg) : Prop :=
  (g.pvs.map fun p => p.size / peSizeSectors).sum < 2 ^ 31

/-- The group's counters are the sums of its volumes' counters. -/
structure Vg.Counted (g : Vg) : Prop where
  totalPe_eq : g.totalPe = (g.pvs.map Pv.peCount).sum
  freePe_eq : g.freePe = (g.pvs.map Pv.freePe).sum

theorem Vg.TotalFits.sizesFit {g : Vg} (h : g.TotalFits) : g.SizesFit := by
  intro p hp
  refine lt_of_le_of_lt ?_ h
  exact List.single_le_sum (fun _ _ => Nat.zero_le _) _
    (List.mem_map_of_mem hp)

theorem VgChange.totalFits {g g' : Vg} (h : VgChange g g')
    (hfits : g'.TotalFits) : g.TotalFits := by
  obtain ⟨added, hsizes⟩ := h.sizes
  have hsum : ∀ k : Vg, (k.pvs.map fun p => p.size / peSizeSectors).sum =
      ((k.pvs.map Pv.size).map (· / peSizeSectors)).sum := by
    intro k
    rw [List.map_map]
    rfl
  unfold Vg.TotalFits at hfits ⊢
  rw [hsum, hsizes, List.map_append, List.sum_append] at hfits
  rw [hsum]
  omega

/-- The counters of valid volumes lie between zero and the PE total. -/
theorem Vg.Consistent.counter_bounds {g : Vg} (hg : g.Consistent) :
    0 ≤ (g.pvs.map Pv.freePe).sum ∧
    (g.pvs.map Pv.freePe).sum ≤ (g.pvs.map Pv.peCount).sum ∧
    (g.pvs.map Pv.peCount).sum =
      ((g.pvs.map fun p => p.size / peSizeSectors).sum : Nat) := by
  have hvalid := hg.valid
  refine ⟨?_, ?_, ?_⟩
  · apply List.sum_nonneg
    intro x hx
    obtain ⟨p, hp, rfl⟩ := List.mem_map.mp hx
    rw [(hvalid p hp).freePe_eq]
    exact Int.natCast_nonneg _
  · apply List.sum_le_sum
    intro p hp
    have hcard := p.card_clearPes_le
    have hnonneg := (hvalid p hp).peCount_nonneg
    rw [(hvalid p hp).freePe_eq]
    omega
  · rw [Nat.cast_list_sum, List.map_map]
    congr 1
    apply List.map_congr_left
    intro p hp
    exact (hvalid p hp).peCount_eq

/-- An allocation leaves the PE counts alone and takes its size from the free
counts. -/
theorem vgAllocPe_sums {g g' : Vg} {count index : Nat} {start : Int}
    (hcount : 0 < count) (hsafe : vgAllocSafe count g.pvs = true)
    (halloc : vgAllocPe g count = some (g', index, start))
    (hg : g.Consistent) :
    (g'.pvs.map Pv.peCount).sum = (g.pvs.map Pv.peCount).sum ∧
      (g'.pvs.map Pv.freePe).sum = (g.pvs.map Pv.freePe).sum - count := by
  obtain ⟨p, changed, hp, hpv, rfl⟩ := vgAllocPe_some halloc
  obtain ⟨first, rfl, -, hdone, -⟩ :=
    pvAlloc_some hcount (hg.valid p (List.mem_of_getElem? hp))
      (vgAllocPe_mapped hsafe halloc hp) hpv
  obtain ⟨hindex, hget⟩ := List.getElem?_eq_some_iff.mp hp
  constructor
  · rw [List.map_set, List.sum_set']
    simp [hget, hdone.peCount_eq]
  · rw [List.map_set, List.sum_set']
    simp [hindex, hget, hdone.freePe_eq]
    omega

theorem VgChange.counted {g g' : Vg} (h : VgChange g g')
    (hfits : g'.TotalFits) (hg : g.Consistent) (hcounted : g.Counted) :
    g'.Counted := by
  have hg' : g'.Consistent := h.consistent hfits.sizesFit hg
  obtain ⟨hnonneg, hle, htotal⟩ := hg'.counter_bounds
  have hlimit : ((g'.pvs.map fun p => p.size / peSizeSectors).sum : Int) <
      2 ^ 31 := by
    exact_mod_cast hfits
  -- Both sums are within range after the change, so neither counter wraps.
  have hfree : FitsInt (g'.pvs.map Pv.freePe).sum := ⟨by omega, by omega⟩
  have hpes : FitsInt (g'.pvs.map Pv.peCount).sum := ⟨by omega, by omega⟩
  cases h with
  | addPv sizeSectors hadd =>
      obtain ⟨hpvs, -, htotal', hfree'⟩ := vgAddPv_some hadd
      rw [hpvs, List.map_append, List.sum_append, List.map_singleton,
        List.sum_singleton] at hfree hpes
      constructor
      · rw [htotal', hcounted.totalPe_eq, hpvs, List.map_append,
          List.sum_append, List.map_singleton, List.sum_singleton]
        exact wrap32_of_fitsInt hpes
      · rw [hfree', hcounted.freePe_eq, hpvs, List.map_append,
          List.sum_append, List.map_singleton, List.sum_singleton]
        exact wrap32_of_fitsInt hfree
  | @allocPe index start count hcount hsafe halloc =>
      obtain ⟨hsumPes, hsumFree⟩ := vgAllocPe_sums hcount hsafe halloc hg
      obtain ⟨p, changed, hp, hpv, rfl⟩ := vgAllocPe_some halloc
      constructor
      · rw [hsumPes]
        exact hcounted.totalPe_eq
      · rw [hsumFree] at hfree ⊢
        rw [← hcounted.freePe_eq] at hfree ⊢
        exact wrap32_of_fitsInt hfree

theorem reachable_counted {s : State} (hreach : system.Reachable s)
    (hfits : s.vg.TotalFits) : s.vg.Counted := by
  have hboth := reachable_of_vgChange
    (P := fun g => g.TotalFits → g.Consistent ∧ g.Counted)
    (fun _ => ⟨vgCreate_consistent, rfl, rfl⟩) ?_ hreach
  · exact (hboth hfits).2
  · intro g g' hchange ih hfits
    obtain ⟨hconsistent, hcounted⟩ := ih (hchange.totalFits hfits)
    exact ⟨hchange.consistent hfits.sizesFit hconsistent,
      hchange.counted hfits hconsistent hcounted⟩

/-! ## Volumes without a bitmap -/

/-- The PE count and the length of the bitmap are what `pv_create` made them. -/
structure Pv.AsCreated (p : Pv) : Prop where
  peCount_eq : p.peCount = wrap32 (p.size / peSizeSectors : Nat)
  words : p.peBitmap.length = bitmapWords p.peCount

theorem Pv.AsCreated.fits {p : Pv} (h : p.AsCreated) : FitsInt p.peCount := by
  rw [h.peCount_eq]
  exact fitsInt_wrap32 _

/-- Such a volume has its bitmap up to `2 ^ 31 - 64` PEs. -/
theorem Pv.AsCreated.mapped_iff {p : Pv} (h : p.AsCreated) :
    p.Mapped ↔ p.peCount ≤ 2 ^ 31 - 64 :=
  Pv.mapped_iff h.fits h.words

theorem pvCreate_asCreated (sizeSectors : Nat) :
    (pvCreate sizeSectors).AsCreated :=
  ⟨by simp only [pvCreate], length_peBitmap_pvCreate sizeSectors⟩

theorem pvAlloc_asCreated {p changed : Pv} {count start : Int}
    (halloc : pvAlloc p count = some (changed, start)) (hp : p.AsCreated) :
    changed.AsCreated := by
  simp only [pvAlloc] at halloc
  split at halloc
  · contradiction
  · cases halloc
    exact ⟨hp.peCount_eq, (Bitmap.length_setRange _ _ _).trans hp.words⟩

/-- Every volume of the group is as it was created, up to its bits and its
counter. -/
def Vg.AsCreated (g : Vg) : Prop := ∀ p ∈ g.pvs, p.AsCreated

theorem vgAddPv_asCreated {g g' : Vg} {sizeSectors : Nat}
    (hadd : vgAddPv g (pvCreate sizeSectors) = some g') (hg : g.AsCreated) :
    g'.AsCreated := by
  intro p hp
  rw [(vgAddPv_some hadd).1, List.mem_append, List.mem_singleton] at hp
  rcases hp with hold | rfl
  · exact hg p hold
  · exact pvCreate_asCreated sizeSectors

theorem vgAllocPe_asCreated {g g' : Vg} {count : Int} {index : Nat} {start : Int}
    (halloc : vgAllocPe g count = some (g', index, start)) (hg : g.AsCreated) :
    g'.AsCreated := by
  obtain ⟨p, changed, hp, hpv, rfl⟩ := vgAllocPe_some halloc
  intro q hq
  rcases List.mem_or_eq_of_mem_set hq with hold | rfl
  · exact hg q hold
  · exact pvAlloc_asCreated hpv (hg p (List.mem_of_getElem? hp))

theorem reachable_asCreated {s : State} (hreach : system.Reachable s) :
    s.vg.AsCreated := by
  refine reachable_of_vgChange (P := Vg.AsCreated)
    (fun p hp => absurd hp List.not_mem_nil) ?_ hreach
  intro g g' hchange hg
  cases hchange with
  | addPv sizeSectors hadd => exact vgAddPv_asCreated hadd hg
  | allocPe count hcount hsafe halloc => exact vgAllocPe_asCreated halloc hg

/-- The allocation state of a group is sound: the extents handed out are
disjoint and inside their volumes, there is a bit for every PE, which is set
exactly if the PE is in such an extent, and the counters of the volumes and of
the group count the clear bits. -/
structure Vg.AllocationSound (g : Vg) : Prop where
  disjoint : g.history.Pairwise Extent.Disjoint
  inside : ∀ e ∈ g.history, 0 ≤ e.start ∧ 0 < e.count ∧
    ∃ p, g.pvs[e.pv]? = some p ∧ e.start + e.count ≤ p.peCount
  mapped : ∀ p ∈ g.pvs, p.Mapped
  recorded : ∀ index p, g.pvs[index]? = some p → ∀ pe,
    (Bitmap.test p.peBitmap pe = true ↔
      ∃ e ∈ g.history, e.Covers index pe)
  pv_freePe : ∀ p ∈ g.pvs, p.freePe = p.clearPes.card
  vg_freePe : g.freePe = (g.pvs.map Pv.freePe).sum
  vg_totalPe : g.totalPe = (g.pvs.map Pv.peCount).sum

/-- In every state of every run whose PE total fits in an `int`, allocation is
sound exactly if no volume has more than `2 ^ 31 - 64` PEs. -/
theorem reachable_allocationSound_iff {s : State}
    (hreach : system.Reachable s) (hfits : s.vg.TotalFits) :
    s.vg.AllocationSound ↔ ∀ p ∈ s.vg.pvs, p.peCount ≤ 2 ^ 31 - 64 := by
  have hcreated := reachable_asCreated hreach
  constructor
  · intro hsound p hp
    exact (hcreated p hp).mapped_iff.mp (hsound.mapped p hp)
  · intro hsmall
    have hconsistent := reachable_consistent hreach hfits.sizesFit
    have hcounted := reachable_counted hreach hfits
    exact
      { disjoint := hconsistent.disjoint
        inside := hconsistent.inside
        mapped := fun p hp => (hcreated p hp).mapped_iff.mpr (hsmall p hp)
        recorded := hconsistent.recorded
        pv_freePe := fun p hp => (hconsistent.valid p hp).freePe_eq
        vg_freePe := hcounted.freePe_eq
        vg_totalPe := hcounted.totalPe_eq }

/-- Two volumes added at different times, a snapshot with a two-PE COW area,
an extension over both volumes and a creation that runs out of space. -/
def sampleCalls : List Call :=
  [.addPv 10240, .create 2, .createSnapshot 0 2, .addPv 4096, .extend 0 2,
    .create 3]

theorem reachable_allocationSound_sample :
    ∃ s, system.run ⟨vgCreate, []⟩ sampleCalls = some s ∧
      s.vg.history = [⟨0, 0, 1⟩, ⟨0, 1, 1⟩, ⟨0, 2, 2⟩, ⟨0, 4, 1⟩, ⟨1, 0, 1⟩,
        ⟨1, 1, 1⟩] ∧
      s.vg.AllocationSound := by
  have hrun : (system.run ⟨vgCreate, []⟩ sampleCalls).isSome = true := by
    decide
  have hfits : (Option.get _ hrun).vg.TotalFits := by
    unfold Vg.TotalFits
    decide +revert
  have hsmall : ∀ p ∈ (Option.get _ hrun).vg.pvs, p.peCount ≤ 2 ^ 31 - 64 := by
    clear hfits
    decide +revert
  have hreach : system.Reachable (Option.get _ hrun) := .get_run rfl hrun
  exact ⟨Option.get _ hrun, (Option.some_get hrun).symm, rfl,
    (reachable_allocationSound_iff hreach hfits).mpr hsmall⟩

/-- One volume of `2 ^ 31 - 63` PEs: all of them are free by its counter, but it
has no bitmap, and the first allocation crashes. -/
theorem not_allocationSound_without_bitmap :
    ∃ s, system.run ⟨vgCreate, []⟩ [.addPv ((2 ^ 31 - 63) * 2048)] = some s ∧
      s.vg.TotalFits ∧
      s.vg.pvs.map (fun p => (p.peCount, p.peBitmap, p.freePe)) =
        [(2 ^ 31 - 63, [], 2 ^ 31 - 63)] ∧
      step s (.create 1) = none ∧ ¬ s.vg.AllocationSound := by
  have hrun : (system.run ⟨vgCreate, []⟩
      [.addPv ((2 ^ 31 - 63) * 2048)]).isSome = true := by
    decide
  have hpvs : (Option.get _ hrun).vg.pvs =
      [⟨(2 ^ 31 - 63) * 2048, 2 ^ 31 - 63, [], 2 ^ 31 - 63⟩] := by
    decide +revert
  refine ⟨_, (Option.some_get hrun).symm, ?_, ?_, ?_, ?_⟩
  · rw [Vg.TotalFits, hpvs]
    decide
  · rw [hpvs]
    rfl
  · clear hpvs
    decide +revert
  · intro hsound
    have hmapped := hsound.mapped _ (by rw [hpvs]; exact List.mem_singleton_self _)
    exact absurd hmapped (by decide)

end Lvm
end OsKernel

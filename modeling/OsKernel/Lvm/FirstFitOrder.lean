import OsKernel.Lvm.Shortage

/-!
# The order in which extents are given out

`Vg.freeExtents` lists the free extents of a group, volume by volume and from
low to high.  One call of `vg_alloc_pe` for one PE takes its head off, so
`lv_create` and `lv_extend` give out the first extents of the list, as many as
were asked for or as there are.

Whether that number is what `g->free_pe` says is a question about the counter of
the group, an `int`: it is, unless the PE counts of the volumes have made it
wrap.  And a volume can be extended by as many LEs as there are only if its new LE
count is an `int`.
-/

namespace OsKernel
namespace Lvm

open Lib
open Lib.FirstFit

/-! ## Free extents in order -/

/-- The free PEs of a volume, from low to high. -/
def Pv.freeList (p : Pv) : List Nat :=
  (List.range p.peCount.toNat).filter fun pe => Bitmap.test p.peBitmap pe = false

/-- The free extents of volumes with indices from `index` on. -/
def freeExtentsFrom : Nat → List Pv → List LeMap
  | _, [] => []
  | index, p :: rest =>
      p.freeList.map (fun pe => ⟨index, (pe : Int)⟩) ++
        freeExtentsFrom (index + 1) rest

/-- The free extents of a group in the order of volume index and PE index. -/
def Vg.freeExtents (g : Vg) : List LeMap := freeExtentsFrom 0 g.pvs

theorem Pv.mem_freeList {p : Pv} {pe : Nat} :
    pe ∈ p.freeList ↔
      pe < p.peCount.toNat ∧ Bitmap.test p.peBitmap pe = false := by
  simp [freeList]

theorem Pv.freeList_pairwise (p : Pv) : p.freeList.Pairwise (· < ·) :=
  List.pairwise_lt_range.filter _

theorem Pv.length_freeList (p : Pv) : p.freeList.length = p.clearPes.card := rfl

/-- The counter of a volume is the number of its free PEs, and at most zero if
it has none. -/
theorem Pv.Holds.card_clearPes {p : Pv} {allocated : Finset Nat}
    (h : p.Holds allocated) : p.clearPes.card = p.freePe.toNat := by
  have hclear : p.clearPes = Finset.range p.peCount.toNat \ allocated := by
    ext pe
    rw [Pv.clearPes, Finset.mem_filter, Finset.mem_sdiff, ← h.test_iff,
      Bool.not_eq_true]
  have hsubset : allocated ⊆ Finset.range p.peCount.toNat := by
    intro pe hpe
    have hlt := h.inside pe hpe
    rw [Finset.mem_range]
    omega
  have hcard := card_le_of_inside h.inside
  have hcount := h.freePe_eq
  rw [hclear, Finset.card_sdiff_of_subset hsubset, Finset.card_range]
  omega

theorem Pv.Holds.freeList_eq_nil {p : Pv} {allocated : Finset Nat}
    (h : p.Holds allocated) (hfull : ¬ p.freePe ≥ 1) : p.freeList = [] := by
  apply List.eq_nil_of_length_eq_zero
  rw [Pv.length_freeList, h.card_clearPes]
  omega

/-- `pv_alloc` of one PE takes the head of the free PEs. -/
theorem Pv.Holds.freeList_pvAlloc {p changed : Pv} {allocated : Finset Nat}
    {start : Int} (h : p.Holds allocated)
    (halloc : pvAlloc p 1 = some (changed, start)) :
    ∃ first : Nat, start = first ∧ p.freeList = first :: changed.freeList := by
  obtain ⟨first, rfl, -, hfree, htest, -⟩ := h.pvAlloc_one halloc
  obtain ⟨hlowest, hcount⟩ : FirstRun (FreePe p.peBitmap) p.peCount.toNat 1
      first ∧ changed.peCount = p.peCount := by
    obtain ⟨lowest, hstart, hlowest, rfl⟩ := pvAlloc_eq_some Nat.one_pos halloc
    obtain rfl : first = lowest := by exact_mod_cast hstart
    exact ⟨hlowest, rfl⟩
  have hinside := hlowest.inside
  have hmem : ∀ pe, pe ∈ changed.freeList ↔ pe ∈ p.freeList ∧ pe ≠ first := by
    intro pe
    rw [Pv.mem_freeList, Pv.mem_freeList, hcount, and_assoc,
      ← Bool.not_eq_true, ← Bool.not_eq_true, htest, not_or]
  refine ⟨first, rfl, ?_⟩
  apply p.freeList_pairwise.eq_of_mem_iff
  · refine List.pairwise_cons.mpr ⟨?_, changed.freeList_pairwise⟩
    intro pe hpe
    obtain ⟨hold, hne⟩ := (hmem pe).mp hpe
    -- no free PE is below the one that was found
    have hnot : ¬ pe < first := by
      intro hlt
      apply hlowest.lowest pe hlt
      intro slot hle hslot
      obtain rfl : slot = pe := by omega
      exact (Pv.mem_freeList.mp hold).2
    omega
  · intro pe
    rw [List.mem_cons, hmem]
    by_cases hfirst : pe = first
    · subst hfirst
      simp [Pv.mem_freeList, hfree]
      omega
    · simp [hfirst]

/-! ## Allocating from the head of the list -/

theorem freeExtentsFrom_of_none {pvs : List Pv}
    (hpvs : ∀ p ∈ pvs, ∃ allocated, p.Holds allocated)
    (hnone : vgAllocPvs 1 pvs = none) (index : Nat) :
    freeExtentsFrom index pvs = [] := by
  induction pvs generalizing index with
  | nil => rfl
  | cons p rest ih =>
      obtain ⟨allocated, hholds⟩ := hpvs p List.mem_cons_self
      have hempty : p.freeList = [] := by
        apply hholds.freeList_eq_nil
        intro hfree
        obtain ⟨_, _, hsome⟩ := hholds.pvAlloc_one_isSome hfree
        rw [vgAllocPvs_none hnone p List.mem_cons_self hfree] at hsome
        contradiction
      have hrest : vgAllocPvs 1 rest = none := by
        rw [vgAllocPvs] at hnone
        split at hnone
        · contradiction
        · exact Option.map_eq_none_iff.mp hnone
      rw [freeExtentsFrom, hempty,
        ih (fun q hq => hpvs q (List.mem_cons_of_mem p hq)) hrest]
      rfl

theorem freeExtentsFrom_of_some {pvs pvs' : List Pv} {chosen : Nat}
    {start : Int} (hpvs : ∀ p ∈ pvs, ∃ allocated, p.Holds allocated)
    (hsome : vgAllocPvs 1 pvs = some (pvs', chosen, start)) (index : Nat) :
    freeExtentsFrom index pvs =
      ⟨index + chosen, start⟩ :: freeExtentsFrom index pvs' := by
  induction pvs generalizing pvs' chosen index with
  | nil => simp [vgAllocPvs] at hsome
  | cons p rest ih =>
      obtain ⟨allocated, hholds⟩ := hpvs p List.mem_cons_self
      rw [vgAllocPvs] at hsome
      by_cases henough : p.freePe ≥ 1
      · -- the volume has a free PE, and gives its first one
        obtain ⟨changed, start', halloc⟩ := hholds.pvAlloc_one_isSome henough
        rw [if_pos henough, halloc] at hsome
        simp only [Option.some.injEq, Prod.mk.injEq] at hsome
        obtain ⟨rfl, rfl, rfl⟩ := hsome
        obtain ⟨first, rfl, hlist⟩ := hholds.freeList_pvAlloc halloc
        rw [freeExtentsFrom, freeExtentsFrom, hlist]
        rfl
      · rw [if_neg henough] at hsome
        obtain ⟨⟨pvs'', chosen', start'⟩, hrest, heq⟩ :=
          Option.map_eq_some_iff.mp hsome
        simp only [Prod.mk.injEq] at heq
        obtain ⟨rfl, rfl, rfl⟩ := heq
        have htail := ih (fun q hq => hpvs q (List.mem_cons_of_mem p hq))
          hrest (index + 1)
        rw [freeExtentsFrom, freeExtentsFrom,
          hholds.freeList_eq_nil henough, htail]
        simp only [List.map_nil, List.nil_append]
        rw [Nat.add_right_comm, Nat.add_assoc]

theorem Vg.Held.freeExtents_of_some {g g' : Vg} {index : Nat} {start : Int}
    (hg : g.Held) (halloc : vgAllocPe g 1 = some (g', index, start)) :
    g.freeExtents = ⟨index, start⟩ :: g'.freeExtents := by
  obtain ⟨⟨pvs, index', start'⟩, hpvs, heq⟩ := Option.map_eq_some_iff.mp halloc
  simp only [Prod.mk.injEq] at heq
  obtain ⟨rfl, rfl, rfl⟩ := heq
  rw [Vg.freeExtents, freeExtentsFrom_of_some hg hpvs, Nat.zero_add]
  rfl

/-- The allocation loop gives out the first free extents, in order. -/
theorem Vg.Held.allocLes_eq_take {g : Vg} (hg : g.Held) (remaining : Nat) :
    (allocLes remaining g).2 = g.freeExtents.take remaining := by
  induction remaining generalizing g with
  | zero => simp [allocLes]
  | succ remaining ih =>
      simp only [allocLes]
      split
      next hnone =>
        have hempty : g.freeExtents = [] :=
          freeExtentsFrom_of_none hg (Option.map_eq_none_iff.mp hnone) 0
        rw [hempty, List.take_nil]
      next g' index start halloc =>
        rw [hg.freeExtents_of_some halloc, List.take_succ_cons,
          ← ih (hg.takes_of_some halloc).held]

/-- Two allocation loops, one after the other. -/
theorem allocLes_add (first second : Nat) (g : Vg) :
    allocLes (first + second) g =
      ((allocLes second (allocLes first g).1).1,
        (allocLes first g).2 ++ (allocLes second (allocLes first g).1).2) := by
  induction first generalizing g with
  | zero => simp [allocLes]
  | succ first ih =>
      rw [Nat.succ_add_eq_add_succ, Nat.add_succ, allocLes, allocLes]
      cases halloc : vgAllocPe g 1 with
      | none =>
          -- the second loop fails at once, too
          cases second with
          | zero => rfl
          | succ second => simp only [allocLes, halloc, List.append_nil]
      | some result =>
          obtain ⟨g', index, start⟩ := result
          simp only [ih, List.cons_append]

/-! ## Creating and extending volumes -/

/-- The extents that the `vg_alloc_pe` calls between two states of a group
returned. -/
def Vg.granted (g g' : Vg) : List Extent := g'.history.drop g.history.length

/-- The group gives its extents out in order, and as many as its counter says, to
new volumes and to those there are. -/
structure FirstFitComplete (s : State) : Prop where
  create_count : ∀ n, LeNumber n →
    ((s.vg.granted (lvCreate s.vg n).1).length : Int) = min n s.vg.freePe
  create_order : ∀ n, LeNumber n →
    s.vg.granted (lvCreate s.vg n).1 =
        (s.vg.freeExtents.take n.toNat).map LeMap.extent ∧
      s.vg.freeExtents.take n.toNat <+: (lvCreate s.vg n).2.1.leMap
  extend_iff : ∀ h ∈ s.lvs, ∀ k, LeNumber k →
    ((∃ l g, lvExtend h.lv s.vg k = some (l, g, true)) ↔ k ≤ s.vg.freePe)
  extend_order : ∀ h ∈ s.lvs, ∀ k, LeNumber k → ∀ l g ok,
    lvExtend h.lv s.vg k = some (l, g, ok) →
    s.vg.granted g = (s.vg.freeExtents.take k.toNat).map LeMap.extent ∧
      l.leMap.drop h.lv.leCount.toNat = s.vg.freeExtents.take k.toNat
  create_extend : ∀ n m, 0 ≤ n → 0 ≤ m → n + m ≤ s.vg.freePe →
    lvExtend (lvCreate s.vg n).2.1 (lvCreate s.vg n).1 m =
      some ((lvCreate s.vg (n + m)).2.1, (lvCreate s.vg (n + m)).1, true)

theorem granted_allocLes (g : Vg) (n : Nat) :
    g.granted (allocLes n g).1 = (allocLes n g).2.map LeMap.extent := by
  rw [Vg.granted, allocLes_history, List.drop_left]

theorem Vg.Held.length_granted {g : Vg} (hg : g.Held) (n : Nat) :
    (g.granted (allocLes n g).1).length = min n g.freeExtents.length := by
  rw [granted_allocLes, hg.allocLes_eq_take, List.length_map, List.length_take]

theorem Vg.Held.length_allocLes {g : Vg} (hg : g.Held) (n : Nat) :
    (allocLes n g).2.length = min n g.freeExtents.length := by
  rw [hg.allocLes_eq_take, List.length_take]

/-- `lv_extend` succeeds exactly if there are enough free extents and the new LE
count is an `int`. -/
theorem Vg.Held.lvExtend_isOk_iff {g : Vg} (hg : g.Held) {l : Lv}
    (hcount : LeNumber l.leCount) {k : Int} (hk : LeNumber k) :
    (∃ l' g', lvExtend l g k = some (l', g', true)) ↔
      k ≤ g.freeExtents.length ∧ l.leCount + k < 2 ^ 31 := by
  have hlength := hg.length_allocLes k.toNat
  have hlow := hk.1
  rcases Int.lt_or_le (l.leCount + k) (2 ^ 31) with hfits | hover
  · rw [lvExtend_of_fits hcount.1 hlow hfits]
    simp only [Option.some.injEq, Prod.mk.injEq, exists_and_left, exists_eq_left',
      decide_eq_true_eq, hfits, and_true]
    omega
  · rw [lvExtend_of_overflow hcount hk hover]
    refine iff_of_false ?_ (by omega)
    rintro ⟨l', g', h⟩
    split at h <;> cases h

/-- What is appended to the table is what the group gave out. -/
theorem Vg.Held.lvExtend_order {g g' : Vg} (hg : g.Held) {l l' : Lv}
    (hcount : LeNumber l.leCount) {k : Int} (hk : LeNumber k) {ok : Bool}
    (h : lvExtend l g k = some (l', g', ok)) :
    g.granted g' = (g.freeExtents.take k.toNat).map LeMap.extent ∧
      l'.leMap.drop l.leCount.toNat = g.freeExtents.take k.toNat := by
  rw [(lvExtend_some h).1, granted_allocLes, ← hg.allocLes_eq_take]
  refine ⟨rfl, ?_⟩
  rcases lvExtend_cases hcount hk h with ⟨hmap, -⟩ | ⟨hmap, -, -, hnone, -⟩
  · rw [hmap, List.drop_left' (length_reallocKept _ _)]
  · rw [hmap, hnone, List.drop_nil]

/-- A volume that is made and extended at once is the volume made with all LEs,
as long as there are enough free extents for them. -/
theorem Vg.Held.lvExtend_lvCreate {g : Vg} (hg : g.Held) {n m : Int}
    (hn : 0 ≤ n) (hm : 0 ≤ m) (hfits : n + m < 2 ^ 31)
    (henough : n + m ≤ g.freeExtents.length) :
    lvExtend (lvCreate g n).2.1 (lvCreate g n).1 m =
      some ((lvCreate g (n + m)).2.1, (lvCreate g (n + m)).1, true) := by
  have hsum : (n + m).toNat = n.toNat + m.toNat := Int.toNat_add hn hm
  have hboth := allocLes_add n.toNat m.toNat g
  have hfirst : (allocLes n.toNat g).2.length = n.toNat := by
    rw [hg.length_allocLes]
    omega
  have hall : (allocLes (n.toNat + m.toNat) g).2.length =
      n.toNat + m.toNat := by
    rw [hg.length_allocLes]
    omega
  -- the second call goes on where the first one has stopped
  have hsecond : (allocLes m.toNat (allocLes n.toNat g).1).2.length =
      m.toNat := by
    rw [hboth, List.length_append, hfirst] at hall
    omega
  have hmade : (lvCreate g n).2.1.leMap = (allocLes n.toNat g).2 := by
    simp [lvCreate, hfirst]
  have hkept : reallocKept (lvCreate g n).2.1.leMap n =
      (allocLes n.toNat g).2 := by
    rw [reallocKept_of_covered (by rw [hmade]; omega), hmade,
      List.take_of_length_le hfirst.le]
  have hcount : (lvCreate g n).2.1.leCount = n := rfl
  rw [lvExtend_of_fits (hcount ▸ hn) hm (hcount ▸ hfits), hcount, hkept,
    lvCreate_vg, lvCreate_vg, hsum, hboth, hsecond, if_neg (lt_irrefl _),
    decide_eq_true le_rfl]
  rw [hboth] at hall
  simp only [lvCreate, hsum, hboth, hall, Nat.sub_self, List.replicate_zero,
    List.append_nil]

/-- Nothing can be wrong but the counter of the group and the LE counts. -/
theorem Vg.Held.firstFitComplete {s : State} (hg : s.vg.Held)
    (hok : ∀ h ∈ s.lvs, h.Ok)
    (hcounter : s.vg.freePe = min (s.vg.freeExtents.length : Int) (2 ^ 31 - 1))
    (hroom : ∀ h ∈ s.lvs, h.lv.leCount + s.vg.freePe < 2 ^ 31) :
    FirstFitComplete s where
  create_count := by
    rintro n ⟨hlow, hhigh⟩
    rw [lvCreate_vg, hg.length_granted, hcounter]
    omega
  create_order := by
    intro n _
    rw [lvCreate_vg, granted_allocLes, ← hg.allocLes_eq_take]
    exact ⟨rfl, List.prefix_append _ _⟩
  extend_iff := by
    intro h hmem k hk
    have hlimit := hroom h hmem
    rw [hg.lvExtend_isOk_iff (hok h hmem).count hk]
    have hhigh := hk.2
    omega
  extend_order := fun h hmem k hk l g ok hextend =>
    hg.lvExtend_order (hok h hmem).count hk hextend
  create_extend := by
    intro n m hn hm hle
    rw [hcounter] at hle
    exact hg.lvExtend_lvCreate hn hm (by omega) (by omega)

/-! ## The counter of the group -/

theorem VgChange.fitsInt {g g' : Vg} (h : VgChange g g') :
    FitsInt g'.freePe := by
  cases h with
  | addPv sizeSectors hadd =>
      obtain ⟨-, -, -, hfree⟩ := vgAddPv_some hadd
      rw [hfree]
      exact fitsInt_wrap32 _
  | allocPe count hcount hsafe halloc =>
      obtain ⟨_, _, _, _, rfl⟩ := vgAllocPe_some halloc
      exact fitsInt_wrap32 _

theorem reachable_fitsInt {s : State} (hreach : system.Reachable s) :
    FitsInt s.vg.freePe :=
  reachable_of_vgChange (P := fun g => FitsInt g.freePe)
    ⟨by decide, by decide⟩ (fun _ _ h _ => h.fitsInt) hreach

theorem length_freeExtentsFrom (index : Nat) (pvs : List Pv) :
    (freeExtentsFrom index pvs).length =
      (pvs.map fun p => p.clearPes.card).sum := by
  induction pvs generalizing index with
  | nil => rfl
  | cons p rest ih =>
      rw [freeExtentsFrom, List.length_append, List.length_map,
        Pv.length_freeList, ih, List.map_cons, List.sum_cons]

/-- As long as the PEs of all volumes fit in an `int`, the counter is right. -/
theorem reachable_freePe_eq {s : State} (hreach : system.Reachable s)
    (hfits : s.vg.TotalFits) :
    s.vg.freePe = min (s.vg.freeExtents.length : Int) (2 ^ 31 - 1) := by
  have hconsistent := reachable_consistent hreach hfits.sizesFit
  have hcounted := (reachable_counted hreach hfits).freePe_eq
  obtain ⟨-, hle, htotal⟩ := hconsistent.counter_bounds
  have hcount : (s.vg.pvs.map Pv.freePe).sum = s.vg.freeExtents.length := by
    rw [Vg.freeExtents, length_freeExtentsFrom, Nat.cast_list_sum, List.map_map]
    congr 1
    exact List.map_congr_left fun p hp => (hconsistent.valid p hp).freePe_eq
  have hlimit : ((s.vg.pvs.map fun p => p.size / peSizeSectors).sum : Int) <
      2 ^ 31 := by
    exact_mod_cast hfits
  omega

/-- So the extents are given out first-fit and completely if the PEs of all
volumes fit in an `int` and the LE counts leave room. -/
theorem firstFitComplete_of_totalFits {s : State}
    (hreach : system.Reachable s) (hfits : s.vg.TotalFits)
    (hsmall : ∀ p ∈ s.vg.pvs, p.peCount ≤ 2 ^ 31 - 64)
    (hroom : ∀ h ∈ s.lvs, h.lv.leCount + s.vg.freePe < 2 ^ 31) :
    FirstFitComplete s :=
  (reachable_held hreach hsmall).firstFitComplete (reachable_ok hreach)
    (reachable_freePe_eq hreach hfits) hroom

/-- In a reachable state whose physical volumes have at most `2 ^ 31 - 64` PEs,
the extents are given out first-fit and as the counter of the group says, exactly
if the counter is the number of the free extents, or the largest `int` if there
are more, and no volume would get an LE count beyond `int` by taking as many. -/
theorem firstFitComplete_iff {s : State} (hreach : system.Reachable s)
    (hsmall : ∀ p ∈ s.vg.pvs, p.peCount ≤ 2 ^ 31 - 64) :
    FirstFitComplete s ↔
      s.vg.freePe = min (s.vg.freeExtents.length : Int) (2 ^ 31 - 1) ∧
        ∀ h ∈ s.lvs, h.lv.leCount + s.vg.freePe < 2 ^ 31 := by
  have hheld := reachable_held hreach hsmall
  have hok := reachable_ok hreach
  constructor
  · intro hcomplete
    have hcount := hcomplete.create_count (2 ^ 31 - 1) ⟨by decide, by decide⟩
    rw [lvCreate_vg, hheld.length_granted] at hcount
    obtain ⟨-, hmax⟩ := reachable_fitsInt hreach
    refine ⟨by omega, fun h hmem => ?_⟩
    -- the volume can be extended by as many LEs as the counter says
    have hfree : LeNumber s.vg.freePe := ⟨by omega, hmax⟩
    have hextend := (hcomplete.extend_iff h hmem _ hfree).mpr le_rfl
    exact ((hheld.lvExtend_isOk_iff (hok h hmem).count hfree).mp hextend).2
  · intro ⟨hcounter, hroom⟩
    exact hheld.firstFitComplete hok hcounter hroom

/-- Two LEs taken from a volume of three PEs. -/
theorem firstFitComplete_three :
    ∃ s, system.run ⟨vgCreate, []⟩ [.addPv (3 * peSizeSectors), .create 2] =
        some s ∧
      s.lvs.map (fun h => h.lv.leMap) = [[⟨0, 0⟩, ⟨0, 1⟩]] ∧
      FirstFitComplete s := by
  have hrun : (system.run ⟨vgCreate, []⟩
      [.addPv (3 * peSizeSectors), .create 2]).isSome = true := by
    decide
  have hsmall : ∀ p ∈ (Option.get _ hrun).vg.pvs, p.peCount ≤ 2 ^ 31 - 64 := by
    decide +revert
  have hright : (Option.get _ hrun).vg.freePe =
      min ((Option.get _ hrun).vg.freeExtents.length : Int) (2 ^ 31 - 1) ∧
      ∀ h ∈ (Option.get _ hrun).lvs,
        h.lv.leCount + (Option.get _ hrun).vg.freePe < 2 ^ 31 := by
    clear hsmall
    decide +revert
  exact ⟨_, (Option.some_get hrun).symm, by decide +revert,
    (firstFitComplete_iff (.get_run rfl hrun) hsmall).mpr hright⟩

/-- A volume of `2 ^ 30` PEs, one pebibyte. -/
def pebibyte : Nat := 2 ^ 30 * peSizeSectors

/-- A group of one PE. -/
def onePe : Vg :=
  { pvs := [pvCreate peSizeSectors], totalPe := 1, freePe := 1, history := [] }

/-- `lv_create` keeps the LE count it was asked for, although there is no PE. -/
theorem run_create_addPv {leCount : Int} (hpos : 0 < leCount)
    (hlt : leCount < 2 ^ 31) :
    system.run ⟨vgCreate, []⟩ [.create leCount, .addPv peSizeSectors] =
      some ⟨onePe, [⟨(lvCreate vgCreate leCount).2.1, false⟩]⟩ := by
  have hrange : (Call.create leCount).InRange := ⟨hpos.le, hlt⟩
  have hles : allocLes leCount.toNat vgCreate = (vgCreate, []) := by
    cases leCount.toNat <;> rfl
  have hsafe : allocLesSafe leCount.toNat vgCreate = true := by
    cases leCount.toNat <;> rfl
  have hcreate : step ⟨vgCreate, []⟩ (.create leCount) =
      some ⟨vgCreate, [⟨(lvCreate vgCreate leCount).2.1, false⟩]⟩ := by
    simp [step, hrange, perform, hsafe, lvCreate, hles, State.after, hpos]
  have haddPv : ∀ lvs, step ⟨vgCreate, lvs⟩ (.addPv peSizeSectors) =
      some ⟨onePe, lvs⟩ := fun lvs => rfl
  simp only [ActionSystem.run, system, hcreate, haddPv, Option.bind_some]

/-- A volume with the largest LE count there is cannot be extended. -/
theorem extend_largest_crashes {l : Lv} (hcount : l.leCount = 2 ^ 31 - 1) :
    step ⟨onePe, [⟨l, false⟩]⟩ (.extend 0 1) = none ∧
      ¬ FirstFitComplete ⟨onePe, [⟨l, false⟩]⟩ := by
  have hextend : lvExtend l onePe 1 = none := by
    rw [lvExtend_of_overflow (by rw [hcount]; exact ⟨by decide, by decide⟩)
      ⟨by decide, by decide⟩ (by omega), if_neg (by decide)]
  constructor
  · simp [step, perform, State.lv, hextend]
  · intro hcomplete
    obtain ⟨l', g', hsome⟩ := (hcomplete.extend_iff _
      (List.mem_singleton_self _) 1 ⟨by decide, by decide⟩).mpr le_rfl
    rw [hextend] at hsome
    contradiction

/-- Two of them: the counter of the group is `-2 ^ 31`, but not even a volume
without LEs gets that many.  And a volume with the largest LE count there is
cannot be extended, although there is a free PE. -/
theorem firstFitComplete_fails :
    (∃ s, system.run ⟨vgCreate, []⟩ [.addPv pebibyte, .addPv pebibyte] = some s ∧
      s.vg.freePe = -2 ^ 31 ∧ ¬ FirstFitComplete s) ∧
    ∃ s, system.run ⟨vgCreate, []⟩
        [.create (2 ^ 31 - 1), .addPv peSizeSectors] = some s ∧
      s.vg.freePe = 1 ∧ step s (.extend 0 1) = none ∧ ¬ FirstFitComplete s := by
  constructor
  · have hcount : (pvCreate pebibyte).freePe = 2 ^ 30 := by
      simp only [pvCreate]
      decide
    have hrun : system.run ⟨vgCreate, []⟩ [.addPv pebibyte, .addPv pebibyte] =
        some ⟨{ pvs := [pvCreate pebibyte, pvCreate pebibyte]
                totalPe := wrap32 (wrap32 (0 + (pvCreate pebibyte).peCount) +
                  (pvCreate pebibyte).peCount)
                freePe := wrap32 (wrap32 (0 + (pvCreate pebibyte).freePe) +
                  (pvCreate pebibyte).freePe)
                history := [] }, []⟩ := by
      have hrange : (Call.addPv pebibyte).InRange := by decide
      simp [ActionSystem.run, system, step, hrange, perform, State.after, vgAddPv,
        vgCreate, maxPvs]
    have hcounter : wrap32 (wrap32 (0 + (pvCreate pebibyte).freePe) +
        (pvCreate pebibyte).freePe) = -2 ^ 31 := by
      rw [hcount]
      decide
    refine ⟨_, hrun, hcounter, ?_⟩
    intro hcomplete
    have hnone := hcomplete.create_count 0 ⟨by decide, by decide⟩
    simp only [hcounter] at hnone
    omega
  · obtain ⟨hcrash, hnot⟩ := extend_largest_crashes
      (show (lvCreate vgCreate (2 ^ 31 - 1)).2.1.leCount = 2 ^ 31 - 1 from rfl)
    exact ⟨_, run_create_addPv (by decide) (by decide), rfl, hcrash, hnot⟩

end Lvm
end OsKernel

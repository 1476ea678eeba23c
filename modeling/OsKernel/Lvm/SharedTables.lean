import OsKernel.Lib.BlockHeap
import OsKernel.Lvm.Volumes

/-!
# Logical volumes that share a table

`le_map` is a pointer.  `lv_create_snapshot` copies the pointer of the origin,
and `lv_extend` gives its volume's table to `realloc` and stores what it returns.
If the table is moved, the old one is freed and the other volumes with the table
are not told.  If there is no memory, the old table stays allocated but its
pointer is lost: the volume has `NULL`.

`PtrState` has the pointers and the tables on the heap.  As long as no volume is
extended whose table another one has, too, no volume has a pointer to freed
memory, whatever `realloc` does.  If `realloc` also returns a table each time,
the state read through the pointers is one of the volume manager in which every
volume has a table of its own, and the calls are the calls there.  Every snapshot
then has the table of its origin, so that neither of the two can be extended
safely (`shared_tables`).
-/

namespace OsKernel
namespace Lvm

open Lib

/-- `struct lv` with the pointer to its table.  `complete` is the ghost flag of
`Handle`. -/
structure PtrLv where
  leCount : Int
  table : Option Nat
  origin : Option Nat
  cowBitmap : List (BitVec 64)
  cowPeStart : Int
  cowPeCount : Int
  complete : Bool

/-- The volume with the given table. -/
def PtrLv.withTable (l : PtrLv) (leMap : List LeMap) : Lv :=
  { leCount := l.leCount
    leMap := leMap
    origin := l.origin
    cowBitmap := l.cowBitmap
    cowPeStart := l.cowPeStart
    cowPeCount := l.cowPeCount }

/-- A volume with the given pointer to its table. -/
def Lv.at (l : Lv) (table : Option Nat) (complete : Bool) : PtrLv :=
  { leCount := l.leCount
    table := table
    origin := l.origin
    cowBitmap := l.cowBitmap
    cowPeStart := l.cowPeStart
    cowPeCount := l.cowPeCount
    complete := complete }

/-- The group, the volumes and the tables. -/
structure PtrState where
  vg : Vg
  lvs : List PtrLv
  heap : BlockHeap (List LeMap)

/-- A call, with what `realloc` does if the call is an `lv_extend`. -/
structure PtrCall where
  call : Call
  realloc : Realloc

/-- What `realloc` can do for a number of entries.  A negative one is a size
near `2 ^ 64`; for size 0 the block may be freed. -/
def Possible (entries : Int) : Realloc → Prop
  | .inPlace => 0 ≤ entries
  | .moved => 0 ≤ entries
  | .freed => entries = 0
  | .failed => True

instance (entries : Int) : DecidablePred (Possible entries)
  | .inPlace => inferInstanceAs (Decidable (0 ≤ entries))
  | .moved => inferInstanceAs (Decidable (0 ≤ entries))
  | .freed => inferInstanceAs (Decidable (entries = 0))
  | .failed => inferInstanceAs (Decidable True)

namespace PtrState

/-- The table of a volume, read through its pointer. -/
def tableOf (p : PtrState) (l : PtrLv) : List LeMap :=
  (l.table.bind p.heap.block).getD []

/-- A volume as its caller sees it. -/
def readLv (p : PtrState) (l : PtrLv) : Handle :=
  ⟨l.withTable (p.tableOf l), l.complete⟩

/-- The volume manager that is seen through the pointers. -/
def read (p : PtrState) : State :=
  { vg := p.vg
    lvs := p.lvs.map p.readLv }

/-- The pointer to the table is not one to freed memory. -/
def LiveTable (p : PtrState) (l : PtrLv) : Prop :=
  ∀ a ∈ l.table, (p.heap.block a).isSome = true

instance (p : PtrState) (l : PtrLv) : Decidable (p.LiveTable l) :=
  inferInstanceAs (Decidable (∀ a ∈ l.table, (p.heap.block a).isSome = true))

/-- An `lv_extend` gives `realloc` a table that was not freed, and no entry is
stored through the pointer if it is `NULL`. -/
def Runs (p : PtrState) : PtrCall → Prop
  | ⟨.extend handle additionalLe, realloc⟩ =>
      ∀ l ∈ p.lvs[handle]?, p.LiveTable l ∧
        Possible (wrap32 (l.leCount + additionalLe)) realloc ∧
        (realloc = .failed → (allocLes additionalLe.toNat p.vg).2 = [])
  | _ => True

instance (p : PtrState) : DecidablePred p.Runs
  | ⟨.extend handle additionalLe, realloc⟩ =>
      inferInstanceAs (Decidable (∀ l ∈ p.lvs[handle]?, p.LiveTable l ∧
        Possible (wrap32 (l.leCount + additionalLe)) realloc ∧
        (realloc = .failed → (allocLes additionalLe.toNat p.vg).2 = [])))
  | ⟨.addPv _, _⟩ => inferInstanceAs (Decidable True)
  | ⟨.create _, _⟩ => inferInstanceAs (Decidable True)
  | ⟨.createSnapshot _ _, _⟩ => inferInstanceAs (Decidable True)

/-- The volume `l` in place of `old`, with what `realloc` made of the table. -/
def replace (p : PtrState) (g : Vg) (handle : Nat) (old : PtrLv) (l : Lv)
    (realloc : Realloc) : PtrState :=
  let block := p.heap.realloc old.table l.leMap realloc
  let entries := if block.2.isSome then l.leMap.length else 0
  { vg := g
    lvs := p.lvs.set handle
      (l.at block.2 (old.complete && decide (l.leCount ≤ entries)))
    heap := block.1 }

/-- The state after a call that left the group `g`. -/
def after (p : PtrState) (g : Vg) (realloc : Realloc) : Outcome → PtrState
  | .noVolume => { p with vg := g }
  | .created l complete =>
      { vg := g
        lvs := p.lvs ++ [l.at (some p.heap.next) complete]
        heap := p.heap.alloc l.leMap }
  | .extended handle l =>
      match p.lvs[handle]? with
      | none => { p with vg := g }
      | some old => p.replace g handle old l realloc
  | .snapshot snap _ =>
      let table := (snap.origin.bind fun handle => p.lvs[handle]?).bind PtrLv.table
      { p with vg := g, lvs := p.lvs ++ [snap.at table false] }

end PtrState

/-- Perform one call.  `lv_create_snapshot` copies the pointer and does not look
at the table. -/
def ptrStep (p : PtrState) (a : PtrCall) : Option PtrState :=
  if a.call.InRange ∧ p.Runs a then
    (perform p.vg p.read.lv a.call).map fun (g, outcome) =>
      p.after g a.realloc outcome
  else none

/-- Runs start from an empty group and an empty heap. -/
def ptrSystem : ActionSystem PtrState PtrCall where
  init p := p = { vg := vgCreate, lvs := [], heap := .empty }
  step := ptrStep

namespace PtrState

/-- No volume has a pointer to freed memory. -/
def Live (p : PtrState) : Prop := ∀ l ∈ p.lvs, p.LiveTable l

/-- No other volume has the table of this one. -/
def Unshared (p : PtrState) (handle : Nat) : Prop :=
  ∀ l, p.lvs[handle]? = some l → ∀ j l', p.lvs[j]? = some l' → j ≠ handle →
    ∀ a ∈ l'.table, l.table ≠ some a

/-- Only volumes that do not share their table are extended. -/
def Alone (p : PtrState) (a : PtrCall) : Prop :=
  ∀ handle additionalLe, a.call = .extend handle additionalLe →
    p.Unshared handle

/-- `realloc` returns a table. -/
def Granted (p : PtrState) (a : PtrCall) : Prop :=
  ∀ handle additionalLe, a.call = .extend handle additionalLe →
    a.realloc.Returns ∧
      ∀ l ∈ p.lvs[handle]?, 0 ≤ wrap32 (l.leCount + additionalLe)

/-- The tables are allocated. -/
structure Ok (p : PtrState) : Prop where
  live : p.Live
  below : ∀ l ∈ p.lvs, ∀ a, l.table = some a → a < p.heap.next

/-! ## One call -/

variable {p p' : PtrState}

/-- A volume is seen as before if its table is. -/
theorem readLv_congr {l : PtrLv}
    (hblock : ∀ a, l.table = some a → p'.heap.block a = p.heap.block a) :
    p'.readLv l = p.readLv l := by
  have htable : p'.tableOf l = p.tableOf l := by
    unfold tableOf
    cases htable : l.table with
    | none => rfl
    | some a =>
        rw [Option.bind_some, Option.bind_some, hblock a htable]
  unfold readLv
  rw [htable]

theorem readLv_at {l : Lv} {a : Nat} {complete : Bool}
    (hblock : p.heap.block a = some l.leMap) :
    p.readLv (l.at (some a) complete) = ⟨l, complete⟩ := by
  have htable : p.tableOf (l.at (some a) complete) = l.leMap := by
    show (p.heap.block a).getD [] = l.leMap
    rw [hblock]
    rfl
  unfold readLv
  rw [htable]
  rfl

theorem getElem?_read (p : PtrState) (i : Nat) :
    p.read.lvs[i]? = (p.lvs[i]?).map p.readLv :=
  List.getElem?_map

theorem getElem?_of_read_lv {handle : Nat} {l : Lv}
    (hget : p.read.lv handle = some l) :
    ∃ old, p.lvs[handle]? = some old ∧ old.withTable (p.tableOf old) = l := by
  rw [State.lv, getElem?_read, Option.map_map] at hget
  exact Option.map_eq_some_iff.mp hget

/-- A volume in a new table. -/
theorem Ok.create (h : p.Ok) (g : Vg) (realloc : Realloc) (l : Lv)
    (complete : Bool) :
    (p.after g realloc (.created l complete)).Ok ∧
      (p.after g realloc (.created l complete)).read =
        p.read.after g (.created l complete) := by
  have hold : ∀ m ∈ p.lvs, ∀ a, m.table = some a →
      (p.heap.alloc l.leMap).block a = p.heap.block a :=
    fun m hm a ha => BlockHeap.block_alloc_of_lt (h.below m hm a ha)
  have hnew : (p.heap.alloc l.leMap).block p.heap.next = some l.leMap :=
    BlockHeap.block_alloc_self
  refine ⟨⟨fun m hm a ha => ?_, fun m hm a ha => ?_⟩, ?_⟩
  · rcases List.mem_append.mp hm with hm | hm
    · exact (congrArg Option.isSome (hold m hm a ha)).trans (h.live m hm a ha)
    · rw [List.mem_singleton.mp hm] at ha
      cases ha
      exact congrArg Option.isSome hnew
  · show a < p.heap.next + 1
    rcases List.mem_append.mp hm with hm | hm
    · exact Nat.lt_succ_of_lt (h.below m hm a ha)
    · rw [List.mem_singleton.mp hm] at ha
      cases ha
      exact Nat.lt_succ_self _
  · refine congrArg (State.mk g) ?_
    show (p.lvs ++ [_]).map _ = p.lvs.map p.readLv ++ [_]
    rw [List.map_append, List.map_singleton]
    refine congrArg₂ (· ++ ·)
      (List.map_congr_left fun m hm => readLv_congr (hold m hm)) ?_
    exact congrArg (fun h => [h]) (readLv_at hnew)

/-- A snapshot with the table of its origin. -/
theorem Ok.snapshot (h : p.Ok) {handle : Nat} {old : PtrLv}
    (hold : p.lvs[handle]? = some old) (g : Vg) (realloc : Realloc)
    (start cowPeCount : Int) (area : Extent) :
    let snap := snapshotOf handle (old.withTable (p.tableOf old)) start cowPeCount
    (p.after g realloc (.snapshot snap area)).Ok ∧
      (p.after g realloc (.snapshot snap area)).read =
        p.read.after g (.snapshot snap area) := by
  intro snap
  have hmem := List.mem_of_getElem? hold
  have hafter : p.after g realloc (.snapshot snap area) =
      { p with vg := g, lvs := p.lvs ++ [snap.at old.table false] } := by
    show PtrState.mk g (p.lvs ++
      [snap.at ((p.lvs[handle]?).bind PtrLv.table) false]) p.heap = _
    rw [hold]
    rfl
  rw [hafter]
  refine ⟨⟨fun m hm => ?_, fun m hm => ?_⟩, ?_⟩
  · rcases List.mem_append.mp hm with hm | hm
    · exact h.live m hm
    · rw [List.mem_singleton.mp hm]
      exact h.live old hmem
  · rcases List.mem_append.mp hm with hm | hm
    · exact h.below m hm
    · rw [List.mem_singleton.mp hm]
      exact h.below old hmem
  · refine congrArg (State.mk g) ?_
    show (p.lvs ++ [_]).map p.readLv = p.lvs.map p.readLv ++ [_]
    rw [List.map_append, List.map_singleton]
    rfl

section Replace

variable {g : Vg} {handle : Nat} {old : PtrLv} {l : Lv} {realloc : Realloc}

theorem after_extended (hold : p.lvs[handle]? = some old) :
    p.after g realloc (.extended handle l) = p.replace g handle old l realloc := by
  simp only [after, hold]

variable (g l realloc) in
theorem getElem?_replace_self (hold : p.lvs[handle]? = some old) :
    ∃ complete, (p.replace g handle old l realloc).lvs[handle]? =
      some (l.at (p.heap.realloc old.table l.leMap realloc).2 complete) :=
  ⟨_, List.getElem?_set_self (List.getElem?_eq_some_iff.mp hold).1⟩

theorem getElem?_replace_ne {j : Nat} (hne : j ≠ handle) :
    (p.replace g handle old l realloc).lvs[j]? = p.lvs[j]? :=
  List.getElem?_set_ne hne.symm

/-- The tables of the other volumes are as before. -/
theorem Ok.block_replace (h : p.Ok) (hold : p.lvs[handle]? = some old)
    (halone : p.Unshared handle) {j : Nat} {m : PtrLv} (hne : j ≠ handle)
    (hm : p.lvs[j]? = some m) (a : Nat) (ha : m.table = some a) :
    (p.replace g handle old l realloc).heap.block a = p.heap.block a :=
  BlockHeap.block_realloc_of_ne (h.below m (List.mem_of_getElem? hm) a ha)
    (halone old hold j m hm hne a ha) realloc

theorem Ok.replace (h : p.Ok) (hold : p.lvs[handle]? = some old)
    (halone : p.Unshared handle) :
    (p.replace g handle old l realloc).Ok := by
  obtain ⟨complete, hself⟩ := getElem?_replace_self g l realloc hold
  constructor
  · intro m hm a ha
    obtain ⟨j, hj⟩ := List.getElem?_of_mem hm
    by_cases hne : j = handle
    · subst hne
      obtain rfl := Option.some.inj (hself.symm.trans hj)
      exact Option.isSome_iff_exists.mpr ⟨_, BlockHeap.block_realloc_self ha⟩
    · rw [getElem?_replace_ne hne] at hj
      rw [h.block_replace hold halone hne hj a ha]
      exact h.live m (List.mem_of_getElem? hj) a ha
  · intro m hm a ha
    obtain ⟨j, hj⟩ := List.getElem?_of_mem hm
    by_cases hne : j = handle
    · subst hne
      obtain rfl := Option.some.inj (hself.symm.trans hj)
      exact BlockHeap.realloc_lt_next (h.below old (List.mem_of_getElem? hold)) ha
    · rw [getElem?_replace_ne hne] at hj
      exact Nat.lt_of_lt_of_le (h.below m (List.mem_of_getElem? hj) a ha)
        (BlockHeap.next_le_realloc _ _ _ _)

/-- The extension of a volume with a table of its own is seen as such. -/
theorem Ok.read_replace (h : p.Ok) (hold : p.lvs[handle]? = some old)
    (halone : p.Unshared handle) (hreturns : realloc.Returns) :
    (p.replace g handle old l realloc).read =
      p.read.after g (.extended handle l) := by
  obtain ⟨a, ha⟩ := Option.isSome_iff_exists.mp (BlockHeap.isSome_realloc
    (h := p.heap) (a := old.table) (x := l.leMap) hreturns)
  have hself : (p.replace g handle old l realloc).lvs[handle]? =
      some (l.at (some a)
        (old.complete && decide (l.leCount ≤ l.leMap.length))) := by
    refine (List.getElem?_set_self (List.getElem?_eq_some_iff.mp hold).1).trans ?_
    rw [ha]
    rfl
  have hseen : p.read.lvs[handle]? = some (p.readLv old) := by
    rw [getElem?_read, hold, Option.map_some]
  rw [State.after_extended hseen]
  have hbound := (List.getElem?_eq_some_iff.mp hseen).1
  refine congrArg (State.mk _) (List.ext_getElem? fun j => ?_)
  refine (getElem?_read _ j).trans ?_
  -- the extended volume has the new table; the others do not point to it
  by_cases hne : j = handle
  · subst hne
    rw [hself, List.getElem?_set_self hbound]
    exact congrArg some (readLv_at (BlockHeap.block_realloc_self ha))
  · rw [getElem?_replace_ne hne, List.getElem?_set_ne (Ne.symm hne),
      getElem?_read]
    cases hj : p.lvs[j]? with
    | none => rfl
    | some m =>
        exact congrArg some (readLv_congr (h.block_replace hold halone hne hj))

/-- If another volume has the table, moving it leaves that one with a pointer to
freed memory. -/
theorem Ok.not_live (h : p.Ok) {j : Nat} {m : PtrLv}
    (hm : p.lvs[j]? = some m) (hne : j ≠ handle) {a : Nat} (ha : m.table = some a)
    (hshared : old.table = some a) :
    ¬ (p.replace g handle old l .moved).Live := by
  intro hlive
  have hkept : (p.replace g handle old l .moved).lvs[j]? = some m :=
    (getElem?_replace_ne hne).trans hm
  have hfreed : (p.replace g handle old l .moved).heap.block a = none := by
    show (p.heap.realloc old.table l.leMap .moved).1.block a = none
    rw [hshared]
    exact BlockHeap.block_realloc_moved
      (h.below m (List.mem_of_getElem? hm) a ha)
  have hsome := hlive m (List.mem_of_getElem? hkept) a ha
  rw [hfreed] at hsome
  cases hsome

end Replace

/-- A call that extends no shared table keeps the tables allocated. -/
theorem Ok.after (h : p.Ok) {a : PtrCall} (ha : p.Alone a) {g : Vg}
    {outcome : Outcome} (hperform : Performed p.vg p.read.lv a.call g outcome) :
    (p.after g a.realloc outcome).Ok := by
  obtain ⟨call, realloc⟩ := a
  cases hperform with
  | nothing => exact ⟨h.live, h.below⟩
  | addPv => exact ⟨h.live, h.below⟩
  | create => exact (h.create _ _ _ _).1
  | extend additionalLe hget =>
      obtain ⟨old, hold, rfl⟩ := getElem?_of_read_lv hget
      rw [after_extended hold]
      exact h.replace hold (ha _ _ rfl)
  | createSnapshot cowPeCount hget =>
      obtain ⟨old, hold, rfl⟩ := getElem?_of_read_lv hget
      exact (h.snapshot hold _ _ _ _ _).1

/-- If `realloc` returns a table, too, the call is seen as one of the volume
manager. -/
theorem Ok.read_after (h : p.Ok) {a : PtrCall} (ha : p.Alone a)
    (hgranted : p.Granted a) {g : Vg} {outcome : Outcome}
    (hperform : Performed p.vg p.read.lv a.call g outcome) :
    (p.after g a.realloc outcome).read = p.read.after g outcome := by
  obtain ⟨call, realloc⟩ := a
  cases hperform with
  | nothing => rfl
  | addPv => rfl
  | create => exact (h.create _ _ _ _).2
  | extend additionalLe hget =>
      obtain ⟨old, hold, rfl⟩ := getElem?_of_read_lv hget
      rw [after_extended hold]
      exact h.read_replace hold (ha _ _ rfl) (hgranted _ _ rfl).1
  | createSnapshot cowPeCount hget =>
      obtain ⟨old, hold, rfl⟩ := getElem?_of_read_lv hget
      exact (h.snapshot hold _ _ _ _ _).2

theorem Ok.runs (h : p.Ok) {a : PtrCall} (hgranted : p.Granted a) : p.Runs a := by
  obtain ⟨call, realloc⟩ := a
  cases call with
  | extend handle additionalLe =>
      obtain ⟨hreturns, hentries⟩ := hgranted _ _ rfl
      intro l hl
      refine ⟨h.live l (List.mem_of_getElem? hl), ?_, ?_⟩
      · cases realloc with
        | inPlace => exact hentries l hl
        | moved => exact hentries l hl
        | freed => exact hreturns.elim
        | failed => trivial
      · rintro rfl
        exact hreturns.elim
  | addPv => trivial
  | create => trivial
  | createSnapshot => trivial

theorem ptrStep_performed {a : PtrCall} (hstep : ptrStep p a = some p') :
    ∃ g outcome, Performed p.vg p.read.lv a.call g outcome ∧
      p' = p.after g a.realloc outcome := by
  unfold ptrStep at hstep
  split at hstep
  next =>
    obtain ⟨⟨g, outcome⟩, hperform, rfl⟩ := Option.map_eq_some_iff.mp hstep
    exact ⟨g, outcome, perform_some hperform, rfl⟩
  next => contradiction

/-- What is left of an extension is the state with the volume replaced. -/
theorem ptrStep_extend {handle : Nat} {additionalLe : Int} {realloc : Realloc}
    (hstep : ptrStep p ⟨.extend handle additionalLe, realloc⟩ = some p')
    {old : PtrLv} (hold : p.lvs[handle]? = some old) :
    ∃ g l, p' = p.replace g handle old l realloc := by
  unfold ptrStep at hstep
  split at hstep
  next =>
    obtain ⟨⟨g, outcome⟩, hperform, rfl⟩ := Option.map_eq_some_iff.mp hstep
    obtain ⟨l, -, hrest⟩ := Option.bind_eq_some_iff.mp hperform
    split at hrest
    next =>
      obtain ⟨⟨l', g', ok⟩, -, heq⟩ := Option.map_eq_some_iff.mp hrest
      cases heq
      exact ⟨g, l', after_extended hold⟩
    next => contradiction
  next => contradiction

theorem Ok.next (h : p.Ok) {a : PtrCall} (ha : p.Alone a)
    (hstep : ptrStep p a = some p') : p'.Ok := by
  obtain ⟨g, outcome, hperform, rfl⟩ := ptrStep_performed hstep
  exact h.after ha hperform

/-- The next call does what it does in the volume manager that is seen. -/
theorem Ok.read_step (h : p.Ok) {a : PtrCall} (ha : p.Alone a)
    (hgranted : p.Granted a) :
    (ptrStep p a).map read = step p.read a.call := by
  unfold ptrStep step
  by_cases hrange : a.call.InRange
  · rw [if_pos ⟨hrange, h.runs hgranted⟩, if_pos hrange, Option.map_map]
    show _ = (perform p.vg p.read.lv a.call).map _
    cases hperform : perform p.vg p.read.lv a.call with
    | none => rfl
    | some result =>
        exact congrArg some (h.read_after ha hgranted (perform_some hperform))
  · rw [if_neg fun hboth => hrange hboth.1, if_neg hrange]
    rfl

/-! ## Snapshots and their origins -/

/-- Every volume has a table, and a snapshot that of its origin. -/
structure Sharing (p : PtrState) : Prop where
  tables : ∀ l ∈ p.lvs, l.table ≠ none
  origin : ∀ i (l : PtrLv) o, p.lvs[i]? = some l → l.origin = some o →
    o ≠ i ∧ ∃ lo : PtrLv, p.lvs[o]? = some lo ∧ lo.table = l.table

theorem Sharing.append (h : p.Sharing) {q : PtrState} {l : PtrLv}
    (hlvs : q.lvs = p.lvs ++ [l]) (htable : l.table ≠ none)
    (horigin : ∀ o, l.origin = some o →
      ∃ lo : PtrLv, p.lvs[o]? = some lo ∧ lo.table = l.table) : q.Sharing := by
  have hkept : ∀ {j : Nat} {m}, p.lvs[j]? = some m → q.lvs[j]? = some m := by
    intro j m hm
    rw [hlvs, List.getElem?_append_left (List.getElem?_eq_some_iff.mp hm).1, hm]
  constructor
  · intro m hm
    rw [hlvs] at hm
    rcases List.mem_append.mp hm with hm | hm
    · exact h.tables m hm
    · rw [List.mem_singleton.mp hm]
      exact htable
  · intro i m o hm ho
    rw [hlvs, List.getElem?_append] at hm
    split at hm
    next =>
      obtain ⟨hne, lo, hlo, hsame⟩ := h.origin i m o hm ho
      exact ⟨hne, lo, hkept hlo, hsame⟩
    next hlast =>
      obtain rfl := List.mem_singleton.mp (List.mem_of_getElem? hm)
      obtain ⟨lo, hlo, hsame⟩ := horigin o ho
      have hlt := (List.getElem?_eq_some_iff.mp hlo).1
      exact ⟨by omega, lo, hkept hlo, hsame⟩

/-- Neither a snapshot nor its origin has a table of its own. -/
theorem Sharing.not_unshared (h : p.Sharing) {i o : Nat} {l : PtrLv}
    (hl : p.lvs[i]? = some l) (ho : l.origin = some o) :
    ¬ p.Unshared i ∧ ¬ p.Unshared o := by
  obtain ⟨hne, lo, hlo, hsame⟩ := h.origin i l o hl ho
  obtain ⟨a, ha⟩ :=
    Option.ne_none_iff_exists'.mp (h.tables l (List.mem_of_getElem? hl))
  constructor
  · intro halone
    exact halone l hl o lo hlo hne a (hsame.trans ha) ha
  · intro halone
    exact halone lo hlo i l hl hne.symm a ha (hsame.trans ha)

/-- A volume with a table of its own is no snapshot and has none. -/
theorem Sharing.replace (h : p.Sharing) {handle : Nat} {old : PtrLv}
    (hold : p.lvs[handle]? = some old) (halone : p.Unshared handle) {g : Vg}
    {l : Lv} (horigin : l.origin = old.origin) {realloc : Realloc}
    (hreturns : realloc.Returns) :
    (p.replace g handle old l realloc).Sharing := by
  obtain ⟨complete, hself⟩ := getElem?_replace_self g l realloc hold
  constructor
  · intro m hm
    rcases List.mem_or_eq_of_mem_set hm with hm | rfl
    · exact h.tables m hm
    · exact Option.isSome_iff_ne_none.mp (BlockHeap.isSome_realloc hreturns)
  · intro i m o hm ho
    by_cases hi : i = handle
    · subst hi
      obtain rfl := Option.some.inj (hself.symm.trans hm)
      exact absurd halone (h.not_unshared hold (horigin.symm.trans ho)).1
    · rw [getElem?_replace_ne hi] at hm
      have hother : o ≠ handle := by
        rintro rfl
        exact (h.not_unshared hm ho).2 halone
      rw [getElem?_replace_ne hother]
      exact h.origin i m o hm ho

theorem Sharing.after (h : p.Sharing) {a : PtrCall} (ha : p.Alone a)
    (hgranted : p.Granted a) {g : Vg} {outcome : Outcome}
    (hperform : Performed p.vg p.read.lv a.call g outcome) :
    (p.after g a.realloc outcome).Sharing := by
  obtain ⟨call, realloc⟩ := a
  cases hperform with
  | nothing => exact ⟨h.tables, h.origin⟩
  | addPv => exact ⟨h.tables, h.origin⟩
  | create leCount =>
      refine h.append rfl (Option.some_ne_none _) fun o ho => ?_
      exact (Option.some_ne_none o ho.symm).elim
  | extend additionalLe hget hsafe hextend =>
      obtain ⟨old, hold, rfl⟩ := getElem?_of_read_lv hget
      obtain ⟨-, leMap, rfl⟩ := lvExtend_some hextend
      rw [after_extended hold]
      exact h.replace hold (ha _ _ rfl) rfl (hgranted _ _ rfl).1
  | @createSnapshot handle index _ _ start cowPeCount hget =>
      obtain ⟨old, hold, rfl⟩ := getElem?_of_read_lv hget
      have htable : ((p.lvs[handle]?).bind PtrLv.table) = old.table := by
        rw [hold]
        rfl
      -- the new snapshot has the table its origin has now
      refine h.append rfl ?_ fun o ho => ?_
      · show (p.lvs[handle]?).bind PtrLv.table ≠ none
        rw [htable]
        exact h.tables old (List.mem_of_getElem? hold)
      · cases ho
        exact ⟨old, hold, htable.symm⟩

end PtrState

theorem reachable_ptr_ok {p : PtrState}
    (hreach : ptrSystem.ReachableWhile PtrState.Alone p) : p.Ok := by
  refine hreach.invariant (P := PtrState.Ok) ?_ ?_
  · rintro p rfl
    exact ⟨fun l hl => absurd hl List.not_mem_nil,
      fun l hl => absurd hl List.not_mem_nil⟩
  · intro p a p' _ hok ha hstep
    exact hok.next ha hstep

/-- Only volumes that do not share their table are extended, and `realloc`
returns one each time. -/
def PtrState.Undisturbed (p : PtrState) (a : PtrCall) : Prop :=
  p.Alone a ∧ p.Granted a

theorem reachable_ptr_read {p : PtrState}
    (hreach : ptrSystem.ReachableWhile PtrState.Undisturbed p) :
    system.Reachable p.read ∧ p.Sharing := by
  refine hreach.invariant (P := fun p => system.Reachable p.read ∧ p.Sharing)
    ?_ ?_
  · rintro p rfl
    exact ⟨.start rfl, fun l hl => absurd hl List.not_mem_nil,
      fun i l o hl => (Option.some_ne_none l hl.symm).elim⟩
  · intro p a p' hprev ⟨hseen, hsharing⟩ ⟨ha, hgranted⟩ hstep
    have hok := reachable_ptr_ok (hprev.mono fun _ _ h => h.1)
    have hread := hok.read_step ha hgranted
    rw [show ptrStep p a = some p' from hstep] at hread
    obtain ⟨g, outcome, hperform, rfl⟩ := PtrState.ptrStep_performed hstep
    exact ⟨hseen.next hread.symm, hsharing.after ha hgranted hperform⟩

/-- As long as only volumes are extended that do not share their table, no volume
has a pointer to freed memory, whatever `realloc` does; and an extension that can
return after its table was moved is safe for every behaviour of `realloc` if and
only if no other volume has the table.  If `realloc` returned a table each time,
what is seen through the pointers is a state of the volume manager in which every
volume has a table of its own, the next such call does there what it does here,
and neither a snapshot nor its origin has a table of its own. -/
theorem shared_tables {p : PtrState} :
    (ptrSystem.ReachableWhile PtrState.Alone p →
      p.Live ∧
      ∀ handle additionalLe,
        (ptrStep p ⟨.extend handle additionalLe, .moved⟩).isSome = true →
        ((∀ realloc p', ptrStep p ⟨.extend handle additionalLe, realloc⟩ =
          some p' → p'.Live) ↔ p.Unshared handle)) ∧
    (ptrSystem.ReachableWhile PtrState.Undisturbed p →
      system.Reachable p.read ∧
      (∀ a, p.Undisturbed a →
        (ptrStep p a).map PtrState.read = step p.read a.call) ∧
      ∀ snap l origin, p.lvs[snap]? = some l → l.origin = some origin →
        ¬ p.Unshared snap ∧ ¬ p.Unshared origin) := by
  constructor
  · intro hreach
    have hok := reachable_ptr_ok hreach
    refine ⟨hok.live, fun handle additionalLe hmoves => ⟨?_, ?_⟩⟩
    · -- a move takes the table from the volume that shares it
      intro hsafe old hold j m hm hne a ha hshared
      obtain ⟨p', hstep⟩ := Option.isSome_iff_exists.mp hmoves
      have hlive := hsafe .moved p' hstep
      obtain ⟨g, l, rfl⟩ := PtrState.ptrStep_extend hstep hold
      exact hok.not_live hm hne ha hshared hlive
    · intro halone realloc p' hstep
      refine (hok.next ?_ hstep).live
      rintro _ _ ⟨⟩
      exact halone
  · intro hreach
    have hok := reachable_ptr_ok (hreach.mono fun _ _ h => h.1)
    obtain ⟨hseen, hsharing⟩ := reachable_ptr_read hreach
    exact ⟨hseen, fun a ha => hok.read_step ha.1 ha.2,
      fun snap l origin hl ho => hsharing.not_unshared hl ho⟩

/-- A call that is no extension. -/
theorem PtrState.undisturbed_of_ne {p : PtrState} {a : PtrCall}
    (hother : ∀ handle additionalLe, a.call ≠ .extend handle additionalLe) :
    p.Undisturbed a :=
  ⟨fun handle additionalLe heq => absurd heq (hother handle additionalLe),
    fun handle additionalLe heq => absurd heq (hother handle additionalLe)⟩

/-- A volume and a snapshot of it: the snapshot has the table of the volume, and
extending the volume can leave it with a pointer to freed memory. -/
theorem shared_tables_snapshot :
    ∃ p, ptrSystem.run ⟨vgCreate, [], .empty⟩
        [⟨.addPv 8192, .moved⟩, ⟨.create 1, .moved⟩,
          ⟨.createSnapshot 0 1, .moved⟩] = some p ∧
      p.lvs.length = 2 ∧ p.Live ∧ ¬ p.Unshared 0 ∧ ¬ p.Unshared 1 ∧
      ∃ realloc p', ptrStep p ⟨.extend 0 1, realloc⟩ = some p' ∧ ¬ p'.Live := by
  have hstart : ptrSystem.ReachableWhile PtrState.Undisturbed
      ⟨vgCreate, [], .empty⟩ := .start rfl
  have hpv := hstart.next (a := ⟨.addPv 8192, .moved⟩)
    (PtrState.undisturbed_of_ne (by simp)) rfl
  have hlv := hpv.next (a := ⟨.create 1, .moved⟩)
    (PtrState.undisturbed_of_ne (by simp)) rfl
  have hsnap := hlv.next (a := ⟨.createSnapshot 0 1, .moved⟩)
    (PtrState.undisturbed_of_ne (by simp)) rfl
  obtain ⟨hlive, hsafe⟩ := shared_tables.1 (hsnap.mono fun _ _ h => h.1)
  obtain ⟨-, -, hshared⟩ := shared_tables.2 hsnap
  obtain ⟨hone, hzero⟩ := hshared 1 _ 0 rfl rfl
  refine ⟨_, rfl, rfl, hlive, hzero, hone, ?_⟩
  have hunsafe := mt (hsafe 0 1 rfl).mp hzero
  push Not at hunsafe
  exact hunsafe

end Lvm
end OsKernel

import OsKernel.Writeback.Model
import Mathlib.Tactic

/-!
# `writeback_all_inodes` without concurrency

Pages are marked and unmarked, and then one thread calls
`writeback_all_inodes` and is not interrupted.  What the marks and unmarks
leave behind is the list of the dirty pages in the order they were marked
(`dirtyInOrder`); the lists, counters and flags of the state are readings of it
(`Marked`).  A pass over an inode writes that inode's part of the list and
takes it away.

An inode is visited only if its `nr_dirty` is not zero.  `nr_dirty` has 32
bits, so an inode with a multiple of `2^32` dirty pages is passed over
(`sync_skips_inode`); no other inode is.
-/

namespace OsKernel
namespace Writeback

open Lib

variable {T I P : Type} [DecidableEq T] [DecidableEq I] [DecidableEq P]

/-! ## The call -/

/-- Thread `t` moves until it is idle; `none` when the fuel runs out. -/
def finish (K : Kernel I P) (t : T) : Nat → State T I P → Option (State T I P)
  | 0, _ => none
  | fuel + 1, s =>
      match advance K s t with
      | none => some s
      | some s' => finish K t fuel s'

/-- `writeback_all_inodes` over the inodes that are left of `all_inodes`, with
the same fuel for each of them. -/
def writebackAllInodes (K : Kernel I P) (t : T) (fuel : Nat) :
    List I → State T I P → Option (State T I P)
  | [], s => some s
  | i :: rest, s =>
      (finish K t fuel (start K s t (.flushInode i))).bind
        (writebackAllInodes K t fuel rest)

/-- `writeback_all_inodes` returns in state `s'`. -/
def SyncReturns (K : Kernel I P) (t : T) (allInodes : List I)
    (s s' : State T I P) : Prop :=
  ∃ enough, ∀ fuel, enough ≤ fuel →
    writebackAllInodes K t fuel allInodes s = some s'

theorem SyncReturns.unique {K : Kernel I P} {t : T} {allInodes : List I}
    {s s' s'' : State T I P} (h : SyncReturns K t allInodes s s')
    (h' : SyncReturns K t allInodes s s'') : s' = s'' := by
  obtain ⟨n, hn⟩ := h
  obtain ⟨m, hm⟩ := h'
  have heq := (hn (max n m) (le_max_left n m)).symm.trans
    (hm (max n m) (le_max_right n m))
  exact Option.some.inj heq

theorem finish_idle {K : Kernel I P} {t : T} {s : State T I P}
    (hidle : s.pc t = .idle) {fuel : Nat} (hfuel : 1 ≤ fuel) :
    finish K t fuel s = some s := by
  obtain ⟨fuel, rfl⟩ := Nat.exists_eq_add_of_le' hfuel
  simp [finish, advance, hidle]

theorem finish_advance {K : Kernel I P} {t : T} {s s' : State T I P}
    (hadvance : advance K s t = some s') (fuel : Nat) :
    finish K t (fuel + 1) s = finish K t fuel s' := by
  simp [finish, hadvance]

/-! ## Marking and unmarking -/

/-- The calls made before. -/
inductive Mark (P : Type)
  | mark (p : P)
  | unmark (p : P)

/-- What a call does to the state. -/
def Mark.apply (K : Kernel I P) (s : State T I P) : Mark P → State T I P
  | .mark p => markPageDirty K s p
  | .unmark p => unmarkPageDirty K s p

/-- What a call does to the dirty pages in the order they were marked. -/
def Mark.reorder (order : List P) : Mark P → List P
  | .mark p => if p ∈ order then order else order ++ [p]
  | .unmark p => order.erase p

/-- The pages dirty after the calls, in the order they were marked. -/
def dirtyInOrder (calls : List (Mark P)) : List P :=
  calls.foldl Mark.reorder []

/-- The dirty pages of one inode. -/
def ofInode (K : Kernel I P) (order : List P) (i : I) : List P :=
  order.filter fun p => K.inodeOf p = i

/-- Lists, counters, flags and offsets are those of the dirty pages `order`. -/
structure Marked (K : Kernel I P) (s : State T I P) (order : List P) :
    Prop where
  nodup : order.Nodup
  lists : ∀ i, (s.inodes i).dirtyPages = ofInode K order i
  counters : ∀ i, (s.inodes i).nrDirty = (ofInode K order i).length % 2 ^ 32
  flags : ∀ p, (s.pages p).dirty = true ↔ p ∈ order
  offsets : ∀ p ∈ order, (s.pages p).offset = K.index p * K.pageSize % 2 ^ 64
  global : s.gDirtyCount = order.length % 2 ^ 64

section Marks

variable {K : Kernel I P} {s s' : State T I P} {order : List P} {p : P}

theorem mem_ofInode {i : I} :
    p ∈ ofInode K order i ↔ p ∈ order ∧ K.inodeOf p = i := by
  simp [ofInode]

theorem ofInode_append_singleton (i : I) :
    ofInode K (order ++ [p]) i =
      if i = K.inodeOf p then ofInode K order i ++ [p]
      else ofInode K order i := by
  by_cases hi : i = K.inodeOf p
  · simp [ofInode, hi]
  · simp [ofInode, hi, Ne.symm hi]

theorem ofInode_erase (hnodup : order.Nodup) (i : I) :
    ofInode K (order.erase p) i = (ofInode K order i).erase p := by
  rw [ofInode, ofInode, hnodup.erase_eq_filter,
    (hnodup.filter _).erase_eq_filter, List.filter_comm]

section

omit [DecidableEq T]

theorem Marked.init (h : Initial s) : Marked K s [] where
  nodup := List.nodup_nil
  lists i := by simp [h.inodes, inodeWbStateInit, ofInode]
  counters i := by simp [h.inodes, inodeWbStateInit, ofInode]
  flags p := by simp [h.clean]
  offsets p hp := absurd hp List.not_mem_nil
  global := by simp [h.count]

/-- Dirty lists, counters, pages and the global counter are all that counts. -/
theorem Marked.congr (h : Marked K s order)
    (hlists : ∀ i, (s'.inodes i).dirtyPages = (s.inodes i).dirtyPages)
    (hcounters : ∀ i, (s'.inodes i).nrDirty = (s.inodes i).nrDirty)
    (hpages : s'.pages = s.pages)
    (hglobal : s'.gDirtyCount = s.gDirtyCount) : Marked K s' order where
  nodup := h.nodup
  lists i := by rw [hlists, h.lists]
  counters i := by rw [hcounters, h.counters]
  flags p := by rw [hpages, h.flags]
  offsets p hp := by rw [hpages, h.offsets p hp]
  global := by rw [hglobal, h.global]

/-- Setting the other fields of an inode. -/
theorem Marked.setInode (h : Marked K s order) {i : I} {x : InodeWbState P}
    (hlist : x.dirtyPages = (s.inodes i).dirtyPages)
    (hcounter : x.nrDirty = (s.inodes i).nrDirty) :
    Marked K (s.setInode i x) order :=
  h.congr (s.setInode_field InodeWbState.dirtyPages hlist)
    (s.setInode_field InodeWbState.nrDirty hcounter) rfl rfl

end

theorem Marked.setPc (h : Marked K s order) (t : T) (pc : Pc I P) :
    Marked K (s.setPc t pc) order :=
  h.congr (fun _ => rfl) (fun _ => rfl) rfl rfl

section

omit [DecidableEq T]

theorem Marked.add (h : Marked K s order) (hp : p ∉ order) :
    Marked K (markPageDirty K s p) (order ++ [p]) := by
  have hclean : ¬ (s.pages p).dirty = true := mt (h.flags p).mp hp
  have hcounter := h.counters (K.inodeOf p)
  have hglobal := h.global
  rw [markPageDirty, if_neg hclean]
  constructor
  · rw [List.nodup_append]
    refine ⟨h.nodup, List.nodup_singleton p, ?_⟩
    rintro q hq r hr rfl
    exact hp (List.mem_singleton.mp hr ▸ hq)
  · intro i
    rw [ofInode_append_singleton]
    by_cases hi : i = K.inodeOf p
    · subst hi
      simp [InodeWbState.add, h.lists]
    · simp [hi, h.lists]
  · intro i
    rw [ofInode_append_singleton]
    by_cases hi : i = K.inodeOf p
    · subst hi
      simp only [State.setPage_inodes, State.setInode_inodes,
        Function.update_self, InodeWbState.add, if_true, List.length_append,
        List.length_singleton]
      omega
    · simp [hi, h.counters]
  · intro q
    by_cases hq : q = p
    · simp [hq]
    · simp [hq, h.flags]
  · intro q hq
    by_cases hqp : q = p
    · simp [hqp]
    · have hold : q ∈ order := by simpa [hqp] using hq
      simp [hqp, h.offsets q hold]
  · simp only [State.setPage_gDirtyCount, State.setInode_gDirtyCount,
      List.length_append, List.length_singleton]
    omega

/-- What `unmark_page_dirty` and one round of a pass have in common: a dirty
page is off its list, its flag is clear and both counters are one lower. -/
theorem Marked.drop (h : Marked K s order) (hp : p ∈ order)
    (hinodes : s'.inodes = (s.setInode (K.inodeOf p)
      ((s.inodes (K.inodeOf p)).del K p)).inodes)
    (hflags : ∀ q, (s'.pages q).dirty = true ↔
      (s.pages q).dirty = true ∧ q ≠ p)
    (hoffsets : ∀ q, (s'.pages q).offset = (s.pages q).offset)
    (hglobal : s'.gDirtyCount = (s.gDirtyCount + (2 ^ 64 - 1)) % 2 ^ 64) :
    Marked K s' (order.erase p) := by
  have hlisted : p ∈ ofInode K order (K.inodeOf p) := mem_ofInode.mpr ⟨hp, rfl⟩
  have hother : ∀ i, i ≠ K.inodeOf p → p ∉ ofInode K order i :=
    fun i hi hmem => hi (mem_ofInode.mp hmem).2.symm
  constructor
  · exact h.nodup.erase p
  · intro i
    rw [hinodes, ofInode_erase h.nodup]
    by_cases hi : i = K.inodeOf p
    · subst hi
      simp [InodeWbState.del, h.lists, K.listDel_of_mem hlisted]
    · simp [hi, h.lists, List.erase_of_not_mem (hother i hi)]
  · intro i
    rw [hinodes, ofInode_erase h.nodup]
    by_cases hi : i = K.inodeOf p
    · subst hi
      have hpos := List.length_pos_of_mem hlisted
      have hcounter := h.counters (K.inodeOf p)
      simp only [State.setInode_inodes, Function.update_self, InodeWbState.del,
        List.length_erase_of_mem hlisted]
      omega
    · simp [hi, h.counters, List.erase_of_not_mem (hother i hi)]
  · intro q
    rw [hflags, h.flags, h.nodup.mem_erase_iff, and_comm]
  · intro q hq
    rw [hoffsets]
    exact h.offsets q (List.mem_of_mem_erase hq)
  · have hpos := List.length_pos_of_mem hp
    have hold := h.global
    rw [hglobal, List.length_erase_of_mem hp]
    omega

theorem Marked.apply (h : Marked K s order) (call : Mark P) :
    Marked K (call.apply K s) (Mark.reorder order call) := by
  cases call with
  | mark p =>
      simp only [Mark.apply, Mark.reorder]
      by_cases hp : p ∈ order
      · rw [if_pos hp, markPageDirty, if_pos ((h.flags p).mpr hp)]
        exact h
      · rw [if_neg hp]
        exact h.add hp
  | unmark p =>
      simp only [Mark.apply, Mark.reorder]
      by_cases hp : p ∈ order
      · have hdirty := (h.flags p).mpr hp
        rw [unmarkPageDirty, if_pos hdirty]
        refine h.drop hp rfl (fun q => ?_) (fun q => ?_) rfl
        · by_cases hq : q = p
          · simp [hq]
          · simp [hq]
        · exact s.setPage_field Page.offset (by rfl) q
      · rw [unmarkPageDirty, if_neg (mt (h.flags p).mp hp),
          List.erase_of_not_mem hp]
        exact h

theorem Mark.apply_pc (call : Mark P) : (call.apply K s).pc = s.pc := by
  cases call <;> simp only [Mark.apply, markPageDirty, unmarkPageDirty] <;>
    split <;> rfl

/-- The state after any calls. -/
theorem Marked.calls (h : Marked K s order) (calls : List (Mark P)) :
    Marked K (calls.foldl (Mark.apply K) s) (calls.foldl Mark.reorder order) ∧
      (calls.foldl (Mark.apply K) s).pc = s.pc := by
  induction calls generalizing s order with
  | nil => exact ⟨h, rfl⟩
  | cons call rest ih =>
      obtain ⟨hrest, hpc⟩ := ih (h.apply call)
      exact ⟨hrest, hpc.trans call.apply_pc⟩

end

end Marks

/-! ## One inode -/

section Pass

variable {K : Kernel I P} {s : State T I P} {order : List P} {t : T} {i : I}

/-- The arguments of the device write of a page. -/
def pageWrite (K : Kernel I P) (i : I) (p : P) : DeviceWrite I P :=
  ⟨i, p, K.index p * K.pageSize % 2 ^ 64⟩

/-- The steps of one round of the loop after the page is off its list, up to
where the loop takes the lock again. -/
def roundEnd (s : State T I P) (t : T) (w : Pass I P) (p : P) : State T I P :=
  countDown (clearDirty (blockDeviceWritePage s t w p) t w p) t w

/-- One round of the loop on a page writes it and drops it. -/
theorem Marked.round (h : Marked K s order) {p : P} (hp : p ∈ order)
    (hi : K.inodeOf p = i) (w : Pass I P) :
    Marked K (roundEnd (writebackTake K s t i p none) t w p)
      (order.erase p) := by
  subst hi
  refine h.drop hp rfl (fun q => ?_) (fun q => ?_) rfl
  · by_cases hq : q = p
    · simp [roundEnd, countDown, clearDirty, blockDeviceWritePage, hq]
    · simp [roundEnd, countDown, clearDirty, blockDeviceWritePage,
        writebackTake, hq]
  · by_cases hq : q = p
    · simp [roundEnd, countDown, clearDirty, blockDeviceWritePage,
        writebackTake, hq]
    · simp [roundEnd, countDown, clearDirty, blockDeviceWritePage,
        writebackTake, hq]

theorem device_round (h : Marked K s order) {p : P} (hp : p ∈ order)
    (w : Pass I P) (hw : w.inode = i) :
    (roundEnd (writebackTake K s t i p none) t w p).device =
      s.device ++ [pageWrite K i p] := by
  simp [roundEnd, countDown, clearDirty, blockDeviceWritePage, writebackTake,
    pageWrite, hw, h.offsets p hp]

/-- From the page's node on, the loop goes four steps: the device write, the
flag, the global counter, and the lock again. -/
theorem finish_round {w : Pass I P} {p : P} (hpc : s.pc t = .writing w p)
    (fuel : Nat) :
    finish K t (fuel + 4) s = finish K t fuel
      (writebackLoop K (roundEnd s t w p) t w.inode w.next w.caller) := by
  have hwrite : advance K s t = some (blockDeviceWritePage s t w p) := by
    simp [advance, hpc]
  have hclear : advance K (blockDeviceWritePage s t w p) t =
      some (clearDirty (blockDeviceWritePage s t w p) t w p) := by
    simp [advance, blockDeviceWritePage]
  have hcount : advance K (clearDirty (blockDeviceWritePage s t w p) t w p) t =
      some (roundEnd s t w p) := by
    simp [advance, clearDirty, roundEnd]
  have hloop : advance K (roundEnd s t w p) t =
      some (writebackLoop K (roundEnd s t w p) t w.inode w.next w.caller) := by
    have hpc : (roundEnd s t w p).pc t = .looping w := by
      simp [roundEnd, countDown]
    rw [advance, hpc]
  rw [finish_advance hwrite, finish_advance hclear, finish_advance hcount,
    finish_advance hloop]

omit [DecidableEq I] in
/-- The page after the first one is the head of the rest. -/
theorem listNext_head (K : Kernel I P) (p : P) (rest : List P) :
    K.listNext (p :: rest) p = rest.head? := by
  rw [K.listNext_of_mem List.mem_cons_self, List.idxOf_cons_self,
    List.getElem?_cons_succ, List.head?_eq_getElem?]

/-- The loop from the head of the list on: it writes the pages of the list in
order and leaves the other inodes' pages. -/
theorem finish_loop (pages : List P) (h : Marked K s order)
    (hpages : ofInode K order i = pages) :
    ∃ s', (∀ fuel, 4 * pages.length + 1 ≤ fuel →
        finish K t fuel (writebackLoop K s t i pages.head? none) = some s') ∧
      Marked K s' (order.filter fun p => K.inodeOf p ≠ i) ∧
      s'.device = s.device ++ pages.map (pageWrite K i) ∧
      s'.pc t = .idle := by
  induction pages generalizing s order with
  | nil =>
      have hnone : (order.filter fun p => K.inodeOf p ≠ i) = order := by
        rw [List.filter_eq_self]
        intro p hp
        have hnot : p ∉ ofInode K order i := hpages ▸ List.not_mem_nil
        simpa [mem_ofInode, hp] using hnot
      have hidle : (writebackEnd s t i none).pc t = .idle := by
        simp [writebackEnd, afterPass]
      refine ⟨writebackEnd s t i none, fun fuel hfuel => ?_, ?_, ?_, hidle⟩
      · exact finish_idle hidle hfuel
      · rw [hnone]
        exact (h.setInode (by rfl) (by rfl)).setPc t _
      · simp [writebackEnd]
  | cons p rest ih =>
      obtain ⟨hp, hinode⟩ : p ∈ order ∧ K.inodeOf p = i :=
        mem_ofInode.mp (hpages ▸ List.mem_cons_self)
      have hnext : K.listNext (s.inodes i).dirtyPages p = rest.head? := by
        rw [h.lists, hpages, listNext_head]
      have hrest : ofInode K (order.erase p) i = rest := by
        rw [ofInode_erase h.nodup, hpages, List.erase_cons_head]
      have hfilter : ((order.erase p).filter fun q => K.inodeOf q ≠ i) =
          order.filter fun q => K.inodeOf q ≠ i := by
        rw [h.nodup.erase_eq_filter, List.filter_filter]
        refine List.filter_congr fun q _ => ?_
        by_cases hq : q = p
        · simp [hq, hinode]
        · simp [hq]
      -- the round saves the rest's head as the place to go on
      have hround := h.round (t := t) hp hinode ⟨i, rest.head?, none⟩
      obtain ⟨s', hreturns, hmarked, hdevice, hidle⟩ := ih hround hrest
      refine ⟨s', fun fuel hfuel => ?_, hfilter ▸ hmarked, ?_, hidle⟩
      · rw [List.length_cons] at hfuel
        obtain ⟨fuel, rfl⟩ := Nat.exists_eq_add_of_le' (show 4 ≤ fuel by omega)
        have hpc : (writebackTake K s t i p none).pc t =
            .writing ⟨i, rest.head?, none⟩ p := by
          simp [writebackTake, hnext]
        rw [List.head?_cons, writebackLoop, finish_round hpc]
        exact hreturns fuel (by omega)
      · have hwritten := device_round (i := i) (t := t) h hp
          ⟨i, rest.head?, none⟩ rfl
        rw [hdevice, hwritten, List.map_cons, List.append_assoc]
        rfl

end Pass

/-! ## All inodes -/

/-- The test `nr_dirty > 0` in terms of the dirty pages. -/
def visited (K : Kernel I P) (order : List P) (i : I) : Bool :=
  (ofInode K order i).length % 2 ^ 32 != 0

/-- The dirty pages left when the inodes of a list have had their turn. -/
def leftOver (K : Kernel I P) (order : List P) (inodes : List I) : List P :=
  order.filter fun p => !(K.inodeOf p ∈ inodes && visited K order (K.inodeOf p))

section All

variable {K : Kernel I P} {s : State T I P} {order : List P} {t : T} {i : I}

/-- The turn of one inode does not change the pages of another. -/
theorem ofInode_leftOver {j : I} (hj : j ≠ i) :
    ofInode K (leftOver K order [i]) j = ofInode K order j := by
  rw [ofInode, leftOver, List.filter_filter, ofInode]
  refine List.filter_congr fun p _ => ?_
  by_cases hp : K.inodeOf p = j
  · simp [hp, hj]
  · simp [hp]

theorem visited_leftOver {j : I} (hj : j ≠ i) :
    visited K (leftOver K order [i]) j = visited K order j := by
  rw [visited, visited, ofInode_leftOver hj]

/-- The turns of the inodes of a list, one after the other. -/
theorem leftOver_cons {rest : List I} (hi : i ∉ rest) :
    leftOver K (leftOver K order [i]) rest = leftOver K order (i :: rest) := by
  rw [leftOver.eq_def K (leftOver K order [i]), leftOver, leftOver,
    List.filter_filter]
  refine List.filter_congr fun p _ => ?_
  by_cases hp : K.inodeOf p = i
  · simp [hp, hi]
  · have hsame : visited K (order.filter fun q =>
        !(K.inodeOf q ∈ [i] && visited K order (K.inodeOf q))) (K.inodeOf p) =
        visited K order (K.inodeOf p) := visited_leftOver hp
    simp only [hsame]
    simp [hp]

theorem leftOver_of_visited (hvisited : visited K order i = true) :
    leftOver K order [i] = order.filter fun p => K.inodeOf p ≠ i := by
  refine List.filter_congr fun p _ => ?_
  by_cases hp : K.inodeOf p = i
  · simp [hp, hvisited]
  · simp [hp]

theorem leftOver_of_not_visited (hvisited : ¬ visited K order i = true) :
    leftOver K order [i] = order := by
  rw [leftOver, List.filter_eq_self]
  intro p _
  by_cases hp : K.inodeOf p = i
  · simp [hp, hvisited]
  · simp [hp]

/-- The turn of one inode: its pages are written in order if it is visited. -/
theorem finish_flush (h : Marked K s order) (hidle : s.pc t = .idle) (i : I) :
    ∃ s' enough, (∀ fuel, enough ≤ fuel →
        finish K t fuel (start K s t (.flushInode i)) = some s') ∧
      Marked K s' (leftOver K order [i]) ∧
      s'.device = s.device ++
        (if visited K order i then (ofInode K order i).map (pageWrite K i)
          else []) ∧
      s'.pc t = .idle := by
  have htest : 0 < (s.inodes i).nrDirty ↔ visited K order i = true := by
    rw [h.counters, visited, bne_iff_ne, Nat.pos_iff_ne_zero]
  by_cases hvisited : visited K order i = true
  · have hstart : start K s t (.flushInode i) =
        s.setPc t (.entering i none) := if_pos (htest.mpr hvisited)
    -- the first section sets `writeback_in_progress` and starts at the head
    have hentered : Marked K ((s.setPc t (.entering i none)).setInode i
        { s.inodes i with writebackInProgress := true }) order :=
      (h.setPc t _).setInode (by rfl) (by rfl)
    obtain ⟨s', hreturns, hmarked, hdevice, hdone⟩ :=
      finish_loop (t := t) _ hentered rfl
    have henter : advance K (s.setPc t (.entering i none)) t = some
        (writebackLoop K ((s.setPc t (.entering i none)).setInode i
          { s.inodes i with writebackInProgress := true }) t i
          (ofInode K order i).head? none) := by
      rw [← h.lists]
      simp [advance, writebackEnter]
    refine ⟨s', 4 * (ofInode K order i).length + 2, fun fuel hfuel => ?_,
      leftOver_of_visited hvisited ▸ hmarked, ?_, hdone⟩
    · obtain ⟨fuel, rfl⟩ := Nat.exists_eq_add_of_le' (show 1 ≤ fuel by omega)
      rw [hstart, finish_advance henter]
      exact hreturns fuel (by omega)
    · rw [hdevice, if_pos hvisited]
      rfl
  · have hstart : start K s t (.flushInode i) = s :=
      if_neg (mt htest.mp hvisited)
    refine ⟨s, 1, fun fuel hfuel => ?_, ?_, ?_, hidle⟩
    · rw [hstart]
      exact finish_idle hidle hfuel
    · rw [leftOver_of_not_visited hvisited]
      exact h
    · rw [if_neg hvisited, List.append_nil]

/-- The call returns, and the thread is idle again. -/
theorem sync_returns_idle (inodes : List I) (hnodup : inodes.Nodup)
    (h : Marked K s order) (hidle : s.pc t = .idle) :
    ∃ s', SyncReturns K t inodes s s' ∧ Marked K s' (leftOver K order inodes) ∧
      s'.device = s.device ++ (inodes.flatMap fun i =>
        if visited K order i then (ofInode K order i).map (pageWrite K i)
        else []) ∧
      s'.pc t = .idle := by
  induction inodes generalizing s order with
  | nil =>
      refine ⟨s, ⟨0, fun _ _ => rfl⟩, ?_, by simp, hidle⟩
      simpa [leftOver] using h
  | cons i rest ih =>
      obtain ⟨hi, hrest⟩ := List.nodup_cons.mp hnodup
      obtain ⟨s₁, enough₁, hfirst, hmarked₁, hdevice₁, hidle₁⟩ :=
        finish_flush h hidle i
      -- what the first pass leaves is all there is for the passes after it
      obtain ⟨s', ⟨enough, hreturns⟩, hmarked, hdevice, hdone⟩ :=
        ih hrest hmarked₁ hidle₁
      refine ⟨s', ⟨max enough₁ enough, fun fuel hfuel => ?_⟩, ?_, ?_, hdone⟩
      · rw [writebackAllInodes, hfirst fuel (le_of_max_le_left hfuel),
          Option.bind_some]
        exact hreturns fuel (le_of_max_le_right hfuel)
      · rwa [leftOver_cons hi] at hmarked
      · have hsame : ∀ j ∈ rest,
            (if visited K (leftOver K order [i]) j then
              (ofInode K (leftOver K order [i]) j).map (pageWrite K j)
              else []) =
            if visited K order j then (ofInode K order j).map (pageWrite K j)
              else [] := by
          intro j hj
          have hji : j ≠ i := fun heq => hi (heq ▸ hj)
          rw [visited_leftOver hji, ofInode_leftOver hji]
        rw [hdevice, hdevice₁, List.flatMap_cons, List.append_assoc,
          List.flatMap_congr hsame]

theorem sync_returns (inodes : List I) (hnodup : inodes.Nodup)
    (h : Marked K s order) (hidle : s.pc t = .idle) :
    ∃ s', SyncReturns K t inodes s s' ∧ Marked K s' (leftOver K order inodes) ∧
      s'.device = s.device ++ inodes.flatMap fun i =>
        if visited K order i then (ofInode K order i).map (pageWrite K i)
        else [] := by
  obtain ⟨s', hreturns, hmarked, hdevice, -⟩ :=
    sync_returns_idle inodes hnodup h hidle
  exact ⟨s', hreturns, hmarked, hdevice⟩

end All

/-! ## What the call achieves -/

/-- The device writes of a complete sync: inode by inode, the inode's dirty
pages in the order they were marked, each at its own offset. -/
def syncWrites (K : Kernel I P) (order : List P) (allInodes : List I) :
    List (DeviceWrite I P) :=
  allInodes.flatMap fun i => (ofInode K order i).map (pageWrite K i)

/-- `writeback_all_inodes`, called in `s`, has written every dirty page once
and nothing else, and has left everything clean. -/
structure SyncComplete (K : Kernel I P) (order : List P) (allInodes : List I)
    (s s' : State T I P) : Prop where
  writes : s'.device = s.device ++ syncWrites K order allInodes
  once : ∀ p, ((syncWrites K order allInodes).map DeviceWrite.page).count p =
    if (s.pages p).dirty then 1 else 0
  lists : ∀ i, (s'.inodes i).dirtyPages = []
  counters : ∀ i, (s'.inodes i).nrDirty = 0
  flags : ∀ p, (s'.pages p).dirty = false
  global : s'.gDirtyCount = 0

section Complete

variable {K : Kernel I P} {s s' : State T I P} {order : List P}
  {allInodes : List I}

theorem syncWrites_pages (K : Kernel I P) (order : List P)
    (allInodes : List I) :
    (syncWrites K order allInodes).map DeviceWrite.page =
      allInodes.flatMap (ofInode K order) := by
  rw [syncWrites, List.map_flatMap]
  congr 1
  ext1 i
  rw [List.map_map]
  exact List.map_id _

/-- A page occurs in the parts of the inodes as often as in the list, if its
own inode is among them. -/
theorem count_flatMap_ofInode (p : P) (hnodup : allInodes.Nodup) :
    (allInodes.flatMap (ofInode K order)).count p =
      if K.inodeOf p ∈ allInodes then order.count p else 0 := by
  induction allInodes with
  | nil => simp
  | cons i rest ih =>
      obtain ⟨hi, hrest⟩ := List.nodup_cons.mp hnodup
      rw [List.flatMap_cons, List.count_append, ih hrest]
      by_cases hp : K.inodeOf p = i
      · subst hp
        have hown : (ofInode K order (K.inodeOf p)).count p = order.count p :=
          List.count_filter (by simp)
        simp [hown, hi]
      · have hother : (ofInode K order i).count p = 0 :=
          List.count_eq_zero.mpr fun hmem => hp (mem_ofInode.mp hmem).2
        simp [hother, hp]

/-- No inode has a positive multiple of `2^32` dirty pages. -/
def CountersTell (K : Kernel I P) (order : List P) : Prop :=
  ∀ i, 2 ^ 32 ∣ (ofInode K order i).length → ofInode K order i = []

theorem leftOver_eq_nil (hall : ∀ i, i ∈ allInodes)
    (hcount : CountersTell K order) : leftOver K order allInodes = [] := by
  rw [leftOver, List.filter_eq_nil_iff]
  intro p hp
  have hvisited : visited K order (K.inodeOf p) = true := by
    rw [visited, bne_iff_ne]
    intro hzero
    have hempty := hcount _ (Nat.dvd_of_mod_eq_zero hzero)
    have hmem : p ∈ ofInode K order (K.inodeOf p) := mem_ofInode.mpr ⟨hp, rfl⟩
    rw [hempty] at hmem
    exact absurd hmem List.not_mem_nil
  simp [hall, hvisited]

/-- The call achieves all of it exactly if the counters tell which inodes have
dirty pages. -/
theorem Marked.syncComplete_iff (h : Marked K s order) {t : T}
    (hidle : s.pc t = .idle) (hnodup : allInodes.Nodup)
    (hall : ∀ i, i ∈ allInodes) :
    (∃ s', SyncReturns K t allInodes s s' ∧
      SyncComplete K order allInodes s s') ↔ CountersTell K order := by
  obtain ⟨s', hreturns, hmarked, hdevice⟩ := sync_returns allInodes hnodup h hidle
  constructor
  · rintro ⟨s'', hreturns'', hcomplete⟩ i hdvd
    obtain rfl := hreturns.unique hreturns''
    -- the pages of an inode that is passed over are still dirty
    rw [List.eq_nil_iff_forall_not_mem]
    intro p hmem
    obtain ⟨hp, rfl⟩ := mem_ofInode.mp hmem
    have hskipped : visited K order (K.inodeOf p) = false := by
      rw [visited, bne_eq_false_iff_eq]
      exact Nat.mod_eq_zero_of_dvd hdvd
    have hleft : p ∈ leftOver K order allInodes := by
      rw [leftOver, List.mem_filter]
      simp [hp, hskipped]
    have hdirty := (hmarked.flags p).mpr hleft
    rw [hcomplete.flags p] at hdirty
    exact absurd hdirty (by decide)
  · intro hcount
    rw [leftOver_eq_nil hall hcount] at hmarked
    refine ⟨s', hreturns, ?_⟩
    exact {
      writes := by
        rw [hdevice, syncWrites]
        congr 2
        ext1 i
        split
        · rfl
        · rename_i hskipped
          have hzero : (ofInode K order i).length % 2 ^ 32 = 0 := by
            simpa [visited] using hskipped
          rw [hcount i (Nat.dvd_of_mod_eq_zero hzero), List.map_nil]
      once := by
        intro p
        rw [syncWrites_pages, count_flatMap_ofInode p hnodup, if_pos (hall _)]
        by_cases hp : p ∈ order
        · rw [if_pos ((h.flags p).mpr hp), List.count_eq_one_of_mem h.nodup hp]
        · rw [if_neg (mt (h.flags p).mp hp), List.count_eq_zero.mpr hp]
      lists := fun i => by simp [hmarked.lists, ofInode]
      counters := fun i => by simp [hmarked.counters, ofInode]
      flags := fun p => by simpa using mt (hmarked.flags p).mp List.not_mem_nil
      global := by simp [hmarked.global] }

end Complete

/-- After any calls of `mark_page_dirty` and `unmark_page_dirty` on initialised
inodes, `writeback_all_inodes` writes every dirty page exactly once, at its
offset and in marking order within each inode, and leaves everything clean, if
and only if no inode has a positive multiple of `2^32` dirty pages. -/
theorem sync_complete_iff (K : Kernel I P) (s₀ : State T I P)
    (hinit : Initial s₀) (calls : List (Mark P)) (t : T) (allInodes : List I)
    (hnodup : allInodes.Nodup) (hall : ∀ i, i ∈ allInodes) :
    (∃ s', SyncReturns K t allInodes (calls.foldl (Mark.apply K) s₀) s' ∧
      SyncComplete K (dirtyInOrder calls) allInodes
        (calls.foldl (Mark.apply K) s₀) s') ↔
    CountersTell K (dirtyInOrder calls) := by
  obtain ⟨hmarked, hpc⟩ := (Marked.init (K := K) hinit).calls calls
  exact hmarked.syncComplete_iff (by rw [hpc, hinit.idle]) hnodup hall

/-! ## One inode with many pages -/

/-- One inode with `n` pages. -/
def manyPagesKernel (n : Nat) : Kernel Unit (Fin n) where
  inodeOf := fun _ => ()
  index := Fin.val
  pageSize := 4096
  listDel := List.erase
  listNext := fun l p => l[l.idxOf p + 1]?
  listDel_of_mem := fun _ => rfl
  listNext_of_mem := fun _ => rfl

/-- The inode after `inode_wb_state_init`, and a single thread. -/
def manyPagesState (n : Nat) : State Unit Unit (Fin n) where
  inodes := fun _ => inodeWbStateInit
  pages := fun _ => ⟨false, 0, false, false, 0⟩
  gDirtyCount := 0
  device := []
  pc := fun _ => .idle

theorem manyPagesState_initial (n : Nat) : Initial (manyPagesState n) := by
  constructor <;> simp [manyPagesState]

/-- Two of three pages are dirty when `sync` is called. -/
theorem sync_complete_two_pages :
    ∃ s', SyncReturns (manyPagesKernel 3) () [()]
        ([.mark 2, .mark 1, .mark 0, .unmark 1].foldl
          (Mark.apply (manyPagesKernel 3)) (manyPagesState 3)) s' ∧
      SyncComplete (manyPagesKernel 3) [2, 0] [()]
        ([.mark 2, .mark 1, .mark 0, .unmark 1].foldl
          (Mark.apply (manyPagesKernel 3)) (manyPagesState 3)) s' := by
  refine (sync_complete_iff (manyPagesKernel 3) (manyPagesState 3)
    (manyPagesState_initial 3) [.mark 2, .mark 1, .mark 0, .unmark 1] () [()]
    (List.nodup_singleton ()) (fun _ => List.mem_singleton.mpr rfl)).mpr ?_
  intro i hdvd
  have htwo : (ofInode (manyPagesKernel 3)
    (dirtyInOrder [.mark 2, .mark 1, .mark 0, .unmark 1]) i).length = 2 := rfl
  rw [htwo] at hdvd
  exact absurd (Nat.le_of_dvd (by decide) hdvd) (by decide)

/-- Marking pages none of which is dirty puts them at the end, in order. -/
theorem foldl_reorder_mark (pages order : List P)
    (hnodup : (order ++ pages).Nodup) :
    (pages.map Mark.mark).foldl Mark.reorder order = order ++ pages := by
  induction pages generalizing order with
  | nil => simp
  | cons p rest ih =>
      have hp : p ∉ order := fun hmem =>
        (List.nodup_append.mp hnodup).2.2 p hmem p List.mem_cons_self rfl
      have hstep : Mark.reorder order (.mark p) = order ++ [p] := if_neg hp
      rw [List.append_cons] at hnodup
      rw [List.map_cons, List.foldl_cons, hstep, ih _ hnodup]
      exact (List.append_cons order p rest).symm

/-- The state when all pages of the inode have been marked. -/
def allMarked (n : Nat) : State Unit Unit (Fin n) :=
  ((List.finRange n).map Mark.mark).foldl (Mark.apply (manyPagesKernel n))
    (manyPagesState n)

/-- If their number is a multiple of `2^32`, the inode is passed over. -/
theorem sync_skips_multiple {n : Nat} (hdvd : 2 ^ 32 ∣ n) :
    ∃ s', SyncReturns (manyPagesKernel n) () [()] (allMarked n) s' ∧
      s'.device = (allMarked n).device ∧
      (∀ p, ((allMarked n).pages p).dirty = true) ∧
      ∀ p, (s'.pages p).dirty = true := by
  have horder : ((List.finRange n).map Mark.mark).foldl Mark.reorder [] =
      List.finRange n :=
    foldl_reorder_mark _ [] (List.nodup_finRange n)
  obtain ⟨hmarked, hpc⟩ :=
    (Marked.init (K := manyPagesKernel n) (manyPagesState_initial n)).calls
      ((List.finRange n).map Mark.mark)
  rw [horder] at hmarked
  have hpages : ofInode (manyPagesKernel n) (List.finRange n) () =
      List.finRange n :=
    List.filter_eq_self.mpr fun _ _ => by simp
  have hskipped : ∀ i,
      visited (manyPagesKernel n) (List.finRange n) i = false := by
    intro i
    rw [visited, hpages, List.length_finRange, Nat.mod_eq_zero_of_dvd hdvd]
    rfl
  obtain ⟨s', hreturns, hleft, hdevice⟩ :=
    sync_returns [()] (List.nodup_singleton ()) hmarked (by rw [hpc]; rfl)
  refine ⟨s', hreturns, ?_, fun p => ?_, fun p => ?_⟩
  · rw [hdevice]
    simp [hskipped, allMarked]
  · exact (hmarked.flags p).mpr (List.mem_finRange p)
  · refine (hleft.flags p).mpr ?_
    rw [leftOver, List.mem_filter]
    simp [hskipped]

/-- With `2^32` dirty pages, `nr_dirty` is zero again: `sync` writes none of
them and leaves all of them dirty. -/
theorem sync_skips_inode :
    ∃ s', SyncReturns (manyPagesKernel (2 ^ 32)) () [()] (allMarked (2 ^ 32))
        s' ∧
      s'.device = (allMarked (2 ^ 32)).device ∧
      (∀ p, ((allMarked (2 ^ 32)).pages p).dirty = true) ∧
      ∀ p, (s'.pages p).dirty = true :=
  sync_skips_multiple (dvd_refl _)

end Writeback
end OsKernel

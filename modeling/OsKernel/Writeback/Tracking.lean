import OsKernel.Writeback.Model
import Mathlib.Data.List.Nodup
import Mathlib.Tactic

/-!
# Which pages a dirty list holds

`Step` says once what a step of `wb_sim.c` can do, guards included; every
invariant of the development is a case analysis on it.

The first of them is `Tracked`: a dirty page is on the list of its inode or is
held by the one pass that took it off.  It is kept by every step that takes
pages off lists they are on (`DelOnList`), and so is `Counted`, that `nr_dirty`
is the length of the list.
-/

namespace OsKernel
namespace Writeback

open Lib

variable {T I P : Type} [DecidableEq T] [DecidableEq I] [DecidableEq P]

namespace Pc

/-- The page a pass has taken off its list and not yet cleared. -/
def held : Pc I P → Option P
  | .writing _ p | .clearing _ p => some p
  | _ => none

/-- The pass a thread is in, from its first locked section to its last. -/
def pass : Pc I P → Option (Pass I P)
  | .writing w _ | .clearing w _ | .counting w | .looping w => some w
  | _ => none

/-- The `fsync_inode` a thread is in. -/
def fsync : Pc I P → Option (Fsync I P)
  | .entering _ caller => caller
  | .writing w _ | .clearing w _ | .counting w | .looping w => w.caller
  | .fsyncTest f | .fsyncWait f => some f
  | _ => none

end Pc

/-- The moves of a thread that change nothing else. -/
inductive Moves (s : State T I P) : Pc I P → Pc I P → Prop
  | call (i : I) : Moves s .idle (.entering i none)
  | marked {p : P} (hdirty : (s.pages p).dirty = true) :
      Moves s (.marking p) .idle
  | fsyncEnter {f : Fsync I P} :
      Moves s (.fsyncTest f) (.entering f.inode (some f))
  | fsyncWait {f : Fsync I P} : Moves s (.fsyncTest f) (.fsyncWait f)
  | fsyncReturn {f : Fsync I P} (hdone : fsyncDone s f.inode = true) :
      Moves s (.fsyncWait f) .idle

/-- What a step can do. -/
inductive Step (K : Kernel I P) (s : State T I P) :
    Action T I P → State T I P → Prop
  | write {t : T} {p : P} (hpc : s.pc t = .idle) :
      Step K s (.start t (.write p)) (start K s t (.write p))
  | unmark {t : T} {p : P} (hpc : s.pc t = .idle)
      (hdirty : (s.pages p).dirty = true) :
      Step K s (.start t (.unmarkPageDirty p)) (unmarkPageDirty K s p)
  | fsyncBegin {t : T} {i : I} (hpc : s.pc t = .idle) :
      Step K s (.start t (.fsyncInode i)) (fsyncBegin K s t i)
  | mark {t : T} {p : P} (hpc : s.pc t = .marking p)
      (hclean : (s.pages p).dirty = false) :
      Step K s (.advance t) ((markPageDirty K s p).setPc t .idle)
  | enterTake {t : T} {i : I} {caller : Option (Fsync I P)} {p : P}
      (hpc : s.pc t = .entering i caller)
      (hhead : (s.inodes i).dirtyPages.head? = some p) :
      Step K s (.advance t) (writebackTake K
        (s.setInode i { s.inodes i with writebackInProgress := true }) t i p
        caller)
  | enterEnd {t : T} {i : I} {caller : Option (Fsync I P)}
      (hpc : s.pc t = .entering i caller)
      (hempty : (s.inodes i).dirtyPages = []) :
      Step K s (.advance t) (writebackEnd
        (s.setInode i { s.inodes i with writebackInProgress := true }) t i
        caller)
  | deviceWrite {t : T} {w : Pass I P} {p : P} (hpc : s.pc t = .writing w p) :
      Step K s (.advance t) (blockDeviceWritePage s t w p)
  | clear {t : T} {w : Pass I P} {p : P} (hpc : s.pc t = .clearing w p) :
      Step K s (.advance t) (clearDirty s t w p)
  | count {t : T} {w : Pass I P} (hpc : s.pc t = .counting w) :
      Step K s (.advance t) (countDown s t w)
  | loopTake {t : T} {w : Pass I P} {p : P} (hpc : s.pc t = .looping w)
      (hnext : w.next = some p) :
      Step K s (.advance t) (writebackTake K s t w.inode p w.caller)
  | loopEnd {t : T} {w : Pass I P} (hpc : s.pc t = .looping w)
      (hnext : w.next = none) :
      Step K s (.advance t) (writebackEnd s t w.inode w.caller)
  | move {a : Action T I P} {pc' : Pc I P}
      (hmove : Moves s (s.pc a.thread) pc') : Step K s a (s.setPc a.thread pc')
  | skip {a : Action T I P} : Step K s a s

/-- Every step is one of those `Step` lists. -/
theorem step_cases {K : Kernel I P} {s s' : State T I P} {a : Action T I P}
    (hstep : (system K).step s a = some s') : Step K s a s' := by
  change step K s a = some s' at hstep
  cases a with
  | start t c =>
      cases hpc : s.pc t with
      | idle =>
          obtain rfl : start K s t c = s' := by
            simpa [step, hpc] using hstep
          have hcall : ∀ i, Moves s (s.pc t) (.entering i none) := by
            intro i
            rw [hpc]
            exact .call i
          cases c with
          | write p => exact .write hpc
          | unmarkPageDirty p =>
              by_cases hdirty : (s.pages p).dirty = true
              · exact .unmark hpc hdirty
              · -- a clean page is left alone
                have hsame : start K s t (.unmarkPageDirty p) = s := by
                  simp [start, unmarkPageDirty, hdirty]
                rw [hsame]
                exact .skip
          | writebackInode i => exact .move (hcall i)
          | flushInode i =>
              by_cases hpos : 0 < (s.inodes i).nrDirty
              · rw [start, if_pos hpos]
                exact .move (hcall i)
              · rw [start, if_neg hpos]
                exact .skip
          | fsyncInode i => exact .fsyncBegin hpc
      | _ => simp [step, hpc] at hstep
  | advance t =>
      change advance K s t = some s' at hstep
      cases hpc : s.pc t with
      | idle => simp [advance, hpc] at hstep
      | marking p =>
          obtain rfl : (markPageDirty K s p).setPc t .idle = s' := by
            simpa [advance, hpc] using hstep
          by_cases hdirty : (s.pages p).dirty = true
          · rw [markPageDirty, if_pos hdirty]
            exact .move (hpc ▸ .marked hdirty)
          · exact .mark hpc (by simpa using hdirty)
      | entering i caller =>
          obtain rfl : writebackEnter K s t i caller = s' := by
            simpa [advance, hpc] using hstep
          cases hhead : (s.inodes i).dirtyPages.head? with
          | none =>
              rw [writebackEnter, hhead]
              exact .enterEnd hpc (List.head?_eq_none_iff.mp hhead)
          | some p =>
              rw [writebackEnter, hhead]
              exact .enterTake hpc hhead
      | writing w p =>
          obtain rfl : blockDeviceWritePage s t w p = s' := by
            simpa [advance, hpc] using hstep
          exact .deviceWrite hpc
      | clearing w p =>
          obtain rfl : clearDirty s t w p = s' := by
            simpa [advance, hpc] using hstep
          exact .clear hpc
      | counting w =>
          obtain rfl : countDown s t w = s' := by
            simpa [advance, hpc] using hstep
          exact .count hpc
      | looping w =>
          obtain rfl : writebackLoop K s t w.inode w.next w.caller = s' := by
            simpa [advance, hpc] using hstep
          cases hnext : w.next with
          | none => exact .loopEnd hpc hnext
          | some p => exact .loopTake hpc hnext
      | fsyncTest f =>
          obtain rfl : fsyncStart s t f = s' := by
            simpa [advance, hpc] using hstep
          by_cases hpos : 0 < (s.inodes f.inode).nrDirty
          · rw [fsyncStart, if_pos hpos]
            exact .move (hpc ▸ .fsyncEnter)
          · rw [fsyncStart, if_neg hpos]
            exact .move (hpc ▸ .fsyncWait)
      | fsyncWait f =>
          obtain rfl : fsyncRound s t f = s' := by
            simpa [advance, hpc] using hstep
          by_cases hdone : fsyncDone s f.inode = true
          · rw [fsyncRound, if_pos hdone]
            exact .move (hpc ▸ .fsyncReturn hdone)
          · rw [fsyncRound, if_neg hdone]
            exact .skip

/-- `p` is on the dirty list of inode `i`. -/
def State.Listed (s : State T I P) (i : I) (p : P) : Prop :=
  p ∈ (s.inodes i).dirtyPages

omit [DecidableEq T] [DecidableEq P] in
/-- Rewriting an inode's other fields leaves the lists as they are. -/
theorem State.listed_setInode (s : State T I P) {i : I} {x : InodeWbState P}
    (hx : x.dirtyPages = (s.inodes i).dirtyPages) {j : I} {p : P} :
    (s.setInode i x).Listed j p ↔ s.Listed j p := by
  rw [State.Listed, s.setInode_field InodeWbState.dirtyPages hx, State.Listed]

/-- A dirty page is on the list of its inode or held by one pass, and only
dirty pages are. -/
structure Tracked (K : Kernel I P) (s : State T I P) : Prop where
  nodup : ∀ i, (s.inodes i).dirtyPages.Nodup
  own : ∀ i p, s.Listed i p → K.inodeOf p = i
  listed : ∀ i p, s.Listed i p → (s.pages p).dirty = true
  held : ∀ t p, (s.pc t).held = some p →
    (s.pages p).dirty = true ∧ ∀ i, ¬ s.Listed i p
  unique : ∀ t u p, (s.pc t).held = some p → (s.pc u).held = some p → t = u
  dirty : ∀ p, (s.pages p).dirty = true →
    s.Listed (K.inodeOf p) p ∨ ∃ t, (s.pc t).held = some p

namespace Tracked

variable {K : Kernel I P} {s s' : State T I P}

section

omit [DecidableEq T] [DecidableEq I]

theorem init (h : Initial s) : Tracked K s := by
  constructor <;>
    simp [State.Listed, h.inodes, h.clean, h.idle, inodeWbStateInit, Pc.held]

/-- Lists, flags and held pages are all that `Tracked` reads. -/
theorem congr (h : Tracked K s)
    (hlist : ∀ i, (s'.inodes i).dirtyPages = (s.inodes i).dirtyPages)
    (hdirty : ∀ p, (s'.pages p).dirty = (s.pages p).dirty)
    (hheld : ∀ t, (s'.pc t).held = (s.pc t).held) : Tracked K s' := by
  have hlisted : ∀ i p, s'.Listed i p ↔ s.Listed i p := by
    intro i p
    rw [State.Listed, hlist, State.Listed]
  constructor
  · simpa only [hlist] using h.nodup
  · simpa only [hlisted] using h.own
  · simpa only [hlisted, hdirty] using h.listed
  · simpa only [hlisted, hdirty, hheld] using h.held
  · simpa only [hheld] using h.unique
  · simpa only [hlisted, hdirty, hheld] using h.dirty

/-- A clean page is on no list. -/
theorem not_listed_of_clean (h : Tracked K s) {p : P}
    (hclean : (s.pages p).dirty = false) (i : I) : ¬ s.Listed i p := by
  intro hmem
  simp [h.listed i p hmem] at hclean

end

end Tracked

/-! ## The sections that change a list or a flag -/

section Sections

variable {K : Kernel I P} {s : State T I P} {p : P}

section

omit [DecidableEq T]

/-- What `mark_page_dirty` does to the inodes when the page is clean. -/
theorem inodes_mark (hclean : (s.pages p).dirty = false) :
    (markPageDirty K s p).inodes =
      (s.setInode (K.inodeOf p) ((s.inodes (K.inodeOf p)).add p)).inodes := by
  rw [markPageDirty, if_neg (by simp [hclean])]
  rfl

theorem pages_mark_of_ne (K : Kernel I P) (s : State T I P) {p q : P}
    (hq : q ≠ p) : (markPageDirty K s p).pages q = s.pages q := by
  unfold markPageDirty
  split
  · rfl
  · simp [hq]

theorem device_mark (K : Kernel I P) (s : State T I P) (p : P) :
    (markPageDirty K s p).device = s.device := by
  unfold markPageDirty
  split <;> rfl

theorem listed_mark (hclean : (s.pages p).dirty = false) (i : I) (q : P) :
    (markPageDirty K s p).Listed i q ↔
      s.Listed i q ∨ (i = K.inodeOf p ∧ q = p) := by
  rw [State.Listed, inodes_mark hclean]
  by_cases hi : i = K.inodeOf p
  · subst hi
    simp [State.Listed, InodeWbState.add]
  · simp [State.Listed, hi]

theorem dirty_mark (hclean : (s.pages p).dirty = false) (q : P) :
    ((markPageDirty K s p).pages q).dirty = true ↔
      (s.pages q).dirty = true ∨ q = p := by
  rw [markPageDirty, if_neg (by simp [hclean])]
  by_cases hq : q = p
  · simp [hq]
  · simp [hq]

theorem pc_mark (K : Kernel I P) (s : State T I P) (p : P) :
    (markPageDirty K s p).pc = s.pc := by
  unfold markPageDirty
  split <;> rfl

theorem Tracked.mark (h : Tracked K s) (hclean : (s.pages p).dirty = false) :
    Tracked K (markPageDirty K s p) := by
  have hnot := h.not_listed_of_clean hclean
  constructor
  · intro i
    rw [inodes_mark hclean]
    by_cases hi : i = K.inodeOf p
    · subst hi
      -- the flag was clear, so the page was not on the list yet
      have hp : ∀ q ∈ (s.inodes (K.inodeOf p)).dirtyPages, q ≠ p := by
        rintro q hq rfl
        exact hnot _ hq
      simpa [InodeWbState.add, List.nodup_append, h.nodup] using hp
    · simpa [hi] using h.nodup i
  · intro i q hq
    rcases (listed_mark hclean i q).mp hq with hq | ⟨rfl, rfl⟩
    · exact h.own i q hq
    · rfl
  · intro i q hq
    rw [dirty_mark hclean]
    rcases (listed_mark hclean i q).mp hq with hq | ⟨rfl, rfl⟩
    · exact .inl (h.listed i q hq)
    · exact .inr rfl
  · intro t q hheld
    rw [pc_mark] at hheld
    obtain ⟨hdirty, hoff⟩ := h.held t q hheld
    refine ⟨(dirty_mark hclean q).mpr (.inl hdirty), fun i hq => ?_⟩
    rcases (listed_mark hclean i q).mp hq with hq | ⟨rfl, rfl⟩
    · exact hoff i hq
    · simp [hclean] at hdirty
  · rw [pc_mark]
    exact h.unique
  · intro q hq
    rw [pc_mark, listed_mark hclean]
    rcases (dirty_mark hclean q).mp hq with hq | rfl
    · rcases h.dirty q hq with hq | hq
      · exact .inl (.inl hq)
      · exact .inr hq
    · exact .inl (.inr ⟨rfl, rfl⟩)

/-- Taking a listed page off its list. -/
theorem listed_del (h : Tracked K s) {i : I} (hp : s.Listed i p) (j : I)
    (q : P) :
    (s.setInode i ((s.inodes i).del K p)).Listed j q ↔
      s.Listed j q ∧ q ≠ p := by
  by_cases hj : j = i
  · subst hj
    simp only [State.Listed, State.setInode_inodes, Function.update_self,
      InodeWbState.del, K.listDel_of_mem hp]
    rw [(h.nodup j).mem_erase_iff]
    exact and_comm
  · have hne : s.Listed j q → q ≠ p := by
      rintro hq rfl
      exact hj ((h.own j q hq).symm.trans (h.own i q hp))
    simpa [State.Listed, hj] using hne

theorem nodup_del (h : Tracked K s) {i : I} (hp : s.Listed i p) (j : I) :
    ((s.setInode i ((s.inodes i).del K p)).inodes j).dirtyPages.Nodup := by
  by_cases hj : j = i
  · subst hj
    simpa [InodeWbState.del, K.listDel_of_mem hp] using (h.nodup j).erase p
  · simpa [hj] using h.nodup j

theorem Tracked.unmark (h : Tracked K s) (hdirty : (s.pages p).dirty = true)
    (hp : s.Listed (K.inodeOf p) p) : Tracked K (unmarkPageDirty K s p) := by
  have hlisted : ∀ j q, (unmarkPageDirty K s p).Listed j q ↔
      s.Listed j q ∧ q ≠ p := by
    intro j q
    rw [← listed_del h hp, unmarkPageDirty, if_pos hdirty]
    rfl
  have hflag : ∀ q, ((unmarkPageDirty K s p).pages q).dirty = true ↔
      (s.pages q).dirty = true ∧ q ≠ p := by
    intro q
    rw [unmarkPageDirty, if_pos hdirty]
    by_cases hq : q = p
    · simp [hq]
    · simp [hq]
  have hpc : (unmarkPageDirty K s p).pc = s.pc := by
    rw [unmarkPageDirty, if_pos hdirty]
    rfl
  constructor
  · intro i
    rw [unmarkPageDirty, if_pos hdirty]
    exact nodup_del h hp i
  · intro i q hq
    exact h.own i q ((hlisted i q).mp hq).1
  · intro i q hq
    obtain ⟨hq, hne⟩ := (hlisted i q).mp hq
    exact (hflag q).mpr ⟨h.listed i q hq, hne⟩
  · intro t q hheld
    rw [hpc] at hheld
    obtain ⟨hq, hoff⟩ := h.held t q hheld
    -- the page was on its list, so no pass holds it
    have hne : q ≠ p := by
      rintro rfl
      exact hoff _ hp
    exact ⟨(hflag q).mpr ⟨hq, hne⟩, fun i hi => hoff i ((hlisted i q).mp hi).1⟩
  · rw [hpc]
    exact h.unique
  · intro q hq
    obtain ⟨hq, hne⟩ := (hflag q).mp hq
    rw [hpc, hlisted]
    rcases h.dirty q hq with hq | hq
    · exact .inl ⟨hq, hne⟩
    · exact .inr hq

end

theorem listed_take (h : Tracked K s) {i : I} (hp : s.Listed i p) {t : T}
    {caller : Option (Fsync I P)} (j : I) (q : P) :
    (writebackTake K s t i p caller).Listed j q ↔ s.Listed j q ∧ q ≠ p :=
  listed_del h hp j q

theorem dirty_take {i : I} {t : T} {caller : Option (Fsync I P)} (q : P) :
    ((writebackTake K s t i p caller).pages q).dirty = (s.pages q).dirty :=
  s.setPage_field Page.dirty (by rfl) q

/-- The thread that takes a page holds it; the others hold what they held. -/
theorem held_take {i : I} {t : T} {caller : Option (Fsync I P)} (u : T) :
    ((writebackTake K s t i p caller).pc u).held =
      if u = t then some p else (s.pc u).held := by
  by_cases hu : u = t
  · simp [writebackTake, Pc.held, hu]
  · simp [writebackTake, hu]

theorem Tracked.take (h : Tracked K s) {t : T} (hfree : (s.pc t).held = none)
    {i : I} (hp : s.Listed i p) (caller : Option (Fsync I P)) :
    Tracked K (writebackTake K s t i p caller) := by
  have hother : ∀ u q, (s.pc u).held = some q → u ≠ t := by
    rintro u q hu rfl
    simp [hfree] at hu
  constructor
  · intro j
    exact nodup_del h hp j
  · intro j q hq
    exact h.own j q ((listed_take h hp j q).mp hq).1
  · intro j q hq
    rw [dirty_take]
    exact h.listed j q ((listed_take h hp j q).mp hq).1
  · intro u q hu
    rw [dirty_take]
    simp only [listed_take h hp]
    rw [held_take] at hu
    split at hu
    · obtain rfl := Option.some.inj hu
      exact ⟨h.listed i p hp, fun j hj => hj.2 rfl⟩
    · obtain ⟨hq, hoff⟩ := h.held u q hu
      exact ⟨hq, fun j hj => hoff j hj.1⟩
  · intro u v q hu hv
    rw [held_take] at hu hv
    -- a page that was on the list is held by no other thread
    split at hu <;> split at hv
    · simp_all
    · obtain rfl := Option.some.inj hu
      exact absurd hp ((h.held v p hv).2 i)
    · obtain rfl := Option.some.inj hv
      exact absurd hp ((h.held u p hu).2 i)
    · exact h.unique u v q hu hv
  · intro q hq
    rw [dirty_take] at hq
    rw [listed_take h hp]
    by_cases hqp : q = p
    · exact .inr ⟨t, by simp [held_take, hqp]⟩
    · rcases h.dirty q hq with hq | ⟨u, hu⟩
      · exact .inl ⟨hq, hqp⟩
      · exact .inr ⟨u, by rw [held_take, if_neg (hother u q hu), hu]⟩

section

omit [DecidableEq I]

theorem dirty_clear {t : T} {w : Pass I P} (q : P) :
    ((clearDirty s t w p).pages q).dirty = true ↔
      (s.pages q).dirty = true ∧ q ≠ p := by
  by_cases hq : q = p
  · simp [clearDirty, hq]
  · simp [clearDirty, hq]

theorem held_clear {t : T} {w : Pass I P} (u : T) :
    ((clearDirty s t w p).pc u).held =
      if u = t then none else (s.pc u).held := by
  by_cases hu : u = t
  · simp [clearDirty, Pc.held, hu]
  · simp [clearDirty, hu]

theorem Tracked.clear (h : Tracked K s) {t : T} {w : Pass I P}
    (hheld : (s.pc t).held = some p) : Tracked K (clearDirty s t w p) := by
  have hlisted : ∀ j q, (clearDirty s t w p).Listed j q ↔ s.Listed j q :=
    fun _ _ => Iff.rfl
  constructor
  · exact h.nodup
  · exact h.own
  · intro j q hq
    refine (dirty_clear q).mpr ⟨h.listed j q hq, ?_⟩
    rintro rfl
    -- the page whose flag is cleared is held, hence on no list
    exact (h.held t q hheld).2 j hq
  · intro u q hu
    rw [held_clear] at hu
    split at hu
    · cases hu
    · rename_i hut
      obtain ⟨hq, hoff⟩ := h.held u q hu
      refine ⟨(dirty_clear q).mpr ⟨hq, ?_⟩, hoff⟩
      rintro rfl
      exact hut (h.unique u t q hu hheld)
  · intro u v q hu hv
    rw [held_clear] at hu hv
    split at hu
    · cases hu
    · split at hv
      · cases hv
      · exact h.unique u v q hu hv
  · intro q hq
    obtain ⟨hq, hne⟩ := (dirty_clear q).mp hq
    rcases h.dirty q hq with hq | ⟨u, hu⟩
    · exact .inl hq
    · refine .inr ⟨u, ?_⟩
      have hut : u ≠ t := by
        rintro rfl
        exact hne (Option.some.inj (hu.symm.trans hheld))
      rw [held_clear, if_neg hut, hu]

end

omit [DecidableEq T] [DecidableEq I] in
/-- The page after `p` is another page of the list. -/
theorem listed_next (h : Tracked K s) {i : I} {p q : P} (hp : s.Listed i p)
    (hq : K.listNext (s.inodes i).dirtyPages p = some q) :
    s.Listed i q ∧ q ≠ p := by
  rw [K.listNext_of_mem hp] at hq
  refine ⟨List.mem_of_getElem? hq, ?_⟩
  rintro rfl
  obtain ⟨hlt, hget⟩ := List.getElem?_eq_some_iff.mp hq
  have hidx := (h.nodup i).idxOf_getElem _ hlt
  rw [hget] at hidx
  omega

theorem pass_take {i : I} {p : P} {t : T} {caller : Option (Fsync I P)}
    (u : T) :
    ((writebackTake K s t i p caller).pc u).pass =
      if u = t then
        some ⟨i, K.listNext (s.inodes i).dirtyPages p, caller⟩
      else (s.pc u).pass := by
  by_cases hu : u = t
  · simp [writebackTake, Pc.pass, hu]
  · simp [writebackTake, hu]

omit [DecidableEq P] in
/-- A thread that ends its pass is in no pass. -/
theorem pass_end {i : I} {t : T} {caller : Option (Fsync I P)} (u : T) :
    ((writebackEnd s t i caller).pc u).pass =
      if u = t then none else (s.pc u).pass := by
  by_cases hu : u = t
  · subst hu
    cases caller <;> simp [writebackEnd, afterPass, Pc.pass]
  · simp [writebackEnd, hu]

end Sections

/-- The step calls `list_del` only on a page that is on the list. -/
structure DelOnList (K : Kernel I P) (s : State T I P) (a : Action T I P) :
    Prop where
  unmark : ∀ t p, a = .start t (.unmarkPageDirty p) →
    (s.pages p).dirty = true → s.Listed (K.inodeOf p) p
  loop : ∀ w p, s.pc a.thread = .looping w → w.next = some p →
    s.Listed w.inode p

section

omit [DecidableEq T] [DecidableEq I] [DecidableEq P]

theorem Moves.held_eq {s : State T I P} {pc pc' : Pc I P}
    (h : Moves s pc pc') : pc'.held = pc.held := by
  cases h <;> rfl

theorem Moves.pass_eq {s : State T I P} {pc pc' : Pc I P}
    (h : Moves s pc pc') : pc'.pass = pc.pass := by
  cases h <;> rfl

end

omit [DecidableEq T] in
theorem Tracked.setInode {K : Kernel I P} {s : State T I P} (h : Tracked K s)
    {i : I} {x : InodeWbState P}
    (hx : x.dirtyPages = (s.inodes i).dirtyPages) :
    Tracked K (s.setInode i x) :=
  h.congr (s.setInode_field InodeWbState.dirtyPages hx) (fun _ => rfl) (fun _ => rfl)

omit [DecidableEq I] in
theorem Tracked.setPc {K : Kernel I P} {s : State T I P} (h : Tracked K s)
    {t : T} {pc pc' : Pc I P} (hpc : s.pc t = pc) (hheld : pc'.held = pc.held) :
    Tracked K (s.setPc t pc') :=
  h.congr (fun _ => rfl) (fun _ => rfl) (s.apply_pc_of_eq Pc.held hpc hheld)

theorem Tracked.writebackEnd {K : Kernel I P} {s : State T I P}
    (h : Tracked K s) {t : T} {pc : Pc I P} (hpc : s.pc t = pc)
    (hfree : pc.held = none) (i : I) (caller : Option (Fsync I P)) :
    Tracked K (writebackEnd s t i caller) := by
  refine Tracked.setPc (h.setInode (by rfl)) hpc ?_
  rw [hfree]
  cases caller <;> rfl

/-- `Tracked` is kept by every step that takes pages off lists they are
on. -/
theorem Tracked.step {K : Kernel I P} {s s' : State T I P} {a : Action T I P}
    (h : Tracked K s) (hdel : DelOnList K s a) (hstep : Step K s a s') :
    Tracked K s' := by
  cases hstep with
  | write hpc =>
      exact h.congr (fun _ => by rfl) (s.setPage_field Page.dirty (by rfl))
        (s.apply_pc_of_eq Pc.held hpc (by rfl))
  | unmark hpc hdirty => exact h.unmark hdirty (hdel.unmark _ _ rfl hdirty)
  | fsyncBegin hpc => exact Tracked.setPc (h.setInode (by rfl)) hpc (by rfl)
  | mark hpc hclean =>
      exact (h.mark hclean).setPc (by rw [pc_mark, hpc]) (by rfl)
  | @enterTake t i caller p hpc hhead =>
      refine Tracked.take (h.setInode (by rfl)) ?_ ?_ caller
      · rw [State.setInode_pc, hpc]
        rfl
      · exact (s.listed_setInode (by rfl)).mpr (List.mem_of_head? hhead)
  | enterEnd hpc hempty => exact Tracked.writebackEnd (h.setInode (by rfl)) hpc (by rfl) _ _
  | deviceWrite hpc =>
      exact h.congr (fun _ => by rfl) (s.setPage_field Page.dirty (by rfl))
        (s.apply_pc_of_eq Pc.held hpc (by rfl))
  | clear hpc => exact h.clear (by rw [hpc]; rfl)
  | count hpc =>
      exact h.congr (fun _ => by rfl) (fun _ => by rfl)
        (s.apply_pc_of_eq Pc.held hpc (by rfl))
  | loopTake hpc hnext =>
      exact h.take (by rw [hpc]; rfl) (hdel.loop _ _ hpc hnext) _
  | loopEnd hpc hnext => exact h.writebackEnd hpc (by rfl) _ _
  | move hmove => exact h.setPc (by rfl) hmove.held_eq
  | skip => exact h

/-! ## The counter -/

section Counter

variable {K : Kernel I P} {s s' : State T I P}

/-- `nr_dirty` is the length of the dirty list. -/
def Counted (s : State T I P) : Prop :=
  ∀ i, (s.inodes i).nrDirty = (s.inodes i).dirtyPages.length ∧
    (s.inodes i).dirtyPages.length < 2 ^ 32

namespace Counted

omit [DecidableEq T] [DecidableEq I] [DecidableEq P] in
theorem init (h : Initial s) : Counted s := by
  intro i
  simp [h.inodes, inodeWbStateInit]

omit [DecidableEq T] [DecidableEq P] in
theorem setInode (h : Counted s) {i : I} {x : InodeWbState P}
    (hcount : x.nrDirty = x.dirtyPages.length ∧ x.dirtyPages.length < 2 ^ 32) :
    Counted (s.setInode i x) := by
  intro j
  by_cases hj : j = i
  · subst hj
    simpa using hcount
  · simpa [hj] using h j

omit [DecidableEq T] [DecidableEq I] [DecidableEq P] in
theorem same (h : Counted s) (hinodes : s'.inodes = s.inodes) :
    Counted s' := by
  intro i
  rw [hinodes]
  exact h i

section

omit [DecidableEq T]

theorem mark (h : Counted s) {p : P} (hclean : (s.pages p).dirty = false)
    (hroom : (s.inodes (K.inodeOf p)).dirtyPages.length + 1 < 2 ^ 32) :
    Counted (markPageDirty K s p) := by
  have hadd : Counted
      (s.setInode (K.inodeOf p) ((s.inodes (K.inodeOf p)).add p)) := by
    apply h.setInode
    have hold := (h (K.inodeOf p)).1
    simp only [InodeWbState.add, List.length_append, List.length_singleton]
    omega
  exact hadd.same (inodes_mark hclean)

/-- `nr_dirty--` goes with taking a page off the list it is on. -/
theorem del (h : Counted s) {i : I} {p : P} (hp : s.Listed i p) :
    Counted (s.setInode i ((s.inodes i).del K p)) := by
  apply h.setInode
  have hpos := List.length_pos_of_mem hp
  have hlength := List.length_erase_of_mem hp
  have hold := h i
  simp only [InodeWbState.del, K.listDel_of_mem hp]
  omega

end

theorem take (h : Counted s) {i : I} {p : P} (hp : s.Listed i p) (t : T)
    (caller : Option (Fsync I P)) :
    Counted (writebackTake K s t i p caller) :=
  (h.del hp).same rfl

omit [DecidableEq P] in
theorem writebackEnd (h : Counted s) (t : T) (i : I)
    (caller : Option (Fsync I P)) : Counted (writebackEnd s t i caller) := by
  have hflag : Counted
      (s.setInode i { s.inodes i with writebackInProgress := false }) :=
    h.setInode (h i)
  exact hflag.same rfl

/-- The counter is kept exact by every step that takes pages off lists they
are on and does not overflow it. -/
theorem step {a : Action T I P} (h : Counted s) (hdel : DelOnList K s a)
    (hroom : ∀ p, s.pc a.thread = .marking p → (s.pages p).dirty = false →
      (s.inodes (K.inodeOf p)).dirtyPages.length + 1 < 2 ^ 32)
    (hstep : Step K s a s') : Counted s' := by
  cases hstep with
  | write hpc => exact h.same rfl
  | unmark hpc hdirty =>
      rw [unmarkPageDirty, if_pos hdirty]
      exact (h.del (K := K) (hdel.unmark _ _ rfl hdirty)).same rfl
  | @fsyncBegin t i hpc =>
      have hflag : Counted
          (s.setInode i { s.inodes i with flushPending := true }) :=
        h.setInode (h i)
      exact hflag.same rfl
  | mark hpc hclean => exact (h.mark hclean (hroom _ hpc hclean)).same rfl
  | @enterTake t i caller p hpc hhead =>
      refine Counted.take (h.setInode (by exact h i)) ?_ t caller
      exact (s.listed_setInode (by rfl)).mpr (List.mem_of_head? hhead)
  | @enterEnd t i caller hpc hempty =>
      exact Counted.writebackEnd (h.setInode (by exact h i)) t i caller
  | deviceWrite hpc => exact h.same rfl
  | clear hpc => exact h.same rfl
  | count hpc =>
      exact h.same (by simp [countDown])
  | loopTake hpc hnext => exact h.take (hdel.loop _ _ hpc hnext) _ _
  | loopEnd hpc hnext => exact h.writebackEnd _ _ _
  | move hmove => exact h.same rfl
  | skip => exact h

end Counted

end Counter

end Writeback
end OsKernel

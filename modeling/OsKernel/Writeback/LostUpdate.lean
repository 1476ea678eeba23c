import OsKernel.Writeback.Tracking

/-!
# Modified pages that writeback forgets

`writeback_inode` writes a page to the device and clears `page->dirty`
afterwards, outside the lock.  A writer that modifies the page between the two
finds the flag still set, so `mark_page_dirty` returns at once, and then the
flag is cleared: the modification is on no list and nothing will write it
(`modified_page_forgotten`).  `unmark_page_dirty` has no such gap, since it
removes the page and clears the flag in one locked section.

`NoRace` leaves this order of steps out, and with it the removal of a page
that is no longer on the list.  In every run that meets it a modified page is
saved: it is listed, or its device write or its `mark_page_dirty` is still to
come (`Saved`).
-/

namespace OsKernel
namespace Writeback

open Lib

variable {T I P : Type} [DecidableEq T] [DecidableEq I] [DecidableEq P]

/-- The page whose device write or whose `mark_page_dirty` is the thread's
next step. -/
def Pc.saves : Pc I P → Option P
  | .writing _ p | .marking p => some p
  | _ => none

/-- The step is none of those that lose a modification. -/
structure NoRace (K : Kernel I P) (s : State T I P) (a : Action T I P) :
    Prop where
  /-- No page is unmarked: the runs are those of writers and passes. -/
  noUnmark : ∀ t p, a ≠ .start t (.unmarkPageDirty p)
  /-- The page at a pass's saved pointer is still on the list. -/
  loop : ∀ w p, s.pc a.thread = .looping w → w.next = some p →
    s.Listed w.inode p
  /-- `mark_page_dirty` does not run on a page that was modified after a
  device write whose pass has yet to clear the flag. -/
  mark : ∀ p, s.pc a.thread = .marking p → (s.pages p).modified = true →
    ∀ u w, s.pc u ≠ .clearing w p

omit [DecidableEq T] [DecidableEq I] in
theorem NoRace.delOnList {K : Kernel I P} {s : State T I P}
    {a : Action T I P} (h : NoRace K s a) : DelOnList K s a where
  unmark t p ha _ := absurd ha (h.noUnmark t p)
  loop := h.loop

/-- A modified page is listed, or a thread is about to save it. -/
def Saved (K : Kernel I P) (s : State T I P) : Prop :=
  ∀ p, (s.pages p).modified = true →
    s.Listed (K.inodeOf p) p ∨ ∃ t, (s.pc t).saves = some p

section

variable {K : Kernel I P} {s s' : State T I P}

omit [DecidableEq T] [DecidableEq I] in
theorem Saved.congr (h : Saved K s)
    (hlist : ∀ i, (s'.inodes i).dirtyPages = (s.inodes i).dirtyPages)
    (hmodified : ∀ p, (s'.pages p).modified = (s.pages p).modified)
    (hsaves : ∀ t, (s'.pc t).saves = (s.pc t).saves) : Saved K s' := by
  intro p hp
  simp only [State.Listed, hlist, hsaves]
  exact h p (hmodified p ▸ hp)

omit [DecidableEq I] [DecidableEq P] in
/-- A thread that moves leaves a page saved by another thread saved. -/
theorem exists_saves_setPc {t : T} {q : P} {pc' : Pc I P}
    (hother : (s.pc t).saves ≠ some q)
    (hsaved : ∃ u, (s.pc u).saves = some q) :
    ∃ u, (Function.update s.pc t pc' u).saves = some q := by
  obtain ⟨u, hu⟩ := hsaved
  have hut : u ≠ t := by
    rintro rfl
    exact hother hu
  exact ⟨u, by rw [Function.update_of_ne hut, hu]⟩

theorem Saved.write (h : Saved K s) {t : T} {p : P} (hpc : s.pc t = .idle) :
    Saved K (start K s t (.write p)) := by
  intro q hq
  by_cases hqp : q = p
  · subst hqp
    exact .inr ⟨t, by simp [start, Pc.saves]⟩
  · have hmodified : (s.pages q).modified = true := by
      simpa [start, hqp] using hq
    rcases h q hmodified with hlisted | hsaved
    · exact .inl hlisted
    · exact .inr (exists_saves_setPc (by simp [hpc, Pc.saves]) hsaved)

theorem Saved.mark (h : Saved K s) {t : T} {p : P}
    (hpc : s.pc t = .marking p) (hclean : (s.pages p).dirty = false) :
    Saved K ((markPageDirty K s p).setPc t .idle) := by
  intro q hq
  change (markPageDirty K s p).Listed _ q ∨
    ∃ u, (Function.update (markPageDirty K s p).pc t .idle u).saves = some q
  rw [listed_mark hclean, pc_mark]
  by_cases hqp : q = p
  · subst hqp
    exact .inl (.inr ⟨rfl, rfl⟩)
  · have hmodified : (s.pages q).modified = true := by
      rw [State.setPc_pages, pages_mark_of_ne K s hqp] at hq
      exact hq
    rcases h q hmodified with hlisted | hsaved
    · exact .inl (.inl hlisted)
    · refine .inr (exists_saves_setPc ?_ hsaved)
      simpa [hpc, Pc.saves] using Ne.symm hqp

omit [DecidableEq I] in
/-- `mark_page_dirty` may skip a page whose flag is set: the page is listed or
its device write is still to come. -/
theorem Saved.marked (h : Saved K s) (htracked : Tracked K s) {t : T} {p : P}
    (hpc : s.pc t = .marking p) (hdirty : (s.pages p).dirty = true)
    (hmark : (s.pages p).modified = true → ∀ u w, s.pc u ≠ .clearing w p) :
    Saved K (s.setPc t .idle) := by
  intro q hq
  by_cases hqp : q = p
  · subst hqp
    rcases htracked.dirty q hdirty with hlisted | ⟨u, hu⟩
    · exact .inl hlisted
    · refine .inr ⟨u, ?_⟩
      have hut : u ≠ t := by
        rintro rfl
        simp [hpc, Pc.held] at hu
      change (Function.update s.pc t .idle u).saves = some q
      rw [Function.update_of_ne hut]
      -- before its device write the pass saves the page, after it the race is on
      cases hupc : s.pc u with
      | writing w r =>
          simpa [hupc, Pc.held, Pc.saves] using hu
      | clearing w r =>
          obtain rfl : r = q := by simpa [hupc, Pc.held] using hu
          exact absurd hupc (hmark hq u w)
      | _ => simp [hupc, Pc.held] at hu
  · rcases h q hq with hlisted | hsaved
    · exact .inl hlisted
    · refine .inr (exists_saves_setPc ?_ hsaved)
      simpa [hpc, Pc.saves] using Ne.symm hqp

theorem Saved.take (h : Saved K s) (htracked : Tracked K s) {t : T}
    (hfree : (s.pc t).saves = none) {i : I} {p : P} (hp : s.Listed i p)
    (caller : Option (Fsync I P)) :
    Saved K (writebackTake K s t i p caller) := by
  intro q hq
  rw [listed_take htracked hp]
  by_cases hqp : q = p
  · exact .inr ⟨t, by simp [writebackTake, Pc.saves, hqp]⟩
  · have hmodified : (s.pages q).modified = true := by
      simpa [writebackTake, hqp] using hq
    rcases h q hmodified with hlisted | hsaved
    · exact .inl ⟨hlisted, hqp⟩
    · exact .inr (exists_saves_setPc (by simp [hfree]) hsaved)

omit [DecidableEq I] in
theorem Saved.deviceWrite (h : Saved K s) {t : T} {w : Pass I P} {p : P}
    (hpc : s.pc t = .writing w p) :
    Saved K (blockDeviceWritePage s t w p) := by
  intro q hq
  have hqp : q ≠ p := by
    rintro rfl
    simp [blockDeviceWritePage] at hq
  have hmodified : (s.pages q).modified = true := by
    simpa [blockDeviceWritePage, hqp] using hq
  rcases h q hmodified with hlisted | hsaved
  · exact .inl hlisted
  · refine .inr (exists_saves_setPc ?_ hsaved)
    simpa [hpc, Pc.saves] using Ne.symm hqp

omit [DecidableEq T] in
theorem Saved.setInode (h : Saved K s) {i : I} {x : InodeWbState P}
    (hx : x.dirtyPages = (s.inodes i).dirtyPages) :
    Saved K (s.setInode i x) :=
  h.congr (s.setInode_field InodeWbState.dirtyPages hx) (fun _ => rfl) (fun _ => rfl)

omit [DecidableEq I] in
theorem Saved.setPc (h : Saved K s) {t : T} {pc pc' : Pc I P}
    (hpc : s.pc t = pc) (hsaves : pc'.saves = pc.saves) :
    Saved K (s.setPc t pc') :=
  h.congr (fun _ => rfl) (fun _ => rfl) (s.apply_pc_of_eq Pc.saves hpc hsaves)

theorem Saved.writebackEnd (h : Saved K s) {t : T} {pc : Pc I P}
    (hpc : s.pc t = pc) (hfree : pc.saves = none) (i : I)
    (caller : Option (Fsync I P)) : Saved K (writebackEnd s t i caller) := by
  refine Saved.setPc (h.setInode (by rfl)) hpc ?_
  rw [hfree]
  cases caller <;> rfl

theorem Saved.step {a : Action T I P} (h : Saved K s)
    (htracked : Tracked K s) (hok : NoRace K s a) (hstep : Step K s a s') :
    Saved K s' := by
  cases hstep with
  | write hpc => exact h.write hpc
  | unmark hpc hdirty => exact absurd rfl (hok.noUnmark _ _)
  | fsyncBegin hpc => exact Saved.setPc (h.setInode (by rfl)) hpc (by rfl)
  | mark hpc hclean => exact h.mark hpc hclean
  | @enterTake t i caller p hpc hhead =>
      refine Saved.take (h.setInode (by rfl)) (htracked.setInode (by rfl)) ?_ ?_
        caller
      · rw [State.setInode_pc, hpc]
        rfl
      · exact (s.listed_setInode (by rfl)).mpr (List.mem_of_head? hhead)
  | enterEnd hpc hempty =>
      exact Saved.writebackEnd (h.setInode (by rfl)) hpc (by rfl) _ _
  | deviceWrite hpc => exact h.deviceWrite hpc
  | clear hpc =>
      exact h.congr (fun _ => by rfl) (s.setPage_field Page.modified (by rfl))
        (s.apply_pc_of_eq Pc.saves hpc (by rfl))
  | count hpc =>
      exact h.congr (fun _ => by rfl) (fun _ => by rfl)
        (s.apply_pc_of_eq Pc.saves hpc (by rfl))
  | loopTake hpc hnext =>
      exact h.take htracked (by rw [hpc]; rfl) (hok.loop _ _ hpc hnext) _
  | loopEnd hpc hnext => exact h.writebackEnd hpc (by rfl) _ _
  | move hmove =>
      generalize hpc : s.pc a.thread = pc at hmove
      cases hmove with
      | marked hdirty => exact h.marked htracked hpc hdirty (hok.mark _ hpc)
      | _ => exact h.setPc hpc (by rfl)
  | skip => exact h

end

/-- In every run without the race, when no operation is in progress, every
page modified after its last device write is dirty and on the list of its
inode. -/
theorem modified_page_listed {K : Kernel I P} {s : State T I P}
    (hreach : (system K).ReachableWhile (NoRace K) s)
    (hidle : ∀ t, s.pc t = .idle) (p : P)
    (hmodified : (s.pages p).modified = true) :
    (s.pages p).dirty = true ∧ s.Listed (K.inodeOf p) p := by
  have hinv : Tracked K s ∧ Saved K s := by
    refine hreach.invariant (P := fun s => Tracked K s ∧ Saved K s) ?_ ?_
    · intro s hinit
      exact ⟨.init hinit, fun p hp => by simp [hinit.unmodified] at hp⟩
    · rintro s a s' - ⟨htracked, hsaved⟩ hok hstep
      have hcases := step_cases hstep
      exact ⟨htracked.step hok.delOnList hcases, hsaved.step htracked hok hcases⟩
  obtain ⟨htracked, hsaved⟩ := hinv
  rcases hsaved p hmodified with hlisted | ⟨t, ht⟩
  · exact ⟨htracked.listed _ p hlisted, hlisted⟩
  · simp [hidle t, Pc.saves] at ht

/-- With one page, a pass has no next one after it; if no pass is about to clear
the page's flag while it is marked, there is no race. -/
theorem noRace_onePage {s : State Bool Unit Unit} {a : Action Bool Unit Unit}
    (hunmark : ∀ t p, a ≠ .start t (.unmarkPageDirty p))
    (hlast : ∀ w, s.pc a.thread = .looping w → w.next = none)
    (hmark : ∀ p, s.pc a.thread = .marking p → ∀ u, (s.pc u).held = none) :
    NoRace onePageKernel s a where
  noUnmark := hunmark
  loop w p hpc hnext := by
    rw [hlast w hpc] at hnext
    contradiction
  mark p hpc _ u w hu := by
    have hheld := hmark p hpc u
    rw [hu] at hheld
    contradiction

/-- Thread `false` writes to a page, thread `true` writes the page back, and
after its pass the page is written to and marked again. -/
theorem modified_page_listed_once :
    ∃ s : State Bool Unit Unit,
      (system onePageKernel).ReachableWhile (NoRace onePageKernel) s ∧
      (∀ t, s.pc t = .idle) ∧ s.device.length = 1 ∧
      (s.pages ()).modified = true ∧ (s.pages ()).dirty = true ∧
      s.Listed () () := by
  have hstart : (system onePageKernel).ReachableWhile (NoRace onePageKernel)
      (freshState Bool) := .start (freshState_initial Bool)
  have hwrite := hstart.next (a := .start false (.write ()))
    (noRace_onePage (by simp) nofun nofun) rfl
  have hmark := hwrite.next (a := .advance false)
    (noRace_onePage (by simp) nofun fun _ _ u => by cases u <;> rfl) rfl
  have hpass := hmark.next (a := .start true (.writebackInode ()))
    (noRace_onePage (by simp) nofun nofun) rfl
  have htake := hpass.next (a := .advance true)
    (noRace_onePage (by simp) nofun nofun) rfl
  have hdevice := htake.next (a := .advance true)
    (noRace_onePage (by simp) nofun nofun) rfl
  have hclear := hdevice.next (a := .advance true)
    (noRace_onePage (by simp) nofun nofun) rfl
  have hcount := hclear.next (a := .advance true)
    (noRace_onePage (by simp) nofun nofun) rfl
  have hend := hcount.next (a := .advance true)
    (noRace_onePage (by simp) (fun w hw => by cases hw; rfl) nofun) rfl
  have hagain := hend.next (a := .start false (.write ()))
    (noRace_onePage (by simp) nofun nofun) rfl
  have hmarked := hagain.next (a := .advance false)
    (noRace_onePage (by simp) nofun fun _ _ u => by cases u <;> rfl) rfl
  have hlisted := modified_page_listed hmarked (fun t => by cases t <;> rfl) () rfl
  exact ⟨_, hmarked, fun t => by cases t <;> rfl, rfl, rfl, hlisted⟩

/-- A writer modifies the page while a pass is between the device write and
the clearing of the flag. -/
def lostUpdateRun : List (Action Bool Unit Unit) :=
  [.start false (.write ()), .advance false,
   -- the pass takes the page off the list and writes it
   .start true (.writebackInode ()), .advance true, .advance true,
   -- `mark_page_dirty` finds the flag set
   .start false (.write ()), .advance false,
   -- the flag is cleared, the count goes down, the loop ends
   .advance true, .advance true, .advance true]

/-- The modification made during the pass is forgotten. -/
theorem modified_page_forgotten :
    ¬ ∀ s : State Bool Unit Unit, (system onePageKernel).Reachable s →
      (∀ t, s.pc t = .idle) → ∀ p, (s.pages p).modified = true →
      (s.pages p).dirty = true ∧ s.Listed (onePageKernel.inodeOf p) p := by
  intro h
  obtain ⟨s, hrun, hidle, hmodified, hclean⟩ :
      ∃ s, (system onePageKernel).run (freshState Bool) lostUpdateRun = some s ∧
        (∀ t, s.pc t = .idle) ∧ (s.pages ()).modified = true ∧
        (s.pages ()).dirty = false :=
    ⟨_, rfl, fun t => by cases t <;> rfl, rfl, rfl⟩
  have hreach : (system onePageKernel).Reachable s :=
    ActionSystem.Reachable.run (.start (freshState_initial Bool)) hrun
  have hlost := h s hreach hidle () hmodified
  simp [hclean] at hlost

end Writeback
end OsKernel

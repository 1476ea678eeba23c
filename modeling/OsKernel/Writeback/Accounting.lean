import OsKernel.Lib.Totals
import OsKernel.Writeback.Tracking
import Mathlib.Tactic

/-!
# The dirty counters

`writeback_inode` takes a page off its list and decrements `nr_dirty` under the
lock, writes the page, clears its flag and decrements `g_dirty_count` one after
the other without it, and goes on to the page it had saved as the next one.
Two things can go wrong while the lock is released.  `unmark_page_dirty` finds
the flag of the page still set and deletes a node that is on no list, which
takes `nr_dirty` below zero (`dirty_count_wraps`).  And the saved page may be
taken off the list by somebody else, so that the pass deletes it again.

`Undisturbed` leaves out the steps that do the one or prepare the other.  In
every run of the others each counter is exact.
-/

namespace OsKernel
namespace Writeback

open Lib

variable {T I P : Type} [DecidableEq T] [DecidableEq I] [DecidableEq P]

/-- The step calls `list_del` on the page, as one of the inode. -/
inductive Removes (K : Kernel I P) (s : State T I P) :
    Action T I P → I → P → Prop
  | unmark {t : T} {p : P} (hdirty : (s.pages p).dirty = true) :
      Removes K s (.start t (.unmarkPageDirty p)) (K.inodeOf p) p
  | enter {t : T} {i : I} {caller : Option (Fsync I P)} {p : P}
      (hpc : s.pc t = .entering i caller)
      (hhead : (s.inodes i).dirtyPages.head? = some p) :
      Removes K s (.advance t) i p
  | loop {t : T} {w : Pass I P} {p : P} (hpc : s.pc t = .looping w)
      (hnext : w.next = some p) : Removes K s (.advance t) w.inode p

/-- The step does not get in the way of a running pass, and the counters have
room for a page that is added. -/
structure Undisturbed (K : Kernel I P) (s : State T I P) (a : Action T I P) :
    Prop where
  /-- The page taken off a list is not the one another pass goes on to. -/
  saved : ∀ i p, Removes K s a i p → ∀ u w, u ≠ a.thread →
    (s.pc u).pass = some w → w.next ≠ some p
  /-- `unmark_page_dirty` is not called on a page that a pass has taken off
  its list and not yet cleared. -/
  held : ∀ t p, a = .start t (.unmarkPageDirty p) →
    ∀ u, (s.pc u).held ≠ some p
  room : ∀ p, s.pc a.thread = .marking p → (s.pages p).dirty = false →
    (s.inodes (K.inodeOf p)).dirtyPages.length + 1 < 2 ^ 32 ∧
      s.gDirtyCount + 1 < 2 ^ 64

/-! ## The page a pass goes on to -/

/-- The page a pass has saved as its next is on the list. -/
def NextListed (s : State T I P) : Prop :=
  ∀ t w p, (s.pc t).pass = some w → w.next = some p → s.Listed w.inode p

section Next

variable {K : Kernel I P} {s s' : State T I P}

namespace NextListed

section

omit [DecidableEq T] [DecidableEq I] [DecidableEq P]

theorem init (h : Initial s) : NextListed s := by
  simp [NextListed, h.idle, Pc.pass]

/-- Steps that keep the passes and drop no page from a list. -/
theorem congr (h : NextListed s)
    (hpass : ∀ t, (s'.pc t).pass = (s.pc t).pass)
    (hlist : ∀ i p, s.Listed i p → s'.Listed i p) : NextListed s' := by
  intro t w p hw hp
  exact hlist _ p (h t w p (hpass t ▸ hw) hp)

end

omit [DecidableEq I] [DecidableEq P] in
theorem setPc (h : NextListed s) {t : T} {pc pc' : Pc I P}
    (hpc : s.pc t = pc) (hpass : pc'.pass = pc.pass) :
    NextListed (s.setPc t pc') :=
  h.congr (s.apply_pc_of_eq Pc.pass hpc hpass) fun _ _ hp => hp

omit [DecidableEq T] [DecidableEq P] in
theorem setInode (h : NextListed s) {i : I} {x : InodeWbState P}
    (hx : x.dirtyPages = (s.inodes i).dirtyPages) :
    NextListed (s.setInode i x) :=
  h.congr (fun _ => rfl) fun _ _ => (s.listed_setInode hx).mpr

omit [DecidableEq T] in
/-- A page leaves its list that no pass goes on to. -/
theorem unmark (h : NextListed s) (htracked : Tracked K s) {p : P}
    (hdirty : (s.pages p).dirty = true) (hp : s.Listed (K.inodeOf p) p)
    (hfree : ∀ t w, (s.pc t).pass = some w → w.next ≠ some p) :
    NextListed (unmarkPageDirty K s p) := by
  rw [unmarkPageDirty, if_pos hdirty]
  intro t w q hw hq
  refine (listed_del htracked hp w.inode q).mpr ⟨h t w q hw hq, ?_⟩
  rintro rfl
  exact hfree t w hw hq

/-- The pass that takes a page saves the one after it. -/
theorem take (h : NextListed s) (htracked : Tracked K s) {t : T} {i : I}
    {p : P} (hp : s.Listed i p)
    (hfree : ∀ u w, u ≠ t → (s.pc u).pass = some w → w.next ≠ some p)
    (caller : Option (Fsync I P)) :
    NextListed (writebackTake K s t i p caller) := by
  intro u w q hw hq
  rw [listed_take htracked hp]
  rw [pass_take] at hw
  split at hw
  · obtain rfl := Option.some.inj hw
    exact listed_next htracked hp hq
  · rename_i hu
    refine ⟨h u w q hw hq, ?_⟩
    rintro rfl
    exact hfree u w hu hw hq

omit [DecidableEq P] in
theorem writebackEnd (h : NextListed s) {t : T} {i : I}
    (caller : Option (Fsync I P)) :
    NextListed (writebackEnd s t i caller) := by
  intro u w q hw hq
  rw [pass_end] at hw
  split at hw
  · cases hw
  · exact (s.listed_setInode (by rfl)).mpr (h u w q hw hq)

theorem step {a : Action T I P} (h : NextListed s) (htracked : Tracked K s)
    (hdel : DelOnList K s a) (hok : Undisturbed K s a)
    (hstep : Step K s a s') : NextListed s' := by
  cases hstep with
  | write hpc =>
      rw [start]
      exact (h.congr (fun _ => rfl) fun _ _ hp => hp).setPc hpc (by rfl)
  | @unmark t p hpc hdirty =>
      refine h.unmark htracked hdirty (hdel.unmark t p rfl hdirty) ?_
      -- the thread itself is in no pass
      intro u w hw
      by_cases hu : u = t
      · subst hu
        rw [hpc] at hw
        cases hw
      · exact hok.saved _ p (.unmark hdirty) u w hu hw
  | fsyncBegin hpc =>
      rw [Writeback.fsyncBegin]
      exact (h.setInode (by rfl)).setPc hpc (by rfl)
  | @mark t p hpc hclean =>
      refine NextListed.setPc (h.congr ?_ ?_) (by rw [pc_mark, hpc]) (by rfl)
      · intro u
        rw [pc_mark]
      · intro i q hq
        exact (listed_mark hclean i q).mpr (.inl hq)
  | @enterTake t i caller p hpc hhead =>
      refine NextListed.take (h.setInode (by rfl)) (htracked.setInode (by rfl))
        ?_ ?_ caller
      · exact (s.listed_setInode (by rfl)).mpr (List.mem_of_head? hhead)
      · exact fun u w hu hw => hok.saved i p (.enter hpc hhead) u w hu hw
  | enterEnd hpc hempty => exact (h.setInode (by rfl)).writebackEnd _
  | deviceWrite hpc =>
      rw [blockDeviceWritePage]
      exact (h.congr (fun _ => rfl) fun _ _ hp => hp).setPc hpc (by rfl)
  | clear hpc =>
      rw [clearDirty]
      exact (h.congr (fun _ => rfl) fun _ _ hp => hp).setPc hpc (by rfl)
  | count hpc =>
      refine h.congr (s.apply_pc_of_eq Pc.pass hpc (by rfl)) fun i q hq => ?_
      simpa only [State.Listed, countDown, State.setPc_inodes] using hq
  | @loopTake t w p hpc hnext =>
      refine h.take htracked (hdel.loop w p hpc hnext) ?_ w.caller
      exact fun u v hu hv => hok.saved w.inode p (.loop hpc hnext) u v hu hv
  | loopEnd hpc hnext => exact h.writebackEnd _
  | move hmove => exact h.setPc (by rfl) hmove.pass_eq
  | skip => exact h

end NextListed

omit [DecidableEq T] [DecidableEq I] in
theorem Undisturbed.delOnList {a : Action T I P} (h : Undisturbed K s a)
    (htracked : Tracked K s) (hnext : NextListed s) : DelOnList K s a where
  unmark t p ha hdirty := by
    rcases htracked.dirty p hdirty with hlisted | ⟨u, hu⟩
    · exact hlisted
    · exact absurd hu (h.held t p ha u)
  loop w p hpc hp := hnext a.thread w p (by rw [hpc]; rfl) hp

end Next

/-! ## The global counter -/

/-- The pages a thread has taken off a list and not yet counted down. -/
def Pc.inFlight : Pc I P → Nat
  | .writing _ _ | .clearing _ _ | .counting _ => 1
  | _ => 0

omit [DecidableEq T] [DecidableEq I] [DecidableEq P] in
theorem Moves.inFlight_eq {s : State T I P} {pc pc' : Pc I P}
    (h : Moves s pc pc') : pc'.inFlight = pc.inFlight := by
  cases h <;> rfl

/-- The pages on the lists by their counters and those in flight are `n`
together, all inodes and all threads taken. -/
structure Outstanding (s : State T I P) (n : Nat) : Prop where
  inodes_finite : (Function.support fun i => (s.inodes i).nrDirty).Finite
  threads_finite : (Function.support fun t => (s.pc t).inFlight).Finite
  total : ∑ᶠ i, (s.inodes i).nrDirty + ∑ᶠ t, (s.pc t).inFlight = n

section Totals

variable {K : Kernel I P} {s s' : State T I P} {n m : Nat}

namespace Outstanding

section

omit [DecidableEq T] [DecidableEq I] [DecidableEq P]

theorem init (h : Initial s) : Outstanding s 0 where
  inodes_finite := by simp [h.inodes, inodeWbStateInit]
  threads_finite := by simp [h.idle, Pc.inFlight]
  total := by simp [h.inodes, h.idle, inodeWbStateInit, Pc.inFlight]

theorem same (h : Outstanding s n) (hinodes : s'.inodes = s.inodes)
    (hpc : s'.pc = s.pc) : Outstanding s' n := by
  obtain ⟨hi, ht, htotal⟩ := h
  constructor <;> simpa only [hinodes, hpc]

end

omit [DecidableEq T] [DecidableEq P] in
theorem setInode (h : Outstanding s n) {i : I} {x : InodeWbState P}
    (hm : m + (s.inodes i).nrDirty = n + x.nrDirty) :
    Outstanding (s.setInode i x) m := by
  have hupdate : (fun j => ((s.setInode i x).inodes j).nrDirty) =
      Function.update (fun j => (s.inodes j).nrDirty) i x.nrDirty :=
    Function.comp_update InodeWbState.nrDirty s.inodes i x
  have htotal := finsum_update_add h.inodes_finite i x.nrDirty
  exact {
    inodes_finite := by
      rw [hupdate]
      exact finite_support_update h.inodes_finite i _
    threads_finite := h.threads_finite
    total := by
      have hold := h.total
      rw [hupdate]
      simp only [State.setInode_pc] at *
      omega }

omit [DecidableEq I] [DecidableEq P] in
theorem setPc (h : Outstanding s n) {t : T} {pc pc' : Pc I P}
    (hpc : s.pc t = pc) (hm : m + pc.inFlight = n + pc'.inFlight) :
    Outstanding (s.setPc t pc') m := by
  have hupdate : (fun u => ((s.setPc t pc').pc u).inFlight) =
      Function.update (fun u => (s.pc u).inFlight) t pc'.inFlight :=
    Function.comp_update Pc.inFlight s.pc t pc'
  have htotal := finsum_update_add h.threads_finite t pc'.inFlight
  subst hpc
  exact {
    inodes_finite := h.inodes_finite
    threads_finite := by
      rw [hupdate]
      exact finite_support_update h.threads_finite t _
    total := by
      have hold := h.total
      rw [hupdate]
      simp only [State.setPc_inodes] at *
      omega }

section

omit [DecidableEq T] [DecidableEq I] [DecidableEq P]

/-- An inode's counter is at most the total. -/
theorem nrDirty_le (h : Outstanding s n) (i : I) : (s.inodes i).nrDirty ≤ n := by
  have hle := single_le_finsum i h.inodes_finite fun _ => Nat.zero_le _
  have htotal := h.total
  omega

theorem inFlight_le (h : Outstanding s n) (t : T) : (s.pc t).inFlight ≤ n := by
  have hle := single_le_finsum t h.threads_finite fun _ => Nat.zero_le _
  have htotal := h.total
  omega

end

end Outstanding

/-- `g_dirty_count` is the number of pages outstanding. -/
structure Balanced (s : State T I P) : Prop where
  outstanding : Outstanding s s.gDirtyCount
  lt : s.gDirtyCount < 2 ^ 64

namespace Balanced

omit [DecidableEq T] [DecidableEq I] [DecidableEq P] in
/-- The step leaves the global counter alone. -/
theorem keep (h : Balanced s) (hcount : s'.gDirtyCount = s.gDirtyCount)
    (hout : Outstanding s' s.gDirtyCount) : Balanced s' where
  outstanding := hcount ▸ hout
  lt := hcount ▸ h.lt

section

omit [DecidableEq T]

theorem mark (h : Balanced s) (hcounted : Counted s) {p : P}
    (hclean : (s.pages p).dirty = false)
    (hroom : (s.inodes (K.inodeOf p)).dirtyPages.length + 1 < 2 ^ 32 ∧
      s.gDirtyCount + 1 < 2 ^ 64) :
    Balanced (markPageDirty K s p) := by
  have hnr := (hcounted (K.inodeOf p)).1
  have hcount : (markPageDirty K s p).gDirtyCount = s.gDirtyCount + 1 := by
    rw [markPageDirty, if_neg (by simp [hclean])]
    exact Nat.mod_eq_of_lt hroom.2
  have hadd : Outstanding
      (s.setInode (K.inodeOf p) ((s.inodes (K.inodeOf p)).add p))
      (s.gDirtyCount + 1) := by
    apply h.outstanding.setInode
    simp only [InodeWbState.add]
    omega
  constructor
  · rw [hcount]
    exact hadd.same (inodes_mark hclean) (pc_mark K s p)
  · rw [hcount]
    exact hroom.2

/-- A listed page is counted, and one page less is outstanding by the counter
of its inode when it leaves the list. -/
theorem del (h : Balanced s) (hcounted : Counted s) {i : I} {p : P}
    (hp : s.Listed i p) :
    0 < s.gDirtyCount ∧
      Outstanding (s.setInode i ((s.inodes i).del K p))
        (s.gDirtyCount - 1) := by
  have hle := h.outstanding.nrDirty_le i
  have hnr := hcounted i
  have hlength := List.length_pos_of_mem hp
  refine ⟨by omega, h.outstanding.setInode ?_⟩
  simp only [InodeWbState.del]
  omega

theorem unmark (h : Balanced s) (hcounted : Counted s) {p : P}
    (hdirty : (s.pages p).dirty = true) (hp : s.Listed (K.inodeOf p) p) :
    Balanced (unmarkPageDirty K s p) := by
  obtain ⟨hpos, hdel⟩ := h.del (K := K) hcounted hp
  have hlt := h.lt
  have hcount : (unmarkPageDirty K s p).gDirtyCount = s.gDirtyCount - 1 := by
    rw [unmarkPageDirty, if_pos hdirty]
    simp only [State.setPage_gDirtyCount, State.setInode_gDirtyCount]
    omega
  constructor
  · rw [hcount]
    refine hdel.same ?_ ?_ <;> rw [unmarkPageDirty, if_pos hdirty] <;> rfl
  · rw [hcount]
    omega

end

/-- The page moves from the list to the thread. -/
theorem take (h : Balanced s) (hcounted : Counted s) {t : T} {i : I} {p : P}
    {pc : Pc I P} (hpc : s.pc t = pc) (hfree : pc.inFlight = 0)
    (hp : s.Listed i p) (caller : Option (Fsync I P)) :
    Balanced (writebackTake K s t i p caller) := by
  obtain ⟨hpos, hdel⟩ := h.del (K := K) hcounted hp
  refine h.keep (by rfl) (Outstanding.setPc (hdel.same (by rfl) (by rfl)) hpc ?_)
  rw [hfree, Pc.inFlight]
  omega

omit [DecidableEq P] in
theorem writebackEnd (h : Balanced s) {t : T} {i : I} {pc : Pc I P}
    (hpc : s.pc t = pc) (hfree : pc.inFlight = 0)
    (caller : Option (Fsync I P)) : Balanced (writebackEnd s t i caller) := by
  refine h.keep (by rfl) ?_
  refine Outstanding.setPc (h.outstanding.setInode (by rfl)) hpc ?_
  rw [hfree]
  cases caller <;> rfl

omit [DecidableEq I] [DecidableEq P] in
theorem countDown (h : Balanced s) {t : T} {w : Pass I P}
    (hpc : s.pc t = .counting w) : Balanced (countDown s t w) := by
  have hlt := h.lt
  have hpos : 0 < s.gDirtyCount := by
    have hle := h.outstanding.inFlight_le t
    rw [hpc, Pc.inFlight] at hle
    omega
  have hcount : (Writeback.countDown s t w).gDirtyCount =
      s.gDirtyCount - 1 := by
    simp only [Writeback.countDown, State.setPc_gDirtyCount]
    omega
  constructor
  · rw [hcount]
    refine Outstanding.setPc (h.outstanding.same (by rfl) (by rfl)) hpc ?_
    simp only [Pc.inFlight]
    omega
  · rw [hcount]
    omega

theorem step {a : Action T I P} (h : Balanced s) (hcounted : Counted s)
    (hdel : DelOnList K s a) (hok : Undisturbed K s a)
    (hstep : Step K s a s') : Balanced s' := by
  have hout := h.outstanding
  cases hstep with
  | write hpc =>
      exact h.keep (by rfl)
        (Outstanding.setPc (hout.same (by rfl) (by rfl)) hpc (by rfl))
  | unmark hpc hdirty =>
      exact h.unmark hcounted hdirty (hdel.unmark _ _ rfl hdirty)
  | fsyncBegin hpc =>
      exact h.keep (by rfl)
        (Outstanding.setPc (hout.setInode (by rfl)) hpc (by rfl))
  | @mark t p hpc hclean =>
      have hmark := h.mark hcounted hclean (hok.room p hpc hclean)
      have hstill : (markPageDirty K s p).pc t = .marking p := by
        rw [pc_mark, hpc]
      exact hmark.keep (by rfl) (hmark.outstanding.setPc hstill (by rfl))
  | @enterTake t i caller p hpc hhead =>
      -- the flag is set first, which no counter depends on
      have hset : Balanced
          (s.setInode i { s.inodes i with writebackInProgress := true }) :=
        h.keep (by rfl) (hout.setInode (by rfl))
      refine hset.take (hcounted.setInode (hcounted i)) hpc (by rfl) ?_ caller
      exact (s.listed_setInode (by rfl)).mpr (List.mem_of_head? hhead)
  | @enterEnd t i caller hpc hempty =>
      have hset : Balanced
          (s.setInode i { s.inodes i with writebackInProgress := true }) :=
        h.keep (by rfl) (hout.setInode (by rfl))
      exact hset.writebackEnd hpc (by rfl) caller
  | deviceWrite hpc =>
      exact h.keep (by rfl)
        (Outstanding.setPc (hout.same (by rfl) (by rfl)) hpc (by rfl))
  | clear hpc =>
      exact h.keep (by rfl)
        (Outstanding.setPc (hout.same (by rfl) (by rfl)) hpc (by rfl))
  | count hpc => exact h.countDown hpc
  | loopTake hpc hnext =>
      exact h.take hcounted hpc (by rfl) (hdel.loop _ _ hpc hnext) _
  | loopEnd hpc hnext => exact h.writebackEnd hpc (by rfl) _
  | move hmove =>
      exact h.keep (by rfl) (hout.setPc (by rfl) (by rw [hmove.inFlight_eq]))
  | skip => exact h

end Balanced

end Totals

/-! ## Runs -/

/-- The invariant of the undisturbed runs. -/
structure AccountingInv (K : Kernel I P) (s : State T I P) : Prop where
  tracked : Tracked K s
  next : NextListed s
  counted : Counted s
  balanced : Balanced s

theorem reachable_accountingInv {K : Kernel I P} {s : State T I P}
    (hreach : (system K).ReachableWhile (Undisturbed K) s) :
    AccountingInv K s := by
  refine hreach.invariant (P := AccountingInv K) ?_ ?_
  · intro s hinit
    refine ⟨.init hinit, .init hinit, .init hinit, ?_, ?_⟩ <;> rw [hinit.count]
    · exact .init hinit
    · decide
  · intro s a s' _ h hok hstep
    have hcases := step_cases hstep
    have hdel := hok.delOnList h.tracked h.next
    have hroom : ∀ p, s.pc a.thread = .marking p →
        (s.pages p).dirty = false →
        (s.inodes (K.inodeOf p)).dirtyPages.length + 1 < 2 ^ 32 :=
      fun p hpc hclean => (hok.room p hpc hclean).1
    exact
      { tracked := h.tracked.step hdel hcases
        next := h.next.step h.tracked hdel hok hcases
        counted := h.counted.step hdel hroom hcases
        balanced := h.balanced.step h.counted hdel hok hcases }

/-- Both counters are exact. -/
structure Accounted (s : State T I P) : Prop where
  nrDirty_eq : ∀ i, (s.inodes i).nrDirty = (s.inodes i).dirtyPages.length
  inodes_finite : {i | (s.inodes i).nrDirty ≠ 0}.Finite
  threads_finite : {t | (s.pc t).inFlight ≠ 0}.Finite
  gDirtyCount_eq : s.gDirtyCount =
    ∑ᶠ i, (s.inodes i).nrDirty + ∑ᶠ t, (s.pc t).inFlight

/-- In every run whose steps disturb no pass, `nr_dirty` is the length of the
dirty list and `g_dirty_count` the sum of all `nr_dirty` and of the pages in
flight; and a step that takes a page off a list finds it there, with a counter
above zero. -/
theorem dirty_accounting {K : Kernel I P} {s : State T I P}
    (hreach : (system K).ReachableWhile (Undisturbed K) s) :
    Accounted s ∧ ∀ a, Undisturbed K s a → ∀ i p, Removes K s a i p →
      s.Listed i p ∧ 0 < (s.inodes i).nrDirty := by
  have h := reachable_accountingInv hreach
  have hout := h.balanced.outstanding
  refine ⟨⟨fun i => (h.counted i).1, hout.inodes_finite, hout.threads_finite,
    hout.total.symm⟩, fun a hok i p hremoves => ?_⟩
  have hdel := hok.delOnList h.tracked h.next
  have hlisted : s.Listed i p := by
    cases hremoves with
    | unmark hdirty => exact hdel.unmark _ _ rfl hdirty
    | enter hpc hhead => exact List.mem_of_head? hhead
    | loop hpc hnext => exact hdel.loop _ _ hpc hnext
  have hlength := List.length_pos_of_mem hlisted
  have hnr := (h.counted i).1
  exact ⟨hlisted, by omega⟩

omit [DecidableEq I] in
/-- A thread that runs alone and unmarks nothing disturbs no pass. -/
theorem undisturbed_alone {K : Kernel I P} {s : State Unit I P}
    {a : Action Unit I P} (hmark : ∀ t p, a ≠ .start t (.unmarkPageDirty p))
    (hroom : ∀ p, s.pc () = .marking p → (s.pages p).dirty = false →
      (s.inodes (K.inodeOf p)).dirtyPages.length + 1 < 2 ^ 32 ∧
        s.gDirtyCount + 1 < 2 ^ 64) :
    Undisturbed K s a where
  saved _ _ _ _ _ hu _ := absurd rfl hu
  held t p ha := absurd ha (hmark t p)
  room := hroom

/-- A page has been taken off its list and is about to be written: it is still
in the global count. -/
theorem dirty_accounting_in_flight :
    ∃ s : State Unit Unit Unit,
      (system onePageKernel).ReachableWhile (Undisturbed onePageKernel) s ∧
      (s.inodes ()).nrDirty = 0 ∧ (s.pc ()).inFlight = 1 ∧
      s.gDirtyCount = 1 ∧ Accounted s := by
  have hfresh : (system onePageKernel).ReachableWhile
      (Undisturbed onePageKernel) (freshState Unit) :=
    .start (freshState_initial Unit)
  have hwrite := hfresh.next (a := .start () (.write ()))
    (undisturbed_alone nofun nofun) rfl
  have hmark := hwrite.next (a := .advance ())
    (undisturbed_alone nofun fun p _ _ => by cases p; decide) rfl
  have hcall := hmark.next (a := .start () (.writebackInode ()))
    (undisturbed_alone nofun nofun) rfl
  have htake := hcall.next (a := .advance ())
    (undisturbed_alone nofun nofun) rfl
  exact ⟨_, htake, rfl, rfl, rfl, (dirty_accounting htake).1⟩

/-- Thread `true` takes the page off its list; before it has cleared the flag,
thread `false` unmarks the page. -/
def unmarkInFlightRun : List (Action Bool Unit Unit) :=
  [.start false (.write ()), .advance false,
   .start true (.writebackInode ()), .advance true,
   .start false (.unmarkPageDirty ())]

/-- `nr_dirty` goes below zero while the list is empty, and `g_dirty_count`
does not count the page that is in flight. -/
theorem dirty_count_wraps :
    ∃ s, (system onePageKernel).Reachable s ∧
      (system onePageKernel).run (freshState Bool) unmarkInFlightRun = some s ∧
      (s.inodes ()).dirtyPages = [] ∧ (s.inodes ()).nrDirty = 2 ^ 32 - 1 ∧
      s.gDirtyCount = 0 ∧ (s.pc true).inFlight = 1 := by
  have hfresh : (system onePageKernel).Reachable (freshState Bool) :=
    .start (freshState_initial Bool)
  have hrun : ∃ s, (system onePageKernel).run (freshState Bool)
      unmarkInFlightRun = some s ∧ (s.inodes ()).dirtyPages = [] ∧
      (s.inodes ()).nrDirty = 2 ^ 32 - 1 ∧ s.gDirtyCount = 0 ∧
      (s.pc true).inFlight = 1 := ⟨_, rfl, rfl, rfl, rfl, rfl⟩
  obtain ⟨s, hrun, hrest⟩ := hrun
  exact ⟨s, hfresh.run hrun, hrun, hrest⟩

end Writeback
end OsKernel

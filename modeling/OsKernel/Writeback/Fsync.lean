import OsKernel.Writeback.Tracking

/-!
# What `fsync_inode` guarantees

`fsync_inode` returns when `nr_dirty` is zero and `writeback_in_progress` is
not set.  A page leaves the count before it is written, so until it is on the
device only the flag keeps the caller waiting.  But the flag is one boolean for
all passes over the inode: a second pass that ends, even one that found the
list empty, clears it while the first is still about to write its page
(`fsync_returns_early`).

If no pass enters an inode while another is under way there, and the list
stays shorter than `2^32`, the flag tells the truth: it is set as long as a
pass runs (`Passes`), the counter is the length of the list (`Counted`), and
every page the caller was owed is written when the wait ends
(`fsync_durable`).
-/

namespace OsKernel
namespace Writeback

open Lib

variable {T I P : Type} [DecidableEq T] [DecidableEq I] [DecidableEq P]

/-- The step lets no two passes over one inode overlap, and does not overflow
`nr_dirty`. -/
structure NoOverlap (K : Kernel I P) (s : State T I P) (a : Action T I P) :
    Prop where
  /-- No page is unmarked. -/
  noUnmark : ∀ t p, a ≠ .start t (.unmarkPageDirty p)
  /-- A pass makes its first section when no pass over the inode runs. -/
  enter : ∀ i caller, s.pc a.thread = .entering i caller →
    ∀ u w, (s.pc u).pass = some w → w.inode ≠ i
  /-- There is room in the counter for a page that is added. -/
  room : ∀ p, s.pc a.thread = .marking p → (s.pages p).dirty = false →
    (s.inodes (K.inodeOf p)).dirtyPages.length + 1 < 2 ^ 32

/-- Each inode has at most one pass; while it runs, the inode's flag is set,
its saved pointer is on the list, and the page it holds is the inode's. -/
structure Passes (K : Kernel I P) (s : State T I P) : Prop where
  solo : ∀ t u w v, (s.pc t).pass = some w → (s.pc u).pass = some v →
    w.inode = v.inode → t = u
  flag : ∀ t w, (s.pc t).pass = some w →
    (s.inodes w.inode).writebackInProgress = true
  next : ∀ t w p, (s.pc t).pass = some w → w.next = some p →
    s.Listed w.inode p
  held : ∀ t p, (s.pc t).held = some p →
    ∃ w, (s.pc t).pass = some w ∧ w.inode = K.inodeOf p

section Steps

variable {K : Kernel I P} {s s' : State T I P}

omit [DecidableEq T] [DecidableEq I] in
theorem NoOverlap.delOnList {a : Action T I P} (h : NoOverlap K s a)
    (hpasses : Passes K s) : DelOnList K s a where
  unmark t p ha _ := absurd ha (h.noUnmark t p)
  loop w p hpc hnext := hpasses.next a.thread w p (by rw [hpc]; rfl) hnext

namespace Passes

section

omit [DecidableEq T] [DecidableEq I]

theorem init (h : Initial s) : Passes K s := by
  constructor <;> simp [h.idle, Pc.pass, Pc.held]

/-- Steps that keep the threads' passes and held pages, keep the flags of
running passes and drop no page from a list. -/
theorem congr (h : Passes K s)
    (hpass : ∀ t, (s'.pc t).pass = (s.pc t).pass)
    (hheld : ∀ t p, (s'.pc t).held = some p → (s.pc t).held = some p)
    (hflag : ∀ i, (s.inodes i).writebackInProgress = true →
      (s'.inodes i).writebackInProgress = true)
    (hlist : ∀ i p, s.Listed i p → s'.Listed i p) : Passes K s' := by
  constructor
  · simpa only [hpass] using h.solo
  · intro t w hw
    exact hflag _ (h.flag t w (hpass t ▸ hw))
  · intro t w p hw hp
    exact hlist _ p (h.next t w p (hpass t ▸ hw) hp)
  · intro t p hp
    rw [hpass]
    exact h.held t p (hheld t p hp)

end

end Passes

theorem flag_take {i : I} {p : P} {t : T} {caller : Option (Fsync I P)}
    (j : I) :
    ((writebackTake K s t i p caller).inodes j).writebackInProgress =
      (s.inodes j).writebackInProgress :=
  s.setInode_field InodeWbState.writebackInProgress (by rfl) j

/-- The one pass over an inode takes a page: the others run elsewhere. -/
theorem Passes.take (h : Passes K s) (htracked : Tracked K s) {t : T} {i : I}
    {p : P} (hp : s.Listed i p)
    (hflag : (s.inodes i).writebackInProgress = true)
    (hother : ∀ u w, u ≠ t → (s.pc u).pass = some w → w.inode ≠ i)
    (caller : Option (Fsync I P)) :
    Passes K (writebackTake K s t i p caller) := by
  constructor
  · intro u v w x hw hx heq
    rw [pass_take] at hw hx
    -- a second pass over `i` would be one of those `hother` excludes
    split at hw <;> split at hx
    · simp_all
    · rename_i hv
      obtain rfl := Option.some.inj hw
      exact absurd heq.symm (hother v x hv hx)
    · rename_i hu _
      obtain rfl := Option.some.inj hx
      exact absurd heq (hother u w hu hw)
    · exact h.solo u v w x hw hx heq
  · intro u w hw
    rw [flag_take]
    rw [pass_take] at hw
    split at hw
    · obtain rfl := Option.some.inj hw
      exact hflag
    · exact h.flag u w hw
  · intro u w q hw hq
    rw [listed_take htracked hp]
    rw [pass_take] at hw
    split at hw
    · obtain rfl := Option.some.inj hw
      exact listed_next htracked hp hq
    · rename_i hu
      have hlisted := h.next u w q hw hq
      refine ⟨hlisted, ?_⟩
      rintro rfl
      -- the page taken is on one list only, so that pass would run on `i`
      exact hother u w hu hw
        ((htracked.own _ q hlisted).symm.trans (htracked.own i q hp))
  · intro u q hq
    rw [pass_take]
    rw [held_take] at hq
    split at hq
    · rename_i hu
      obtain rfl := Option.some.inj hq
      exact ⟨_, if_pos hu, (htracked.own i p hp).symm⟩
    · rename_i hu
      rw [if_neg hu]
      exact h.held u q hq

omit [DecidableEq P] in
theorem held_end {i : I} {t : T} {caller : Option (Fsync I P)} (u : T) :
    ((writebackEnd s t i caller).pc u).held =
      if u = t then none else (s.pc u).held := by
  by_cases hu : u = t
  · subst hu
    cases caller <;> simp [writebackEnd, afterPass, Pc.held]
  · simp [writebackEnd, hu]

/-- The one pass over an inode ends and clears the flag. -/
theorem Passes.writebackEnd (h : Passes K s) {t : T} {i : I}
    (hother : ∀ u w, u ≠ t → (s.pc u).pass = some w → w.inode ≠ i)
    (caller : Option (Fsync I P)) :
    Passes K (writebackEnd s t i caller) := by
  have hlist : ∀ j q, (Writeback.writebackEnd s t i caller).Listed j q ↔
      s.Listed j q := fun j q => s.listed_setInode (by rfl)
  constructor
  · intro u v w x hw hx heq
    rw [pass_end] at hw hx
    split at hw <;> split at hx <;> first | cases hw | cases hx | skip
    exact h.solo u v w x hw hx heq
  · intro u w hw
    rw [pass_end] at hw
    split at hw
    · cases hw
    · rename_i hu
      simpa [Writeback.writebackEnd, hother u w hu hw] using h.flag u w hw
  · intro u w q hw hq
    rw [pass_end] at hw
    split at hw
    · cases hw
    · exact (hlist _ q).mpr (h.next u w q hw hq)
  · intro u q hq
    rw [held_end] at hq
    rw [pass_end]
    split at hq
    · cases hq
    · rename_i hu
      rw [if_neg hu]
      exact h.held u q hq

omit [DecidableEq I] in
/-- A thread's move inside or outside a pass. -/
theorem Passes.setPc (h : Passes K s) {t : T} {pc pc' : Pc I P}
    (hpc : s.pc t = pc) (hpass : pc'.pass = pc.pass)
    (hheld : pc'.held = pc.held) : Passes K (s.setPc t pc') := by
  refine h.congr (s.apply_pc_of_eq Pc.pass hpc hpass) (fun u p hp => ?_)
    (fun _ hi => hi) (fun _ _ hp => hp)
  exact (s.apply_pc_of_eq Pc.held hpc hheld u).symm.trans hp

omit [DecidableEq T] [DecidableEq I] in
/-- Pages, the device and the global count are not read. -/
theorem Passes.same (h : Passes K s) (hinodes : s'.inodes = s.inodes)
    (hpc : s'.pc = s.pc) : Passes K s' := by
  refine h.congr (fun _ => by rw [hpc]) (fun _ _ hp => by rwa [hpc] at hp)
    (fun _ hi => by rwa [hinodes]) (fun _ _ hp => ?_)
  rwa [State.Listed, hinodes]

omit [DecidableEq T] in
/-- Setting `writeback_in_progress` or `flush_pending`. -/
theorem Passes.setInode (h : Passes K s) {i : I} {x : InodeWbState P}
    (hflag : (s.inodes i).writebackInProgress = true →
      x.writebackInProgress = true)
    (hx : x.dirtyPages = (s.inodes i).dirtyPages) :
    Passes K (s.setInode i x) := by
  refine h.congr (fun _ => rfl) (fun _ _ hp => hp) (fun j hj => ?_)
    (fun j p hp => ?_)
  · by_cases hji : j = i
    · subst hji
      simpa using hflag hj
    · simpa [hji] using hj
  · exact (s.listed_setInode hx).mpr hp

/-- Marking a clean page leaves every pass as it is. -/
theorem Passes.mark (h : Passes K s) {t : T} {p : P}
    (hpc : s.pc t = .marking p) (hclean : (s.pages p).dirty = false) :
    Passes K ((markPageDirty K s p).setPc t .idle) := by
  refine Passes.setPc (h.congr ?_ ?_ ?_ ?_) (by rw [pc_mark, hpc]) (by rfl)
    (by rfl)
  · intro u
    rw [pc_mark]
  · intro u q hq
    rwa [pc_mark] at hq
  · intro i hi
    rw [inodes_mark hclean]
    exact (s.setInode_field InodeWbState.writebackInProgress (by rfl) i).trans
      hi
  · intro i q hq
    exact (listed_mark hclean i q).mpr (.inl hq)

omit [DecidableEq T] [DecidableEq I] in
/-- The other passes run on other inodes. -/
theorem Passes.elsewhere (h : Passes K s) {t : T} {w : Pass I P}
    (hpass : (s.pc t).pass = some w) :
    ∀ u v, u ≠ t → (s.pc u).pass = some v → v.inode ≠ w.inode := by
  intro u v hu hv heq
  exact hu (h.solo u t v w hv hpass heq)

theorem Passes.step {a : Action T I P} (h : Passes K s)
    (htracked : Tracked K s) (hok : NoOverlap K s a)
    (hstep : Step K s a s') : Passes K s' := by
  cases hstep with
  | write hpc =>
      rw [start]
      exact (h.same (by rfl) (by rfl)).setPc hpc (by rfl) (by rfl)
  -- an unmarked page could be the one a pass has saved as its next
  | unmark hpc hdirty => exact absurd rfl (hok.noUnmark _ _)
  | fsyncBegin hpc =>
      rw [Writeback.fsyncBegin]
      exact (h.setInode (by exact fun hi => hi) (by rfl)).setPc hpc (by rfl)
        (by rfl)
  | mark hpc hclean => exact h.mark hpc hclean
  | @enterTake t i caller p hpc hhead =>
      refine Passes.take (h.setInode (fun _ => rfl) (by rfl))
        (htracked.setInode (by rfl)) ?_ (by simp) ?_ caller
      · exact (s.listed_setInode (by rfl)).mpr (List.mem_of_head? hhead)
      · intro u w _ hw
        exact hok.enter i caller hpc u w hw
  | @enterEnd t i caller hpc hempty =>
      refine Passes.writebackEnd (h.setInode (fun _ => rfl) (by rfl)) ?_ caller
      intro u w _ hw
      exact hok.enter i caller hpc u w hw
  | deviceWrite hpc =>
      rw [blockDeviceWritePage]
      exact (h.same (by rfl) (by rfl)).setPc hpc (by rfl) (by rfl)
  | @clear t w p hpc =>
      refine h.congr (s.apply_pc_of_eq Pc.pass hpc (by rfl)) ?_
        (fun _ hi => hi) (fun _ _ hp => hp)
      intro u q hq
      rw [held_clear] at hq
      split at hq
      · cases hq
      · exact hq
  | count hpc =>
      rw [countDown]
      exact (h.same (by rfl) (by rfl)).setPc hpc (by rfl) (by rfl)
  | @loopTake t w p hpc hnext =>
      have hpass : (s.pc t).pass = some w := by
        rw [hpc]
        rfl
      exact h.take htracked (h.next t w p hpass hnext) (h.flag t w hpass)
        (h.elsewhere hpass) _
  | @loopEnd t w hpc hnext =>
      have hpass : (s.pc t).pass = some w := by
        rw [hpc]
        rfl
      exact h.writebackEnd (h.elsewhere hpass) _
  | move hmove => exact h.setPc (by rfl) hmove.pass_eq hmove.held_eq
  | skip => exact h

/-! ## What the callers are owed -/

/-- A page is written before its flag is cleared, and a page that was dirty
when an `fsync_inode` began has been written or is dirty since then. -/
structure Durable (K : Kernel I P) (s : State T I P) : Prop where
  timed : ∀ p, (s.pages p).dirty = true →
    (s.pages p).dirtiedAt ≤ s.device.length
  written : ∀ t w p, s.pc t = .clearing w p →
    s.WrittenSince p (s.pages p).dirtiedAt
  owed : ∀ t f p since, (s.pc t).fsync = some f →
    f.dirtyAtBegin p = some since → K.inodeOf p = f.inode ∧
      (s.WrittenSince p since ∨
        ((s.pages p).dirty = true ∧ (s.pages p).dirtiedAt = since))

omit [DecidableEq T] [DecidableEq I] [DecidableEq P] in
theorem State.WrittenSince.mono {p : P} {since : Nat}
    (h : s.WrittenSince p since) (hdevice : s.device <+: s'.device) :
    s'.WrittenSince p since := by
  obtain ⟨w, hw, hpage⟩ := h
  exact ⟨w, (hdevice.drop since).subset hw, hpage⟩

namespace Durable

section

omit [DecidableEq T] [DecidableEq I]

theorem init (h : Initial s) : Durable K s := by
  constructor <;> simp [h.clean, h.idle, Pc.fsync]

/-- Steps that keep the flags and their times. -/
theorem congr (h : Durable K s) (hdevice : s.device <+: s'.device)
    (hdirty : ∀ p, (s'.pages p).dirty = (s.pages p).dirty)
    (htime : ∀ p, (s'.pages p).dirtiedAt = (s.pages p).dirtiedAt)
    (hclearing : ∀ t w p, s'.pc t = .clearing w p → s.pc t = .clearing w p ∨
      s'.WrittenSince p (s.pages p).dirtiedAt)
    (hfsync : ∀ t f, (s'.pc t).fsync = some f → (s.pc t).fsync = some f) :
    Durable K s' := by
  constructor
  · intro p hp
    rw [hdirty] at hp
    rw [htime]
    exact (h.timed p hp).trans hdevice.length_le
  · intro t w p hpc
    rw [htime]
    rcases hclearing t w p hpc with hpc | hwritten
    · exact (h.written t w p hpc).mono hdevice
    · exact hwritten
  · intro t f p since hf hp
    obtain ⟨hinode, hcases⟩ := h.owed t f p since (hfsync t f hf) hp
    rw [hdirty, htime]
    exact ⟨hinode, hcases.imp_left fun hwritten => hwritten.mono hdevice⟩

end

omit [DecidableEq I] in
/-- Moves that keep pages and device and do not lead to the clearing of a
flag. -/
theorem move (h : Durable K s) {t : T} {pc pc' : Pc I P}
    (hdevice : s'.device = s.device)
    (hdirty : ∀ p, (s'.pages p).dirty = (s.pages p).dirty)
    (htime : ∀ p, (s'.pages p).dirtiedAt = (s.pages p).dirtiedAt)
    (hmoved : s'.pc = Function.update s.pc t pc') (hpc : s.pc t = pc)
    (hclearing : ∀ w p, pc' ≠ .clearing w p)
    (hfsync : ∀ f, pc'.fsync = some f → pc.fsync = some f) :
    Durable K s' := by
  refine h.congr (hdevice ▸ List.prefix_rfl) hdirty htime
    (fun u w p hu => .inl ?_) (fun u f hu => ?_)
  · rw [hmoved] at hu
    exact s.of_update (Q := fun pc => pc = .clearing w p) hpc
      (fun hw => absurd hw (hclearing w p)) u hu
  · rw [hmoved] at hu
    exact s.of_update (Q := fun pc => pc.fsync = some f) hpc (hfsync f) u hu

theorem fsyncBegin (h : Durable K s) {t : T} (i : I) (hpc : s.pc t = .idle) :
    Durable K (fsyncBegin K s t i) := by
  constructor
  · exact h.timed
  · intro u w p hu
    exact h.written u w p
      (s.of_update (Q := fun pc => pc = .clearing w p) hpc (by simp) u hu)
  · intro u f p since hf hp
    by_cases hut : u = t
    · subst hut
      -- the caller's own snapshot, taken in this state
      obtain rfl : (⟨i, dirtyNow K s i⟩ : Fsync I P) = f := by
        simpa [Writeback.fsyncBegin, Pc.fsync] using hf
      by_cases hnow : K.inodeOf p = i ∧ (s.pages p).dirty = true
      · obtain rfl : (s.pages p).dirtiedAt = since := by
          simpa [dirtyNow, hnow] using hp
        exact ⟨hnow.1, .inr ⟨hnow.2, rfl⟩⟩
      · simp [dirtyNow, hnow] at hp
    · have hold : (s.pc u).fsync = some f := by
        simpa [Writeback.fsyncBegin, hut] using hf
      exact h.owed u f p since hold hp

theorem mark (h : Durable K s) (htracked : Tracked K s) {t : T} {p : P}
    (hpc : s.pc t = .marking p) (hclean : (s.pages p).dirty = false) :
    Durable K ((markPageDirty K s p).setPc t .idle) := by
  have hsince : ∀ q since, ((markPageDirty K s p).setPc t .idle).WrittenSince
      q since ↔ s.WrittenSince q since := by
    intro q since
    simp only [State.WrittenSince, State.setPc_device, device_mark]
  constructor
  · intro q hq
    rw [State.setPc_pages] at hq
    rw [State.setPc_pages, State.setPc_device, device_mark]
    by_cases hqp : q = p
    · subst hqp
      rw [markPageDirty, if_neg (by simp [hclean])]
      simp
    · rw [pages_mark_of_ne K s hqp] at hq ⊢
      exact h.timed q hq
  · intro u w q hu
    rw [State.setPc_pc, pc_mark] at hu
    have hold : s.pc u = .clearing w q :=
      s.of_update (Q := fun pc => pc = .clearing w q) hpc (by simp) u hu
    -- a page whose flag is to be cleared is dirty, so it is not the new one
    have hqp : q ≠ p := by
      rintro rfl
      have hdirty := (htracked.held u q (by rw [hold]; rfl)).1
      simp [hclean] at hdirty
    rw [hsince, State.setPc_pages, pages_mark_of_ne K s hqp]
    exact h.written u w q hold
  · intro u f q since hf hq
    rw [State.setPc_pc, pc_mark] at hf
    have hold : (s.pc u).fsync = some f :=
      s.of_update (Q := fun pc => pc.fsync = some f) hpc (by simp [Pc.fsync]) u hf
    obtain ⟨hinode, hcases⟩ := h.owed u f q since hold hq
    refine ⟨hinode, ?_⟩
    rw [hsince, State.setPc_pages]
    rcases hcases with hwritten | ⟨hdirty, htime⟩
    · exact .inl hwritten
    · have hqp : q ≠ p := by
        rintro rfl
        simp [hclean] at hdirty
      rw [pages_mark_of_ne K s hqp]
      exact .inr ⟨hdirty, htime⟩

section

omit [DecidableEq I]

theorem deviceWrite (h : Durable K s) (htracked : Tracked K s) {t : T}
    {w : Pass I P} {p : P} (hpc : s.pc t = .writing w p) :
    Durable K (blockDeviceWritePage s t w p) := by
  refine h.congr (List.prefix_append _ _)
    (s.setPage_field Page.dirty (by rfl))
    (s.setPage_field Page.dirtiedAt (by rfl)) ?_ ?_
  · intro u v q hu
    by_cases hut : u = t
    · subst hut
      obtain ⟨-, rfl⟩ : w = v ∧ p = q := by
        simpa [blockDeviceWritePage] using hu
      have hdirty := (htracked.held u p (by rw [hpc]; rfl)).1
      refine .inr ⟨⟨w.inode, p, (s.pages p).offset⟩, ?_, rfl⟩
      -- the page was dirtied no later than this write, the last of the log
      change _ ∈ (s.device ++ [_]).drop _
      rw [List.drop_append_of_le_length (h.timed p hdirty)]
      simp
    · exact .inl (by simpa [blockDeviceWritePage, hut] using hu)
  · intro u f hu
    exact s.of_update (Q := fun pc => pc.fsync = some f) hpc
      (by exact fun hf => hf) u hu

theorem clear (h : Durable K s) {t : T} {w : Pass I P} {p : P}
    (hpc : s.pc t = .clearing w p) : Durable K (clearDirty s t w p) := by
  have htime : ∀ q, ((clearDirty s t w p).pages q).dirtiedAt =
      (s.pages q).dirtiedAt :=
    s.setPage_field Page.dirtiedAt (by rfl)
  constructor
  · intro q hq
    rw [htime]
    exact h.timed q ((dirty_clear q).mp hq).1
  · intro u v q hu
    rw [htime]
    exact h.written u v q
      (s.of_update (Q := fun pc => pc = .clearing v q) hpc (by simp) u hu)
  · intro u f q since hf hq
    have hold : (s.pc u).fsync = some f :=
      s.of_update (Q := fun pc => pc.fsync = some f) hpc
        (by exact fun hf => hf) u hf
    obtain ⟨hinode, hcases⟩ := h.owed u f q since hold hq
    refine ⟨hinode, ?_⟩
    rw [htime, dirty_clear]
    rcases hcases with hwritten | ⟨hdirty, rfl⟩
    · exact .inl hwritten
    · by_cases hqp : q = p
      · subst hqp
        -- the flag goes, but the write of this pass is on the device
        exact .inl (h.written t w q hpc)
      · exact .inr ⟨⟨hdirty, hqp⟩, rfl⟩

end

theorem take (h : Durable K s) {t : T} {pc : Pc I P} (hpc : s.pc t = pc)
    {caller : Option (Fsync I P)} (hcaller : pc.fsync = caller) (i : I)
    (p : P) : Durable K (writebackTake K s t i p caller) := by
  exact h.move (by rfl) dirty_take (s.setPage_field Page.dirtiedAt (by rfl))
    (by rfl) hpc (by simp) (by exact fun f hf => hcaller.trans hf)

theorem writebackEnd (h : Durable K s) {t : T} {pc : Pc I P}
    (hpc : s.pc t = pc) {caller : Option (Fsync I P)}
    (hcaller : pc.fsync = caller) (i : I) :
    Durable K (writebackEnd s t i caller) := by
  refine h.move (by rfl) (fun _ => rfl) (fun _ => rfl) (by rfl) hpc ?_ ?_
  · cases caller <;> simp [afterPass]
  · intro f hf
    rw [hcaller]
    cases caller with
    | none => cases hf
    | some g => exact hf

omit [DecidableEq T] in
theorem setInode (h : Durable K s) (i : I) (x : InodeWbState P) :
    Durable K (s.setInode i x) :=
  h.congr List.prefix_rfl (fun _ => rfl) (fun _ => rfl)
    (fun _ _ _ hpc => .inl hpc) (fun _ _ hf => hf)

theorem step {a : Action T I P} (h : Durable K s) (htracked : Tracked K s)
    (hok : NoOverlap K s a) (hstep : Step K s a s') : Durable K s' := by
  cases hstep with
  | write hpc =>
      exact h.move (by rfl) (s.setPage_field Page.dirty (by rfl))
        (s.setPage_field Page.dirtiedAt (by rfl)) (by rfl) hpc (by simp)
        (by simp [Pc.fsync])
  | unmark hpc hdirty => exact absurd rfl (hok.noUnmark _ _)
  | fsyncBegin hpc => exact h.fsyncBegin _ hpc
  | mark hpc hclean => exact h.mark htracked hpc hclean
  | enterTake hpc hhead =>
      exact Durable.take (h.setInode _ _) hpc (by rfl) _ _
  | enterEnd hpc hempty =>
      exact Durable.writebackEnd (h.setInode _ _) hpc (by rfl) _
  | deviceWrite hpc => exact h.deviceWrite htracked hpc
  | clear hpc => exact h.clear hpc
  | count hpc =>
      exact h.move (by simp [countDown]) (fun _ => by simp [countDown])
        (fun _ => by simp [countDown]) (by rw [countDown]; rfl) hpc (by simp)
        (by exact fun _ hf => hf)
  | loopTake hpc hnext => exact h.take hpc (by rfl) _ _
  | loopEnd hpc hnext => exact h.writebackEnd hpc (by rfl) _
  | move hmove =>
      generalize hpc : s.pc a.thread = pc at hmove
      refine h.move (by rfl) (fun _ => rfl) (fun _ => rfl) (by rfl) hpc ?_ ?_
      · cases hmove <;> simp
      · cases hmove with
        | fsyncEnter => exact fun _ hf => hf
        | fsyncWait => exact fun _ hf => hf
        | _ => simp [Pc.fsync]
  | skip => exact h

end Durable

end Steps

/-- The invariant of the runs without overlapping passes. -/
structure FsyncInv (K : Kernel I P) (s : State T I P) : Prop where
  tracked : Tracked K s
  passes : Passes K s
  counted : Counted s
  durable : Durable K s

theorem reachable_fsyncInv {K : Kernel I P} {s : State T I P}
    (hreach : (system K).ReachableWhile (NoOverlap K) s) : FsyncInv K s := by
  refine hreach.invariant (P := FsyncInv K) ?_ ?_
  · intro s hinit
    exact ⟨.init hinit, .init hinit, .init hinit, .init hinit⟩
  · intro s a s' _ h hok hstep
    have hcases := step_cases hstep
    exact
      { tracked := h.tracked.step (hok.delOnList h.passes) hcases
        passes := h.passes.step h.tracked hok hcases
        counted := h.counted.step (hok.delOnList h.passes) hok.room hcases
        durable := h.durable.step h.tracked hok hcases }

omit [DecidableEq T] [DecidableEq I] in
/-- When the test of the waiting loop succeeds, the inode has no dirty
page. -/
theorem FsyncInv.clean_of_done {K : Kernel I P} {s : State T I P}
    (h : FsyncInv K s) {p : P}
    (hdone : fsyncDone s (K.inodeOf p) = true) :
    (s.pages p).dirty = false := by
  obtain ⟨hzero, hflag⟩ : (s.inodes (K.inodeOf p)).nrDirty = 0 ∧
      (s.inodes (K.inodeOf p)).writebackInProgress = false := by
    simpa [fsyncDone] using hdone
  by_contra hdirty
  rcases h.tracked.dirty p (by simpa using hdirty) with hlisted | ⟨u, hu⟩
  · -- a listed page is counted
    have hlength := (h.counted (K.inodeOf p)).1
    have hpos := List.length_pos_of_mem hlisted
    omega
  · -- a page off the list is held by a pass, which keeps the flag set
    obtain ⟨w, hw, hinode⟩ := h.passes.held u p hu
    have hset := h.passes.flag u w hw
    rw [hinode, hflag] at hset
    cases hset

/-- In every run without overlapping passes, when `fsync_inode` returns, every
page of the inode that was dirty when the call began has been written to the
device after it was dirtied. -/
theorem fsync_durable {K : Kernel I P} {s s' : State T I P} {t : T}
    {f : Fsync I P} (hreach : (system K).ReachableWhile (NoOverlap K) s)
    (hwait : s.pc t = .fsyncWait f)
    (hstep : (system K).step s (.advance t) = some s')
    (hreturn : s'.pc t = .idle) {p : P} {since : Nat}
    (hdirty : f.dirtyAtBegin p = some since) : s'.WrittenSince p since := by
  have h := reachable_fsyncInv hreach
  obtain rfl : fsyncRound s t f = s' := by
    simpa [system, step, advance, hwait] using hstep
  have hdone : fsyncDone s f.inode = true := by
    by_contra hnot
    simp [fsyncRound, hnot, hwait] at hreturn
  obtain ⟨hinode, hcases⟩ :=
    h.durable.owed t f p since (by rw [hwait]; rfl) hdirty
  have hclean := h.clean_of_done (p := p) (by rw [hinode]; exact hdone)
  rcases hcases with hwritten | ⟨hstill, _⟩
  · rw [fsyncRound, if_pos hdone]
    exact hwritten
  · simp [hclean] at hstill

omit [DecidableEq T] [DecidableEq I] in
/-- A pass that begins when no thread is inside another one overlaps with
none. -/
theorem noOverlap_alone {K : Kernel I P} {s : State T I P} {a : Action T I P}
    (hmark : ∀ t p, a ≠ .start t (.unmarkPageDirty p))
    (halone : ∀ i caller, s.pc a.thread = .entering i caller →
      ∀ u, (s.pc u).pass = none)
    (hroom : ∀ p, s.pc a.thread = .marking p → (s.pages p).dirty = false →
      (s.inodes (K.inodeOf p)).dirtyPages.length + 1 < 2 ^ 32) :
    NoOverlap K s a where
  noUnmark := hmark
  enter i caller hpc u w hw := by
    rw [halone i caller hpc u] at hw
    contradiction
  room := hroom

/-- Thread `true`, the flush thread, writes the page back.  Before its pass has
ended, thread `false` dirties the page again and calls `fsync_inode`, which makes
a pass of its own after it. -/
theorem fsync_durable_alone :
    ∃ (s s' : State Bool Unit Unit) (f : Fsync Unit Unit),
      (system onePageKernel).ReachableWhile (NoOverlap onePageKernel) s ∧
      s.pc false = .fsyncWait f ∧
      (system onePageKernel).step s (.advance false) = some s' ∧
      s'.pc false = .idle ∧ f.dirtyAtBegin () = some 1 ∧
      s'.device.length = 2 ∧ s'.WrittenSince () 1 := by
  have hfresh : (system onePageKernel).ReachableWhile (NoOverlap onePageKernel)
      (freshState Bool) := .start (freshState_initial Bool)
  have hwrite := hfresh.next (a := .start false (.write ()))
    (noOverlap_alone nofun nofun nofun) rfl
  have hmark := hwrite.next (a := .advance false)
    (noOverlap_alone nofun nofun fun p _ _ => by cases p; decide) rfl
  -- the flush thread takes the page, writes it and clears its flag
  have hflush := hmark.next (a := .start true (.flushInode ()))
    (noOverlap_alone nofun nofun nofun) rfl
  have hfirst := hflush.next (a := .advance true)
    (noOverlap_alone nofun (fun _ _ _ u => by cases u <;> rfl) nofun) rfl
  have hfirstWrite := hfirst.next (a := .advance true)
    (noOverlap_alone nofun nofun nofun) rfl
  have hfirstClear := hfirstWrite.next (a := .advance true)
    (noOverlap_alone nofun nofun nofun) rfl
  have hfirstCount := hfirstClear.next (a := .advance true)
    (noOverlap_alone nofun nofun nofun) rfl
  -- the page is dirtied again, and `fsync_inode` is called
  have hagain := hfirstCount.next (a := .start false (.write ()))
    (noOverlap_alone nofun nofun nofun) rfl
  have hmarked := hagain.next (a := .advance false)
    (noOverlap_alone nofun nofun fun p _ _ => by cases p; decide) rfl
  have hbegin := hmarked.next (a := .start false (.fsyncInode ()))
    (noOverlap_alone nofun nofun nofun) rfl
  have htest := hbegin.next (a := .advance false)
    (noOverlap_alone nofun nofun nofun) rfl
  have hfirstEnd := htest.next (a := .advance true)
    (noOverlap_alone nofun nofun nofun) rfl
  -- the pass of `fsync_inode`
  have htake := hfirstEnd.next (a := .advance false)
    (noOverlap_alone nofun (fun _ _ _ u => by cases u <;> rfl) nofun) rfl
  have hdevice := htake.next (a := .advance false)
    (noOverlap_alone nofun nofun nofun) rfl
  have hclear := hdevice.next (a := .advance false)
    (noOverlap_alone nofun nofun nofun) rfl
  have hcount := hclear.next (a := .advance false)
    (noOverlap_alone nofun nofun nofun) rfl
  have hend := hcount.next (a := .advance false)
    (noOverlap_alone nofun nofun nofun) rfl
  have hdurable := fsync_durable (t := false) (p := ()) hend rfl rfl rfl rfl
  exact ⟨_, _, _, hend, rfl, rfl, rfl, rfl, rfl, hdurable⟩

/-- The flush thread `1` and `fsync_inode` in thread `2` have both seen the
page that thread `0` dirtied.  The flush thread takes it; the pass of
`fsync_inode` finds the list empty, ends and clears the flag. -/
def earlyReturnRun : List (Action (Fin 3) Unit Unit) :=
  [.start 0 (.write ()), .advance 0,
   .start 1 (.flushInode ()),
   .start 2 (.fsyncInode ()), .advance 2,
   -- the page leaves the list and the count, its device write is to come
   .advance 1,
   -- the second pass sets the flag and clears it again
   .advance 2]

/-- `fsync_inode` can return before the page has been written. -/
theorem fsync_returns_early :
    ¬ ∀ (s s' : State (Fin 3) Unit Unit) (t : Fin 3) (f : Fsync Unit Unit),
      (system onePageKernel).Reachable s → s.pc t = .fsyncWait f →
      (system onePageKernel).step s (.advance t) = some s' →
      s'.pc t = .idle → ∀ p since, f.dirtyAtBegin p = some since →
      s'.WrittenSince p since := by
  intro h
  obtain ⟨s, s', f, hrun, hwait, hstep, hreturn, hdirty, hdevice⟩ :
      ∃ (s s' : State (Fin 3) Unit Unit) (f : Fsync Unit Unit),
        (system onePageKernel).run (freshState (Fin 3)) earlyReturnRun =
          some s ∧ s.pc 2 = .fsyncWait f ∧
        (system onePageKernel).step s (.advance 2) = some s' ∧
        s'.pc 2 = .idle ∧ f.dirtyAtBegin () = some 0 ∧ s'.device = [] :=
    ⟨_, _, _, rfl, rfl, rfl, rfl, rfl, rfl⟩
  have hreach : (system onePageKernel).Reachable s :=
    ActionSystem.Reachable.run (.start (freshState_initial (Fin 3))) hrun
  obtain ⟨w, hw, _⟩ := h s s' 2 f hreach hwait hstep hreturn () 0 hdirty
  simp [hdevice] at hw

end Writeback
end OsKernel

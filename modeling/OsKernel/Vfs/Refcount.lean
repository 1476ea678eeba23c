import OsKernel.Lib.KeyedLists
import OsKernel.Vfs.Slots

/-!
# References to inodes

`vfs_put_dentry` takes the count of its inode down twice, once itself and once
through `vfs_put_inode`.  The count of an inode is therefore the number of its
references less the number of its dentries put so far.

As long as no put takes the count of an inode with a dropped dentry to zero,
a slot is released exactly with the last reference.
-/

namespace OsKernel
namespace Vfs

open Lib

/-- An inode has its slot, is on the list of its super block and has not been
evicted as long as somebody refers to it, and no longer. -/
structure ReferenceSafe (s : State) : Prop where
  slot : ∀ o, o < s.ledger.created → (s.Holds o ↔ s.Referenced o)
  listed : ∀ o, o < s.ledger.created →
    ((s.ledger.object o).slot ∈ s.sInodes (s.ledger.object o).sb ∧
      s.ledger.owner (s.ledger.object o).slot = o ↔ s.Referenced o)
  evicted : ∀ o, o < s.ledger.created →
    s.ledger.evicted.count o =
      if (s.ledger.object o).evictInode ∧ ¬ s.Referenced o then 1 else 0

/-- A put leaves `i_count` above zero, or it is the creator's put of an inode
none of whose dentries was put; `i_count` does not overflow. -/
def CountKept (s : State) : Action → Prop
  | .newInode _ _ _ => True
  | .newDentry _ o _ =>
      (s.inodeTable (s.ledger.object o).slot).iCount + 1 < 2 ^ 31
  | .putDentry addr => ∀ d ∈ s.dentries, d.addr = addr →
      2 < (s.inodeTable d.inode).iCount
  | .putInode o =>
      1 < (s.inodeTable (s.ledger.object o).slot).iCount ∨
        (s.ledger.object o).dropped = 0

instance (s : State) : (a : Action) → Decidable (CountKept s a)
  | .newInode _ _ _ => inferInstanceAs (Decidable True)
  | .newDentry _ _ _ => inferInstanceAs (Decidable (_ < _))
  | .putDentry addr => inferInstanceAs
      (Decidable (∀ d ∈ s.dentries, d.addr = addr → _ < _))
  | .putInode _ => inferInstanceAs (Decidable (_ ∨ _))

theorem SlotsOk.referenceSafe {s : State} (h : SlotsOk s) : ReferenceSafe s where
  slot := h.holds
  listed o ho := by
    rw [← h.holds o ho, h.listed]
    unfold State.Holds
    constructor
    · rintro ⟨⟨htest, -⟩, howner⟩
      exact ⟨htest, howner⟩
    · rintro ⟨htest, howner⟩
      exact ⟨⟨htest, by rw [howner]⟩, howner⟩
  evicted o ho := by simp [h.evicted, ho]

/-! ## The calls -/

section Calls

variable {s : State} {o : Nat}

/-- A new dentry is one more reference to its inode. -/
theorem references_newDentry (s : State) (name : List UInt8) (slot o p : Nat) :
    (vfsNewDentry s name slot true o).1.references p =
      s.references p + if o = p then 1 else 0 := by
  simp only [vfsNewDentry, if_true, State.references, State.dentriesOf,
    List.filter_append, List.filter_singleton, List.length_append]
  by_cases hop : o = p
  · simp [hop]
    omega
  · simp [hop]

theorem Single.newDentry (h : Single s) (name : List UInt8) (slot o : Nat) :
    Single (vfsNewDentry s name slot true o).1 where
  fresh d hd := by
    rcases List.mem_append.mp hd with hd | hd
    · exact Nat.lt_succ_of_lt (h.fresh d hd)
    · obtain rfl := List.mem_singleton.mp hd
      exact Nat.lt_succ_self _
  addrs := by
    -- the address is new
    have hnew : ∀ a ∈ s.dentries.map Dentry.addr, a ≠ s.nextAddr := by
      intro a ha
      obtain ⟨d, hd, rfl⟩ := List.mem_map.mp ha
      exact Nat.ne_of_lt (h.fresh d hd)
    simpa [vfsNewDentry, List.nodup_append, h.addrs] using hnew
  one d hd := by
    rcases List.mem_append.mp hd with hd | hd
    · exact h.one d hd
    · obtain rfl := List.mem_singleton.mp hd
      rfl

theorem DentriesOk.newDentry (h : DentriesOk s) (ho : o < s.ledger.created)
    (name : List UInt8) :
    DentriesOk (vfsNewDentry s name (s.ledger.object o).slot true o).1 where
  single := h.single.newDentry name _ o
  made d hd := by
    rcases List.mem_append.mp hd with hd | hd
    · exact h.made d hd
    · obtain rfl := List.mem_singleton.mp hd
      exact ⟨ho, rfl⟩

theorem Sound.newDentry (h : Sound s) (ho : s.Referenced o)
    (hroom : (s.inodeTable (s.ledger.object o).slot).iCount + 1 < 2 ^ 31)
    (name : List UInt8) (alloc : Bool) :
    Sound (vfsNewDentry s name (s.ledger.object o).slot alloc o).1 := by
  cases alloc with
  | false => exact h
  | true =>
      obtain ⟨-, -, hcount, hpos, -⟩ := h.inodes o ho
      have hwrap := wrap32_of_fitsInt (show FitsInt
        ((s.inodeTable (s.ledger.object o).slot).iCount + 1) from
          ⟨by omega, by omega⟩)
      have hrecount : Recounted s
          (vfsNewDentry s name (s.ledger.object o).slot true o).1 o
          (s.ledger.object o)
          { s.inodeTable (s.ledger.object o).slot with
            iCount := wrap32
              ((s.inodeTable (s.ledger.object o).slot).iCount + 1)
            iDentry := (s.inodeTable (s.ledger.object o).slot).iDentry ++
              [s.nextAddr] } :=
        { inuse := rfl, lists := rfl, created := rfl, owner := rfl
          evicted := rfl, slot := rfl, sb := rfl, evict := rfl, table := rfl
          iSb := rfl, evictInode := rfl
          object := (Function.update_eq_self _ _).symm
          others := by
            intro p hp
            rw [references_newDentry, if_neg (Ne.symm hp), add_zero]
          count := by
            rw [references_newDentry, if_pos rfl]
            simp only [hwrap]
            omega
          pos := by
            simp only [hwrap]
            omega
          fits := by
            simp only [hwrap]
            omega }
      exact hrecount.sound h ho (h.dentries.newDentry ho.1 name)

/-- `kfree` of a dentry takes one reference away. -/
theorem DentriesOk.length_forget (h : DentriesOk s) {d : Dentry}
    (hd : d ∈ s.dentries) (p : Nat) :
    ((s.forget d.addr).dentriesOf p).length + (if d.object = p then 1 else 0) =
      (s.dentriesOf p).length := by
  have hperm : s.dentries.Perm (d :: (s.forget d.addr).dentries) :=
    perm_cons_filter_key h.single.addrs hd
  have hlength := (hperm.filter fun e => decide (e.object = p)).length_eq
  rw [State.dentriesOf, State.dentriesOf, hlength]
  by_cases hobject : d.object = p
  · simp [hobject]
  · simp [hobject]

theorem Single.forget (h : Single s) {s' : State} {addr : Nat}
    (hdentries : s'.dentries = (s.forget addr).dentries)
    (haddr : s'.nextAddr = s.nextAddr) : Single s' where
  fresh d hd := by
    rw [hdentries] at hd
    rw [haddr]
    exact h.fresh d (List.mem_of_mem_filter hd)
  addrs := by
    rw [hdentries]
    exact h.addrs.sublist (List.filter_sublist.map _)
  one d hd := by
    rw [hdentries] at hd
    exact h.one d (List.mem_of_mem_filter hd)

theorem DentriesOk.forget (h : DentriesOk s) {s' : State} (addr : Nat)
    (hdentries : s'.dentries = (s.forget addr).dentries)
    (haddr : s'.nextAddr = s.nextAddr)
    (hcreated : s'.ledger.created = s.ledger.created)
    (hslot : ∀ p, (s'.ledger.object p).slot = (s.ledger.object p).slot) :
    DentriesOk s' where
  single := h.single.forget hdentries haddr
  made d hd := by
    rw [hdentries] at hd
    rw [hcreated, hslot]
    exact h.made d (List.mem_of_mem_filter hd)

/-- A put that leaves the count above zero only counts down. -/
theorem vfsPutInode_of_gt {slot : Nat}
    (hgt : 1 < (s.inodeTable slot).iCount)
    (hfits : (s.inodeTable slot).iCount < 2 ^ 31) :
    vfsPutInode s slot = s.setInode slot
      { s.inodeTable slot with iCount := (s.inodeTable slot).iCount - 1 } := by
  have hwrap := wrap32_of_fitsInt (show FitsInt
    ((s.inodeTable slot).iCount - 1) from ⟨by omega, by omega⟩)
  have hne : ¬ (s.inodeTable slot).iCount - 1 = 0 := by omega
  rw [vfsPutInode]
  simp [atomicDec, hwrap, hne]

/-- The two decrements of `vfs_put_dentry`. -/
theorem vfsPutDentry_of_gt {d : Dentry} (hd : d.refcount = 1)
    (hgt : 2 < (s.inodeTable d.inode).iCount)
    (hfits : (s.inodeTable d.inode).iCount < 2 ^ 31) :
    vfsPutDentry s d = (s.forget d.addr).setInode d.inode
      { s.inodeTable d.inode with
        iCount := (s.inodeTable d.inode).iCount - 2 } := by
  have hwrap := wrap32_of_fitsInt (show FitsInt
    ((s.inodeTable d.inode).iCount - 1) from ⟨by omega, by omega⟩)
  have hlast : ¬ 0 < wrap32 (d.refcount - 1) := by
    rw [hd]
    decide
  have hdec : atomicDec (s.forget d.addr) d.inode =
      (s.forget d.addr).setInode d.inode
        { s.inodeTable d.inode with
          iCount := (s.inodeTable d.inode).iCount - 1 } := by
    simp [atomicDec, hwrap]
  have htwice : (s.inodeTable d.inode).iCount - 1 - 1 =
      (s.inodeTable d.inode).iCount - 2 := by omega
  simp only [vfsPutDentry, hlast, if_false]
  rw [hdec, vfsPutInode_of_gt]
  · simp [State.setInode, htwice]
  · simp only [State.setInode_inodeTable, Function.update_self]
    omega
  · simp only [State.setInode_inodeTable, Function.update_self]
    omega

theorem Sound.putDentry (h : Sound s) {d : Dentry} (hd : d ∈ s.dentries)
    (hgt : 2 < (s.inodeTable d.inode).iCount) :
    Sound ((vfsPutDentry s d).setObject d.object
      { s.ledger.object d.object with
        dropped := (s.ledger.object d.object).dropped + 1 }) := by
  have hone := h.dentries.single.one d hd
  obtain ⟨hmade, hinode⟩ := h.dentries.made d hd
  have ho : s.Referenced d.object := by
    refine ⟨hmade, .inr (List.ne_nil_of_mem (a := d) ?_)⟩
    exact List.mem_filter.mpr ⟨hd, by simp⟩
  obtain ⟨-, -, hcount, hpos, hfits⟩ := h.inodes d.object ho
  rw [hinode] at hgt
  rw [vfsPutDentry_of_gt hone (hinode ▸ hgt) (hinode ▸ hfits), hinode]
  have hlength := h.dentries.length_forget hd
  generalize hs' : State.setObject _ d.object _ = s'
  have hself : s'.ledger.object = Function.update s.ledger.object d.object
      { s.ledger.object d.object with
        dropped := (s.ledger.object d.object).dropped + 1 } := by
    rw [← hs']
    rfl
  have hreferences : ∀ p, s'.references p =
      s.references p - if d.object = p then 1 else 0 := by
    intro p
    have hof : s'.dentriesOf p = (s.forget d.addr).dentriesOf p := by
      rw [← hs']
      rfl
    have hcreator : (s'.ledger.object p).creator =
        (s.ledger.object p).creator := by
      rw [hself]
      exact apply_update_of_eq Object.creator (by rfl) p
    have hp := hlength p
    rw [State.references, hof, hcreator, State.references]
    split at hp <;> rename_i hobject <;> simp only [hobject, if_true, if_false]
    · omega
    · omega
  subst hs'
  refine Recounted.sound (s := s) (o := d.object)
    { object := hself, slot := rfl, sb := rfl, evict := rfl, iSb := rfl
      evictInode := rfl, inuse := rfl, lists := rfl, created := rfl
      owner := rfl, evicted := rfl, table := rfl, others := ?_, count := ?_
      pos := ?_, fits := ?_ } h ho
    (h.dentries.forget d.addr rfl rfl rfl ?_)
  · intro p hp
    rw [hreferences, if_neg (Ne.symm hp), sub_zero]
  · -- one reference less and one dentry dropped more
    rw [hreferences, if_pos rfl, hcount]
    push_cast
    omega
  · simp only
    omega
  · simp only
    omega
  · rw [hself]
    exact apply_update_of_eq Object.slot (by rfl)

/-- The creator's put of an inode that others refer to. -/
theorem Sound.putInode_of_gt (h : Sound s)
    (ho : s.Referenced o) (hcreator : (s.ledger.object o).creator = true)
    (hgt : 1 < (s.inodeTable (s.ledger.object o).slot).iCount) :
    Sound ((vfsPutInode s (s.ledger.object o).slot).setObject o
      { s.ledger.object o with creator := false }) := by
  obtain ⟨-, -, hcount, hpos, hfits⟩ := h.inodes o ho
  rw [vfsPutInode_of_gt hgt hfits]
  generalize hs' : State.setObject _ o _ = s'
  have hself : s'.ledger.object = Function.update s.ledger.object o
      { s.ledger.object o with creator := false } := by
    rw [← hs']
    rfl
  have hreferences : ∀ p, s'.references p =
      s.references p - if o = p then 1 else 0 := by
    intro p
    have hof : s'.dentriesOf p = s.dentriesOf p := by
      rw [← hs']
      rfl
    rw [State.references, hof, hself, State.references]
    by_cases hp : o = p
    · subst hp
      rw [Function.update_self, hcreator]
      simp
    · rw [Function.update_of_ne (Ne.symm hp)]
      simp [hp]
  have hslot : ∀ p, (s'.ledger.object p).slot = (s.ledger.object p).slot := by
    rw [hself]
    exact apply_update_of_eq Object.slot (by rfl)
  subst hs'
  refine Recounted.sound (s := s) (o := o)
    { object := hself, slot := rfl, sb := rfl, evict := rfl, iSb := rfl
      evictInode := rfl, inuse := rfl, lists := rfl, created := rfl
      owner := rfl, evicted := rfl, table := rfl, others := ?_, count := ?_
      pos := ?_, fits := ?_ } h ho
    ⟨h.dentries.single.of_dentries rfl rfl, fun d hd => ?_⟩
  · intro p hp
    rw [hreferences, if_neg (Ne.symm hp), sub_zero]
  · rw [hreferences, if_pos rfl, hcount]
    simp only
    omega
  · simp only
    omega
  · simp only
    omega
  · rw [hslot]
    exact h.dentries.made d hd

theorem Sound.putInode_released (h : Sound s) (ho : s.Referenced o)
    (hlast : (s.inodeTable (s.ledger.object o).slot).iCount = 1) :
    Released s ((vfsPutInode s (s.ledger.object o).slot).setObject o
      { s.ledger.object o with creator := false }) o := by
  obtain ⟨hsb, hevict, -, -, -⟩ := h.inodes o ho
  have howner := ((h.slots.holds o ho.1).mpr ho).2
  have hzero : wrap32 ((s.inodeTable (s.ledger.object o).slot).iCount - 1) = 0 := by
    rw [hlast]
    decide
  have hput : vfsPutInode s (s.ledger.object o).slot =
      release (atomicDec s (s.ledger.object o).slot)
        (s.ledger.object o).slot := by
    rw [vfsPutInode, if_pos]
    simp [atomicDec, hzero]
  rw [hput]
  constructor
  · rfl
  · simp [release, atomicDec, hsb]
  · intro i hi
    simp [release, atomicDec, hi]
  · rfl
  · rfl
  · rfl
  · rfl
  · rfl
  · simp [release, atomicDec, hevict, howner]

end Calls

/-! ## Whole runs -/

theorem Single.of_initial {s : State} (h : Initial s) : Single s := by
  constructor <;> simp [h.dentries]

theorem Sound.init {s : State} (h : Initial s) : Sound s := by
  have hnone : ∀ o, ¬ s.Referenced o := by
    intro o ho
    have hlt := ho.1
    rw [h.created] at hlt
    omega
  refine ⟨⟨.of_initial h, ?_⟩, ⟨?_, ?_, ?_, ?_, ?_, ?_⟩, ?_⟩
  · simp [h.dentries]
  · rw [h.inuse, List.length_replicate]
  · simp [h.created]
  · simp [h.created]
  · simp [h.inuse]
  · simp [h.inuse, h.sInodes]
  · simp [h.evicted, h.created]
  · exact fun o ho => absurd ho (hnone o)

theorem Sound.step {s s' : State} {a : Action} (h : Sound s)
    (hok : CountKept s a) (hstep : system.step s a = some s') : Sound s' := by
  change Vfs.step s a = some s' at hstep
  cases a with
  | newInode sb mode evictInode =>
      obtain rfl := Option.some.inj hstep
      rcases vfsNewInode_spec s sb mode evictInode with
        ⟨-, hsame⟩ | ⟨slot, -, hplaced⟩
      · rw [hsame]
        exact h
      · exact hplaced.sound h
  | newDentry name o alloc =>
      rw [Vfs.step] at hstep
      split at hstep
      · rename_i ho
        obtain rfl := Option.some.inj hstep
        exact h.newDentry ho hok name alloc
      · cases hstep
  | putDentry addr =>
      rw [Vfs.step] at hstep
      split at hstep
      · cases hstep
      · rename_i d hfind
        obtain rfl := Option.some.inj hstep
        have hmem := List.mem_of_find?_eq_some hfind
        have haddr : d.addr = addr := by
          simpa using List.find?_some hfind
        exact h.putDentry hmem (hok d hmem haddr)
  | putInode o =>
      rw [Vfs.step] at hstep
      split at hstep
      · rename_i hcreator
        obtain rfl := Option.some.inj hstep
        have ho : s.Referenced o := ⟨hcreator.1, .inl hcreator.2⟩
        obtain ⟨-, -, hcount, hpos, -⟩ := h.inodes o ho
        by_cases hgt : 1 < (s.inodeTable (s.ledger.object o).slot).iCount
        · exact h.putInode_of_gt ho hcreator.2 hgt
        · -- the count is one and nothing was dropped: no dentry is left
          have hdropped := hok.resolve_left hgt
          have hnone : s.dentriesOf o = [] := by
            apply List.eq_nil_of_length_eq_zero
            rw [State.references, if_pos hcreator.2, hdropped] at hcount
            omega
          exact (h.putInode_released ho (by omega)).sound h ho hnone
      · cases hstep

theorem reachable_sound {s : State}
    (hreach : system.ReachableWhile CountKept s) : Sound s :=
  hreach.invariant (fun _ hinit => .init hinit)
    (fun _ _ _ _ hs hok hstep => hs.step hok hstep)

/-- In every run whose puts keep the counts above zero, or are the creator's
puts of inodes no dentry of which was put, an inode's slot is released exactly
with its last reference. -/
theorem inode_reference_safe {s : State}
    (hreach : system.ReachableWhile CountKept s) : ReferenceSafe s :=
  (reachable_sound hreach).slots.referenceSafe

/-! ## One inode with one dentry -/

/-- The tables after `vfs_init`. -/
def emptyTables : State where
  inodeTable := fun _ => ⟨0, 0, 0, 0, false, [], 0⟩
  inodeInuse := List.replicate (maxInodes / 64) 0
  nextIno := 1
  sInodes := fun _ => []
  dentryHashtable := fun _ => []
  dentries := []
  nextAddr := 0
  ledger :=
    { created := 0, object := fun _ => ⟨0, 0, false, false, 0⟩
      owner := fun _ => 0, evicted := [] }

theorem emptyTables_initial : Initial emptyTables :=
  ⟨rfl, fun _ => rfl, fun _ => rfl, rfl, rfl, rfl⟩

/-- An inode with two dentries, of which the first is put: the count goes down
from three to one, and the inode stays. -/
theorem inode_reference_safe_put :
    ∃ s, system.run emptyTables
        [.newInode 0 0 true, .newDentry [97] 0 true, .newDentry [98] 0 true,
          .putDentry 0] = some s ∧
      ReferenceSafe s ∧ s.dentries.map Dentry.name = [[98]] ∧
      (s.inodeTable 0).iCount = 1 ∧ s.Holds 0 ∧ s.ledger.evicted = [] := by
  have hstart : system.ReachableWhile CountKept emptyTables :=
    .start emptyTables_initial
  have hput := hstart.run (show system.runWhile CountKept emptyTables
    [.newInode 0 0 true, .newDentry [97] 0 true, .newDentry [98] 0 true,
      .putDentry 0] = some _ from rfl)
  have hsafe := inode_reference_safe hput
  exact ⟨_, rfl, hsafe, by decide, by decide,
    (hsafe.slot 0 (by decide)).mpr (by decide), by decide⟩

/-- The creator holds an inode; a dentry is made for it and put.  The slot is
released although the creator's reference is still there. -/
theorem inode_released_early :
    ∃ s, system.run emptyTables
        [.newInode 0 0 true, .newDentry [97] 0 true, .putDentry 0] = some s ∧
      s.Referenced 0 ∧ s.ledger.evicted = [0] ∧ ¬ ReferenceSafe s := by
  refine ⟨_, rfl, by decide, by decide, fun hsafe => ?_⟩
  have hcount := hsafe.evicted 0 (by decide)
  revert hcount
  decide

end Vfs
end OsKernel

import OsKernel.Vfs.InodeTable
import OsKernel.Vfs.OpenFiles

/-!
# Inode records of the file system `demos/vfs/ext4_ops.c`

The file system keeps 128 inode records.  `ext4_mount` uses record 0 for the
root directory, `ext4_create` uses the record given by the new inode's number
modulo 128, and `ext4_mkdir` uses none.  The numbers come from the counter of
the VFS, which every creation moves on, so the record of a file depends on how
many inodes were created since the file system was mounted.

Of a record only the three fields are modelled that `ext4_create` writes; the
block bitmap, the super block and the file contents are left out.  `kmalloc` is
assumed to succeed in `ext4_mount`, where its results are not checked.  The new
inode's `i_op` has no `evict_inode`.

`made` and `rootIno` are ghosts: the records of the inodes made so far, in the
order of the calls that made them, and the number of the root directory.
-/

namespace OsKernel
namespace Vfs

open Lib

/-- `S_IFDIR`. -/
def sIfdir : Nat := 0o040000

/-- `S_IFREG`. -/
def sIfreg : Nat := 0o100000

/-- The number of records `ext4_mount` allocates. -/
def ext4Records : Nat := 128

/-- `struct ext4_inode`. -/
structure Ext4Inode where
  iMode : UInt16
  iSize : UInt32
  iLinksCount : UInt16
  deriving DecidableEq, Repr

/-- The VFS and the mounted file system. -/
structure Ext4State where
  vfs : State
  sb : Nat
  inodeTable : Nat → Ext4Inode
  rootDentry : Option Nat
  made : List (Option Nat)
  rootIno : Nat

/-- `ext4_mount`; `none` stands for the null `root_inode` it would use when
there is no free inode.  `alloc` tells whether there is memory for the root's
dentry. -/
def ext4Mount (s : State) (sb : Nat) (alloc : Bool) : Option Ext4State :=
  let result := vfsNewInode s sb (sIfdir ||| 0o755) false
  result.2.map fun slot =>
    let root := result.1.inodeTable slot
    let dentry := vfsNewDentry result.1 slash slot alloc s.ledger.created
    { vfs := dentry.1
      sb := sb
      inodeTable := Function.update (fun _ => ⟨0, 0, 0⟩) 0
        ⟨UInt16.ofNat root.iMode, 0, 0⟩
      rootDentry := dentry.2
      made := []
      rootIno := root.ino }

/-- `ext4_create`; `none` for `-ENOMEM`. -/
def ext4Create (st : Ext4State) (name : List UInt8) (mode : Nat)
    (alloc : Bool) : Option Ext4State :=
  let result := vfsNewInode st.vfs st.sb (sIfreg ||| mode) false
  result.2.map fun slot =>
    let inode := result.1.inodeTable slot
    let idx := inode.ino % ext4Records
    { st with
      vfs := (vfsNewDentry result.1 name slot alloc st.vfs.ledger.created).1
      inodeTable := Function.update st.inodeTable idx
        { iMode := UInt16.ofNat inode.iMode, iSize := 0, iLinksCount := 1 }
      made := st.made ++ [some idx] }

/-- `ext4_mkdir`; `none` for `-ENOMEM`. -/
def ext4Mkdir (st : Ext4State) (mode : Nat) : Option Ext4State :=
  let result := vfsNewInode st.vfs st.sb (sIfdir ||| mode) false
  result.2.map fun _ =>
    { st with vfs := result.1, made := st.made ++ [none] }

inductive Ext4Action
  | create (name : List UInt8) (mode : Nat) (alloc : Bool)
  | mkdir (mode : Nat)

/-- One call; one that fails changes nothing. -/
def ext4Step (st : Ext4State) : Ext4Action → Option Ext4State
  | .create name mode alloc => some ((ext4Create st name mode alloc).getD st)
  | .mkdir mode => some ((ext4Mkdir st mode).getD st)

/-- Any sequence of calls after `vfs_init`, which leaves `next_ino` as it is,
and `ext4_mount`. -/
def ext4System : ActionSystem Ext4State Ext4Action where
  init st := ∃ s sb alloc, Initial s ∧ s.nextIno < 2 ^ 64 ∧
    ext4Mount s sb alloc = some st
  step := ext4Step

namespace Ext4State

/-- The record of an inode: of the root directory, or of the inode made by the
call with the given number, counted from one. -/
def recordOf (st : Ext4State) : Nat → Option Nat
  | 0 => some 0
  | i + 1 => (st.made[i]?).join

/-- Two inodes do not share a record. -/
def RecordsApart (st : Ext4State) : Prop :=
  ∀ o p k, st.recordOf o = some k → st.recordOf p = some k → o = p

/-- A call created a file. -/
def MadeFile (st : Ext4State) (i : Nat) : Prop :=
  ∃ k, st.made[i]? = some (some k)

/-- The numbers of the files do not meet: none is a multiple of 128, where the
root's record is, and the distance of no two is. -/
structure NumbersApart (st : Ext4State) : Prop where
  root : ∀ i, st.MadeFile i → (st.rootIno + i + 1) % ext4Records ≠ 0
  files : ∀ i j, st.MadeFile i → st.MadeFile j → i < j →
    (j - i) % ext4Records ≠ 0

/-! ## Which record a call uses -/

/-- The inodes made so far fill the table from the bottom, and the next number
and the records follow from how many they are. -/
structure Ok (st : Ext4State) : Prop where
  words : st.vfs.inodeInuse.length = maxInodes / 64
  packed : ∀ i, Bitmap.test st.vfs.inodeInuse i =
    decide (i < st.made.length + 1)
  next : st.vfs.nextIno = (st.rootIno + st.made.length + 1) % 2 ^ 64
  made : ∀ i k, st.made[i]? = some (some k) →
    k = (st.rootIno + i + 1) % ext4Records

end Ext4State

/-- A table that is filled from the bottom gives out its slots in turn. -/
theorem vfsNewInode_of_packed {s : State} {n : Nat}
    (hpacked : ∀ i, Bitmap.test s.inodeInuse i = decide (i < n))
    (sb mode : Nat) (evictInode : Bool) :
    (vfsNewInode s sb mode evictInode).2 =
      if n < maxInodes then some n else none := by
  rw [vfsNewInode_slot]
  cases hsearch : Bitmap.firstClear s.inodeInuse maxInodes 0 with
  | none =>
      have hset := Bitmap.firstClear_eq_none_iff.mp hsearch
      have hfull : ¬ n < maxInodes := by
        intro hlt
        have hn := hset n (Nat.zero_le n) (by omega)
        simp [hpacked] at hn
      rw [if_neg hfull]
  | some slot =>
      obtain ⟨⟨-, hlt⟩, hclear, hbefore⟩ := Bitmap.firstClear_eq_some hsearch
      simp only [hpacked, decide_eq_false_iff_not, decide_eq_true_eq,
        Nat.zero_le, true_implies] at hclear hbefore
      have hle : ¬ n < slot := by
        intro hgt
        have hn := hbefore n hgt
        omega
      obtain rfl : slot = n := by omega
      rw [if_pos (by omega)]

/-- One inode more, in the next slot and with the next number. -/
theorem Placed.packed {s s' : State} {slot sb mode : Nat} {evictInode : Bool}
    (h : Placed s s' slot sb mode evictInode)
    (hwords : s.inodeInuse.length = maxInodes / 64)
    (hpacked : ∀ i, Bitmap.test s.inodeInuse i = decide (i < slot)) (i : Nat) :
    Bitmap.test s'.inodeInuse i = decide (i < slot + 1) := by
  rw [h.test hwords, hpacked, Bool.eq_iff_iff]
  simp only [Bool.or_eq_true, decide_eq_true_eq]
  omega

/-- `vfs_new_dentry` leaves the slots and the counter alone. -/
theorem vfsNewDentry_frame (s : State) (name : List UInt8) (slot : Nat)
    (alloc : Bool) (o : Nat) :
    (vfsNewDentry s name slot alloc o).1.inodeInuse = s.inodeInuse ∧
      (vfsNewDentry s name slot alloc o).1.nextIno = s.nextIno := by
  cases alloc <;> exact ⟨rfl, rfl⟩

namespace Ext4State

/-- What a call that makes an inode does: `k` is its record, if it has one. -/
structure Makes (st st' : Ext4State) (k : Option Nat) : Prop where
  room : st.made.length + 1 < maxInodes
  words : st'.vfs.inodeInuse.length = maxInodes / 64
  packed : ∀ i, Bitmap.test st'.vfs.inodeInuse i =
    decide (i < st.made.length + 2)
  next : st'.vfs.nextIno = (st.vfs.nextIno + 1) % 2 ^ 64
  made : st'.made = st.made ++ [k]
  rootIno : st'.rootIno = st.rootIno
  table : ∀ j, k ≠ some j → st'.inodeTable j = st.inodeTable j

/-- The record the next file gets. -/
def nextRecord (st : Ext4State) : Nat :=
  (st.rootIno + st.made.length + 1) % ext4Records

variable {st st' : Ext4State}

theorem Ok.nextIno_mod (h : st.Ok) :
    st.vfs.nextIno % ext4Records = st.nextRecord := by
  rw [h.next, nextRecord]
  exact Nat.mod_mod_of_dvd _ (by decide)

/-- `ext4_create` fails for want of a slot, or it makes an inode and writes the
next record. -/
theorem Ok.create (h : st.Ok) (name : List UInt8) (mode : Nat) (alloc : Bool) :
    (ext4Create st name mode alloc = none ∧
      ¬ st.made.length + 1 < maxInodes) ∨
    ∃ st', ext4Create st name mode alloc = some st' ∧
      Makes st st' (some st.nextRecord) ∧
      st'.inodeTable st.nextRecord = ⟨UInt16.ofNat (sIfreg ||| mode), 0, 1⟩ := by
  have hpacked := vfsNewInode_of_packed h.packed st.sb (sIfreg ||| mode) false
  simp only [ext4Create]
  rcases vfsNewInode_spec st.vfs st.sb (sIfreg ||| mode) false with
    ⟨hnone, -⟩ | ⟨slot, hsome, hplaced⟩
  · left
    rw [hnone] at hpacked ⊢
    refine ⟨rfl, fun hroom => ?_⟩
    rw [if_pos hroom] at hpacked
    contradiction
  · right
    rw [hsome] at hpacked ⊢
    split at hpacked
    next hroom =>
      -- slots are given out in order, after the one of the root
      obtain rfl : slot = st.made.length + 1 := Option.some.inj hpacked
      obtain ⟨hinuse, hino⟩ := vfsNewDentry_frame
        (vfsNewInode st.vfs st.sb (sIfreg ||| mode) false).1 name
        (st.made.length + 1) alloc st.vfs.ledger.created
      rw [Option.map_some, hplaced.table, Function.update_self]
      simp only [h.nextIno_mod]
      refine ⟨_, rfl, ⟨hroom, ?_, ?_, ?_, rfl, rfl, ?_⟩, ?_⟩
      · rw [hinuse, hplaced.inuse, Bitmap.length_set]
        exact h.words
      · intro i
        rw [hinuse]
        exact hplaced.packed h.words h.packed i
      · rw [hino, hplaced.next]
      · intro j hj
        have hne : j ≠ st.nextRecord := fun heq => hj (by rw [heq])
        exact Function.update_of_ne hne _ _
      · exact Function.update_self _ _ _
    next => contradiction

/-- `ext4_mkdir` fails for want of a slot, or it makes an inode and leaves the
records alone. -/
theorem Ok.mkdir (h : st.Ok) (mode : Nat) :
    ext4Mkdir st mode = none ∨
    ∃ st', ext4Mkdir st mode = some st' ∧ Makes st st' none := by
  have hpacked := vfsNewInode_of_packed h.packed st.sb (sIfdir ||| mode) false
  simp only [ext4Mkdir]
  rcases vfsNewInode_spec st.vfs st.sb (sIfdir ||| mode) false with
    ⟨hnone, -⟩ | ⟨slot, hsome, hplaced⟩
  · left
    rw [hnone]
    rfl
  · right
    rw [hsome] at hpacked ⊢
    split at hpacked
    next hroom =>
      obtain rfl : slot = st.made.length + 1 := Option.some.inj hpacked
      refine ⟨_, rfl, hroom, ?_, ?_, hplaced.next, rfl, rfl, fun _ _ => rfl⟩
      · rw [hplaced.inuse, Bitmap.length_set]
        exact h.words
      · exact hplaced.packed h.words h.packed
    next => contradiction

/-- A call that uses the next record, or none, keeps the invariant. -/
theorem Makes.ok {k : Option Nat} (hmakes : Makes st st' k) (h : st.Ok)
    (hk : ∀ j, k = some j → j = st.nextRecord) : st'.Ok where
  words := hmakes.words
  packed := by
    intro i
    rw [hmakes.packed, hmakes.made, List.length_append, List.length_singleton]
  next := by
    rw [hmakes.next, h.next, hmakes.made, hmakes.rootIno, List.length_append,
      List.length_singleton]
    omega
  made := by
    intro i j hj
    rw [hmakes.made] at hj
    rw [hmakes.rootIno]
    rcases Nat.lt_trichotomy i st.made.length with hlt | rfl | hgt
    · rw [List.getElem?_append_left hlt] at hj
      exact h.made i j hj
    · rw [List.getElem?_concat_length] at hj
      exact hk j (Option.some.inj hj)
    · rw [List.getElem?_eq_none (by simp; omega)] at hj
      contradiction

/-! ## Runs -/

theorem Ok.mount {s : State} (hinit : Initial s) {sb : Nat} {alloc : Bool}
    (hmount : ext4Mount s sb alloc = some st) : st.Ok := by
  have hempty : ∀ i, Bitmap.test s.inodeInuse i = decide (i < 0) := by
    intro i
    simp [hinit.inuse]
  have hwords : s.inodeInuse.length = maxInodes / 64 := by
    rw [hinit.inuse, List.length_replicate]
  have hpacked := vfsNewInode_of_packed hempty sb (sIfdir ||| 0o755) false
  simp only [ext4Mount] at hmount
  rcases vfsNewInode_spec s sb (sIfdir ||| 0o755) false with
    ⟨hnone, -⟩ | ⟨slot, hsome, hplaced⟩
  · rw [hnone] at hmount
    contradiction
  · obtain rfl : slot = 0 := by
      rw [hsome, if_pos (by decide)] at hpacked
      exact Option.some.inj hpacked
    rw [hsome, Option.map_some, hplaced.table, Function.update_self] at hmount
    obtain rfl := Option.some.inj hmount
    obtain ⟨hinuse, hcounter⟩ := vfsNewDentry_frame
      (vfsNewInode s sb (sIfdir ||| 0o755) false).1 slash 0 alloc
      s.ledger.created
    constructor
    · rw [hinuse, hplaced.inuse, Bitmap.length_set]
      exact hwords
    · intro i
      rw [hinuse]
      exact hplaced.packed hwords hempty i
    · rw [hcounter, hplaced.next]
      rfl
    · simp

theorem Ok.step (h : st.Ok) {a : Ext4Action} (hstep : ext4Step st a = some st') :
    st'.Ok := by
  cases a with
  | create name mode alloc =>
      obtain rfl := Option.some.inj hstep
      rcases h.create name mode alloc with ⟨hnone, -⟩ | ⟨next, hsome, hmakes, -⟩
      · rw [hnone]
        exact h
      · rw [hsome]
        exact hmakes.ok h fun j hj => (Option.some.inj hj).symm
  | mkdir mode =>
      obtain rfl := Option.some.inj hstep
      rcases h.mkdir mode with hnone | ⟨next, hsome, hmakes⟩
      · rw [hnone]
        exact h
      · rw [hsome]
        exact hmakes.ok h fun j hj => nomatch hj

end Ext4State

theorem reachable_ext4_ok {st : Ext4State}
    (hreach : ext4System.Reachable st) : st.Ok := by
  refine hreach.invariant (P := Ext4State.Ok) ?_ ?_
  · intro st hinit
    obtain ⟨s, sb, alloc, htables, -, hmount⟩ := hinit
    exact .mount htables hmount
  · exact fun st a st' _ hok hstep => hok.step hstep

namespace Ext4State

variable {st st' : Ext4State}

theorem recordOf_succ_eq_some {i k : Nat} :
    st.recordOf (i + 1) = some k ↔ st.made[i]? = some (some k) :=
  Option.join_eq_some_iff

/-- A file is not on the root's record. -/
theorem Ok.record_ne_root (h : st.Ok) (hapart : st.NumbersApart) {i k : Nat}
    (hi : st.recordOf (i + 1) = some k) : k ≠ 0 := by
  have hk := recordOf_succ_eq_some.mp hi
  rw [h.made i k hk]
  exact hapart.root i ⟨k, hk⟩

/-- Two files are not on one record. -/
theorem Ok.record_ne_file (h : st.Ok) (hapart : st.NumbersApart) {i j k : Nat}
    (hlt : i < j) (hi : st.recordOf (i + 1) = some k) :
    st.recordOf (j + 1) ≠ some k := by
  intro hj
  have hki := recordOf_succ_eq_some.mp hi
  have hkj := recordOf_succ_eq_some.mp hj
  have hdistance := hapart.files i j ⟨k, hki⟩ ⟨k, hkj⟩ hlt
  have heq := (h.made i k hki).symm.trans (h.made j k hkj)
  unfold ext4Records at hdistance heq
  omega

/-- The records of a state are apart if and only if its numbers are. -/
theorem Ok.recordsApart_iff (h : st.Ok) :
    st.RecordsApart ↔ st.NumbersApart := by
  constructor
  · intro hapart
    refine ⟨fun i hi hzero => ?_, fun i j hi hj hlt hzero => ?_⟩
    · obtain ⟨k, hk⟩ := hi
      have hk0 : k = 0 := by rw [h.made i k hk, hzero]
      have hsame := hapart 0 (i + 1) 0 rfl
        (recordOf_succ_eq_some.mpr (hk0 ▸ hk))
      omega
    · obtain ⟨k, hk⟩ := hi
      obtain ⟨k', hk'⟩ := hj
      have hkk : k = k' := by
        rw [h.made i k hk, h.made j k' hk']
        unfold ext4Records at hzero ⊢
        omega
      have hsame := hapart (i + 1) (j + 1) k (recordOf_succ_eq_some.mpr hk)
        (recordOf_succ_eq_some.mpr (hkk ▸ hk'))
      omega
  · intro hapart o p k ho hp
    have hzero : st.recordOf 0 = some k → k = 0 := fun h0 =>
      (Option.some.inj h0).symm
    cases o with
    | zero =>
        cases p with
        | zero => rfl
        | succ j => exact absurd (hzero ho) (h.record_ne_root hapart hp)
    | succ i =>
        cases p with
        | zero => exact absurd (hzero hp) (h.record_ne_root hapart ho)
        | succ j =>
            rcases Nat.lt_trichotomy i j with hlt | rfl | hgt
            · exact absurd hp (h.record_ne_file hapart hlt ho)
            · rfl
            · exact absurd ho (h.record_ne_file hapart hgt hp)

end Ext4State

/-- After `ext4_mount`, in every run of `ext4_create` and `ext4_mkdir`: the
inodes have distinct records if and only if the numbers of the files are apart;
and a creation after which they have leaves the records of all other inodes as
they were. -/
theorem ext4_records_apart_iff {st : Ext4State}
    (hreach : ext4System.Reachable st) :
    (st.RecordsApart ↔ st.NumbersApart) ∧
    ∀ name mode alloc st', ext4Create st name mode alloc = some st' →
      st'.RecordsApart → ∀ o k, st.recordOf o = some k →
        st'.inodeTable k = st.inodeTable k := by
  have hok := reachable_ext4_ok hreach
  refine ⟨hok.recordsApart_iff, fun name mode alloc st' hcreate hapart o k hk => ?_⟩
  rcases hok.create name mode alloc with ⟨hnone, -⟩ | ⟨next, hsome, hmakes, -⟩
  · rw [hnone] at hcreate
    contradiction
  · obtain rfl : next = st' := Option.some.inj (hsome.symm.trans hcreate)
    refine hmakes.table k fun hrecord => ?_
    -- the new inode would share the record of an old one
    have hnew : next.recordOf (st.made.length + 1) = some k := by
      rw [Ext4State.recordOf_succ_eq_some, hmakes.made,
        List.getElem?_concat_length, hrecord]
    have hlt : o < st.made.length + 1 := by
      cases o with
      | zero => exact Nat.succ_pos _
      | succ i =>
          have hi := Ext4State.recordOf_succ_eq_some.mp hk
          exact Nat.succ_lt_succ (List.getElem?_eq_some_iff.mp hi).1
    have hold : next.recordOf o = some k := by
      cases o with
      | zero => exact hk
      | succ i =>
          rw [Ext4State.recordOf_succ_eq_some] at hk ⊢
          rw [hmakes.made, List.getElem?_append_left (by omega)]
          exact hk
    have hsame := hapart o (st.made.length + 1) k hold hnew
    omega

/-- A file, a directory and a file after the first mount. -/
theorem ext4_records_apart_three :
    ∃ st st', ext4Mount emptyTables 0 true = some st ∧
      ext4System.run st [.create [97] 0o644 true, .mkdir 0o755,
        .create [98] 0o600 true] = some st' ∧
      st'.made = [some 2, none, some 4] ∧ st'.RecordsApart := by
  have hstart : ∃ st, ext4Mount emptyTables 0 true = some st ∧
      ext4System.Reachable st :=
    ⟨_, rfl, .start ⟨_, 0, true, emptyTables_initial, by decide, rfl⟩⟩
  obtain ⟨st, hmount, hreach⟩ := hstart
  obtain rfl := Option.some.inj hmount
  have hthree := hreach.run (show ext4System.run _ [.create [97] 0o644 true,
    .mkdir 0o755, .create [98] 0o600 true] = some _ from rfl)
  refine ⟨_, _, rfl, rfl, rfl, (ext4_records_apart_iff hthree).1.mpr ?_⟩
  have hlt : ∀ {i k : Nat}, ([some 2, none, some 4] : List (Option Nat))[i]? =
      some (some k) → i < 3 := fun hi => (List.getElem?_eq_some_iff.mp hi).1
  constructor
  · intro i ⟨k, hk⟩
    have hi := hlt hk
    show (1 + i + 1) % 128 ≠ 0
    omega
  · intro i j ⟨k, hk⟩ ⟨k', hk'⟩ hij
    have hj := hlt hk'
    show (j - i) % 128 ≠ 0
    omega

/-! ## The file with number 128 -/

/-- As long as there is room, creations succeed one after another; they leave
the records alone that are not theirs. -/
theorem Ext4State.Ok.run_creates {st : Ext4State} (h : st.Ok) {n : Nat}
    (hroom : st.made.length + n < maxInodes) (name : List UInt8) (mode : Nat)
    (alloc : Bool) :
    ∃ st', ext4System.run st (List.replicate n (.create name mode alloc)) =
        some st' ∧
      st'.made.length = st.made.length + n ∧ st'.rootIno = st.rootIno ∧
      ∀ j, (∀ i < n, (st.rootIno + st.made.length + i + 1) % ext4Records ≠ j) →
        st'.inodeTable j = st.inodeTable j := by
  induction n generalizing st with
  | zero => exact ⟨st, rfl, rfl, rfl, fun _ _ => rfl⟩
  | succ n ih =>
      rcases h.create name mode alloc with ⟨-, hfull⟩ | ⟨next, hsome, hmakes, -⟩
      · exact absurd (by omega) hfull
      · have hnext := hmakes.ok h fun j hj => (Option.some.inj hj).symm
        have hlength : next.made.length = st.made.length + 1 := by
          rw [hmakes.made, List.length_append, List.length_singleton]
        obtain ⟨st', hrun, hmade, hroot, htable⟩ := ih hnext (by omega)
        refine ⟨st', ?_, by omega, hroot.trans hmakes.rootIno, fun j hj => ?_⟩
        · have hstep : ext4System.step st (.create name mode alloc) =
              some next := by
            show some ((ext4Create st name mode alloc).getD st) = some next
            rw [hsome]
            rfl
          rw [List.replicate_succ, ActionSystem.run, hstep]
          exact hrun
        · -- record `j` is neither the next one nor one of those after it
          rw [htable j, hmakes.table j]
          · intro heq
            exact hj 0 (by omega) (Option.some.inj heq)
          · intro i hi
            have hlater := hj (i + 1) (by omega)
            rw [hmakes.rootIno, hlength]
            intro heq
            apply hlater
            rw [← heq]
            congr 1
            omega

/-- After the first mount, 126 files are created without harm.  The next one
has the number 128 and overwrites the root directory's record. -/
theorem ext4_create_clobbers_root :
    ∃ mounted st st', ext4Mount emptyTables 0 true = some mounted ∧
      ext4System.run mounted
        (List.replicate 126 (.create [97] 0o644 true)) = some st ∧
      ext4Create st [97] 0o644 true = some st' ∧
      st.recordOf 0 = some 0 ∧ st'.recordOf 127 = some 0 ∧
      (st.inodeTable 0).iMode = 0o040755 ∧
      (st'.inodeTable 0).iMode = 0o100644 := by
  have hmounted : ∃ mounted, ext4Mount emptyTables 0 true = some mounted ∧
      mounted.made = [] ∧ mounted.rootIno = 1 ∧
      (mounted.inodeTable 0).iMode = 0o040755 :=
    ⟨_, rfl, rfl, rfl, by decide⟩
  obtain ⟨mounted, hmount, hmade, hroot, hmode⟩ := hmounted
  have hok : mounted.Ok := .mount emptyTables_initial hmount
  have hnone : mounted.made.length = 0 := by
    rw [hmade]
    rfl
  obtain ⟨st, hrun, hlength, hsame, htable⟩ :=
    hok.run_creates (show mounted.made.length + 126 < maxInodes by
      rw [hnone]
      decide) [97] 0o644 true
  have hst : st.Ok := reachable_ext4_ok (ActionSystem.Reachable.run
    (.start ⟨_, 0, true, emptyTables_initial, by decide, hmount⟩) hrun)
  have hrecord : st.nextRecord = 0 := by
    rw [Ext4State.nextRecord, hsame, hroot, hlength, hnone]
    decide
  have hroom : st.made.length + 1 < maxInodes := by
    rw [hlength, hnone]
    decide
  rcases hst.create [97] 0o644 true with ⟨-, hfull⟩ | ⟨st', hsome, hmakes, hwritten⟩
  · exact absurd hroom hfull
  · refine ⟨mounted, st, st', hmount, hrun, hsome, rfl, ?_, ?_, ?_⟩
    · have hlast : st.made.length = 126 := by omega
      rw [Ext4State.recordOf_succ_eq_some, hmakes.made, ← hlast,
        List.getElem?_concat_length, hrecord]
    · rw [htable 0 fun i hi => ?_]
      · exact hmode
      · rw [hroot, hnone]
        unfold ext4Records
        omega
    · rw [hrecord] at hwritten
      rw [hwritten]
      decide

end Vfs
end OsKernel

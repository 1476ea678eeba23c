import OsKernel.Vfs.DentryHash
import OsKernel.Vfs.Ext4

/-!
# The runs of the VFS and of its parts

Inodes and dentries are made and put in four kinds of runs: those of `system`,
which records who refers to an inode; those of `namedSystem`, on any slots; opens
and closes of files; and the calls of the mounted file system.  The runs of the
inode table are runs of `system` by `inodeSystem_reachable`.

The calls of the file system are calls of `system` that keep the counts.  The
record of `system` is a ghost: without it, its runs are runs of `namedSystem`.
So are opens and closes.  What holds in all runs of `namedSystem` therefore holds
in all of these: the chains are those of the names, every dentry is alone at its
address, and it has one reference.
-/

namespace OsKernel
namespace Vfs

open Lib

/-! ## The mounted file system -/

/-- A file is made by two calls of `system`. -/
theorem newFile_reachable {s : State} {sb mode slot : Nat}
    (hreach : system.ReachableWhile CountKept s)
    (hslot : (vfsNewInode s sb mode false).2 = some slot) (name : List UInt8)
    (alloc : Bool) :
    system.ReachableWhile CountKept (vfsNewDentry
      (vfsNewInode s sb mode false).1 name slot alloc s.ledger.created).1 := by
  have hplaced := vfsNewInode_placed hslot
  have hinode : system.ReachableWhile CountKept (vfsNewInode s sb mode false).1 :=
    hreach.next (a := .newInode sb mode false) trivial rfl
  have hat := congrArg Object.slot hplaced.object_new
  refine hinode.next (a := .newDentry name s.ledger.created alloc) ?_ ?_
  · show ((vfsNewInode s sb mode false).1.inodeTable _).iCount + 1 < _
    rw [hat, hplaced.table, Function.update_self]
    show (1 : Int) + 1 < 2 ^ 31
    decide
  · show (if _ then some _ else none) = some _
    rw [if_pos ((hplaced.referenced _).mpr (.inl rfl)), hat]

/-- The runs of the file system are runs of the VFS that keep the counts. -/
theorem ext4System_reachable {st : Ext4State} (hreach : ext4System.Reachable st) :
    system.ReachableWhile CountKept st.vfs := by
  refine hreach.invariant
    (P := fun st => system.ReachableWhile CountKept st.vfs) ?_ ?_
  · rintro st ⟨s, sb, alloc, hinit, -, hmount⟩
    obtain ⟨slot, hslot, rfl⟩ := Option.map_eq_some_iff.mp hmount
    exact newFile_reachable (.start hinit) hslot slash alloc
  · intro st a st' _ hst hstep
    cases a with
    | create name mode alloc =>
        obtain rfl := Option.some.inj hstep
        cases hcreate : ext4Create st name mode alloc with
        | none => exact hst
        | some made =>
            obtain ⟨slot, hslot, rfl⟩ := Option.map_eq_some_iff.mp hcreate
            exact newFile_reachable hst hslot name alloc
    | mkdir mode =>
        obtain rfl := Option.some.inj hstep
        cases hmkdir : ext4Mkdir st mode with
        | none => exact hst
        | some made =>
            obtain ⟨slot, -, rfl⟩ := Option.map_eq_some_iff.mp hmkdir
            exact hst.next (a := .newInode st.sb (sIfdir ||| mode) false) trivial
              rfl

/-! ## The VFS without its record -/

/-- A dentry without the number of its inode. -/
def Dentry.bare (d : Dentry) : Dentry := { d with object := 0 }

/-- The tables without the record. -/
def State.bare (s : State) : State :=
  { s with
    dentries := s.dentries.map Dentry.bare
    ledger := ⟨0, fun _ => ⟨0, 0, false, false, 0⟩, fun _ => 0, []⟩ }

section Bare

variable (s : State)

theorem map_bare_bare (dentries : List Dentry) :
    (dentries.map Dentry.bare).map Dentry.bare = dentries.map Dentry.bare := by
  rw [List.map_map]
  rfl

theorem bare_bare : s.bare.bare = s.bare := by
  simp only [State.bare, map_bare_bare]

theorem bare_vfsNewInode (sb mode : Nat) (evictInode : Bool) :
    (vfsNewInode s sb mode evictInode).1.bare =
      (vfsNewInode s.bare sb mode evictInode).1.bare := by
  have hinuse : s.bare.inodeInuse = s.inodeInuse := rfl
  simp only [vfsNewInode, hinuse]
  cases firstFree s.inodeInuse maxInodes 0 with
  | none => exact (bare_bare s).symm
  | some slot => simp only [State.bare, map_bare_bare]

theorem bare_atomicDec (slot : Nat) :
    (atomicDec s slot).bare = atomicDec s.bare slot := rfl

theorem bare_release (slot : Nat) :
    (release s slot).bare = (release s.bare slot).bare := by
  simp only [release, State.bare, map_bare_bare]

theorem bare_vfsPutInode (slot : Nat) :
    (vfsPutInode s slot).bare = (vfsPutInode s.bare slot).bare := by
  have hcount : ((atomicDec s.bare slot).inodeTable slot).iCount =
      ((atomicDec s slot).inodeTable slot).iCount := rfl
  simp only [vfsPutInode, hcount]
  split
  · rw [bare_release, bare_atomicDec]
  · rw [← bare_atomicDec, bare_bare]

theorem bare_vfsNewDentry (name : List UInt8) (slot : Nat) (alloc : Bool)
    (o p : Nat) :
    (vfsNewDentry s name slot alloc o).1.bare =
      (vfsNewDentry s.bare name slot alloc p).1.bare := by
  cases alloc with
  | false => simp [vfsNewDentry, State.bare, Dentry.bare]
  | true => simp [vfsNewDentry, State.bare, Dentry.bare]

theorem bare_forget (addr : Nat) :
    (s.forget addr).bare = s.bare.forget addr := by
  simp only [State.forget, State.bare, List.filter_map]
  rfl

theorem bare_vfsPutDentry (d : Dentry) :
    (vfsPutDentry s d).bare = (vfsPutDentry s.bare d.bare).bare := by
  have hcount : d.bare.refcount = d.refcount := rfl
  simp only [vfsPutDentry, hcount]
  split
  next hmore =>
    simp only [State.bare, List.map_map]
    congr 1
    refine List.map_congr_left fun e _ => ?_
    by_cases he : e.addr = d.addr
    · simp [Dentry.bare, he]
    · simp [Dentry.bare, he]
  next hlast =>
    rw [bare_vfsPutInode, bare_atomicDec, bare_forget]
    rfl

/-- The dentry at an address, without the number of its inode. -/
theorem find?_bare (addr : Nat) :
    s.bare.dentries.find? (fun d => d.addr = addr) =
      (s.dentries.find? fun d => d.addr = addr).map Dentry.bare := by
  rw [State.bare, List.find?_map]
  rfl

end Bare

/-- Without the record, a call of `system` is a call of `namedSystem`. -/
theorem namedStep_of_step {s s' : State} {a : Action}
    (hstep : Vfs.step s a = some s') {st : NamedState}
    (hsame : st.vfs.bare = s.bare) :
    ∃ b st', namedStep st b = some st' ∧ st'.vfs.bare = s'.bare := by
  cases a with
  | newInode sb mode evictInode =>
      obtain rfl := Option.some.inj hstep
      refine ⟨.newInode sb mode evictInode, _, rfl, ?_⟩
      rw [bare_vfsNewInode, hsame, ← bare_vfsNewInode]
  | newDentry name o alloc =>
      -- the call names a slot, the ghost an object; both lead to the same inode
      rw [Vfs.step] at hstep
      split at hstep
      next =>
        obtain rfl := Option.some.inj hstep
        refine ⟨.newDentry name (s.ledger.object o).slot alloc, _, rfl, ?_⟩
        rw [bare_vfsNewDentry _ _ _ _ _ o, hsame, ← bare_vfsNewDentry]
      next => contradiction
  | putDentry addr =>
      rw [Vfs.step] at hstep
      split at hstep
      next => contradiction
      next d hfind =>
        obtain rfl := Option.some.inj hstep
        have hbare := find?_bare s addr
        rw [← hsame, find?_bare, hfind] at hbare
        obtain ⟨e, he, hed⟩ := Option.map_eq_some_iff.mp hbare
        refine ⟨.putDentry addr, _, Option.map_eq_some_iff.mpr ⟨e, he, rfl⟩, ?_⟩
        show (vfsPutDentry st.vfs e).bare = (vfsPutDentry s d).bare
        rw [bare_vfsPutDentry, hsame, hed, ← bare_vfsPutDentry]
  | putInode o =>
      rw [Vfs.step] at hstep
      split at hstep
      next =>
        obtain rfl := Option.some.inj hstep
        refine ⟨.putInode (s.ledger.object o).slot, _, rfl, ?_⟩
        show (vfsPutInode st.vfs _).bare = (vfsPutInode s _).bare
        rw [bare_vfsPutInode, hsame, ← bare_vfsPutInode]
      next => contradiction

/-- Without the record, the runs of the VFS are runs of `namedSystem`. -/
theorem system_reachable_named {s : State} (hreach : system.Reachable s) :
    ∃ st, namedSystem.Reachable st ∧ st.vfs.bare = s.bare := by
  refine hreach.invariant
    (P := fun s => ∃ st, namedSystem.Reachable st ∧ st.vfs.bare = s.bare) ?_ ?_
  · intro s hinit
    exact ⟨⟨s, fun _ => []⟩, .start hinit, rfl⟩
  · rintro s a s' - ⟨st, hst, hsame⟩ hstep
    obtain ⟨b, st', hnext, hsame'⟩ := namedStep_of_step hstep hsame
    exact ⟨st', hst.next hnext, hsame'⟩

/-! ## Opens and closes -/

/-- An open leaves the tables alone, and a close is a put of a dentry. -/
theorem openSystem_reachable {fs : CachingLookup} {root : Option Nat}
    {start : NamedState} (hstart : namedSystem.Reachable start) {s : OpenRun}
    (hreach : (openSystem fs root start.vfs).Reachable s) :
    namedSystem.Reachable ⟨s.tables, start.called⟩ := by
  refine hreach.invariant
    (P := fun s => namedSystem.Reachable ⟨s.tables, start.called⟩) ?_ ?_
  · rintro s rfl
    exact hstart
  · intro s a t _ hs hstep
    cases a with
    | «open» pathname kmalloc ret =>
        obtain ⟨file, -, rfl⟩ := Option.map_eq_some_iff.mp hstep
        cases file with
        | none => exact hs
        | some addr => exact hs
    | close number =>
        obtain ⟨f, -, hclose⟩ := Option.bind_eq_some_iff.mp hstep
        obtain ⟨tables, htables, rfl⟩ := Option.map_eq_some_iff.mp hclose
        obtain ⟨d, hd, rfl⟩ := Option.map_eq_some_iff.mp htables
        exact hs.next (a := .putDentry f.fDentry)
          (Option.map_eq_some_iff.mpr ⟨d, hd, rfl⟩)

/-! ## What all runs have in common -/

namespace Single

variable {s : State}

theorem cached (h : Single s) : Cached s where
  addrs := h.addrs
  pos d hd := by
    rw [h.one d hd]
    decide
  fits d hd := by
    rw [h.one d hd]
    decide

/-- A put takes the only reference. -/
theorem putDentry (h : Single s) {d : Dentry} (hd : d ∈ s.dentries) :
    Single (vfsPutDentry s d) := by
  have hone := h.one d hd
  have hnext : (vfsPutDentry s d).nextAddr = s.nextAddr := by
    rcases vfsPutDentry_cases s d with hsame | hfreed
    · exact hsame.nextAddr
    · exact hfreed.nextAddr
  have hdentries := vfsPutDentry_dentries (s := s) (d := d) (by omega) (by omega)
  rw [if_neg (by omega)] at hdentries
  exact h.forget hdentries hnext

theorem step {st st' : NamedState} (h : Single st.vfs) {a : DentryAction}
    (hstep : namedStep st a = some st') : Single st'.vfs := by
  cases a with
  | newInode sb mode evictInode =>
      obtain rfl := Option.some.inj hstep
      rcases vfsNewInode_spec st.vfs sb mode evictInode with
        ⟨-, hsame⟩ | ⟨slot, -, hplaced⟩
      · exact h.of_dentries (congrArg State.dentries hsame)
          (congrArg State.nextAddr hsame)
      · exact h.of_dentries hplaced.dentries hplaced.nextAddr
  | putInode slot =>
      obtain rfl := Option.some.inj hstep
      exact h.of_dentries (vfsPutInode_dentries _ _)
        (vfsPutInode_sameLabels _ _).nextAddr
  | newDentry name slot alloc =>
      obtain rfl := Option.some.inj hstep
      cases alloc with
      | false => exact h
      | true => exact h.newDentry name slot _
  | putDentry addr =>
      obtain ⟨d, hfind, rfl⟩ := Option.map_eq_some_iff.mp hstep
      exact h.putDentry (List.mem_of_find?_eq_some hfind)

end Single

theorem reachable_single {st : NamedState} (hreach : namedSystem.Reachable st) :
    Single st.vfs := by
  refine hreach.invariant (P := fun st => Single st.vfs) ?_ ?_
  · exact fun _ hinit => .of_initial hinit
  · exact fun _ _ _ _ hsingle hstep => hsingle.step hstep

/-- The record makes no difference to the chains. -/
theorem HashOk.of_bare {s : State} {st : NamedState} (h : HashOk st)
    (hsame : st.vfs.bare = s.bare) : HashOk ⟨s, st.called⟩ := by
  have hlabels : ∀ t : State, t.bare.labels = t.labels := by
    intro t
    rw [State.labels, State.bare, List.map_map]
    rfl
  refine h.sameLabels ⟨?_, ?_, ?_⟩ rfl
  · rw [← hlabels, ← hsame, hlabels]
  · exact (congrArg State.dentryHashtable hsame.symm :)
  · exact (congrArg State.nextAddr hsame.symm :)

theorem Single.of_bare {s t : State} (h : Single t) (hsame : t.bare = s.bare) :
    Single s := by
  have hdentries : t.dentries.map Dentry.bare = s.dentries.map Dentry.bare :=
    congrArg State.dentries hsame
  -- a dentry of `s` has the address and the count of one of `t`
  have hfrom : ∀ d ∈ s.dentries, ∃ e ∈ t.dentries,
      e.addr = d.addr ∧ e.refcount = d.refcount := by
    intro d hd
    have hmem := List.mem_map_of_mem (f := Dentry.bare) hd
    rw [← hdentries] at hmem
    obtain ⟨e, he, hed⟩ := List.mem_map.mp hmem
    exact ⟨e, he, (congrArg Dentry.addr hed :), (congrArg Dentry.refcount hed :)⟩
  constructor
  · intro d hd
    obtain ⟨e, he, haddr, -⟩ := hfrom d hd
    have hnext : t.bare.nextAddr = s.bare.nextAddr := by rw [hsame]
    rw [← haddr]
    exact (h.fresh e he).trans_eq hnext
  · have haddrs := congrArg (List.map Dentry.addr) hdentries
    rw [List.map_map, List.map_map] at haddrs
    exact (haddrs : t.dentries.map Dentry.addr = s.dentries.map Dentry.addr) ▸
      h.addrs
  · intro d hd
    obtain ⟨e, he, -, hcount⟩ := hfrom d hd
    rw [← hcount]
    exact h.one e he

/-- In every run of the VFS the dentries are each alone at their address with
one reference, and on the chains of the names they were made with. -/
theorem system_dentries {s : State} (hreach : system.Reachable s) :
    Single s ∧ ∃ called, HashOk ⟨s, called⟩ := by
  obtain ⟨st, hst, hsame⟩ := system_reachable_named hreach
  exact ⟨(reachable_single hst).of_bare hsame, st.called,
    (reachable_hashOk hst).of_bare hsame⟩

/-- The same for the mounted file system, whose inodes are released with their
last reference. -/
theorem ext4System_dentries {st : Ext4State} (hreach : ext4System.Reachable st) :
    ReferenceSafe st.vfs ∧ Single st.vfs ∧ ∃ called, HashOk ⟨st.vfs, called⟩ := by
  have hcalls := ext4System_reachable hreach
  exact ⟨(reachable_sound hcalls).slots.referenceSafe,
    system_dentries hcalls.reachable⟩

/-- Files are opened and closed on tables made by any calls: the dentries that
are left are those the closes have left, on the chains they were on. -/
theorem openSystem_dentries {fs : CachingLookup} {root : Option Nat}
    {start : NamedState} (hstart : namedSystem.Reachable start) {s : OpenRun}
    (hreach : (openSystem fs root start.vfs).Reachable s) :
    s.Ok start.vfs ∧ HashOk ⟨s.tables, start.called⟩ :=
  ⟨reachable_openRun_ok (reachable_single hstart).cached hreach,
    reachable_hashOk (openSystem_reachable hstart hreach)⟩

end Vfs
end OsKernel

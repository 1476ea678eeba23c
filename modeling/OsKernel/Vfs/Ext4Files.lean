import OsKernel.Vfs.Ext4Io

/-!
# Files of `demos/vfs/ext4_ops.c` from their creation on

`ext4_create` puts the dentry of the new file into the cache of the VFS.
`vfs_open` does not search the cache but asks the file system, and the loop of
`ext4_lookup` over the records has an empty body: it returns `NULL` for every
name.  The only dentry `vfs_open` ever sees is that of the root directory, and a
directory is not opened.

Inodes and dentries are not put by the calls of the file system, so the tables
of the VFS only grow.  `Grows` says what that leaves as it was.

The second part is about the contents: reads with one offset, each with a count
and a buffer of its own, after writes with one offset.
-/

namespace OsKernel
namespace Vfs

open Lib

/-! ## Tables that grow -/

/-- The slots in use stay in use, with the same file type and permissions, and
the dentries stay where they are. -/
structure Grows (s t : State) : Prop where
  inuse : ∀ i, Bitmap.test s.inodeInuse i = true →
    Bitmap.test t.inodeInuse i = true
  mode : ∀ i, Bitmap.test s.inodeInuse i = true →
    (t.inodeTable i).iMode = (s.inodeTable i).iMode
  dentries : s.dentries <+: t.dentries
  chains : ∀ h, s.dentryHashtable h <+: t.dentryHashtable h

namespace Grows

variable {s t u : State}

theorem refl (s : State) : Grows s s :=
  ⟨fun _ hi => hi, fun _ _ => rfl, List.prefix_rfl, fun _ => List.prefix_rfl⟩

theorem trans (hst : Grows s t) (htu : Grows t u) : Grows s u where
  inuse i hi := htu.inuse i (hst.inuse i hi)
  mode i hi := (htu.mode i (hst.inuse i hi)).trans (hst.mode i hi)
  dentries := hst.dentries.trans htu.dentries
  chains h := (hst.chains h).trans (htu.chains h)

theorem dentryAt (h : Grows s t) {addr : Nat} {d : Dentry}
    (hd : s.dentryAt addr = some d) : t.dentryAt addr = some d := by
  obtain ⟨more, hmore⟩ := h.dentries
  unfold State.dentryAt at hd ⊢
  rw [← hmore, List.find?_append, hd, Option.some_or]

theorem newInode (hwords : s.inodeInuse.length = maxInodes / 64)
    (sb mode : Nat) (evictInode : Bool) :
    Grows s (vfsNewInode s sb mode evictInode).1 := by
  rcases vfsNewInode_spec s sb mode evictInode with
    ⟨-, hsame⟩ | ⟨slot, -, hplaced⟩
  · rw [hsame]
    exact refl s
  · refine ⟨fun i hi => ?_, fun i hi => ?_, ?_, fun h => ?_⟩
    · rw [hplaced.test hwords, hi, Bool.true_or]
    · -- the slot that is written was not in use
      have hne : i ≠ slot := by
        rintro rfl
        rw [hplaced.clear] at hi
        contradiction
      rw [hplaced.table, Function.update_of_ne hne]
    · rw [hplaced.dentries]
    · rw [hplaced.hashtable]

theorem newDentry (s : State) (name : List UInt8) (slot : Nat) (alloc : Bool)
    (o : Nat) : Grows s (vfsNewDentry s name slot alloc o).1 := by
  cases alloc with
  | false => exact refl s
  | true =>
      refine ⟨fun _ hi => hi, fun i _ => ?_, List.prefix_append _ _, fun h => ?_⟩
      · show (Function.update s.inodeTable slot _ i).iMode = _
        rw [apply_update_of_eq Inode.iMode]
        rfl
      · show s.dentryHashtable h <+: Function.update s.dentryHashtable
          (hashDentry name) (s.dentryHashtable (hashDentry name) ++ _) h
        by_cases hh : h = hashDentry name
        · subst hh
          rw [Function.update_self]
          exact List.prefix_append _ _
        · rw [Function.update_of_ne hh]

end Grows

namespace Ext4State

variable {st st' : Ext4State}

/-- A call of the file system lets the tables grow and keeps the root. -/
theorem Ok.grows (h : st.Ok) {a : Ext4Action}
    (hstep : ext4Step st a = some st') :
    Grows st.vfs st'.vfs ∧ st'.rootDentry = st.rootDentry := by
  cases a with
  | create name mode alloc =>
      obtain rfl := Option.some.inj hstep
      have hinode := Grows.newInode h.words st.sb (sIfreg ||| mode) false
      simp only [ext4Create]
      cases (vfsNewInode st.vfs st.sb (sIfreg ||| mode) false).2 with
      | none => exact ⟨.refl _, rfl⟩
      | some slot => exact ⟨hinode.trans (.newDentry _ name slot alloc _), rfl⟩
  | mkdir mode =>
      obtain rfl := Option.some.inj hstep
      have hinode := Grows.newInode h.words st.sb (sIfdir ||| mode) false
      simp only [ext4Mkdir]
      cases (vfsNewInode st.vfs st.sb (sIfdir ||| mode) false).2 with
      | none => exact ⟨.refl _, rfl⟩
      | some slot => exact ⟨hinode, rfl⟩

end Ext4State

/-! ## Opening files -/

/-- `ext4_lookup`: the loop over the records compares no name. -/
def ext4Lookup (_s : State) (_dir : Nat) (_name : List UInt8) : Option Nat :=
  none

/-- The lookup `vfs_open` calls through the root's `i_op`. -/
def ext4Fs : CachingLookup where
  lookup := ext4Lookup
  cached := fun _ _ _ _ hfound => nomatch hfound

/-- A live dentry on the chain of a name, for an inode in use with the given
mode. -/
structure InCache (s : State) (d : Dentry) (name : List UInt8) (mode : Nat) :
    Prop where
  live : d ∈ s.dentries
  chain : d.addr ∈ s.dentryHashtable (hashDentry name)
  inuse : Bitmap.test s.inodeInuse d.inode = true
  mode : (s.inodeTable d.inode).iMode = mode

/-- A new dentry on a new inode is in the cache. -/
theorem inCache_new {s : State} {sb mode slot : Nat}
    (hwords : s.inodeInuse.length = maxInodes / 64)
    (hslot : (vfsNewInode s sb mode false).2 = some slot) (name : List UInt8)
    (o : Nat) :
    InCache (vfsNewDentry (vfsNewInode s sb mode false).1 name slot true o).1
      ⟨s.nextAddr, name.take 255, slot, 1, o⟩ name mode := by
  have hplaced := vfsNewInode_placed hslot
  refine ⟨?_, ?_, ?_, ?_⟩
  · simp [vfsNewDentry, hplaced.nextAddr]
  · simp [vfsNewDentry, hplaced.nextAddr]
  · show Bitmap.test (vfsNewInode s sb mode false).1.inodeInuse slot = true
    rw [hplaced.test hwords]
    simp
  · simp [vfsNewDentry, hplaced.table]

theorem Grows.inCache {s t : State} (h : Grows s t) {d : Dentry}
    {name : List UInt8} {mode : Nat} (hd : InCache s d name mode) :
    InCache t d name mode where
  live := h.dentries.subset hd.live
  chain := (h.chains _).subset hd.chain
  inuse := h.inuse _ hd.inuse
  mode := (h.mode _ hd.inuse).trans hd.mode

namespace Ext4State

variable {st st' : Ext4State}

/-- If there is a root dentry, it is live and its inode is a directory. -/
def RootDir (st : Ext4State) : Prop :=
  ∀ addr, st.rootDentry = some addr → ∃ d,
    st.vfs.dentryAt addr = some d ∧
    Bitmap.test st.vfs.inodeInuse d.inode = true ∧
    sIsDir (st.vfs.inodeTable d.inode).iMode = true

theorem RootDir.mount {s : State} (hinit : Initial s) {sb : Nat} {alloc : Bool}
    (hmount : ext4Mount s sb alloc = some st) : st.RootDir := by
  have hwords : s.inodeInuse.length = maxInodes / 64 := by
    rw [hinit.inuse, List.length_replicate]
  obtain ⟨slot, hslot, rfl⟩ := Option.map_eq_some_iff.mp hmount
  have hcached := inCache_new hwords hslot slash s.ledger.created
  intro addr hroot
  cases alloc with
  | false => cases hroot
  | true =>
      refine ⟨_, ?_, hcached.inuse, ?_⟩
      · -- it is the only dentry
        have hplaced := vfsNewInode_placed hslot
        obtain rfl : s.nextAddr = addr :=
          hplaced.nextAddr.symm.trans (Option.some.inj hroot)
        simp [State.dentryAt, vfsNewDentry, hplaced.dentries, hplaced.nextAddr,
          hinit.dentries]
      · show sIsDir ((vfsNewDentry _ slash slot true _).1.inodeTable
          slot).iMode = true
        rw [hcached.mode]
        decide

theorem RootDir.grows (h : st.RootDir) (hgrows : Grows st.vfs st'.vfs)
    (hroot : st'.rootDentry = st.rootDentry) : st'.RootDir := by
  intro addr haddr
  obtain ⟨d, hd, hinuse, hdir⟩ := h addr (hroot ▸ haddr)
  refine ⟨d, hgrows.dentryAt hd, hgrows.inuse _ hinuse, ?_⟩
  rw [hgrows.mode _ hinuse]
  exact hdir

/-- Where the root is a directory, `vfs_open` opens nothing. -/
theorem RootDir.vfsOpen (h : st.RootDir) (pathname : List UInt8)
    (kmalloc : Bool) (ret : Int) :
    vfsOpen ext4Fs st.rootDentry st.vfs pathname kmalloc ret = some none := by
  unfold Vfs.vfsOpen resolve
  cases hroot : st.rootDentry with
  | none => split <;> rfl
  | some addr =>
      obtain ⟨d, hd, -, hdir⟩ := h addr hroot
      by_cases hslash : pathname = slash
      · -- the root itself
        simp [hslash, hd, hdir]
      · -- a name in it
        simp [hslash, hd, ext4Fs, ext4Lookup]

/-- The file a call of `ext4_create` made is in the cache after it. -/
theorem Ok.inCache (h : st.Ok) {name : List UInt8} {mode : Nat}
    (hcreate : ext4Create st name mode true = some st') :
    ∃ d, d.name = name.take 255 ∧ InCache st'.vfs d name (sIfreg ||| mode) := by
  obtain ⟨slot, hslot, rfl⟩ := Option.map_eq_some_iff.mp hcreate
  exact ⟨_, rfl, inCache_new h.words hslot name st.vfs.ledger.created⟩

end Ext4State

theorem reachable_rootDir {st : Ext4State} (hreach : ext4System.Reachable st) :
    st.RootDir := by
  refine hreach.invariant (P := Ext4State.RootDir) ?_ ?_
  · intro st hinit
    obtain ⟨s, sb, alloc, htables, -, hmount⟩ := hinit
    exact .mount htables hmount
  · intro st a st' hst hroot hstep
    obtain ⟨hgrows, hsame⟩ := (reachable_ext4_ok hst).grows hstep
    exact hroot.grows hgrows hsame

/-- Once a file was created, its dentry stays in the cache on the chain of its
name through any further calls, with an inode that is a regular file; and yet
there is no path that `vfs_open` opens, whatever `kmalloc` and the file system's
`open` return. -/
theorem created_file_never_opens {st st' later : Ext4State} {name : List UInt8}
    {mode : Nat} {actions : List Ext4Action}
    (hreach : ext4System.Reachable st)
    (hcreate : ext4Create st name mode true = some st')
    (hrun : ext4System.run st' actions = some later) :
    (∃ d, d.name = name.take 255 ∧
      InCache later.vfs d name (sIfreg ||| mode)) ∧
    ∀ pathname kmalloc ret,
      vfsOpen ext4Fs later.rootDentry later.vfs pathname kmalloc ret =
        some none := by
  have hstep : ext4System.step st (.create name mode true) = some st' := by
    show some ((ext4Create st name mode true).getD st) = some st'
    rw [hcreate]
    rfl
  have hnext := hreach.next hstep
  obtain ⟨d, hname, hcached⟩ := (reachable_ext4_ok hreach).inCache hcreate
  refine ⟨⟨d, hname, ?_⟩, (reachable_rootDir (hnext.run hrun)).vfsOpen⟩
  refine hnext.of_run (P := fun st => InCache st.vfs d name _) ?_ hcached hrun
  intro st a st' hst hin hstep
  exact ((reachable_ext4_ok hst).grows hstep).1.inCache hin

/-- A file `a`, then a directory and a file `b`, after the first mount. -/
theorem created_file_never_opens_sample :
    ∃ mounted st later, ext4Mount emptyTables 0 true = some mounted ∧
      ext4Create mounted [97] 0o644 true = some st ∧
      ext4System.run st [.mkdir 0o755, .create [98] 0o600 true] = some later ∧
      (∃ d, d.name = [97] ∧ InCache later.vfs d [97] 0o100644) ∧
      vfsOpen ext4Fs later.rootDentry later.vfs [47, 97] true 0 = some none := by
  have hstart : ∃ mounted, ext4Mount emptyTables 0 true = some mounted ∧
      ext4System.Reachable mounted :=
    ⟨_, rfl, .start ⟨_, 0, true, emptyTables_initial, by decide, rfl⟩⟩
  obtain ⟨mounted, hmount, hreach⟩ := hstart
  obtain rfl := Option.some.inj hmount
  obtain ⟨hcached, hopens⟩ := created_file_never_opens hreach
    (show ext4Create _ [97] 0o644 true = some _ from rfl)
    (show ext4System.run _ [.mkdir 0o755, .create [98] 0o600 true] = some _
      from rfl)
  exact ⟨_, _, _, rfl, rfl, rfl, hcached, hopens [47, 97] true 0⟩

/-! ## Reading back -/

/-- What a call of `ext4_read` gives its caller: as many bytes of the buffer as
the result says. -/
def ReadResult.given (r : ReadResult) : List UInt8 :=
  (List.range r.ret.toInt.toNat).map r.buf

/-- Calls of `ext4_read` one after another that share `*pos`, each with its
count and its buffer: the bytes they give, and the last `*pos`. -/
def readSeq (inode : FileInode) (data : Int → UInt8) :
    List (UInt64 × (Nat → UInt8)) → Int64 → List UInt8 × Int64
  | [], pos => ([], pos)
  | call :: rest, pos =>
      let r := ext4Read inode data call.2 call.1 pos
      let more := readSeq inode data rest r.pos
      (r.given ++ more.1, more.2)

/-- Calls of `ext4_write` one after another that share `*pos`: the inode and the
last `*pos`. -/
def writeSeq : FileInode → List UInt64 → Int64 → FileInode × Int64
  | inode, [], pos => (inode, pos)
  | inode, count :: rest, pos =>
      let r := ext4Write inode count pos
      writeSeq r.1 rest r.2.1

/-- The bytes asked for. -/
def total (counts : List UInt64) : Nat := (counts.map UInt64.toNat).sum

theorem total_cons (count : UInt64) (rest : List UInt64) :
    total (count :: rest) = count.toNat + total rest := by
  simp [total]

section
variable {inode : FileInode} {data : Int → UInt8}

/-- A read that is right gives the next bytes of the file. -/
theorem ReadsInside.given {buf : Nat → UInt8} {count : UInt64} {pos : Int64}
    (h : ReadsInside inode data buf count pos) :
    (ext4Read inode data buf count pos).given =
      (List.range (available inode count pos)).map fun i : Nat =>
        fileByte inode data (pos.toInt + i) := by
  unfold ReadResult.given
  rw [h.result, Int.toNat_natCast]
  exact List.map_congr_left fun i hi => h.bytes i (List.mem_range.mp hi)

/-- The sizes and counts a file can have in memory do not reach the sums that
are cut off. -/
theorem readsInside_of_small {count : UInt64} {pos : Int64}
    (hsize : inode.iSize.toNat < 2 ^ 63) (hcount : count.toNat ≤ 2 ^ 63)
    (hpos : 0 ≤ pos.toInt) (buf : Nat → UInt8) :
    ReadsInside inode data buf count pos := by
  by_cases hend : inode.iSize.toNat ≤ pos.toInt.toNat
  · exact readsInside_of_end hpos hend
  · have hbelow := Nat.lt_of_not_le hend
    have hroom := add_available_le count hbelow
    refine (readsInside_iff_of_below hpos hbelow).mpr ⟨?_, by omega⟩
    exact toNat_clampCount hpos hbelow (by omega)

/-- Reads that share an offset give the bytes of the file in order, each of
them once, until the file ends. -/
theorem readSeq_eq (data : Int → UInt8) (hsize : inode.iSize.toNat < 2 ^ 63)
    {calls : List (UInt64 × (Nat → UInt8))}
    (hcounts : ∀ call ∈ calls, call.1.toNat ≤ 2 ^ 63) {pos : Int64} {p n : Nat}
    (hpos : pos.toInt = p)
    (hn : n = min (total (calls.map Prod.fst)) (inode.iSize.toNat - p)) :
    (readSeq inode data calls pos).1 =
        (List.range n).map (fun i : Nat => fileByte inode data ((p : Int) + i)) ∧
      (readSeq inode data calls pos).2.toInt = ((p + n : Nat) : Int) := by
  induction calls generalizing pos p n with
  | nil =>
      obtain rfl : n = 0 := by simpa [total] using hn
      exact ⟨rfl, hpos⟩
  | cons call rest ih =>
      have hinside : ReadsInside inode data call.2 call.1 pos :=
        readsInside_of_small hsize (hcounts call List.mem_cons_self)
          (by omega) call.2
      have hgiven := hinside.given
      have hmoved := hinside.moved
      generalize havail : available inode call.1 pos = a at hgiven hmoved
      rw [available, hpos, Int.toNat_natCast] at havail
      rw [List.map_cons, total_cons] at hn
      have hnext : (ext4Read inode data call.2 call.1 pos).pos.toInt =
          ((p + a : Nat) : Int) := by
        rw [hmoved, hpos, Nat.cast_add]
      obtain ⟨hbytes, hlast⟩ := ih
        (fun c hc => hcounts c (List.mem_cons_of_mem call hc)) hnext rfl
      -- the rest of the calls reads on where the first one stopped
      obtain ⟨m, rfl⟩ : ∃ m, n = a + m := ⟨n - a, by omega⟩
      have hm : min (total (rest.map Prod.fst)) (inode.iSize.toNat - (p + a)) =
          m := by omega
      rw [hm] at hbytes hlast
      constructor
      · show ReadResult.given _ ++ (readSeq inode data rest _).1 = _
        rw [hgiven, hbytes, hpos, List.range_add, List.map_append, List.map_map]
        congr 1
        refine List.map_congr_left fun i _ => ?_
        simp [Int.add_assoc]
      · show (readSeq inode data rest _).2.toInt = _
        rw [hlast, Nat.add_assoc]

theorem ext4Write_eq (inode : FileInode) (count : UInt64) {pos : Int64}
    {p : Nat} (hpos : pos.toInt = p) (hroom : p + count.toNat < 2 ^ 63) :
    (ext4Write inode count pos).1.iSize.toNat =
        max inode.iSize.toNat (p + count.toNat) ∧
      (ext4Write inode count pos).1.iBlock0 = inode.iBlock0 ∧
      (ext4Write inode count pos).2.1.toInt = ((p + count.toNat : Nat) : Int) := by
  have hsum : (pos.toUInt64 + count).toNat = p + count.toNat := by
    rw [UInt64.toNat_add, toNat_toUInt64 (by omega), hpos, Int.toNat_natCast]
    omega
  have hmoved : (pos.toUInt64 + count).toInt64.toInt =
      ((p + count.toNat : Nat) : Int) := by
    rw [toInt_toInt64_eq_iff.mpr (by omega), hsum]
  unfold ext4Write
  by_cases hpast : pos.toUInt64 + count > inode.iSize
  · have hlt := UInt64.lt_iff_toNat_lt.mp hpast
    rw [if_pos hpast]
    refine ⟨?_, rfl, hmoved⟩
    show (pos.toUInt64 + count).toNat = _
    omega
  · have hle := mt UInt64.lt_iff_toNat_lt.mpr hpast
    rw [if_neg hpast]
    refine ⟨?_, rfl, hmoved⟩
    show inode.iSize.toNat = _
    omega

/-- Writes that share an offset inside the file make it as long as the last of
them reaches, and leave the block alone. -/
theorem writeSeq_eq (inode : FileInode) (counts : List UInt64) {pos : Int64}
    {p : Nat} (hpos : pos.toInt = p) (hinside : p ≤ inode.iSize.toNat)
    (hroom : p + total counts < 2 ^ 63) :
    (writeSeq inode counts pos).1.iSize.toNat =
        max inode.iSize.toNat (p + total counts) ∧
      (writeSeq inode counts pos).1.iBlock0 = inode.iBlock0 ∧
      (writeSeq inode counts pos).2.toInt = ((p + total counts : Nat) : Int) := by
  induction counts generalizing inode pos p with
  | nil =>
      refine ⟨?_, rfl, hpos⟩
      show inode.iSize.toNat = max inode.iSize.toNat p
      omega
  | cons count rest ih =>
      rw [total_cons, ← Nat.add_assoc] at hroom ⊢
      obtain ⟨hsize, hblock, hmoved⟩ := ext4Write_eq inode count hpos (by omega)
      obtain ⟨hsizes, hblocks, hlast⟩ := ih
        (ext4Write inode count pos).1 hmoved (by omega) hroom
      refine ⟨?_, hblocks.trans hblock, hlast⟩
      show (writeSeq _ rest _).1.iSize.toNat = _
      omega

end

/-- Writes from the start of a file on make it as long as they are together, if
it was not longer.  Reads from its start on then give its bytes in order, each
of them once, and stop at its end, however the file is cut into calls.  The
bytes are those of the block as it was before the writes, or zeros if there is
none: `ext4_write` stores nothing. -/
theorem read_back (inode : FileInode) (data : Int → UInt8)
    (writes : List UInt64) (reads : List (UInt64 × (Nat → UInt8)))
    (hsize : inode.iSize.toNat < 2 ^ 63) (hwrites : total writes < 2 ^ 63)
    (hreads : ∀ call ∈ reads, call.1.toNat ≤ 2 ^ 63) :
    let written := writeSeq inode writes 0
    let size := max inode.iSize.toNat (total writes)
    let n := min (total (reads.map Prod.fst)) size
    written.1.iSize.toNat = size ∧ written.2.toInt = total writes ∧
      (readSeq written.1 data reads 0).1 =
        (List.range n).map (fun i : Nat => fileByte inode data i) ∧
      (readSeq written.1 data reads 0).2.toInt = n := by
  have hzero : (0 : Int64).toInt = ((0 : Nat) : Int) := by decide
  obtain ⟨hlength, hblock, hlast⟩ := writeSeq_eq inode writes hzero
    (Nat.zero_le _) (by rwa [Nat.zero_add])
  rw [Nat.zero_add] at hlength hlast
  obtain ⟨hbytes, hend⟩ := readSeq_eq data
    (show (writeSeq inode writes 0).1.iSize.toNat < 2 ^ 63 by omega) hreads
    hzero rfl
  simp only [Nat.sub_zero, hlength, Nat.zero_add] at hbytes hend
  refine ⟨hlength, hlast, ?_, hend⟩
  rw [hbytes]
  refine List.map_congr_left fun i _ => ?_
  simp [fileByte, hblock]

/-- Five bytes are written in two calls to an empty file without a block, and
read with counts of two, two and four. -/
theorem read_back_sample :
    (readSeq (writeSeq ⟨0, 0⟩ [3, 2] 0).1 (fun _ => 7)
      [(2, fun _ => 1), (2, fun _ => 1), (4, fun _ => 1)] 0).1 =
        [0, 0, 0, 0, 0] := by
  obtain ⟨-, -, hbytes, -⟩ := read_back ⟨0, 0⟩ (fun _ => 7) [3, 2]
    [(2, fun _ => 1), (2, fun _ => 1), (4, fun _ => 1)] (by decide) (by decide)
    (by decide)
  exact hbytes

end Vfs
end OsKernel

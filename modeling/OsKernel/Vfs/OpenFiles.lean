import OsKernel.Vfs.Refcount

/-!
# Open files and their dentries

`vfs_open` stores a dentry in the new file and takes no reference for it;
`vfs_close` puts one.  Every close therefore uses up a reference that belongs to
somebody else, and the refcount of a dentry is what it was at the start less
the number of its files closed since.

A file system is given by its `lookup`, which answers with a live dentry and
changes nothing; where `i_op` or `lookup` is null the answer is `NULL`.  What
`kmalloc` and the file system's `open` return is part of the action, and `open`
and `release` leave the dentries alone.  For the pathname `""`, whose name
starts behind the end of the string, the empty name is looked up.  Of `struct
file` only `f_dentry` is read.

Reading a dentry that was freed is undefined; a call that does so has no step.
-/

namespace OsKernel
namespace Vfs

open Lib

/-- The lookup of a file system that keeps its dentries in the cache. -/
structure CachingLookup where
  lookup : State → Nat → List UInt8 → Option Nat
  cached : ∀ s dir name addr, lookup s dir name = some addr →
    ∃ d ∈ s.dentries, d.addr = addr

/-- `S_ISDIR`. -/
def sIsDir (mode : Nat) : Bool := mode &&& 0o170000 == 0o040000

/-- The dentry at an address; `none` if it was freed. -/
def State.dentryAt (s : State) (addr : Nat) : Option Dentry :=
  s.dentries.find? fun d => d.addr = addr

/-- The string `"/"`. -/
def slash : List UInt8 := [47]

/-- The dentry of a path in `vfs_open`.  The outer `none` stands for a read of
a dentry that was freed, the inner one for `NULL`. -/
def resolve (fs : CachingLookup) (root : Option Nat) (s : State)
    (pathname : List UInt8) : Option (Option Nat) :=
  if pathname = slash then some root
  else
    match root with
    | none => some none
    | some addr =>
        (s.dentryAt addr).map fun d => fs.lookup s d.inode (pathname.drop 1)

/-- `vfs_open`: the dentry of the new file.  `kmalloc` tells whether there is
memory for it, and `ret` is what the file system's `open` returned, `0` if it
has none. -/
def vfsOpen (fs : CachingLookup) (root : Option Nat) (s : State)
    (pathname : List UInt8) (kmalloc : Bool) (ret : Int) :
    Option (Option Nat) :=
  (resolve fs root s pathname).bind fun dentry =>
    match dentry with
    | none => some none
    | some addr =>
        (s.dentryAt addr).map fun d =>
          if sIsDir (s.inodeTable d.inode).iMode then none
          else if kmalloc = false then none
          else if ret < 0 then none
          else some addr

/-- `vfs_close` of a file on a dentry. -/
def vfsClose (s : State) (addr : Nat) : Option State :=
  (s.dentryAt addr).map fun d => vfsPutDentry s d

/-- An open file: its number in the order of the opens, and `f_dentry`. -/
structure File where
  number : Nat
  fDentry : Nat

/-- The tables and the open files.  `closed` is a ghost: the dentries of the
files closed so far. -/
structure OpenRun where
  tables : State
  files : List File
  opened : Nat
  closed : List Nat

inductive OpenAction
  | open (pathname : List UInt8) (kmalloc : Bool) (ret : Int)
  | close (number : Nat)

/-- One call; a file is closed at most once. -/
def openStep (fs : CachingLookup) (root : Option Nat) (s : OpenRun) :
    OpenAction → Option OpenRun
  | .open pathname kmalloc ret =>
      (vfsOpen fs root s.tables pathname kmalloc ret).map fun file =>
        match file with
        | none => s
        | some addr =>
            { s with
              files := s.files ++ [⟨s.opened, addr⟩]
              opened := s.opened + 1 }
  | .close number =>
      (s.files.find? fun f => f.number = number).bind fun f =>
        (vfsClose s.tables f.fDentry).map fun tables =>
          { s with
            tables := tables
            files := s.files.filter fun f => f.number != number
            closed := s.closed ++ [f.fDentry] }

/-- Any sequence of opens and closes on the given tables. -/
def openSystem (fs : CachingLookup) (root : Option Nat) (start : State) :
    ActionSystem OpenRun OpenAction where
  init s := s = ⟨start, [], 0, []⟩
  step := openStep fs root

/-- The dentries at the start: apart from each other, with at least one
reference each. -/
structure Cached (s : State) : Prop where
  addrs : (s.dentries.map Dentry.addr).Nodup
  pos : ∀ d ∈ s.dentries, 0 < d.refcount
  fits : ∀ d ∈ s.dentries, d.refcount < 2 ^ 31

/-- The dentry of every open file is live. -/
def OpenRun.DentriesAlive (s : OpenRun) : Prop :=
  ∀ f ∈ s.files, ∃ d ∈ s.tables.dentries, d.addr = f.fDentry

/-- Every dentry is there with the refcount it had. -/
def OpenRun.SameRefcounts (s : OpenRun) (start : State) : Prop :=
  ∀ d ∈ start.dentries, ∃ e ∈ s.tables.dentries,
    e.addr = d.addr ∧ e.refcount = d.refcount

/-! ## What is left of the dentries -/

/-- A dentry after some closes of its files; it is freed with its last
reference. -/
def Dentry.after (d : Dentry) (closes : Nat) : Option Dentry :=
  if closes < d.refcount then
    some { d with refcount := d.refcount - closes }
  else none

theorem Dentry.after_of_lt {d : Dentry} {closes : Nat}
    (hlt : closes < d.refcount) :
    d.after closes = some { d with refcount := d.refcount - closes } :=
  if_pos hlt

theorem Dentry.after_of_le {d : Dentry} {closes : Nat}
    (hle : d.refcount ≤ closes) : d.after closes = none :=
  if_neg (Int.not_lt.mpr hle)

/-- The dentries that are left after the closes. -/
def leftOver (dentries : List Dentry) (closed : List Nat) : List Dentry :=
  dentries.filterMap fun d => d.after (closed.count d.addr)

theorem mem_leftOver {dentries : List Dentry} {closed : List Nat}
    {e : Dentry} :
    e ∈ leftOver dentries closed ↔
      ∃ d ∈ dentries, closed.count d.addr < d.refcount ∧
        e = { d with refcount := d.refcount - closed.count d.addr } := by
  unfold leftOver
  rw [List.mem_filterMap]
  constructor
  · intro ⟨d, hd, hafter⟩
    unfold Dentry.after at hafter
    split at hafter
    next hlt => exact ⟨d, hd, hlt, (Option.some.inj hafter).symm⟩
    next => contradiction
  · intro ⟨d, hd, hlt, he⟩
    refine ⟨d, hd, ?_⟩
    rw [Dentry.after, if_pos hlt, he]

/-- The closes of one dentry leave the others as they were. -/
theorem count_concat_of_ne {closed : List Nat} {a b : Nat} (hne : b ≠ a) :
    (closed ++ [a]).count b = closed.count b := by
  rw [List.count_append, List.count_singleton, if_neg (by simpa using hne.symm),
    Nat.add_zero]

theorem count_concat_self {closed : List Nat} (a : Nat) :
    (closed ++ [a]).count a = closed.count a + 1 := by
  rw [List.count_append, List.count_singleton_self]

/-- One more close of a dentry that has references left after it. -/
theorem leftOver_concat_of_gt {dentries : List Dentry} {closed : List Nat}
    {a : Nat} {left : Int} (hgt : 1 < left)
    (hleft : ∀ d ∈ dentries, d.addr = a →
      d.refcount - closed.count a = left) :
    leftOver dentries (closed ++ [a]) =
      (leftOver dentries closed).map fun e =>
        if e.addr = a then { e with refcount := left - 1 } else e := by
  unfold leftOver
  rw [List.map_filterMap]
  apply List.filterMap_congr
  intro d hd
  by_cases ha : d.addr = a
  · have hd := hleft d hd ha
    have hcount : d.refcount - ((closed.count a + 1 : Nat) : Int) = left - 1 := by
      omega
    rw [ha, count_concat_self, Dentry.after_of_lt (by omega),
      Dentry.after_of_lt (by omega), hcount]
    simp [ha]
  · rw [count_concat_of_ne ha]
    unfold Dentry.after
    split
    next => simp [ha]
    next => rfl

/-- The close that takes the last reference of a dentry. -/
theorem leftOver_concat_of_last {dentries : List Dentry} {closed : List Nat}
    {a : Nat}
    (hleft : ∀ d ∈ dentries, d.addr = a → d.refcount - closed.count a = 1) :
    leftOver dentries (closed ++ [a]) =
      (leftOver dentries closed).filter fun e => e.addr != a := by
  unfold leftOver
  rw [List.filter_filterMap]
  apply List.filterMap_congr
  intro d hd
  by_cases ha : d.addr = a
  · have hd := hleft d hd ha
    rw [ha, count_concat_self, Dentry.after_of_le (by omega),
      Dentry.after_of_lt (by omega)]
    simp [Option.filter, ha]
  · rw [count_concat_of_ne ha]
    unfold Dentry.after
    split
    next => simp [Option.filter, ha]
    next => rfl

/-! ## The calls -/

theorem vfsPutInode_dentries (s : State) (slot : Nat) :
    (vfsPutInode s slot).dentries = s.dentries := by
  simp only [vfsPutInode]
  split <;> rfl

/-- What `vfs_put_dentry` does to the dentries. -/
theorem vfsPutDentry_dentries {s : State} {d : Dentry} (hpos : 0 < d.refcount)
    (hfits : d.refcount < 2 ^ 31) :
    (vfsPutDentry s d).dentries =
      if 1 < d.refcount then
        s.dentries.map fun e =>
          if e.addr = d.addr then { e with refcount := d.refcount - 1 } else e
      else s.dentries.filter fun e => e.addr != d.addr := by
  have hwrap := wrap32_of_fitsInt (show FitsInt (d.refcount - 1) from
    ⟨by omega, by omega⟩)
  unfold vfsPutDentry
  simp only [hwrap]
  by_cases hgt : 1 < d.refcount
  · rw [if_pos hgt, if_pos (show 0 < d.refcount - 1 by omega)]
  · rw [if_neg hgt, if_neg (show ¬ 0 < d.refcount - 1 by omega),
      vfsPutInode_dentries]
    rfl

theorem State.dentryAt_eq_some {s : State} {addr : Nat} {d : Dentry}
    (hd : s.dentryAt addr = some d) : d ∈ s.dentries ∧ d.addr = addr :=
  ⟨List.mem_of_find?_eq_some hd, by simpa using List.find?_some hd⟩

/-- A file that was opened is on a live dentry. -/
theorem vfsOpen_live {fs : CachingLookup} {root : Option Nat} {s : State}
    {pathname : List UInt8} {kmalloc : Bool} {ret : Int} {addr : Nat}
    (hopen : vfsOpen fs root s pathname kmalloc ret = some (some addr)) :
    ∃ d ∈ s.dentries, d.addr = addr := by
  obtain ⟨dentry, -, hfile⟩ := Option.bind_eq_some_iff.mp hopen
  cases dentry with
  | none => simp at hfile
  | some found =>
      obtain ⟨d, hd, hresult⟩ := Option.map_eq_some_iff.mp hfile
      obtain ⟨hmem, haddr⟩ := s.dentryAt_eq_some hd
      have hsame : found = addr := by
        split_ifs at hresult
        exact Option.some.inj hresult
      exact ⟨d, hmem, haddr.trans hsame⟩

/-! ## Runs -/

/-- The dentries are those the closes have left, and the files, open or
closed, are on dentries of the start. -/
structure OpenRun.Ok (s : OpenRun) (start : State) : Prop where
  dentries : s.tables.dentries = leftOver start.dentries s.closed
  files : ∀ f ∈ s.files, ∃ d ∈ start.dentries, d.addr = f.fDentry
  closed : ∀ a ∈ s.closed, ∃ d ∈ start.dentries, d.addr = a

namespace OpenRun.Ok

variable {fs : CachingLookup} {root : Option Nat} {start : State}
  {s t : OpenRun}

/-- A live dentry was there at the start. -/
theorem live_start (h : s.Ok start) {addr : Nat}
    (hlive : ∃ d ∈ s.tables.dentries, d.addr = addr) :
    ∃ d ∈ start.dentries, d.addr = addr := by
  obtain ⟨e, he, haddr⟩ := hlive
  rw [h.dentries] at he
  obtain ⟨d, hd, -, rfl⟩ := mem_leftOver.mp he
  exact ⟨d, hd, haddr⟩

theorem init (hcached : Cached start) : OpenRun.Ok ⟨start, [], 0, []⟩ start where
  dentries := by
    have hall : ∀ d ∈ start.dentries, d.after 0 = some d := by
      intro d hd
      have hpos := hcached.pos d hd
      simp [Dentry.after, hpos]
    show start.dentries = start.dentries.filterMap fun d => d.after 0
    rw [List.filterMap_congr hall, List.filterMap_some]
  files := by simp
  closed := by simp

theorem openFile (h : s.Ok start) {pathname : List UInt8} {kmalloc : Bool}
    {ret : Int} (hstep : openStep fs root s (.open pathname kmalloc ret) =
      some t) : t.Ok start := by
  obtain ⟨file, hopen, ht⟩ := Option.map_eq_some_iff.mp hstep
  cases file with
  | none =>
      obtain rfl : s = t := ht
      exact h
  | some addr =>
      subst ht
      refine ⟨h.dentries, fun f hf => ?_, h.closed⟩
      rcases List.mem_append.mp hf with hf | hf
      · exact h.files f hf
      · rw [List.mem_singleton.mp hf]
        exact h.live_start (vfsOpen_live hopen)

theorem closeFile (h : s.Ok start) (hcached : Cached start) {number : Nat}
    (hstep : openStep fs root s (.close number) = some t) : t.Ok start := by
  obtain ⟨f, hfind, hclose⟩ := Option.bind_eq_some_iff.mp hstep
  obtain ⟨tables, htables, rfl⟩ := Option.map_eq_some_iff.mp hclose
  obtain ⟨e, he, rfl⟩ := Option.map_eq_some_iff.mp htables
  obtain ⟨hmem, haddr⟩ := s.tables.dentryAt_eq_some he
  have hf := List.mem_of_find?_eq_some hfind
  refine ⟨?_, fun g hg => h.files g (List.mem_of_mem_filter hg), fun a ha => ?_⟩
  · rw [h.dentries] at hmem
    obtain ⟨d, hd, hlt, hed⟩ := mem_leftOver.mp hmem
    have hdaddr : d.addr = f.fDentry := by
      rw [← haddr, hed]
    have hleft : e.refcount = d.refcount - s.closed.count d.addr := by
      rw [hed]
    have hone : ∀ d' ∈ start.dentries, d'.addr = f.fDentry →
        d'.refcount - s.closed.count f.fDentry = e.refcount := by
      intro d' hd' haddr'
      have hsame : d' = d := List.inj_on_of_nodup_map hcached.addrs hd' hd
        (haddr'.trans hdaddr.symm)
      rw [hsame, hleft, hdaddr]
    have hfits := hcached.fits d hd
    show (vfsPutDentry s.tables e).dentries = _
    rw [vfsPutDentry_dentries (by omega) (by omega), h.dentries, haddr]
    split
    next hgt => exact (leftOver_concat_of_gt hgt hone).symm
    next hle =>
      refine (leftOver_concat_of_last fun d' hd' haddr' => ?_).symm
      rw [hone d' hd' haddr']
      omega
  · rcases List.mem_append.mp ha with ha | ha
    · exact h.closed a ha
    · rw [List.mem_singleton.mp ha]
      exact h.files f hf

/-- A file's dentry is live as long as fewer files with it were closed than it
had references at the start. -/
theorem dentriesAlive_iff (h : s.Ok start) (hcached : Cached start) :
    s.DentriesAlive ↔
      ∀ f ∈ s.files, ∀ d ∈ start.dentries, d.addr = f.fDentry →
        s.closed.count d.addr < d.refcount := by
  unfold OpenRun.DentriesAlive
  rw [h.dentries]
  constructor
  · intro halive f hf d hd haddr
    obtain ⟨e, he, headdr⟩ := halive f hf
    obtain ⟨d', hd', hlt, rfl⟩ := mem_leftOver.mp he
    have hsame : d = d' := List.inj_on_of_nodup_map hcached.addrs hd hd'
      (haddr.trans headdr.symm)
    rw [hsame]
    exact hlt
  · intro hfew f hf
    obtain ⟨d, hd, haddr⟩ := h.files f hf
    exact ⟨_, mem_leftOver.mpr ⟨d, hd, hfew f hf d hd haddr, rfl⟩, haddr⟩

/-- Only a close changes a refcount, and nothing gives the reference back. -/
theorem sameRefcounts_iff (h : s.Ok start) (hcached : Cached start) :
    s.SameRefcounts start ↔ s.closed = [] := by
  unfold OpenRun.SameRefcounts
  rw [h.dentries]
  constructor
  · intro hsame
    by_contra hclosed
    obtain ⟨a, ha⟩ := List.exists_mem_of_ne_nil _ hclosed
    obtain ⟨d, hd, haddr⟩ := h.closed a ha
    obtain ⟨e, he, headdr, hrefcount⟩ := hsame d hd
    obtain ⟨d', hd', -, rfl⟩ := mem_leftOver.mp he
    -- the one dentry with this address has lost a reference
    have hone : d' = d := List.inj_on_of_nodup_map hcached.addrs hd' hd headdr
    have hcount : 0 < s.closed.count a := List.count_pos_iff.mpr ha
    simp only [hone, haddr] at hrefcount
    omega
  · intro hclosed d hd
    have hpos := hcached.pos d hd
    refine ⟨d, mem_leftOver.mpr ⟨d, hd, ?_, ?_⟩, rfl, rfl⟩
    · simpa [hclosed] using hpos
    · simp [hclosed]

end OpenRun.Ok

theorem reachable_openRun_ok {fs : CachingLookup} {root : Option Nat}
    {start : State} (hcached : Cached start) {s : OpenRun}
    (hreach : (openSystem fs root start).Reachable s) : s.Ok start := by
  refine hreach.invariant (P := fun s => s.Ok start) ?_ ?_
  · intro s hinit
    obtain rfl : s = ⟨start, [], 0, []⟩ := hinit
    exact .init hcached
  · intro s a t _ hok hstep
    change openStep fs root s a = some t at hstep
    cases a with
    | «open» pathname kmalloc ret => exact hok.openFile hstep
    | close number => exact hok.closeFile hcached hstep

/-- In every run of opens and closes: the dentries of the open files are live
if and only if of each of them fewer files were closed than it had references
at the start; the refcounts are what they were if and only if no file was
closed; and an open that fails changes nothing. -/
theorem open_files_iff {fs : CachingLookup} {root : Option Nat}
    {start : State} (hcached : Cached start) {s : OpenRun}
    (hreach : (openSystem fs root start).Reachable s) :
    (s.DentriesAlive ↔
      ∀ f ∈ s.files, ∀ d ∈ start.dentries, d.addr = f.fDentry →
        s.closed.count d.addr < d.refcount) ∧
    (s.SameRefcounts start ↔ s.closed = []) ∧
    ∀ pathname kmalloc ret,
      vfsOpen fs root s.tables pathname kmalloc ret = some none →
      openStep fs root s (.open pathname kmalloc ret) = some s := by
  have hok := reachable_openRun_ok hcached hreach
  refine ⟨hok.dentriesAlive_iff hcached, hok.sameRefcounts_iff hcached, ?_⟩
  intro pathname kmalloc ret hfailed
  show (vfsOpen fs root s.tables pathname kmalloc ret).map _ = some s
  rw [hfailed]
  rfl

/-! ## One file -/

/-- A lookup by name in the cache. -/
def byName : CachingLookup where
  lookup s _ name := (s.dentries.find? fun d => d.name = name).map Dentry.addr
  cached := by
    intro s dir name addr hfound
    obtain ⟨d, hd, haddr⟩ := Option.map_eq_some_iff.mp hfound
    exact ⟨d, List.mem_of_find?_eq_some hd, haddr⟩

/-- A root directory, and a file `a` in slot 1 with the dentry at address 1. -/
def oneFile : State :=
  let s := (vfsNewInode emptyTables 0 0o040755 false).1
  let s := (vfsNewDentry s slash 0 true 0).1
  let s := (vfsNewInode s 0 0o100644 false).1
  (vfsNewDentry s [97] 1 true 1).1

theorem oneFile_cached : Cached oneFile := by
  constructor <;> decide

/-- The file is opened and not closed. -/
theorem open_files_opened_once :
    ∃ s, (openSystem byName (some 0) oneFile).run ⟨oneFile, [], 0, []⟩
        [.open [47, 97] true 0] = some s ∧
      s.files.map File.fDentry = [1] ∧ s.DentriesAlive ∧
      s.SameRefcounts oneFile := by
  have hstart : (openSystem byName (some 0) oneFile).Reachable
      ⟨oneFile, [], 0, []⟩ := .start rfl
  have hreach := hstart.run
    (show (openSystem byName (some 0) oneFile).run _
      [.open [47, 97] true 0] = some _ from rfl)
  obtain ⟨halive, hsame, -⟩ := open_files_iff oneFile_cached hreach
  exact ⟨_, rfl, rfl, halive.mpr (by decide), hsame.mpr rfl⟩

/-- The file is opened twice and closed once: the dentry of the file that is
still open is freed.  Opened once and closed, its dentry is gone as well. -/
theorem dentry_freed_while_open :
    (∃ s, (openSystem byName (some 0) oneFile).run ⟨oneFile, [], 0, []⟩
        [.open [47, 97] true 0, .open [47, 97] true 0,
          .close 0] = some s ∧
      s.files.map File.fDentry = [1] ∧ ¬ s.DentriesAlive) ∧
    ∃ s, (openSystem byName (some 0) oneFile).run ⟨oneFile, [], 0, []⟩
        [.open [47, 97] true 0, .close 0] = some s ∧
      s.files.length = 0 ∧ ¬ s.SameRefcounts oneFile := by
  refine ⟨⟨_, rfl, rfl, ?_⟩, _, rfl, rfl, ?_⟩
  · unfold OpenRun.DentriesAlive
    decide
  · unfold OpenRun.SameRefcounts
    decide

end Vfs
end OsKernel

import OsKernel.Vfs.OpenFiles

/-!
# The chains of the dentry hash table

`vfs_new_dentry` stores at most 255 bytes of the name it is given, and puts the
dentry on the chain of the whole name.  A live dentry is always on exactly one
chain; it is the chain of the name it stores when the bytes that are cut off do
not change the hash.

The runs are those of the calls that make and put inodes and dentries, on any
inode slots.  `called` is a ghost: the name a dentry was made with, by the
dentry's address.
-/

namespace OsKernel
namespace Vfs

open Lib

/-- The VFS, and the names `vfs_new_dentry` was called with. -/
structure NamedState where
  vfs : State
  called : Nat → List UInt8

inductive DentryAction
  | newInode (sb mode : Nat) (evictInode : Bool)
  | putInode (slot : Nat)
  | newDentry (name : List UInt8) (slot : Nat) (alloc : Bool)
  | putDentry (addr : Nat)

/-- One call.  A dentry that is put is live. -/
def namedStep (st : NamedState) : DentryAction → Option NamedState
  | .newInode sb mode evictInode =>
      some { st with vfs := (vfsNewInode st.vfs sb mode evictInode).1 }
  | .putInode slot => some { st with vfs := vfsPutInode st.vfs slot }
  | .newDentry name slot alloc =>
      some
        { vfs := (vfsNewDentry st.vfs name slot alloc
            (st.vfs.ledger.owner slot)).1
          called :=
            if alloc then Function.update st.called st.vfs.nextAddr name
            else st.called }
  | .putDentry addr =>
      (st.vfs.dentries.find? fun d => d.addr = addr).map fun d =>
        { st with vfs := vfsPutDentry st.vfs d }

/-- The runs after `vfs_init`. -/
def namedSystem : ActionSystem NamedState DentryAction where
  init st := Initial st.vfs
  step := namedStep

/-- The dentries on the chain of a name that store this name. -/
def State.searchChain (s : State) (name : List UInt8) : List Nat :=
  (s.dentryHashtable (hashDentry name)).filter fun addr =>
    s.dentries.any fun d => d.addr = addr ∧ d.name = name

/-- Every live dentry is on the chain of the name it stores and on no other, so
that a search for that name finds it. -/
structure HashConsistent (s : State) : Prop where
  chain : ∀ d ∈ s.dentries, ∀ h, (s.dentryHashtable h).count d.addr =
    if h = hashDentry d.name then 1 else 0
  found : ∀ d ∈ s.dentries, d.addr ∈ s.searchChain d.name

/-- The addresses and the names of the live dentries. -/
def State.labels (s : State) : List (Nat × List UInt8) :=
  s.dentries.map fun d => (d.addr, d.name)

/-! ## What a call does -/

/-- A call that leaves the chains and the names as they are. -/
structure SameLabels (s s' : State) : Prop where
  labels : s'.labels = s.labels
  hashtable : s'.dentryHashtable = s.dentryHashtable
  nextAddr : s'.nextAddr = s.nextAddr

/-- A call that makes a dentry. -/
structure Labelled (s s' : State) (name : List UInt8) : Prop where
  labels : s'.labels = s.labels ++ [(s.nextAddr, name.take 255)]
  hashtable : s'.dentryHashtable = Function.update s.dentryHashtable
    (hashDentry name) (s.dentryHashtable (hashDentry name) ++ [s.nextAddr])
  nextAddr : s'.nextAddr = s.nextAddr + 1

/-- A call that frees a dentry. -/
structure Unlabelled (s s' : State) (addr : Nat) : Prop where
  labels : s'.labels = s.labels.filter fun e => e.1 != addr
  hashtable : ∀ h, s'.dentryHashtable h =
    (s.dentryHashtable h).filter fun a => a != addr
  nextAddr : s'.nextAddr = s.nextAddr

theorem vfsPutInode_sameLabels (s : State) (slot : Nat) :
    SameLabels s (vfsPutInode s slot) := by
  simp only [vfsPutInode]
  split
  · exact ⟨rfl, rfl, rfl⟩
  · exact ⟨rfl, rfl, rfl⟩

theorem vfsNewInode_sameLabels (s : State) (sb mode : Nat)
    (evictInode : Bool) :
    SameLabels s (vfsNewInode s sb mode evictInode).1 := by
  rcases vfsNewInode_spec s sb mode evictInode with
    ⟨-, hsame⟩ | ⟨slot, -, hplaced⟩
  · rw [hsame]
    exact ⟨rfl, rfl, rfl⟩
  · refine ⟨?_, hplaced.hashtable, hplaced.nextAddr⟩
    rw [State.labels, hplaced.dentries, State.labels]

theorem vfsNewDentry_labelled (s : State) (name : List UInt8)
    (slot object : Nat) :
    Labelled s (vfsNewDentry s name slot true object).1 name :=
  ⟨List.map_append, rfl, rfl⟩

/-- A put takes one reference of the dentry, or frees it. -/
theorem vfsPutDentry_cases (s : State) (d : Dentry) :
    SameLabels s (vfsPutDentry s d) ∨ Unlabelled s (vfsPutDentry s d) d.addr := by
  simp only [vfsPutDentry]
  split
  · left
    refine ⟨?_, rfl, rfl⟩
    simp only [State.labels, List.map_map]
    refine List.map_congr_left fun e _ => ?_
    simp only [Function.comp_apply]
    split
    · rfl
    · rfl
  · right
    have hput := vfsPutInode_sameLabels
      (atomicDec (s.forget d.addr) d.inode) d.inode
    refine ⟨?_, fun h => ?_, hput.nextAddr⟩
    · rw [hput.labels, State.labels, State.labels, List.filter_map]
      rfl
    · rw [hput.hashtable]
      rfl

/-- The new dentry is one more on the chain of its name. -/
theorem Labelled.count {s s' : State} {name : List UInt8}
    (hnew : Labelled s s' name) (h a : Nat) :
    (s'.dentryHashtable h).count a = (s.dentryHashtable h).count a +
      if h = hashDentry name ∧ a = s.nextAddr then 1 else 0 := by
  rw [hnew.hashtable]
  by_cases hh : h = hashDentry name
  · subst hh
    rw [Function.update_self, List.count_append, List.count_singleton]
    simp only [beq_iff_eq, true_and, eq_comm (a := a)]
  · rw [Function.update_of_ne hh, if_neg fun hboth => hh hboth.1, Nat.add_zero]

theorem namedStep_cases {st st' : NamedState} {a : DentryAction}
    (h : namedStep st a = some st') :
    (SameLabels st.vfs st'.vfs ∧ st'.called = st.called) ∨
    (∃ name, Labelled st.vfs st'.vfs name ∧
      st'.called = Function.update st.called st.vfs.nextAddr name) ∨
    (∃ addr, Unlabelled st.vfs st'.vfs addr ∧ st'.called = st.called) := by
  cases a with
  | newInode sb mode evictInode =>
      cases h
      exact .inl ⟨vfsNewInode_sameLabels _ _ _ _, rfl⟩
  | putInode slot =>
      cases h
      exact .inl ⟨vfsPutInode_sameLabels _ _, rfl⟩
  | newDentry name slot alloc =>
      cases h
      cases alloc with
      | false => exact .inl ⟨⟨rfl, rfl, rfl⟩, rfl⟩
      | true => exact .inr (.inl ⟨name, vfsNewDentry_labelled _ _ _ _, rfl⟩)
  | putDentry addr =>
      obtain ⟨d, -, rfl⟩ := Option.map_eq_some_iff.mp h
      rcases vfsPutDentry_cases st.vfs d with hsame | hfreed
      · exact .inl ⟨hsame, rfl⟩
      · exact .inr (.inr ⟨d.addr, hfreed, rfl⟩)

/-! ## The invariant -/

/-- A live dentry stores the start of the name it was made with, and is on the
chain of that name only. -/
structure HashOk (st : NamedState) : Prop where
  fresh : ∀ e ∈ st.vfs.labels, e.1 < st.vfs.nextAddr
  bound : ∀ h, ∀ a ∈ st.vfs.dentryHashtable h, a < st.vfs.nextAddr
  stored : ∀ e ∈ st.vfs.labels, e.2 = (st.called e.1).take 255
  chain : ∀ e ∈ st.vfs.labels, ∀ h,
    (st.vfs.dentryHashtable h).count e.1 =
      if h = hashDentry (st.called e.1) then 1 else 0

namespace HashOk

variable {st st' : NamedState}

theorem initial (h : Initial st.vfs) : HashOk st := by
  have hlabels : st.vfs.labels = [] := by
    rw [State.labels, h.dentries]
    rfl
  constructor
  · rw [hlabels]
    exact List.forall_mem_nil _
  · intro bucket a ha
    rw [h.hashtable] at ha
    exact absurd ha List.not_mem_nil
  · rw [hlabels]
    exact List.forall_mem_nil _
  · rw [hlabels]
    exact List.forall_mem_nil _

theorem sameLabels (h : HashOk st) (hsame : SameLabels st.vfs st'.vfs)
    (hcalled : st'.called = st.called) : HashOk st' := by
  constructor
  · rw [hsame.labels, hsame.nextAddr]
    exact h.fresh
  · rw [hsame.hashtable, hsame.nextAddr]
    exact h.bound
  · rw [hsame.labels, hcalled]
    exact h.stored
  · rw [hsame.labels, hsame.hashtable, hcalled]
    exact h.chain

/-- A new address is on no chain. -/
theorem count_nextAddr (h : HashOk st) (bucket : Nat) :
    (st.vfs.dentryHashtable bucket).count st.vfs.nextAddr = 0 :=
  List.count_eq_zero.mpr fun hmem =>
    absurd (h.bound bucket _ hmem) (Nat.lt_irrefl _)

theorem labelled (h : HashOk st) {name : List UInt8}
    (hnew : Labelled st.vfs st'.vfs name)
    (hcalled : st'.called =
      Function.update st.called st.vfs.nextAddr name) : HashOk st' := by
  -- the address of the new dentry is not that of a live one
  have hapart : ∀ e ∈ st.vfs.labels, e.1 ≠ st.vfs.nextAddr :=
    fun e he => Nat.ne_of_lt (h.fresh e he)
  have hold : ∀ e ∈ st.vfs.labels, st'.called e.1 = st.called e.1 := by
    intro e he
    rw [hcalled, Function.update_of_ne (hapart e he)]
  have hself : st'.called st.vfs.nextAddr = name := by
    rw [hcalled, Function.update_self]
  constructor
  · rw [hnew.labels, hnew.nextAddr, List.forall_mem_append,
      List.forall_mem_singleton]
    exact ⟨fun e he => Nat.lt_succ_of_lt (h.fresh e he), Nat.lt_succ_self _⟩
  · intro bucket a ha
    rw [hnew.nextAddr]
    by_contra hge
    have hnone : (st.vfs.dentryHashtable bucket).count a = 0 :=
      List.count_eq_zero.mpr fun hmem =>
        hge (Nat.lt_succ_of_lt (h.bound bucket a hmem))
    have hne : a ≠ st.vfs.nextAddr := by omega
    have hcount := List.count_pos_iff.mpr ha
    rw [hnew.count, hnone, if_neg fun hboth => hne hboth.2] at hcount
    exact Nat.lt_irrefl 0 hcount
  · rw [hnew.labels, List.forall_mem_append, List.forall_mem_singleton]
    refine ⟨fun e he => ?_, ?_⟩
    · rw [hold e he]
      exact h.stored e he
    · rw [hself]
  · rw [hnew.labels, List.forall_mem_append, List.forall_mem_singleton]
    refine ⟨fun e he bucket => ?_, fun bucket => ?_⟩
    · rw [hnew.count, if_neg fun hboth => hapart e he hboth.2, Nat.add_zero,
        hold e he]
      exact h.chain e he bucket
    · rw [hnew.count, h.count_nextAddr, Nat.zero_add, hself]
      simp only [and_true]

theorem unlabelled (h : HashOk st) {addr : Nat}
    (hfreed : Unlabelled st.vfs st'.vfs addr)
    (hcalled : st'.called = st.called) : HashOk st' := by
  have hleft : ∀ e ∈ st'.vfs.labels, e ∈ st.vfs.labels ∧ e.1 ≠ addr := by
    intro e he
    rw [hfreed.labels] at he
    obtain ⟨hmem, hne⟩ := List.mem_filter.mp he
    exact ⟨hmem, bne_iff_ne.mp hne⟩
  constructor
  · intro e he
    rw [hfreed.nextAddr]
    exact h.fresh e (hleft e he).1
  · intro bucket a ha
    rw [hfreed.hashtable] at ha
    rw [hfreed.nextAddr]
    exact h.bound bucket a (List.mem_of_mem_filter ha)
  · intro e he
    rw [hcalled]
    exact h.stored e (hleft e he).1
  · intro e he bucket
    obtain ⟨hmem, hne⟩ := hleft e he
    have hkept : ((st.vfs.dentryHashtable bucket).filter
        fun a => a != addr).count e.1 =
          (st.vfs.dentryHashtable bucket).count e.1 :=
      List.count_filter (bne_iff_ne.mpr hne)
    rw [hfreed.hashtable, hkept, hcalled]
    exact h.chain e hmem bucket

theorem step (h : HashOk st) {a : DentryAction}
    (hstep : namedStep st a = some st') : HashOk st' := by
  rcases namedStep_cases hstep with ⟨hsame, hcalled⟩ |
    ⟨name, hnew, hcalled⟩ | ⟨addr, hfreed, hcalled⟩
  · exact h.sameLabels hsame hcalled
  · exact h.labelled hnew hcalled
  · exact h.unlabelled hfreed hcalled

end HashOk

theorem reachable_hashOk {st : NamedState} (hreach : namedSystem.Reachable st) :
    HashOk st :=
  hreach.invariant (fun _ hinit => .initial hinit)
    (fun _ _ _ _ hok hstep => hok.step hstep)

/-! ## The chains of the stored names -/

section
variable {st : NamedState} {d : Dentry}

theorem HashOk.name_eq (h : HashOk st) (hd : d ∈ st.vfs.dentries) :
    d.name = (st.called d.addr).take 255 :=
  h.stored (d.addr, d.name) (List.mem_map_of_mem hd)

theorem HashOk.count_eq (h : HashOk st) (hd : d ∈ st.vfs.dentries)
    (bucket : Nat) :
    (st.vfs.dentryHashtable bucket).count d.addr =
      if bucket = hashDentry (st.called d.addr) then 1 else 0 :=
  h.chain (d.addr, d.name) (List.mem_map_of_mem hd) bucket

/-- The chain that is searched is the one the dentry is on, if the part of the
name that is stored has the hash of the whole. -/
theorem HashOk.consistent_iff (h : HashOk st) :
    HashConsistent st.vfs ↔ ∀ d ∈ st.vfs.dentries,
      hashDentry ((st.called d.addr).take 255) =
        hashDentry (st.called d.addr) := by
  constructor
  · intro hconsistent d hd
    by_contra hne
    have hcount := hconsistent.chain d hd (hashDentry d.name)
    rw [h.count_eq hd, if_pos rfl, h.name_eq hd, if_neg hne] at hcount
    exact absurd hcount (by decide)
  · intro hsame
    have hchain : ∀ d ∈ st.vfs.dentries, ∀ bucket,
        (st.vfs.dentryHashtable bucket).count d.addr =
          if bucket = hashDentry d.name then 1 else 0 := by
      intro d hd bucket
      rw [h.count_eq hd, h.name_eq hd, hsame d hd]
    refine ⟨hchain, fun d hd => ?_⟩
    refine List.mem_filter.mpr ⟨List.count_pos_iff.mp ?_,
      List.any_eq_true.mpr ⟨d, hd, decide_eq_true ⟨rfl, rfl⟩⟩⟩
    rw [hchain d hd, if_pos rfl]
    exact Nat.one_pos

end

/-- In every run, a live dentry is on exactly one chain, that of the name it was
made with.  It is the chain of the name it stores exactly when cutting the name
to 255 bytes does not change its hash; so for all names of at most 255 bytes. -/
theorem hashConsistent_iff {st : NamedState}
    (hreach : namedSystem.Reachable st) :
    (∀ d ∈ st.vfs.dentries, ∀ h, (st.vfs.dentryHashtable h).count d.addr =
      if h = hashDentry (st.called d.addr) then 1 else 0) ∧
    (HashConsistent st.vfs ↔ ∀ d ∈ st.vfs.dentries,
      hashDentry ((st.called d.addr).take 255) =
        hashDentry (st.called d.addr)) ∧
    ((∀ d ∈ st.vfs.dentries, (st.called d.addr).length ≤ 255) →
      HashConsistent st.vfs) := by
  have hok := reachable_hashOk hreach
  refine ⟨fun d hd => hok.count_eq hd, hok.consistent_iff, fun hshort => ?_⟩
  refine hok.consistent_iff.mpr fun d hd => ?_
  rw [List.take_of_length_le (hshort d hd)]

/-- Two files, of which one is put again. -/
theorem hashConsistent_iff_twoFiles :
    ∃ st, namedSystem.run ⟨emptyTables, fun _ => []⟩
        [.newInode 0 0 false, .newDentry [97] 0 true, .newDentry [98] 0 true,
          .putDentry 0] = some st ∧
      st.vfs.dentries.map Dentry.name = [[98]] ∧ HashConsistent st.vfs := by
  have hstart : namedSystem.Reachable ⟨emptyTables, fun _ => []⟩ :=
    .start emptyTables_initial
  have hreach := hstart.run (show namedSystem.run _
    [.newInode 0 0 false, .newDentry [97] 0 true, .newDentry [98] 0 true,
      .putDentry 0] = some _ from rfl)
  exact ⟨_, rfl, rfl, (hashConsistent_iff hreach).2.2 (by decide)⟩

/-- A name of 256 times the letter `a`: its first 255 bytes have another hash,
and the chain of the stored name is empty. -/
theorem hashConsistent_fails :
    ∃ st, namedSystem.run ⟨emptyTables, fun _ => []⟩
        [.newInode 0 0 false, .newDentry (List.replicate 256 97) 0 true] =
          some st ∧
      ¬ HashConsistent st.vfs := by
  refine ⟨_, rfl, fun h => ?_⟩
  have hchain := h.found ⟨0, (List.replicate 256 97).take 255, 0, 1, 0⟩
    (List.mem_singleton.mpr rfl)
  revert hchain
  decide +kernel

end Vfs
end OsKernel
